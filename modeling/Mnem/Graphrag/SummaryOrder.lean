/-
# Graphrag.SummaryOrder — a summary and the order of its sentences

The sentences are sorted by a key that their text decides, so permuting them
only moves copies of one text with different centralities.

* The picked indices are distinct, and `min k n` of them (`picks_law`).
* The summary does not depend on the order of the sentences exactly if no text
  has a copy with an infinite centrality and one with another
  (`summary_order_iff`): an infinite share of an infinite greatest centrality is
  undefined, and a copy with an undefined score is picked in the first round
  that starts with it.
-/
import Mathlib.Tactic.NormNum
import Mathlib.Tactic.Positivity
import Mnem.Graphrag.Summarize

namespace Mnem.Graphrag

open Theory

set_option autoImplicit false
set_option linter.unusedSectionVars false

/-! ## Scores in canonical order -/

section Scores

variable {K D ε : Type} [Field K] [LinearOrder K] [IsStrictOrderedRing K] [LinearOrder D]
  {hash : String → D} {root : K → K}

/-- The sentences with their centralities. -/
def weighted (sentences : List String) (centrality : Nat → Number K) :
    List (String × Number K) :=
  (List.range sentences.length).map fun i => (sentences.getD i "", centrality i)

/-- The same, in canonical order. -/
def canonical (hash : String → D) (sentences : List String) (centrality : Nat → Number K) :
    List (String × Number K) :=
  (canonicalOrder hash sentences).map fun i => (sentences.getD i "", centrality i)

theorem canonical_perm (hash : String → D) (sentences : List String) (centrality : Nat → Number K) :
    (canonical hash sentences centrality).Perm (weighted sentences centrality) :=
  (List.perm_insertionSort _ _).map _

theorem canonical_sorted (hash : String → D) (sentences : List String) (centrality : Nat → Number K) :
    (canonical hash sentences centrality).Pairwise fun a b =>
      canonicalKey hash a.1 ≤ canonicalKey hash b.1 := by
  have total : Std.Total fun a b : Nat =>
      canonicalKey hash (sentences.getD a "") ≤ canonicalKey hash (sentences.getD b "") :=
    ⟨fun _ _ => le_total _ _⟩
  have trans : IsTrans Nat fun a b =>
      canonicalKey hash (sentences.getD a "") ≤ canonicalKey hash (sentences.getD b "") :=
    ⟨fun _ _ _ => le_trans⟩
  exact List.Pairwise.map _ (fun _ _ h => h) (List.pairwise_insertionSort (fun a b : Nat =>
    canonicalKey hash (sentences.getD a "") ≤ canonicalKey hash (sentences.getD b "")) _)

/-- The texts in canonical order do not depend on the order of the sentences. -/
theorem canonical_texts {sentences sentences' : List String} {centrality centrality' : Nat → Number K}
    (perm : (weighted sentences centrality).Perm (weighted sentences' centrality')) :
    (canonical hash sentences centrality).map Prod.fst =
      (canonical hash sentences' centrality').map Prod.fst := by
  have same := ((canonical_perm hash sentences centrality).trans
    (perm.trans (canonical_perm hash sentences' centrality').symm)).map Prod.fst
  have sorted : ∀ (ss : List String) (c : Nat → Number K),
      ((canonical hash ss c).map Prod.fst).Pairwise fun s t =>
        canonicalKey hash s ≤ canonicalKey hash t := fun ss c =>
    List.Pairwise.map _ (fun _ _ h => h) (canonical_sorted hash ss c)
  exact same.eq_of_pairwise (fun s t _ _ => text_of_canonicalKey) (sorted _ _) (sorted _ _)

theorem maxCentrality_perm {as bs : List (Number K)} (perm : as.Perm bs) :
    maxCentrality as = maxCentrality bs := by
  have swap : ∀ x ∈ as, ∀ y ∈ as, ∀ z : Number K,
      (z.larger x).larger y = (z.larger y).larger x := by
    intro x _ y _ z
    rw [Number.larger_assoc, Number.larger_comm x y, ← Number.larger_assoc]
  unfold maxCentrality
  rw [perm.foldl_eq' swap]

/-- The embedding of a text, when there is one. -/
def embedded (embed : String → Except ε (List (Number K))) (text : String) : List (Number K) :=
  (embed text).toOption.getD []

theorem embedAll_eq {embed : String → Except ε (List (Number K))} {dim : Nat}
    {query : Option (List (Number K))} {texts : List String} {embeds : List (List (Number K))}
    (ran : embedAll embed dim query texts = .ok embeds) : embeds = texts.map (embedded embed) := by
  obtain ⟨found, batch, ran⟩ := Exec.bind_eq_ok.mp ran
  have same : found = embeds := by
    cases query with
    | none => exact Except.ok.inj ran
    | some q =>
        simp only at ran
        split at ran
        · cases ran
        · exact Except.ok.inj ran
  have each := Exec.forall₂_of_mapM (Exec.mapError_eq_ok.mp batch)
  have mapped : List.Forall₂ (fun t v => embedded embed t = v) texts found :=
    each.imp fun t v here => by rw [embedded, here]; rfl
  rw [← same, ← List.forall₂_eq_eq_eq (α := List (Number K)), List.forall₂_map_right_iff]
  exact mapped.flip.imp fun _ _ h => h.symm

/-- The entry of a sentence. -/
def entryOf (root : K → K) (E : String → List (Number K)) (query : Option (List (Number K)))
    (centroid : List (Number K)) (greatest : Number K) (a : String × Number K) : Scored K :=
  ⟨a.1, E a.1, baseScore root query centroid (E a.1) (a.2.larger (.finite 0)) greatest⟩

/-- The entries of the sentences, with what their centralities are divided by. -/
def entries (hash : String → D) (root : K → K) (E : String → List (Number K))
    (query : Option (List (Number K))) (centroid : List (Number K)) (sentences : List String)
    (centrality : Nat → Number K) : List (Scored K) :=
  (canonical hash sentences centrality).map (entryOf root E query centroid
    (maxCentrality ((canonical hash sentences centrality).map fun a => a.2.larger (.finite 0))))

/-- The entries in canonical order, once the texts are embedded. -/
theorem scoreAll_eq (embed : String → Except ε (List (Number K))) (dim : Nat)
    (sentences : List String) (query : Option (List (Number K))) (centrality : Nat → Number K) :
    scoreAll hash root embed dim sentences query centrality =
      (embedAll embed dim query ((canonical hash sentences centrality).map Prod.fst)).map
        fun embeds => entries hash root (embedded embed) query (centroidOf dim embeds) sentences
          centrality := by
  have texts : (canonical hash sentences centrality).map Prod.fst =
      (canonicalOrder hash sentences).map fun i => sentences.getD i "" := List.map_map
  rw [texts]
  change (embedAll embed dim query
    ((canonicalOrder hash sentences).map fun i => sentences.getD i "") >>= _) = _
  cases ran : embedAll embed dim query
      ((canonicalOrder hash sentences).map fun i => sentences.getD i "") with
  | error e => rfl
  | ok embeds =>
      show Except.ok _ = Except.ok _
      rw [embedAll_eq ran]
      unfold entries canonical
      simp only [List.map_map, List.zip_map']
      rfl

/-! ## Evenness -/

/-- A text with an infinite centrality has no other. -/
def Steady (sentences : List String) (centrality : Nat → Number K) : Prop :=
  ∀ a ∈ weighted sentences centrality, ∀ b ∈ weighted sentences centrality, a.1 = b.1 →
    (a.2 = .infinity ↔ b.2 = .infinity)

theorem larger_zero_cases (c : Number K) :
    (c = .infinity ∧ c.larger (.finite 0) = .infinity) ∨
      (c ≠ .infinity ∧ ∃ x, 0 ≤ x ∧ c.larger (.finite 0) = .finite x) := by
  cases c with
  | undefined => exact .inr ⟨nofun, 0, le_rfl, rfl⟩
  | negInfinity => exact .inr ⟨nofun, 0, le_rfl, rfl⟩
  | finite x => exact .inr ⟨nofun, max x 0, le_max_right x 0, rfl⟩
  | infinity => exact .inl ⟨rfl, rfl⟩

theorem foldl_larger_of_mem : ∀ {cs : List (Number K)} (s : Number K), .infinity ∈ cs →
    cs.foldl Number.larger s = .infinity
  | c :: cs, s, m => by
      rw [List.foldl_cons]
      rcases List.mem_cons.mp m with rfl | later
      · rw [Number.larger_comm, Number.larger_infinity]
        exact List.foldl_fixed' Number.larger_infinity cs
      · exact foldl_larger_of_mem _ later

theorem foldl_larger_cases : ∀ (cs : List (Number K)) (z : K),
    (∀ c ∈ cs, c = .infinity ∨ ∃ x, c = .finite x) →
    cs.foldl Number.larger (.finite z) = .infinity ∨
      ∃ x, cs.foldl Number.larger (.finite z) = .finite x
  | [], z, _ => .inr ⟨z, rfl⟩
  | c :: cs, z, each => by
      obtain ⟨here, later⟩ := List.forall_mem_cons.mp each
      rcases here with rfl | ⟨x, rfl⟩
      · exact .inl (foldl_larger_of_mem _ List.mem_cons_self)
      · exact foldl_larger_cases cs (max z x) later

/-- A centrality's share of the greatest is a number, unless the centrality is infinite. -/
theorem share_cases {cs : List (Number K)} {c : Number K}
    (each : ∀ c ∈ cs, c = .infinity ∨ ∃ x, c = .finite x) (m : c ∈ cs) :
    (c = .infinity ∧ c.div (maxCentrality cs) = .undefined) ∨
      (c ≠ .infinity ∧ ∃ y, c.div (maxCentrality cs) = .finite y) := by
  unfold maxCentrality
  rcases each c m with rfl | ⟨x, rfl⟩
  · rw [foldl_larger_of_mem _ m]
    exact .inl ⟨rfl, rfl⟩
  · refine .inr ⟨nofun, ?_⟩
    rcases foldl_larger_cases cs 0 each with greatest | ⟨z, greatest⟩ <;> rw [greatest]
    · exact ⟨0, rfl⟩
    · have positive : max z epsilon ≠ 0 :=
        ne_of_gt ((by unfold epsilon; positivity : (0 : K) < epsilon).trans_le (le_max_right _ _))
      exact ⟨x / max z epsilon, if_neg positive⟩

/-- Whether a relevance is defined does not depend on a finite share. -/
theorem isDefined_worthOf_iff {lambda : Number K} (tame : (∃ l, lambda = .finite l) ∨ lambda = .undefined)
    (score : Number K) (y y' : K) :
    (((Number.finite 1).sub lambda).mul (score.add (.finite y))).IsDefined ↔
      (((Number.finite 1).sub lambda).mul (score.add (.finite y'))).IsDefined := by
  rcases tame with ⟨l, rfl⟩ | rfl
  · cases score <;> simp [Number.sub, Number.neg, Number.add, Number.mul]
  · exact Iff.rfl

/-- The entries of steady sentences are even. -/
theorem even_of_steady (hash : String → D) (root : K → K) {sentences : List String} {centrality : Nat → Number K}
    (steady : Steady sentences centrality) (E : String → List (Number K))
    (query : Option (List (Number K))) (centroid : List (Number K)) {lambda : Number K}
    (tame : (∃ l, lambda = .finite l) ∨ lambda = .undefined) :
    Even ((entries hash root E query centroid sentences centrality).map (worthOf lambda)) := by
  have clamped : ∀ c ∈ (canonical hash sentences centrality).map fun a => a.2.larger (.finite 0),
      c = .infinity ∨ ∃ x, c = .finite x := by
    intro c m
    obtain ⟨a, -, rfl⟩ := List.mem_map.mp m
    rcases larger_zero_cases a.2 with ⟨-, same⟩ | ⟨-, x, -, same⟩
    · exact .inl same
    · exact .inr ⟨x, same⟩
  -- the share of a sentence is undefined or a number, as its centrality is infinite or not
  have share : ∀ a ∈ canonical hash sentences centrality,
      (a.2 = .infinity ∧ ¬ (worthOf lambda (entryOf root E query centroid (maxCentrality
        ((canonical hash sentences centrality).map fun a => a.2.larger (.finite 0)))
          a)).2.IsDefined) ∨
      (a.2 ≠ .infinity ∧ ∃ y, (worthOf lambda (entryOf root E query centroid (maxCentrality
        ((canonical hash sentences centrality).map fun a => a.2.larger (.finite 0))) a)).2 =
          ((Number.finite 1).sub lambda).mul
            ((textScore root query centroid (E a.1)).add (.finite y))) := by
    intro a m
    have inClamped := List.mem_map_of_mem (f := fun a : String × Number K =>
      a.2.larger (.finite 0)) m
    rcases share_cases clamped inClamped with ⟨big, none⟩ | ⟨small, y, some⟩
    · refine .inl ⟨?_, ?_⟩
      · rcases larger_zero_cases a.2 with ⟨infinite, -⟩ | ⟨-, x, -, same⟩
        · exact infinite
        · exact absurd (same.symm.trans big) nofun
      · show ¬ (Number.mul _ (baseScore _ _ _ _ _ _)).IsDefined
        unfold baseScore
        rw [none]
        cases textScore root query centroid (E a.1) <;>
          cases (Number.finite 1).sub lambda <;> exact fun h => h rfl
    · refine .inr ⟨?_, (weights query).2.2 * y, ?_⟩
      · intro infinite
        rw [infinite] at small
        exact small rfl
      · show Number.mul _ (baseScore _ _ _ _ _ _) = _
        unfold baseScore
        rw [some]
        rfl
  intro a inA b inB same
  unfold entries at inA inB
  rw [List.map_map] at inA inB
  obtain ⟨u, inU, rfl⟩ := List.mem_map.mp inA
  obtain ⟨v, inV, rfl⟩ := List.mem_map.mp inB
  have together := steady u ((canonical_perm hash _ _).subset inU) v
    ((canonical_perm hash _ _).subset inV) same
  rcases share u inU with ⟨infinite, undefined⟩ | ⟨small, y, defined⟩ <;>
    rcases share v inV with ⟨infinite', undefined'⟩ | ⟨small', y', defined'⟩
  · exact iff_of_false undefined undefined'
  · exact absurd (together.mp infinite) small'
  · exact absurd (together.mpr infinite') small
  · have texts : u.1 = v.1 := same
    rw [Function.comp_apply, Function.comp_apply, defined, defined', texts]
    exact isDefined_worthOf_iff tame _ y y'

/-! ## Order independence -/

theorem entries_canonical (hash : String → D) (root : K → K) (E : String → List (Number K)) (query : Option (List (Number K)))
    (centroid : List (Number K)) (sentences : List String) (centrality : Nat → Number K) :
    Canonical hash E (entries hash root E query centroid sentences centrality) where
  sorted := List.Pairwise.map _ (fun _ _ h => h) (canonical_sorted hash sentences centrality)
  embedded := by
    intro s m
    obtain ⟨a, -, rfl⟩ := List.mem_map.mp m
    rfl

variable {sentences sentences' : List String} {centrality centrality' : Nat → Number K}

theorem entries_perm (hash : String → D) (root : K → K)
    (perm : (weighted sentences centrality).Perm (weighted sentences' centrality'))
    (E : String → List (Number K)) (query : Option (List (Number K)))
    (centroid : List (Number K)) :
    (entries hash root E query centroid sentences centrality).Perm
      (entries hash root E query centroid sentences' centrality') := by
  have same := (canonical_perm hash sentences centrality).trans
    (perm.trans (canonical_perm hash sentences' centrality').symm)
  unfold entries
  rw [maxCentrality_perm (same.map fun a => a.2.larger (.finite 0))]
  exact same.map _

theorem remaining_nil (lambda : Number K) (canon : List (Scored K)) :
    remaining lambda canon [] = canon.map (worthOf lambda) := by
  have first : canon.zipIdx.map Prod.fst = canon := List.zipIdx_map_fst 0 canon
  conv_rhs => rw [← first]
  unfold remaining
  rw [List.map_map, List.filter_eq_self.mpr fun e _ => by simp]
  rfl

theorem clamped_tame (mmrLambda : Number K) :
    (∃ l, mmrLambda.clamp (.finite 0) (.finite 1) = .finite l) ∨
      mmrLambda.clamp (.finite 0) (.finite 1) = .undefined := by
  rcases Number.clamp_cases zero_le_one mmrLambda with ⟨-, same⟩ | ⟨z, -, -, same⟩
  · exact .inr same
  · exact .inl ⟨z, same⟩

/-- **Order independence.**  Steady sentences have one summary in every order. -/
theorem summarize_perm (steady : Steady sentences centrality)
    (perm : (weighted sentences centrality).Perm (weighted sentences' centrality'))
    (embed : String → Except ε (List (Number K))) (dim : Nat) (query : Option (List (Number K)))
    (k : Nat) (mmrLambda : Number K) :
    summarizeCommunity hash root embed dim sentences query centrality k mmrLambda =
      summarizeCommunity hash root embed dim sentences' query centrality' k mmrLambda := by
  have long : sentences.length = sentences'.length := by
    simpa [weighted] using perm.length_eq
  have empty : sentences.isEmpty = sentences'.isEmpty := by
    rw [Bool.eq_iff_iff, List.isEmpty_iff_length_eq_zero, List.isEmpty_iff_length_eq_zero, long]
  unfold summarizeCommunity picksOf
  rw [empty]
  split
  · rfl
  · rw [scoreAll_eq, scoreAll_eq, canonical_texts perm]
    cases embedAll embed dim query ((canonical hash sentences' centrality').map Prod.fst) with
    | error e => rfl
    | ok embeds =>
        have tame := clamped_tame mmrLambda
        have even := even_of_steady hash root steady (embedded embed) query
          (centroidOf dim embeds) tame
        have alike := entries_perm hash root perm (embedded embed) query
          (centroidOf dim embeds)
        have undefined : (∃ l, mmrLambda.clamp (.finite 0) (.finite 1) = .finite l) ∨
            ∀ a ∈ (entries hash root (embedded embed) query (centroidOf dim embeds) sentences
              centrality).map (worthOf (mmrLambda.clamp (.finite 0) (.finite 1))),
                a.2 = .undefined := by
          refine tame.imp id fun none a m => ?_
          obtain ⟨s, -, rfl⟩ := List.mem_map.mp m
          rw [none]
          rfl
        have start : Together (embedded embed) (mmrLambda.clamp (.finite 0) (.finite 1))
            (entries hash root (embedded embed) query (centroidOf dim embeds) sentences centrality)
            (entries hash root (embedded embed) query (centroidOf dim embeds) sentences'
              centrality') [] [] :=
          ⟨rfl, nofun, nofun, by rw [remaining_nil, remaining_nil]; exact alike.map _⟩
        have same := start.told_pickLoop root (entries_canonical hash root _ _ _ _ _)
          (entries_canonical hash root _ _ _ _ _) even undefined
        have summary : ∀ picked picked' : List (Pick K), told picked = told picked' →
            (⟨picked.map fun p => p.item.text, picked.map Pick.score⟩ : Summary K) =
              ⟨picked'.map fun p => p.item.text, picked'.map Pick.score⟩ := by
          intro picked picked' alike
          have texts := congrArg (List.map Prod.fst) alike
          have scores := congrArg (List.map Prod.snd) alike
          unfold told at texts scores
          rw [List.map_map, List.map_map] at texts scores
          exact congrArg₂ Summary.mk texts scores
        refine congrArg Except.ok (summary _ _ ?_)
        rw [← alike.length_eq]
        exact same _

/-- What is picked: distinct indices of sentences, as many as are asked for and there are. -/
theorem picks_law {embed : String → Except ε (List (Number K))} {dim : Nat}
    {query : Option (List (Number K))} {k : Nat} {mmrLambda : Number K} {picks : List (Pick K)}
    (ran : picksOf hash root embed dim sentences query centrality k mmrLambda = .ok picks) :
    (picks.map Pick.index).Nodup ∧
      (∀ p ∈ picks, ((canonical hash sentences centrality).map Prod.fst)[p.index]? =
        some p.item.text) ∧
      picks.length = min k sentences.length := by
  unfold picksOf at ran
  split at ran
  · rename_i nothing
    cases ran
    refine ⟨List.nodup_nil, nofun, ?_⟩
    rcases Bool.or_eq_true_iff.mp nothing with none | zero
    · rw [List.isEmpty_iff.mp none]
      simp
    · rw [eq_of_beq zero, Nat.zero_min]
      rfl
  · rw [scoreAll_eq] at ran
    obtain ⟨canon, scored, ran⟩ := Exec.bind_eq_ok.mp ran
    cases all : embedAll embed dim query ((canonical hash sentences centrality).map Prod.fst) with
    | error e =>
        rw [all] at scored
        cases scored
    | ok embeds =>
        rw [all] at scored
        obtain rfl := Except.ok.inj scored
        obtain rfl := Except.ok.inj ran
        have long : (entries hash root (embedded embed) query (centroidOf dim embeds) sentences
            centrality).length = sentences.length := by
          rw [entries, List.length_map, canonical, List.length_map, canonicalOrder,
            List.length_insertionSort, List.length_range]
        have canonical := entries_canonical hash root (embedded embed) query (centroidOf dim embeds)
          sentences centrality
        obtain ⟨once, inside, count⟩ := pickLoop_law root (mmrLambda.clamp (.finite 0) (.finite 1))
          canonical.embedded
          (min k (entries hash root (embedded embed) query (centroidOf dim embeds) sentences
            centrality).length) [] List.nodup_nil nofun (by simp)
        refine ⟨once, fun p m => ?_, ?_⟩
        · have at_index := congrArg (Option.map Scored.text) (inside p m)
          rw [entries, List.getElem?_map, Option.map_map] at at_index
          rw [List.getElem?_map]
          exact at_index
        · rw [count, List.length_nil, Nat.zero_add, long]

end Scores

/-! ## An unsteady text

With lambda zero a score is the base score.  If the sentences before a text score high and all
others low, the first rounds pick the sentences before it, and the next round starts at its first
copy. -/

section Unsteady

variable {K : Type} [Field K] [LinearOrder K] [IsStrictOrderedRing K] {root : K → K}

def IsHigh (score : Number K) : Prop :=
  score = .undefined ∨ ∃ w : K, 3 / 10 ≤ w ∧ score = .finite w

def IsLow (score : Number K) : Prop := score = .undefined ∨ score = .finite 0

theorem effective_zero (base : Number K) (z : K) :
    effective (.finite 0) base (.finite z) = base := by
  cases base <;> simp [effective, Number.sub, Number.neg, Number.add, Number.mul,
    Number.infinite, (zero_le_one' K).not_gt]

/-- Nothing beats an undefined score. -/
theorem not_isBetter_of_undefined {candidate best : Pick K} (none : best.score = .undefined) :
    isBetter candidate best = false := by
  unfold isBetter
  rw [none]
  cases candidate.score <;> rfl

theorem not_isBetter_of_low {candidate best : Pick K} (low : IsLow candidate.score)
    (high : IsHigh best.score) : isBetter candidate best = false := by
  rcases high with none | ⟨w, big, score⟩
  · exact not_isBetter_of_undefined none
  · have small : (epsilon : K) < w := lt_of_lt_of_le (by unfold epsilon; norm_num) big
    have positive : (0 : K) < w := lt_of_lt_of_le (by norm_num) big
    unfold isBetter
    rcases low with none | zero
    · rw [score, none]
      rfl
    · rw [score, zero]
      simp [Number.near, Number.abs, positive.le, small.le, abs_of_pos positive]

/-- What beats something has a defined score. -/
theorem isDefined_of_isBetter {candidate best : Pick K} (better : isBetter candidate best = true) :
    candidate.score.IsDefined := by
  unfold isBetter at better
  cases score : candidate.score with
  | undefined =>
      rw [score] at better
      cases other : best.score <;> rw [other] at better <;>
        simp [Number.lt, Number.near, Number.sub, Number.add, Number.abs] at better
  | _ => simp

variable {picked : List (Pick K)}

/-- A candidate has the base score of its sentence. -/
theorem consider_zero {best : Option (Pick K)} {entry : Scored K × Nat}
    (fresh : entry.2 ∉ picked.map Pick.index) :
    consider root (.finite 0) picked best entry = match best with
      | none => some ⟨entry.2, entry.1, entry.1.base⟩
      | some b => if isBetter ⟨entry.2, entry.1, entry.1.base⟩ b
          then some ⟨entry.2, entry.1, entry.1.base⟩ else some b := by
  obtain ⟨z, pen⟩ := exists_penalty root picked entry.1.embed
  unfold consider
  rw [if_neg fresh, pen, effective_zero]
  all_goals rfl

/-- The best so far stays while nothing beats it. -/
theorem foldl_consider_stays {b : Pick K} : ∀ (entries : List (Scored K × Nat)),
    (∀ e ∈ entries, isBetter ⟨e.2, e.1, e.1.base⟩ b = false) →
    entries.foldl (consider root (.finite 0) picked) (some b) = some b
  | [], _ => rfl
  | e :: entries, each => by
      obtain ⟨here, later⟩ := List.forall_mem_cons.mp each
      rw [List.foldl_cons]
      by_cases old : e.2 ∈ picked.map Pick.index
      · rw [show consider root (.finite 0) picked (some b) e = some b from if_pos old]
        exact foldl_consider_stays entries later
      · rw [consider_zero old]
        simp only [here]
        exact foldl_consider_stays entries later

/-- A defined best score stays defined. -/
theorem foldl_consider_defined (root : K → K) (picked : List (Pick K)) : ∀ (entries : List (Scored K × Nat)) {b : Pick K},
    b.score.IsDefined →
    ∃ p, entries.foldl (consider root (.finite 0) picked) (some b) = some p ∧ p.score.IsDefined
  | [], b, there => ⟨b, rfl, there⟩
  | e :: entries, b, there => by
      rw [List.foldl_cons]
      by_cases old : e.2 ∈ picked.map Pick.index
      · rw [show consider root (.finite 0) picked (some b) e = some b from if_pos old]
        exact foldl_consider_defined root picked entries there
      · rw [consider_zero old]
        simp only
        split
        · exact foldl_consider_defined root picked entries (isDefined_of_isBetter ‹_›)
        · exact foldl_consider_defined root picked entries there

theorem foldl_consider_passed : ∀ (entries : List (Scored K × Nat)) (best : Option (Pick K)),
    (∀ e ∈ entries, e.2 ∈ picked.map Pick.index) →
    entries.foldl (consider root (.finite 0) picked) best = best
  | [], _, _ => rfl
  | e :: entries, best, each => by
      obtain ⟨here, later⟩ := List.forall_mem_cons.mp each
      rw [List.foldl_cons, show consider root (.finite 0) picked best e = best from if_pos here]
      exact foldl_consider_passed entries best later

/-- What a scan finds has the base score of its sentence, and is one of the entries. -/
theorem foldl_consider_base : ∀ (entries : List (Scored K × Nat)) {best : Option (Pick K)}
    {p : Pick K}, entries.foldl (consider root (.finite 0) picked) best = some p →
    best = some p ∨ ((p.item, p.index) ∈ entries ∧ p.score = p.item.base ∧
      p.index ∉ picked.map Pick.index)
  | [], _, _, found => .inl found
  | e :: entries, best, p, found => by
      rw [List.foldl_cons] at found
      by_cases old : e.2 ∈ picked.map Pick.index
      · rw [show consider root (.finite 0) picked best e = best from if_pos old] at found
        exact (foldl_consider_base entries found).imp id fun h => ⟨List.mem_cons_of_mem _ h.1, h.2⟩
      · rcases foldl_consider_base entries found with first | ⟨inside, base, fresh⟩
        · rw [consider_zero old] at first
          have own : ∀ q : Pick K, some (⟨e.2, e.1, e.1.base⟩ : Pick K) = some q →
              (q.item, q.index) ∈ e :: entries ∧ q.score = q.item.base ∧
                q.index ∉ picked.map Pick.index := by
            intro q same
            cases same
            exact ⟨List.mem_cons_self, rfl, old⟩
          cases best with
          | none => exact .inr (own p first)
          | some b =>
              simp only at first
              split at first
              · exact .inr (own p first)
              · exact .inl first
        · exact .inr ⟨List.mem_cons_of_mem _ inside, base, fresh⟩

theorem foldl_consider_isSome (root : K → K) (picked : List (Pick K)) : ∀ (entries : List (Scored K × Nat)) (best : Option (Pick K)),
    (best.isSome = true ∨ ∃ e ∈ entries, e.2 ∉ picked.map Pick.index) →
    (entries.foldl (consider root (.finite 0) picked) best).isSome = true
  | [], best, found => found.elim id fun h => nomatch h
  | e :: entries, best, found => by
      rw [List.foldl_cons]
      refine foldl_consider_isSome root picked entries _ ?_
      by_cases old : e.2 ∈ picked.map Pick.index
      · rw [show consider root (.finite 0) picked best e = best from if_pos old]
        refine found.imp id fun ⟨e', m, fresh⟩ => ⟨e', (List.mem_cons.mp m).resolve_left ?_, fresh⟩
        rintro rfl
        exact fresh old
      · rw [consider_zero old]
        refine .inl ?_
        cases best with
        | none => rfl
        | some b =>
            simp only
            split <;> rfl

variable {front back rest : List (Scored K)} {c : Scored K}

/-- While a sentence of the front is left, one is picked. -/
theorem selectBest_front (root : K → K) (high : ∀ s ∈ front, IsHigh s.base) (low : ∀ s ∈ back, IsLow s.base)
    (few : picked.length < front.length) :
    ∃ p, selectBest root (.finite 0) (front ++ back) picked = some p ∧ p.index < front.length ∧
      p.index ∉ picked.map Pick.index := by
  have someLeft : ∃ e ∈ front.zipIdx, e.2 ∉ picked.map Pick.index := by
    by_contra none
    have all : List.range front.length ⊆ picked.map Pick.index := by
      intro i m
      by_contra fresh
      have less : i < front.length := List.mem_range.mp m
      exact none ⟨(front[i], i), List.mem_zipIdx_iff_getElem?.mpr (List.getElem?_eq_getElem less),
        fresh⟩
    have enough := (List.Nodup.subperm List.nodup_range all).length_le
    rw [List.length_range, List.length_map] at enough
    omega
  obtain ⟨p, found⟩ := Option.isSome_iff_exists.mp
    (foldl_consider_isSome root picked front.zipIdx none (.inr someLeft))
  rcases foldl_consider_base _ found with none | ⟨inside, base, fresh⟩
  · cases none
  have at_index : front[p.index]? = some p.item := List.mem_zipIdx_iff_getElem?.mp inside
  have best : IsHigh p.score := by
    rw [base]
    exact high _ (List.mem_of_getElem? at_index)
  refine ⟨p, ?_, (List.getElem?_eq_some_iff.mp at_index).1, fresh⟩
  rw [selectBest, List.zipIdx_append, List.foldl_append, found]
  refine foldl_consider_stays _ fun e m => not_isBetter_of_low ?_ best
  exact low _ (List.fst_mem_of_mem_zipIdx m)

/-- The first rounds pick the front. -/
theorem pickLoop_front (root : K → K) (high : ∀ s ∈ front, IsHigh s.base) (low : ∀ s ∈ back, IsLow s.base)
    (left : Nat) : ∀ (rounds : Nat) (picked : List (Pick K)), (picked.map Pick.index).Nodup →
      (∀ p ∈ picked, p.index < front.length) → picked.length + rounds = front.length →
      ∃ full, pickLoop root (.finite 0) (front ++ back) (rounds + left) picked =
          pickLoop root (.finite 0) (front ++ back) left full ∧
        (full.map Pick.index).Nodup ∧ (∀ p ∈ full, p.index < front.length) ∧
        full.length = front.length
  | 0, picked, once, inside, count => ⟨picked, by rw [Nat.zero_add], once, inside, count⟩
  | rounds + 1, picked, once, inside, count => by
      obtain ⟨p, found, less, fresh⟩ := selectBest_front root high low
        (show picked.length < front.length by omega)
      obtain ⟨full, ran, facts⟩ := pickLoop_front root high low left rounds (picked ++ [p])
        (nodup_concat once fresh) (forall_concat inside less)
        (by rw [List.length_append, List.length_singleton]; omega)
      refine ⟨full, ?_, facts⟩
      rw [Nat.add_right_comm, pickLoop, found]
      exact ran

/-- After the front the scan starts at the next sentence, and its score is defined if that one's
is. -/
theorem selectBest_next (root : K → K) (c : Scored K) (rest : List (Scored K))
    {full : List (Pick K)} (once : (full.map Pick.index).Nodup)
    (inside : ∀ p ∈ full, p.index < front.length) (count : full.length = front.length) :
    ∃ p, selectBest root (.finite 0) (front ++ c :: rest) full = some p ∧
      (p.score.IsDefined ↔ c.base.IsDefined) := by
  have all : ∀ e ∈ front.zipIdx, e.2 ∈ full.map Pick.index := by
    intro e m
    have within : full.map Pick.index ⊆ List.range front.length := by
      intro i m
      obtain ⟨p, inFull, rfl⟩ := List.mem_map.mp m
      exact List.mem_range.mpr (inside p inFull)
    have same := (List.Nodup.subperm once within).perm_of_length_le
      (by rw [List.length_range, List.length_map, count])
    exact same.symm.subset (List.mem_range.mpr (by simpa using List.snd_lt_of_mem_zipIdx m))
  have fresh : front.length ∉ full.map Pick.index := by
    intro m
    obtain ⟨p, inFull, same⟩ := List.mem_map.mp m
    exact absurd same (inside p inFull).ne
  rw [selectBest, List.zipIdx_append, List.foldl_append, foldl_consider_passed _ _ all,
    List.zipIdx_cons, List.foldl_cons, consider_zero (by simpa using fresh)]
  by_cases there : c.base.IsDefined
  · obtain ⟨p, found, defined⟩ := foldl_consider_defined root full
      (rest.zipIdx (0 + front.length + 1)) (b := ⟨0 + front.length, c, c.base⟩) there
    exact ⟨p, found, iff_of_true defined there⟩
  · have none : c.base = .undefined := not_not.mp there
    refine ⟨⟨0 + front.length, c, c.base⟩, foldl_consider_stays _ fun e _ => ?_, Iff.rfl⟩
    exact not_isBetter_of_undefined none

/-- The last score of so many rounds. -/
theorem pickLoop_next (root : K → K) (front : List (Scored K)) (c : Scored K) (rest : List (Scored K))
    (high : ∀ s ∈ front, IsHigh s.base) (low : ∀ s ∈ c :: rest, IsLow s.base) :
    ∃ full p, pickLoop root (.finite 0) (front ++ c :: rest) (front.length + 1) [] = full ++ [p] ∧
      full.length = front.length ∧ (p.score.IsDefined ↔ c.base.IsDefined) := by
  obtain ⟨full, ran, once, inside, count⟩ := pickLoop_front root high low 1 front.length []
    List.nodup_nil nofun (Nat.zero_add _)
  obtain ⟨p, found, defined⟩ := selectBest_next root c rest once inside count
  refine ⟨full, p, ?_, count, defined⟩
  rw [ran, pickLoop, found]
  rfl

/-! ### Embeddings of one component -/

theorem cosine_single (x y : K) (left : ¬ x * x < 0) (right : ¬ y * y < 0) :
    cosine root [.finite x] [.finite y] = if root (x * x) * root (y * y) ≤ epsilon then .finite 0
      else .finite (x * y / (root (x * x) * root (y * y))) := by
  have positive : (0 : K) < epsilon := by unfold epsilon; positivity
  simp only [cosine, List.zip_cons_cons, List.zip_nil_right, List.foldl_cons, List.foldl_nil,
    Number.mul_finite_finite, Number.add_finite_finite, zero_add, Number.sqrt, if_neg left,
    if_neg right, Number.le, Number.lt_finite_finite]
  by_cases small : root (x * x) * root (y * y) ≤ epsilon
  · rw [if_pos (by simpa using small), if_pos small]
  · rw [if_neg (by simpa using small), if_neg small]
    exact if_neg (positive.trans (not_le.mp small)).ne'

theorem cosine_zero_left (y : K) : cosine root [.finite 0] [.finite y] = .finite 0 := by
  rw [cosine_single 0 y (by simp) (not_lt.mpr (mul_self_nonneg y)), zero_mul, zero_mul, zero_div,
    ite_self]

theorem cosine_nonneg (root : K → K) {x y : K} (left : 0 ≤ x) (right : 0 ≤ y) :
    ∃ z, 0 ≤ z ∧ cosine root [.finite x] [.finite y] = .finite z := by
  rw [cosine_single x y (not_lt.mpr (mul_self_nonneg x)) (not_lt.mpr (mul_self_nonneg y))]
  split
  · exact ⟨0, le_rfl, rfl⟩
  · rename_i big
    have positive : (0 : K) < epsilon := by unfold epsilon; positivity
    exact ⟨_, div_nonneg (mul_nonneg left right) (positive.trans (not_le.mp big)).le, rfl⟩

theorem cosine_one (rootOne : root 1 = 1) : cosine root [.finite 1] [.finite 1] = .finite 1 := by
  have big : ¬ (1 : K) ≤ epsilon := by unfold epsilon; norm_num
  rw [cosine_single 1 1 (by norm_num) (by norm_num), mul_one, rootOne, mul_one, if_neg big, div_one]

theorem centroidOf_single (embeds : List (List (Number K)))
    (each : ∀ v ∈ embeds, ∃ x, 0 ≤ x ∧ v = [Number.finite x]) (some_embed : embeds ≠ []) :
    ∃ y, 0 ≤ y ∧ centroidOf 1 embeds = [.finite y] := by
  have sums : ∀ (vs : List (List (Number K))) (s : K), 0 ≤ s →
      (∀ v ∈ vs, ∃ x, 0 ≤ x ∧ v = [Number.finite x]) →
      ∃ y, 0 ≤ y ∧ vs.foldl addInto [.finite s] = [.finite y] := by
    intro vs
    induction vs with
    | nil => exact fun s positive _ => ⟨s, positive, rfl⟩
    | cons v vs ih =>
        intro s positive each
        obtain ⟨⟨x, more, rfl⟩, later⟩ := List.forall_mem_cons.mp each
        exact ih (s + x) (add_nonneg positive more) later
  obtain ⟨y, positive, total⟩ := sums embeds 0 le_rfl each
  have count : (0 : K) < embeds.length :=
    Nat.cast_pos.mpr (List.length_pos_iff.mpr some_embed)
  refine ⟨y / embeds.length, div_nonneg positive count.le, ?_⟩
  unfold centroidOf
  rw [List.replicate_one, total]
  exact congrArg (fun c => [c]) (if_neg count.ne')

variable {D ε : Type} [LinearOrder D]

/-- Texts before `t` are like the query, and the others are like nothing. -/
def likeBefore (hash : String → D) (t : String) (s : String) : List (Number K) :=
  if canonicalKey hash s < canonicalKey hash t then [.finite 1] else [.finite 0]

/-- With an infinite greatest centrality a sentence scores by its text alone, if its own is finite. -/
theorem base_likeBefore (root : K → K) (hash : String → D) (rootOne : root 1 = 1) {y : K} (positive : 0 ≤ y)
    (t : String) (a : String × Number K) :
    let s := entryOf root (likeBefore hash t) (some [.finite 1]) [.finite y] .infinity a
    (s.base.IsDefined ↔ a.2 ≠ .infinity) ∧
      if canonicalKey hash a.1 < canonicalKey hash t then IsHigh s.base else IsLow s.base := by
  intro s
  have text : ∃ x : K, textScore root (some [.finite 1]) [.finite y] (likeBefore hash t a.1) =
      .finite x ∧ if canonicalKey hash a.1 < canonicalKey hash t then 3 / 10 ≤ x else x = 0 := by
    unfold textScore likeBefore
    split
    · obtain ⟨z, nonneg, similar⟩ := cosine_nonneg root (zero_le_one' K) positive
      refine ⟨1 / 2 * z + 3 / 10 * 1, ?_, by linarith⟩
      simp only [weights, Option.isSome_some, if_true, Option.elim_some, similar,
        cosine_one rootOne, Number.mul_finite_finite, Number.add_finite_finite]
    · refine ⟨0, ?_, rfl⟩
      simp only [weights, Option.isSome_some, if_true, Option.elim_some, cosine_zero_left,
        Number.mul_finite_finite, Number.add_finite_finite, mul_zero, add_zero]
  obtain ⟨x, text, bound⟩ := text
  have base : s.base = (Number.finite x).add ((Number.finite (1 / 5)).mul
      ((a.2.larger (.finite 0)).div .infinity)) := by
    show baseScore _ _ _ _ _ _ = _
    unfold baseScore
    rw [text]
    rfl
  rw [base]
  rcases larger_zero_cases a.2 with ⟨big, same⟩ | ⟨small, z, -, same⟩
  · rw [same]
    refine ⟨iff_of_false (fun h => h rfl) (fun h => h big), ?_⟩
    split
    · exact .inl rfl
    · exact .inl rfl
  · have share : (Number.finite x).add ((Number.finite (1 / 5)).mul
        ((Number.finite z).div .infinity)) = .finite x := by
      show Number.finite (x + 1 / 5 * 0) = _
      rw [mul_zero, add_zero]
    rw [same, share]
    refine ⟨iff_of_true nofun small, ?_⟩
    by_cases earlier : canonicalKey hash a.1 < canonicalKey hash t
    · rw [if_pos earlier] at bound ⊢
      exact .inr ⟨x, bound, rfl⟩
    · rw [if_neg earlier] at bound ⊢
      exact .inr (congrArg Number.finite bound)

/-! ### Two orders -/

/-- Sentences and centralities from their pairs. -/
def centralityOf (l : List (String × Number K)) (i : Nat) : Number K :=
  (l.map Prod.snd).getD i .undefined

theorem weighted_pairs (l : List (String × Number K)) :
    weighted (l.map Prod.fst) (centralityOf l) = l := by
  refine List.ext_getElem (by simp [weighted]) fun i inside inside' => ?_
  simp [weighted, centralityOf, List.getD_eq_getElem?_getD, inside']

theorem canonical_pairs (hash : String → D) {l : List (String × Number K)}
    (sorted : l.Pairwise fun a b => canonicalKey hash a.1 ≤ canonicalKey hash b.1) :
    canonical hash (l.map Prod.fst) (centralityOf l) = l := by
  have inOrder : canonicalOrder hash (l.map Prod.fst) = List.range l.length := by
    unfold canonicalOrder
    rw [List.length_map]
    refine List.Pairwise.insertionSort_eq ?_
    rw [List.pairwise_iff_getElem]
    intro i j inI inJ less
    have inL : j < l.length := by simpa using inJ
    have inL' : i < l.length := less.trans inL
    have here := List.pairwise_iff_getElem.mp sorted i j inL' inL less
    simpa [List.getD_eq_getElem?_getD, inL, inL'] using here
  have all := weighted_pairs l
  unfold weighted at all
  unfold canonical
  rwa [inOrder, ← List.length_map (f := Prod.fst)]

/-- An embedder for `likeBefore`. -/
def readable (hash : String → D) (t : String) (s : String) : Except ε (List (Number K)) :=
  .ok (likeBefore hash t s)

theorem embedAll_readable (hash : String → D) (t : String) (texts : List String) :
    embedAll (readable hash t : String → Except ε (List (Number K))) 1 (some [.finite 1]) texts =
      .ok (texts.map (likeBefore hash t)) := by
  have batch : texts.mapM (readable hash t : String → Except ε (List (Number K))) =
      .ok (texts.map (likeBefore hash t)) :=
    Exec.mapM_of_forall₂ (List.forall₂_map_right_iff.mpr (List.forall₂_same.mpr fun _ _ => rfl))
  unfold embedAll
  rw [batch]
  rfl

/-- The scores of a sorted list: after the sentences before `t`, the score is defined if the
centrality of the first copy is finite. -/
theorem summarize_sorted (ε : Type) (hash : String → D) (rootOne : root 1 = 1)
    {front rest : List (String × Number K)} {a : String × Number K} {t : String}
    (sorted : (front ++ a :: rest).Pairwise fun a b => canonicalKey hash a.1 ≤ canonicalKey hash b.1)
    (before : ∀ u ∈ front, canonicalKey hash u.1 < canonicalKey hash t)
    (after : ∀ u ∈ a :: rest, canonicalKey hash t ≤ canonicalKey hash u.1)
    (infinite : ∃ u ∈ front ++ a :: rest, u.2 = .infinity) :
    ∃ (texts : List String) (scores : List (Number K)) (x : Number K),
      summarizeCommunity hash root (readable hash t : String → Except ε (List (Number K))) 1
        ((front ++ a :: rest).map Prod.fst) (some [.finite 1]) (centralityOf (front ++ a :: rest))
        (front.length + 1) (.finite 0) = .ok ⟨texts, scores ++ [x]⟩ ∧
      (x.IsDefined ↔ a.2 ≠ .infinity) := by
  have canon := canonical_pairs hash sorted
  have embeds := embedAll_readable (K := K) (ε := ε) hash t
    ((front ++ a :: rest).map Prod.fst)
  obtain ⟨y, positive, centroid⟩ := centroidOf_single
    (((front ++ a :: rest).map Prod.fst).map (likeBefore (K := K) hash t)) (by
      intro v m
      obtain ⟨s, -, rfl⟩ := List.mem_map.mp m
      unfold likeBefore
      split
      · exact ⟨1, zero_le_one, rfl⟩
      · exact ⟨0, le_rfl, rfl⟩) (by simp)
  have greatest : maxCentrality ((front ++ a :: rest).map fun a => a.2.larger (.finite 0)) =
      .infinity := by
    obtain ⟨u, m, big⟩ := infinite
    have inside := List.mem_map_of_mem (f := fun a : String × Number K => a.2.larger (.finite 0)) m
    rw [big, Number.larger_infinity] at inside
    unfold maxCentrality
    rw [foldl_larger_of_mem _ inside, Number.larger_infinity]
  have each := base_likeBefore root hash rootOne positive t
  obtain ⟨full, p, ran, -, defined⟩ := pickLoop_next root
    (front.map (entryOf root (likeBefore hash t) (some [.finite 1]) [.finite y] .infinity))
    (entryOf root (likeBefore hash t) (some [.finite 1]) [.finite y] .infinity a)
    (rest.map (entryOf root (likeBefore hash t) (some [.finite 1]) [.finite y] .infinity))
    (fun s m => by
      obtain ⟨u, inFront, rfl⟩ := List.mem_map.mp m
      have bound := (each u).2
      rwa [if_pos (before u inFront)] at bound)
    (fun s m => by
      rw [← List.map_cons] at m
      obtain ⟨u, inRest, rfl⟩ := List.mem_map.mp m
      have bound := (each u).2
      rwa [if_neg (not_lt.mpr (after u inRest))] at bound)
  rw [List.length_map] at ran
  refine ⟨(full ++ [p]).map fun p => p.item.text, full.map Pick.score, p.score, ?_,
    defined.trans (each a).1⟩
  have scored : entries hash root (embedded (readable hash t : String → Except ε (List (Number K))))
      (some [.finite 1]) (centroidOf 1 (((front ++ a :: rest).map Prod.fst).map (likeBefore hash t)))
      ((front ++ a :: rest).map Prod.fst) (centralityOf (front ++ a :: rest)) =
        front.map (entryOf root (likeBefore hash t) (some [.finite 1]) [.finite y] .infinity) ++
          entryOf root (likeBefore hash t) (some [.finite 1]) [.finite y] .infinity a ::
            rest.map (entryOf root (likeBefore hash t) (some [.finite 1]) [.finite y] .infinity) := by
    unfold entries
    rw [canon, greatest, centroid, List.map_append, List.map_cons]
    rfl
  have lambda : (Number.finite (0 : K)).clamp (.finite 0) (.finite 1) = .finite 0 := by
    simp [Number.clamp]
  have picks : picksOf hash root (readable hash t : String → Except ε (List (Number K))) 1
      ((front ++ a :: rest).map Prod.fst) (some [.finite 1]) (centralityOf (front ++ a :: rest))
      (front.length + 1) (.finite 0) = .ok (full ++ [p]) := by
    unfold picksOf
    rw [if_neg (by simp), scoreAll_eq, canon, embeds]
    show Except.ok (pickLoop root _ (entries hash root _ _ _ _ _)
      (min _ (entries hash root _ _ _ _ _).length) []) = _
    rw [scored, lambda, Nat.min_eq_left (by simp), ran]
  unfold summarizeCommunity
  rw [picks]
  exact congrArg (fun scores => Except.ok (Summary.mk _ scores)) List.map_append

/-- A sentence's copies can be put in order with that sentence first. -/
theorem exists_arranged (hash : String → D) {l : List (String × Number K)} {a : String × Number K}
    (m : a ∈ l) : ∃ front rest, l.Perm (front ++ a :: rest) ∧
      ((front ++ a :: rest).Pairwise fun a b => canonicalKey hash a.1 ≤ canonicalKey hash b.1) ∧
      (∀ u ∈ front, canonicalKey hash u.1 < canonicalKey hash a.1) ∧
      (∀ u ∈ a :: rest, canonicalKey hash a.1 ≤ canonicalKey hash u.1) ∧
      front.length =
        (l.filter fun u => decide (canonicalKey hash u.1 < canonicalKey hash a.1)).length := by
  let r : String × Number K → String × Number K → Prop := fun a b =>
    canonicalKey hash a.1 ≤ canonicalKey hash b.1
  have total : Std.Total r := ⟨fun _ _ => le_total _ _⟩
  have trans : IsTrans _ r := ⟨fun _ _ _ => le_trans⟩
  let p : String × Number K → Bool := fun u =>
    decide (canonicalKey hash u.1 < canonicalKey hash a.1)
  have inside : a ∈ l.filter fun u => !p u :=
    List.mem_filter.mpr ⟨m, by simp [p]⟩
  have frontPerm := List.perm_insertionSort r (l.filter p)
  have restPerm := List.perm_insertionSort r ((l.filter fun u => !p u).erase a)
  have before : ∀ u ∈ (l.filter p).insertionSort r,
      canonicalKey hash u.1 < canonicalKey hash a.1 := fun u inFront =>
    of_decide_eq_true (List.mem_filter.mp (frontPerm.subset inFront)).2
  have after : ∀ u ∈ a :: ((l.filter fun u => !p u).erase a).insertionSort r,
      canonicalKey hash a.1 ≤ canonicalKey hash u.1 := by
    intro u inRest
    rcases List.mem_cons.mp inRest with rfl | later
    · exact le_rfl
    · have unmarked := (List.mem_filter.mp (List.mem_of_mem_erase (restPerm.subset later))).2
      exact not_lt.mp (by simpa [p] using unmarked)
  refine ⟨(l.filter p).insertionSort r, ((l.filter fun u => !p u).erase a).insertionSort r, ?_, ?_,
    before, after, List.length_insertionSort _ _⟩
  · refine (List.filter_append_perm p l).symm.trans (frontPerm.symm.append ?_)
    exact (List.perm_cons_erase inside).trans (restPerm.symm.cons a)
  · refine List.pairwise_append.mpr ⟨List.pairwise_insertionSort r _, ?_, fun u inFront v inRest => ?_⟩
    · refine List.pairwise_cons.mpr ⟨fun u later => ?_, List.pairwise_insertionSort r _⟩
      exact after u (List.mem_cons_of_mem _ later)
    · exact (before u inFront).le.trans (after v inRest)

end Unsteady

/-! ### Copies of a sentence -/

/-- Exact on squares. -/
def squareRoot (x : ℚ) : ℚ := (Nat.sqrt x.num.toNat : ℚ) / Nat.sqrt x.den

/-- One direction for the letter `a`, and the zero vector for the rest. -/
def likeA (s : String) : Except Unit (List (Number ℚ)) :=
  .ok [.finite (if s = "a" then 1 else 0)]

/-- The summary of some sentences with centralities. -/
def summaryOf (l : List (String × Number ℚ)) (k : Nat) : Except (SummarizeError Unit) (Summary ℚ) :=
  summarizeCommunity (fun s => s) squareRoot likeA 1 (l.map Prod.fst) none (centralityOf l) k
    (.finite (1 / 2))

/-- A copy with an infinite centrality has an undefined score, wherever it comes first. -/
theorem infinite_copy :
    (summaryOf [("a", .infinity), ("a", .finite 1)] 1).toOption.map Summary.scores =
        some [.undefined] ∧
      (summaryOf [("a", .finite 1), ("a", .infinity)] 1).toOption.map Summary.scores =
        some [.finite (2 / 5)] := by
  decide +kernel

end Mnem.Graphrag
