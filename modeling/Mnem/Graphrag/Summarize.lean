/-
# Graphrag.Summarize — the extractive summary of a community

`summarizeCommunity` sorts the sentences by the hash of their text, embeds them,
scores each by the centroid, a query and its centrality, and then picks the
best sentence `k` times, each time with a penalty for what is like a picked one.
Scores within `epsilon` of each other tie, which is not transitive.

* A round picks the best of what remains, under a new index (`selectBest_spec`,
  `pickLoop_law`).
* Over sentences that differ by places of copies two selections tell the same,
  if among the copies of a text all relevances are defined, or none
  (`Together.told_pickLoop`).
-/
import Mathlib.Data.List.Perm.Subperm
import Mathlib.Data.Prod.Lex
import Mathlib.Order.Lex
import Mathlib.Data.String.Basic
import Mnem.Theory.Exec
import Mnem.Theory.Greedy
import Mnem.Theory.Number

namespace Mnem.Graphrag

open Theory

set_option autoImplicit false
set_option linter.unusedSectionVars false

section Definitions

variable {K D ε : Type} [Field K] [LinearOrder K] [LinearOrder D]

/-- `f32::EPSILON`. -/
def epsilon : K := 1 / 2 ^ 23

/-- Picked sentences in selection order, and their scores. -/
structure Summary (K : Type) where
  sentences : List String
  scores : List (Number K)
  deriving DecidableEq

inductive SummarizeError (ε : Type) where
  | embed (e : ε)
  | dimMismatch (expected got : Nat)

/-- A sentence in canonical order, with its embedding and its base score. -/
structure Scored (K : Type) where
  text : String
  embed : List (Number K)
  base : Number K

/-- A picked sentence: its canonical index, and its score when it was picked. -/
structure Pick (K : Type) where
  index : Nat
  item : Scored K
  score : Number K

/-- `*c += *x` along two vectors; what is longer is left alone. -/
def addInto : List (Number K) → List (Number K) → List (Number K)
  | c :: cs, x :: xs => c.add x :: addInto cs xs
  | cs, _ => cs

/-- The mean of the embeddings. -/
def centroidOf (dim : Nat) (embeds : List (List (Number K))) : List (Number K) :=
  (embeds.foldl addInto (List.replicate dim (.finite 0))).map fun c =>
    c.div (.finite embeds.length)

/-- Cosine similarity, zero when a norm is zero. -/
def cosine (root : K → K) (a b : List (Number K)) : Number K :=
  let (dot, na, nb) := (a.zip b).foldl
    (fun (sums : Number K × Number K × Number K) (p : Number K × Number K) =>
      (sums.1.add (p.1.mul p.2), sums.2.1.add (p.1.mul p.1), sums.2.2.add (p.2.mul p.2)))
    (.finite 0, .finite 0, .finite 0)
  let denom := (na.sqrt root).mul (nb.sqrt root)
  if denom.le (.finite epsilon) then .finite 0 else dot.div denom

/-- The weights of centroid, query and centrality. -/
def weights (query : Option (List (Number K))) : K × K × K :=
  if query.isSome then (1 / 2, 3 / 10, 1 / 5) else (4 / 5, 0, 1 / 5)

/-- The part of the base score that the text decides. -/
def textScore (root : K → K) (query : Option (List (Number K))) (centroid v : List (Number K)) :
    Number K :=
  ((Number.finite (weights query).1).mul (cosine root v centroid)).add
    ((Number.finite (weights query).2.1).mul (query.elim (.finite 0) (cosine root v)))

def baseScore (root : K → K) (query : Option (List (Number K))) (centroid v : List (Number K))
    (centrality maxCentrality : Number K) : Number K :=
  (textScore root query centroid v).add
    ((Number.finite (weights query).2.2).mul (centrality.div maxCentrality))

/-- The order of hashes, and of texts where hashes are equal. -/
def canonicalKey (hash : String → D) (text : String) : D ×ₗ String := toLex (hash text, text)

/-- The sentence indices in canonical order. -/
def canonicalOrder (hash : String → D) (sentences : List String) : List Nat :=
  (List.range sentences.length).insertionSort fun a b =>
    canonicalKey hash (sentences.getD a "") ≤ canonicalKey hash (sentences.getD b "")

/-! ## Selection -/

/-- The greatest similarity to a picked sentence. -/
def penalty (root : K → K) (picked : List (Pick K)) (v : List (Number K)) : Number K :=
  if picked.isEmpty then .finite 0
  else (picked.map fun p =>
    (cosine root v p.item.embed).clamp (.finite 0) (.finite 1)).foldl Number.larger (.finite 0)

def effective (lambda base penalty : Number K) : Number K :=
  (((Number.finite 1).sub lambda).mul base).sub (lambda.mul penalty)

/-- A candidate beats the best so far by its score, or by its text when the scores are near. -/
def isBetter (candidate best : Pick K) : Bool :=
  if Number.lt best.score candidate.score then true
  else if Number.near epsilon candidate.score best.score then
    decide (candidate.item.text < best.item.text)
  else false

/-- One turn of the scan: picked sentences are passed over. -/
def consider (root : K → K) (lambda : Number K) (picked : List (Pick K)) (best : Option (Pick K))
    (entry : Scored K × Nat) : Option (Pick K) :=
  if entry.2 ∈ picked.map Pick.index then best
  else
    let candidate : Pick K := ⟨entry.2, entry.1,
      effective lambda entry.1.base (penalty root picked entry.1.embed)⟩
    match best with
    | none => some candidate
    | some b => if isBetter candidate b then some candidate else some b

def selectBest (root : K → K) (lambda : Number K) (canon : List (Scored K))
    (picked : List (Pick K)) : Option (Pick K) :=
  canon.zipIdx.foldl (consider root lambda picked) none

/-- Pick for the rounds that are left, or until nothing is found. -/
def pickLoop (root : K → K) (lambda : Number K) (canon : List (Scored K)) :
    Nat → List (Pick K) → List (Pick K)
  | 0, picked => picked
  | left + 1, picked =>
      match selectBest root lambda canon picked with
      | none => picked
      | some p => pickLoop root lambda canon left (picked ++ [p])

/-- The embeddings of some texts; a query must have their length. -/
def embedAll (embed : String → Except ε (List (Number K))) (dim : Nat)
    (query : Option (List (Number K))) (texts : List String) :
    Except (SummarizeError ε) (List (List (Number K))) := do
  let embeds ← (texts.mapM embed).mapError SummarizeError.embed
  match query with
  | some q => if q.length ≠ dim then throw (.dimMismatch dim q.length)
  | none => pure ()
  return embeds

/-- The greatest centrality, to divide by. -/
def maxCentrality (centralities : List (Number K)) : Number K :=
  (centralities.foldl Number.larger (.finite 0)).larger (.finite epsilon)

/-- The sentences in canonical order, scored. -/
def scoreAll (hash : String → D) (root : K → K) (embed : String → Except ε (List (Number K)))
    (dim : Nat) (sentences : List String) (query : Option (List (Number K)))
    (centrality : Nat → Number K) : Except (SummarizeError ε) (List (Scored K)) := do
  let perm := canonicalOrder hash sentences
  let texts := perm.map fun i => sentences.getD i ""
  let embeds ← embedAll embed dim query texts
  let centroid := centroidOf dim embeds
  let centralities := perm.map fun i => (centrality i).larger (.finite 0)
  return (texts.zip (embeds.zip centralities)).map fun e =>
    ⟨e.1, e.2.1, baseScore root query centroid e.2.1 e.2.2 (maxCentrality centralities)⟩

/-- What is picked, with canonical indices. -/
def picksOf (hash : String → D) (root : K → K) (embed : String → Except ε (List (Number K)))
    (dim : Nat) (sentences : List String) (query : Option (List (Number K)))
    (centrality : Nat → Number K) (k : Nat) (mmrLambda : Number K) :
    Except (SummarizeError ε) (List (Pick K)) :=
  if sentences.isEmpty || k == 0 then .ok []
  else do
    let canon ← scoreAll hash root embed dim sentences query centrality
    return pickLoop root (mmrLambda.clamp (.finite 0) (.finite 1)) canon (min k canon.length) []

def summarizeCommunity (hash : String → D) (root : K → K)
    (embed : String → Except ε (List (Number K))) (dim : Nat) (sentences : List String)
    (query : Option (List (Number K))) (centrality : Nat → Number K) (k : Nat)
    (mmrLambda : Number K) : Except (SummarizeError ε) (Summary K) := do
  let picks ← picksOf hash root embed dim sentences query centrality k mmrLambda
  return ⟨picks.map fun p => p.item.text, picks.map Pick.score⟩

end Definitions

/-! ## What a round picks -/

section Round

variable {K : Type} [Field K] [LinearOrder K] [IsStrictOrderedRing K] {root : K → K}

theorem foldl_larger_finite : ∀ (as : List (Number K)) (z : K),
    (∀ a ∈ as, a = .undefined ∨ ∃ x, a = .finite x) →
    ∃ z', as.foldl Number.larger (.finite z) = .finite z'
  | [], z, _ => ⟨z, rfl⟩
  | a :: as, z, each => by
      obtain ⟨here, later⟩ := List.forall_mem_cons.mp each
      rw [List.foldl_cons]
      rcases here with rfl | ⟨x, rfl⟩
      · exact foldl_larger_finite as z later
      · exact foldl_larger_finite as (max z x) later

theorem exists_penalty (root : K → K) (picked : List (Pick K)) (v : List (Number K)) :
    ∃ z, penalty root picked v = .finite z := by
  unfold penalty
  split
  · exact ⟨0, rfl⟩
  · refine foldl_larger_finite _ 0 fun a m => ?_
    obtain ⟨p, -, rfl⟩ := List.mem_map.mp m
    rcases Number.clamp_cases zero_le_one (cosine root v p.item.embed) with ⟨-, same⟩ | ⟨z, -, -, same⟩
    · exact .inl same
    · exact .inr ⟨z, same⟩

/-- A sentence as the selection sees it: its text, and its relevance after lambda. -/
abbrev Worth (K : Type) : Type := String × Number K

def worthOf (lambda : Number K) (s : Scored K) : Worth K :=
  (s.text, ((Number.finite 1).sub lambda).mul s.base)

/-- The score of a sentence, once the penalty of each text is given. -/
def scoreOf (lambda : Number K) (penalties : String → Number K) (a : Worth K) : Number K :=
  a.2.sub (lambda.mul (penalties a.1))

def beats (lambda : Number K) (penalties : String → Number K) (a b : Worth K) : Bool :=
  if Number.lt (scoreOf lambda penalties b) (scoreOf lambda penalties a) then true
  else if Number.near epsilon (scoreOf lambda penalties a) (scoreOf lambda penalties b) then
    decide (a.1 < b.1)
  else false

/-- Among the sentences of one text all relevances are defined, or none. -/
def Even (items : List (Worth K)) : Prop :=
  ∀ a ∈ items, ∀ b ∈ items, a.1 = b.1 → (a.2.IsDefined ↔ b.2.IsDefined)

variable {lambda : Number K} {penalties : String → Number K}

/-- Of two sentences of one text the one with the greater score is better. -/
theorem beats_copy {a b : Worth K} (same : a.1 = b.1) :
    beats lambda penalties a b =
      Number.lt (scoreOf lambda penalties b) (scoreOf lambda penalties a) := by
  unfold beats
  rw [same]
  simp

/-- Copies of a sentence can change places. -/
theorem fair_beats (lambda : Number K) (penalties : String → Number K) {items : List (Worth K)} (even : Even items)
    (tame : (∃ l, lambda = .finite l) ∨ ∀ a ∈ items, a.2 = .undefined)
    (finite : ∀ t, ∃ z, penalties t = .finite z) :
    Greedy.Fair (beats lambda penalties) (fun a b => a.1 = b.1) (· ∈ items) where
  total := by
    rintro ⟨t, p⟩ ⟨t', q⟩ inA inB same
    obtain rfl : t = t' := same
    rw [beats_copy (a := (t, p)) (b := (t, q)) rfl, beats_copy (a := (t, q)) (b := (t, p)) rfl]
    rcases tame with ⟨l, rfl⟩ | undefined
    · obtain ⟨z, pen⟩ := finite t
      by_cases there : p.IsDefined
      · have other := (even _ inA _ inB rfl).mp there
        have defined : ∀ r : Number K, r.IsDefined →
            (scoreOf (.finite l) penalties (t, r)).IsDefined := by
          intro r isDefined
          simpa [scoreOf, pen] using isDefined
        rcases Number.lt_total (defined p there) (defined q other) with eq | less | more
        · refine .inl (Prod.ext rfl (Number.sub_finite_inj (y := l * z) ?_))
          simpa [scoreOf, pen] using eq
        · exact .inr (.inr less)
        · exact .inr (.inl more)
      · have other := mt (even _ inA _ inB rfl).mpr there
        exact .inl (Prod.ext rfl ((not_not.mp there).trans (not_not.mp other).symm))
    · exact .inl (Prod.ext rfl ((undefined _ inA).trans (undefined _ inB).symm))
  asymm := by
    intro a b same above
    rw [beats_copy same] at above
    rw [beats_copy same.symm]
    exact Number.lt_asymm above
  lifts := by
    intro a b c _ _ same above replaces
    rw [beats_copy same.symm] at above
    unfold beats at replaces ⊢
    by_cases over_c : Number.lt (scoreOf lambda penalties c) (scoreOf lambda penalties a) = true
    · rw [if_pos (Number.lt_trans over_c above)]
    · rw [if_neg over_c] at replaces
      split at replaces
      · rename_i close
        rcases Number.near_lifts close above with higher | still
        · rw [if_pos higher]
        · rw [if_pos still, ← same, replaces, ite_self]
      · cases replaces

/-- The sentences that are not picked, as the selection sees them. -/
def remaining (lambda : Number K) (canon : List (Scored K)) (picked : List (Pick K)) :
    List (Worth K) :=
  (canon.zipIdx.filter fun e => decide (e.2 ∉ picked.map Pick.index)).map fun e =>
    worthOf lambda e.1

variable {picked : List (Pick K)} {E : String → List (Number K)}

/-- A pick has the score that its round gives it. -/
def Fits (root : K → K) (E : String → List (Number K)) (lambda : Number K) (picked : List (Pick K))
    (p : Pick K) : Prop :=
  p.score = scoreOf lambda (fun t => penalty root picked (E t)) (worthOf lambda p.item)

/-- One turn of the scan keeps the better of two worths. -/
theorem consider_keeps {entry : Scored K × Nat} (best : Option (Pick K))
    (fresh : entry.2 ∉ picked.map Pick.index) (embedded : entry.1.embed = E entry.1.text)
    (fits : ∀ b ∈ best, Fits root E lambda picked b) :
    (consider root lambda picked best entry).map (fun p => worthOf lambda p.item) =
        Greedy.keep (beats lambda fun t => penalty root picked (E t))
          (best.map fun p => worthOf lambda p.item) (worthOf lambda entry.1) ∧
      (∀ p ∈ consider root lambda picked best entry, Fits root E lambda picked p ∧
        (p ∈ best ∨ (p.item, p.index) = entry)) := by
  have own : effective lambda entry.1.base (penalty root picked entry.1.embed) =
      scoreOf lambda (fun t => penalty root picked (E t)) (worthOf lambda entry.1) := by
    rw [embedded]
    rfl
  unfold consider
  rw [if_neg fresh, own]
  cases best with
  | none =>
      refine ⟨rfl, fun p m => ?_⟩
      cases m
      exact ⟨rfl, .inr rfl⟩
  | some b =>
      have better : isBetter ⟨entry.2, entry.1,
          scoreOf lambda (fun t => penalty root picked (E t)) (worthOf lambda entry.1)⟩ b =
            beats lambda (fun t => penalty root picked (E t)) (worthOf lambda entry.1)
              (worthOf lambda b.item) := by
        unfold isBetter beats
        rw [fits b rfl]
        rfl
      simp only [Option.map_some, Greedy.keep, better]
      split
      · refine ⟨rfl, fun p m => ?_⟩
        cases m
        exact ⟨rfl, .inr rfl⟩
      · refine ⟨rfl, fun p m => ?_⟩
        cases m
        exact ⟨fits b rfl, .inl rfl⟩

theorem foldl_consider (root : K → K) (lambda : Number K) (picked : List (Pick K)) :
    ∀ (entries : List (Scored K × Nat)) (best : Option (Pick K)),
    (∀ e ∈ entries, e.1.embed = E e.1.text) →
    (∀ b ∈ best, Fits root E lambda picked b) →
    (entries.foldl (consider root lambda picked) best).map (fun p => worthOf lambda p.item) =
        ((entries.filter fun e => decide (e.2 ∉ picked.map Pick.index)).map fun e =>
          worthOf lambda e.1).foldl (Greedy.keep (beats lambda fun t => penalty root picked (E t)))
            (best.map fun p => worthOf lambda p.item) ∧
      ∀ p ∈ entries.foldl (consider root lambda picked) best, Fits root E lambda picked p ∧
        (p ∈ best ∨ (p.item, p.index) ∈ entries ∧ p.index ∉ picked.map Pick.index)
  | [], _, _, fits => ⟨rfl, fun p m => ⟨fits p m, .inl m⟩⟩
  | e :: entries, best, embedded, fits => by
      obtain ⟨here, later⟩ := List.forall_mem_cons.mp embedded
      rw [List.foldl_cons]
      by_cases old : e.2 ∈ picked.map Pick.index
      · have passed : consider root lambda picked best e = best := if_pos old
        obtain ⟨same, each⟩ := foldl_consider root lambda picked entries best later fits
        rw [passed, same, List.filter_cons_of_neg (by simpa using old)]
        refine ⟨rfl, fun p m => ⟨(each p m).1, (each p m).2.imp id fun h => ?_⟩⟩
        exact ⟨List.mem_cons_of_mem _ h.1, h.2⟩
      · obtain ⟨step, kept⟩ := consider_keeps best old here fits
        obtain ⟨same, each⟩ := foldl_consider root lambda picked entries _ later
          fun p m => (kept p m).1
        rw [same, step, List.filter_cons_of_pos (by simpa using old)]
        refine ⟨rfl, fun p m => ⟨(each p m).1, ?_⟩⟩
        rcases (each p m).2 with first | ⟨inEntries, fresh⟩
        · rcases (kept p first).2 with before | rfl
          · exact .inl before
          · exact .inr ⟨List.mem_cons_self, old⟩
        · exact .inr ⟨List.mem_cons_of_mem _ inEntries, fresh⟩

variable {canon : List (Scored K)}

/-- **One round.**  It picks the best of what remains, under an index that is new. -/
theorem selectBest_spec (root : K → K) (lambda : Number K) (picked : List (Pick K))
    (embedded : ∀ s ∈ canon, s.embed = E s.text) :
    (selectBest root lambda canon picked).map (fun p => worthOf lambda p.item) =
        Greedy.best (beats lambda fun t => penalty root picked (E t))
          (remaining lambda canon picked) ∧
      ∀ p ∈ selectBest root lambda canon picked, Fits root E lambda picked p ∧
        canon[p.index]? = some p.item ∧ p.index ∉ picked.map Pick.index := by
  obtain ⟨same, each⟩ := foldl_consider root lambda picked canon.zipIdx none
    (fun e m => embedded _ (List.fst_mem_of_mem_zipIdx m)) nofun
  refine ⟨same, fun p m => ⟨(each p m).1, ?_⟩⟩
  rcases (each p m).2 with none | ⟨inCanon, fresh⟩
  · cases none
  · exact ⟨List.mem_zipIdx_iff_getElem?.mp inCanon, fresh⟩

/-- A pick leaves what remained without it. -/
theorem remaining_perm (lambda : Number K) {p : Pick K} (at_index : canon[p.index]? = some p.item)
    (fresh : p.index ∉ picked.map Pick.index) :
    (remaining lambda canon picked).Perm
      (worthOf lambda p.item :: remaining lambda canon (picked ++ [p])) := by
  have once : canon.zipIdx.Nodup := by
    refine List.Nodup.of_map Prod.snd ?_
    rw [List.zipIdx_map_snd]
    exact List.nodup_range'
  have inside : (p.item, p.index) ∈ canon.zipIdx := List.mem_zipIdx_iff_getElem?.mpr at_index
  have split : (canon.zipIdx.filter fun e => decide (e.2 ∉ picked.map Pick.index)).Perm
      ((p.item, p.index) ::
        canon.zipIdx.filter fun e => decide (e.2 ∉ (picked ++ [p]).map Pick.index)) := by
    refine (List.perm_ext_iff_of_nodup (once.filter _) ?_).mpr fun e => ?_
    · refine List.nodup_cons.mpr ⟨fun m => ?_, once.filter _⟩
      have unpicked := of_decide_eq_true (List.mem_filter.mp m).2
      exact unpicked (by simp)
    · rw [List.mem_filter, List.mem_cons, List.mem_filter, decide_eq_true_eq, decide_eq_true_eq,
        List.map_append, List.mem_append, List.map_singleton, List.mem_singleton]
      constructor
      · rintro ⟨inCanon, unpicked⟩
        by_cases same : e.2 = p.index
        · have there := List.mem_zipIdx_iff_getElem?.mp inCanon
          rw [same, at_index] at there
          exact .inl (Prod.ext (Option.some.inj there).symm same)
        · exact .inr ⟨inCanon, fun h => h.elim unpicked same⟩
      · rintro (rfl | ⟨inCanon, unpicked⟩)
        · exact ⟨inside, fresh⟩
        · exact ⟨inCanon, fun m => unpicked (.inl m)⟩
  exact split.map fun e => worthOf lambda e.1

theorem remaining_sublist (lambda : Number K) (canon : List (Scored K)) (picked : List (Pick K)) :
    (remaining lambda canon picked).Sublist (canon.map (worthOf lambda)) := by
  have all : canon.map (worthOf lambda) = canon.zipIdx.map fun e => worthOf lambda e.1 := by
    have first : canon.zipIdx.map Prod.fst = canon := List.zipIdx_map_fst 0 canon
    conv_lhs => rw [← first]
    exact List.map_map
  rw [all]
  exact List.filter_sublist.map _

/-! ## Two selections -/

/-- What a summary tells of the picks. -/
def told (picked : List (Pick K)) : List (String × Number K) :=
  picked.map fun p => (p.item.text, p.score)

/-- Two selections that have told the same, over sentences that differ by places of copies. -/
structure Together (E : String → List (Number K)) (lambda : Number K) (canon canon' : List (Scored K))
    (picked picked' : List (Pick K)) : Prop where
  alike : told picked = told picked'
  embeds : ∀ p ∈ picked, p.item.embed = E p.item.text
  embeds' : ∀ p ∈ picked', p.item.embed = E p.item.text
  rest : (remaining lambda canon picked).Perm (remaining lambda canon' picked')

theorem penalty_congr {picked picked' : List (Pick K)}
    (same : picked.map (fun p => p.item.embed) = picked'.map fun p => p.item.embed)
    (v : List (Number K)) : penalty root picked v = penalty root picked' v := by
  have long := congrArg List.length same
  rw [List.length_map, List.length_map] at long
  have similar : (picked.map fun p =>
      (cosine root v p.item.embed).clamp (.finite 0) (.finite 1)) =
        picked'.map fun p => (cosine root v p.item.embed).clamp (.finite 0) (.finite 1) := by
    have mapped := congrArg (List.map fun w => (cosine root v w).clamp (.finite 0) (.finite 1)) same
    rwa [List.map_map, List.map_map] at mapped
  unfold penalty
  rw [similar]
  cases picked <;> cases picked' <;> simp at long ⊢

theorem Together.penalty_eq {canon' : List (Scored K)} {picked' : List (Pick K)}
    (both : Together E lambda canon canon' picked picked') (v : List (Number K)) :
    penalty root picked v = penalty root picked' v := by
  refine penalty_congr ?_ v
  have texts : picked.map (fun p => p.item.text) = picked'.map fun p => p.item.text := by
    have first := congrArg (List.map Prod.fst) both.alike
    unfold told at first
    rwa [List.map_map, List.map_map] at first
  have embedded := congrArg (List.map E) texts
  rw [List.map_map, List.map_map] at embedded
  exact (List.map_congr_left both.embeds).trans
    (embedded.trans (List.map_congr_left both.embeds').symm)

variable {D : Type} [LinearOrder D] {hash : String → D}

/-- Sentences in canonical order, with embeddings that their texts decide. -/
structure Canonical (hash : String → D) (E : String → List (Number K)) (canon : List (Scored K)) :
    Prop where
  sorted : canon.Pairwise fun a b => canonicalKey hash a.text ≤ canonicalKey hash b.text
  embedded : ∀ s ∈ canon, s.embed = E s.text

theorem Canonical.remaining_sorted (canonical : Canonical hash E canon) :
    (remaining lambda canon picked).Pairwise fun a b =>
      canonicalKey hash a.1 ≤ canonicalKey hash b.1 :=
  (List.Pairwise.map (R := fun a b => canonicalKey hash a.text ≤ canonicalKey hash b.text)
    (worthOf lambda) (fun _ _ h => h) canonical.sorted).sublist
    (remaining_sublist lambda canon picked)

/-- Only copies are tied in canonical order. -/
theorem text_of_canonicalKey {s t : String} (le : canonicalKey hash s ≤ canonicalKey hash t)
    (ge : canonicalKey hash t ≤ canonicalKey hash s) : s = t :=
  congrArg (fun key => (ofLex key).2) (le_antisymm le ge)

variable {canon' : List (Scored K)} {picked' : List (Pick K)}

/-- **One round of two selections.**  Both find nothing, or both pick the same text with the same
score. -/
theorem Together.round (root : K → K) (canonical : Canonical hash E canon) (canonical' : Canonical hash E canon')
    (even : Even (canon.map (worthOf lambda)))
    (tame : (∃ l, lambda = .finite l) ∨ ∀ a ∈ canon.map (worthOf lambda), a.2 = .undefined)
    (both : Together E lambda canon canon' picked picked') :
    (selectBest root lambda canon picked = none ∧ selectBest root lambda canon' picked' = none) ∨
      ∃ p p', selectBest root lambda canon picked = some p ∧
        selectBest root lambda canon' picked' = some p' ∧
        Together E lambda canon canon' (picked ++ [p]) (picked' ++ [p']) := by
  have inside := (remaining_sublist lambda canon picked).subset
  have fair := fair_beats lambda (fun t => penalty root picked (E t))
    (fun a inA b inB => even a (inside inA) b (inside inB) : Even (remaining lambda canon picked))
    (tame.imp id fun undefined a inA => undefined a (inside inA))
    fun t => exists_penalty root picked (E t)
  have best := fair.foldl_eq (fun a b => Eq.symm)
    (fun a b => canonicalKey hash a.1 ≤ canonicalKey hash b.1)
    (fun a b => text_of_canonicalKey) none canonical.remaining_sorted canonical'.remaining_sorted
    both.rest fun a m => m
  obtain ⟨worths, picks⟩ := selectBest_spec root lambda picked canonical.embedded
  obtain ⟨worths', picks'⟩ := selectBest_spec root lambda picked' canonical'.embedded
  have penalties : (fun t => penalty root picked' (E t)) = fun t => penalty root picked (E t) :=
    funext fun t => (both.penalty_eq (E t)).symm
  rw [penalties] at worths'
  have same := worths.trans (best.trans worths'.symm)
  cases first : selectBest root lambda canon picked with
  | none =>
      rw [first, Option.map_none, eq_comm, Option.map_eq_none_iff] at same
      exact .inl ⟨rfl, same⟩
  | some p =>
      rw [first, Option.map_some, eq_comm, Option.map_eq_some_iff] at same
      obtain ⟨p', second, worthy⟩ := same
      obtain ⟨fits, at_index, fresh⟩ := picks p first
      obtain ⟨fits', at_index', fresh'⟩ := picks' p' second
      have text : p'.item.text = p.item.text := congrArg Prod.fst worthy
      have score : p.score = p'.score := by
        rw [fits, fits', penalties, worthy]
      refine .inr ⟨p, p', rfl, second, ?_, ?_, ?_, ?_⟩
      · show told (picked ++ [p]) = told (picked' ++ [p'])
        have before := both.alike
        unfold told at before ⊢
        rw [List.map_append, List.map_append, before, List.map_singleton, List.map_singleton, text,
          score]
      · intro q m
        rcases List.mem_append.mp m with old | new
        · exact both.embeds q old
        · obtain rfl := List.mem_singleton.mp new
          exact canonical.embedded _ (List.mem_of_getElem? at_index)
      · intro q m
        rcases List.mem_append.mp m with old | new
        · exact both.embeds' q old
        · obtain rfl := List.mem_singleton.mp new
          exact canonical'.embedded _ (List.mem_of_getElem? at_index')
      · have left := remaining_perm lambda at_index fresh
        have right := remaining_perm lambda at_index' fresh'
        rw [worthy] at right
        exact (left.symm.trans (both.rest.trans right)).cons_inv

/-- Two selections tell the same to the end. -/
theorem Together.told_pickLoop (root : K → K) (canonical : Canonical hash E canon)
    (canonical' : Canonical hash E canon') (even : Even (canon.map (worthOf lambda)))
    (tame : (∃ l, lambda = .finite l) ∨ ∀ a ∈ canon.map (worthOf lambda), a.2 = .undefined) :
    ∀ (left : Nat) {picked picked' : List (Pick K)},
      Together E lambda canon canon' picked picked' →
      told (pickLoop root lambda canon left picked) =
        told (pickLoop root lambda canon' left picked')
  | 0, _, _, both => both.alike
  | left + 1, picked, picked', both => by
      rcases both.round root canonical canonical' even tame with
        ⟨first, second⟩ | ⟨p, p', first, second, onwards⟩
      · rw [pickLoop, pickLoop, first, second]
        exact both.alike
      · rw [pickLoop, pickLoop, first, second]
        exact told_pickLoop root canonical canonical' even tame left onwards

/-! ## What a selection picks -/

theorem nodup_concat {picked : List (Pick K)} {p : Pick K} (once : (picked.map Pick.index).Nodup)
    (fresh : p.index ∉ picked.map Pick.index) : ((picked ++ [p]).map Pick.index).Nodup := by
  rw [List.map_append, List.map_singleton]
  refine List.nodup_append.mpr ⟨once, List.nodup_singleton _, fun i m j new => ?_⟩
  obtain rfl := List.mem_singleton.mp new
  rintro rfl
  exact fresh m

theorem forall_concat {picked : List (Pick K)} {p : Pick K} {P : Pick K → Prop}
    (all : ∀ q ∈ picked, P q) (last : P p) : ∀ q ∈ picked ++ [p], P q :=
  List.forall_mem_append.mpr ⟨all, List.forall_mem_singleton.mpr last⟩

/-- As long as fewer are picked than there are, some remain. -/
theorem remaining_ne_nil {lambda : Number K} {picked : List (Pick K)}
    (room : picked.length < canon.length) : remaining lambda canon picked ≠ [] := by
  intro nothing
  have all : List.range canon.length ⊆ picked.map Pick.index := by
    intro i m
    by_contra fresh
    have less : i < canon.length := List.mem_range.mp m
    have inCanon : (canon[i], i) ∈ canon.zipIdx :=
      List.mem_zipIdx_iff_getElem?.mpr (List.getElem?_eq_getElem less)
    have kept : worthOf lambda canon[i] ∈ remaining lambda canon picked :=
      List.mem_map.mpr ⟨(canon[i], i),
        List.mem_filter.mpr ⟨inCanon, decide_eq_true fresh⟩, rfl⟩
    rw [nothing] at kept
    cases kept
  have few := (List.Nodup.subperm List.nodup_range all).length_le
  rw [List.length_range, List.length_map] at few
  omega

/-- Distinct indices are picked, one in each round. -/
theorem pickLoop_law (root : K → K) (lambda : Number K)
    (embedded : ∀ s ∈ canon, s.embed = E s.text) : ∀ (left : Nat) (picked : List (Pick K)),
    (picked.map Pick.index).Nodup → (∀ p ∈ picked, canon[p.index]? = some p.item) →
    picked.length + left ≤ canon.length →
    ((pickLoop root lambda canon left picked).map Pick.index).Nodup ∧
      (∀ p ∈ pickLoop root lambda canon left picked, canon[p.index]? = some p.item) ∧
      (pickLoop root lambda canon left picked).length = picked.length + left
  | 0, _, once, inside, _ => ⟨once, inside, rfl⟩
  | left + 1, picked, once, inside, room => by
      obtain ⟨worths, picks⟩ := selectBest_spec root lambda picked embedded
      have someLeft : remaining lambda canon picked ≠ [] := remaining_ne_nil (by omega)
      have found := Greedy.best_isSome
        (beats lambda fun t => penalty root picked (E t)) someLeft
      rw [← worths, Option.isSome_map] at found
      obtain ⟨p, first⟩ := Option.isSome_iff_exists.mp found
      obtain ⟨-, at_index, fresh⟩ := picks p first
      rw [pickLoop, first]
      obtain ⟨once, inside, long⟩ := pickLoop_law root lambda embedded left (picked ++ [p])
        (nodup_concat once fresh) (forall_concat inside at_index)
        (by rw [List.length_append, List.length_singleton]; omega)
      refine ⟨once, inside, long.trans ?_⟩
      rw [List.length_append, List.length_singleton]
      omega

end Round

end Mnem.Graphrag
