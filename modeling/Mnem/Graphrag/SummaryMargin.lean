/-
# Graphrag.SummaryMargin — when a summary's scores fall

With numbers for embeddings, centralities, query and lambda, every score is a
number, and each round picks a sentence with the score it has in that round.
The pick has the greatest score unless a near one with a smaller text took its
place; so the scores never rise exactly when in every round some sentence of the
greatest score keeps its place (`summary_falls_iff`).
-/
import Mathlib.Tactic.NormNum
import Mathlib.Tactic.Positivity
import Mnem.Graphrag.SummaryOrder

namespace Mnem.Graphrag

open Theory

set_option autoImplicit false
set_option linter.unusedSectionVars false

/-! ## The candidates of a round -/

section Candidates

variable {K : Type} [Field K] [LinearOrder K]

/-- What is not picked yet, in canonical order, with the score it has now. -/
def candidates (root : K → K) (lambda : Number K) (canon : List (Scored K)) (picked : List (Pick K)) :
    List (Pick K) :=
  (canon.zipIdx.filter fun e => decide (e.2 ∉ picked.map Pick.index)).map fun e =>
    ⟨e.2, e.1, effective lambda e.1.base (penalty root picked e.1.embed)⟩

/-- Each pick is a candidate of its round with the greatest score, and no pick scores more than one
before it. -/
structure Greedily (root : K → K) (lambda : Number K) (canon : List (Scored K)) (picks : List (Pick K)) :
    Prop where
  falling : picks.Pairwise fun p q => Number.le q.score p.score = true
  greatest : ∀ before p after, picks = before ++ p :: after →
    p ∈ candidates root lambda canon before ∧
      ∀ q ∈ candidates root lambda canon before, Number.le q.score p.score = true

/-- Some candidate of the greatest score has no near one with a smaller text after it. -/
def Clear (root : K → K) (lambda : Number K) (canon : List (Scored K)) (picked : List (Pick K)) : Prop :=
  ∃ front p rest, candidates root lambda canon picked = front ++ p :: rest ∧
    (∀ q ∈ candidates root lambda canon picked, Number.le q.score p.score = true) ∧
    ∀ q ∈ rest, Number.near epsilon q.score p.score = true → p.item.text ≤ q.item.text

variable {root : K → K} {lambda : Number K} {canon : List (Scored K)} {picked : List (Pick K)}

theorem foldl_consider_keep : ∀ (entries : List (Scored K × Nat)) (best : Option (Pick K)),
    entries.foldl (consider root lambda picked) best =
      ((entries.filter fun e => decide (e.2 ∉ picked.map Pick.index)).map fun e =>
        (⟨e.2, e.1, effective lambda e.1.base (penalty root picked e.1.embed)⟩ : Pick K)).foldl
          (Greedy.keep isBetter) best
  | [], _ => rfl
  | e :: entries, best => by
      rw [List.foldl_cons, foldl_consider_keep entries]
      by_cases old : e.2 ∈ picked.map Pick.index
      · rw [List.filter_cons_of_neg (by simpa using old), consider, if_pos old]
      · rw [List.filter_cons_of_pos (by simpa using old), consider, if_neg old]
        cases best <;> rfl

/-- A round picks the best of its candidates. -/
theorem selectBest_eq : selectBest root lambda canon picked =
    Greedy.best isBetter (candidates root lambda canon picked) :=
  foldl_consider_keep canon.zipIdx none

/-- Each pick is the best in the round in which it is picked. -/
theorem pickLoop_rounds (root : K → K) (lambda : Number K) (canon : List (Scored K)) :
    ∀ (left : Nat) (picked : List (Pick K)), ∃ more, pickLoop root lambda canon left picked = picked ++ more ∧
      ∀ before p after, more = before ++ p :: after →
        selectBest root lambda canon (picked ++ before) = some p
  | 0, picked => ⟨[], (List.append_nil _).symm, fun before p after split => by simp at split⟩
  | left + 1, picked => by
      rw [pickLoop]
      cases found : selectBest root lambda canon picked with
      | none => exact ⟨[], (List.append_nil _).symm, fun before p after split => by simp at split⟩
      | some first =>
          obtain ⟨more, ran, rounds⟩ := pickLoop_rounds root lambda canon left (picked ++ [first])
          refine ⟨first :: more, ran.trans (List.append_cons picked first more).symm, ?_⟩
          intro before p after split
          cases before with
          | nil =>
              obtain ⟨rfl, -⟩ := List.cons.inj split
              rw [List.append_nil]
              exact found
          | cons q before =>
              obtain ⟨rfl, rest⟩ := List.cons.inj split
              have later := rounds before p after rest
              rwa [List.append_assoc] at later

end Candidates

theorem pairwise_of_split {α : Type} {R : α → α → Prop} : ∀ {l : List α},
    (∀ before p mid q after, l = before ++ p :: (mid ++ q :: after) → R p q) → l.Pairwise R
  | [], _ => .nil
  | a :: l, each => by
      refine List.pairwise_cons.mpr ⟨fun q member => ?_, pairwise_of_split ?_⟩
      · obtain ⟨mid, after, rfl⟩ := List.append_of_mem member
        exact each [] a mid q after rfl
      · intro before p mid q after split
        exact each (a :: before) p mid q after (by rw [split]; rfl)

/-! ## Scores that are numbers -/

section Finite

variable {K : Type} [Field K] [LinearOrder K] [IsStrictOrderedRing K] {root : K → K}

/-- A number of the field. -/
def IsFinite (a : Number K) : Prop := ∃ x, a = .finite x

def value : Number K → K
  | .finite x => x
  | _ => 0

@[simp] theorem value_finite (x : K) : value (.finite x) = x := rfl

theorem IsFinite.eq {a : Number K} (finite : IsFinite a) : a = .finite (value a) := by
  obtain ⟨x, rfl⟩ := finite
  rfl

theorem le_iff_value {a b : Number K} (left : IsFinite a) (right : IsFinite b) :
    Number.le a b = true ↔ value a ≤ value b := by
  obtain ⟨x, rfl⟩ := left
  obtain ⟨y, rfl⟩ := right
  simp [Number.le]

theorem near_iff_value {eps : K} {a b : Number K} (left : IsFinite a) (right : IsFinite b) :
    Number.near eps a b = true ↔ |value a - value b| < eps := by
  obtain ⟨x, rfl⟩ := left
  obtain ⟨y, rfl⟩ := right
  rw [Number.near, Number.sub_finite_finite]
  exact decide_eq_true_iff

theorem epsilon_positive : (0 : K) < epsilon := by
  unfold epsilon
  positivity

theorem margin_isBetter : Greedy.Margin (isBetter (K := K)) (fun p => value p.score)
    (fun p => p.item.text) (fun p q => Number.near epsilon p.score q.score = true)
    (fun p => IsFinite p.score) where
  better_iff a b left right := by
    have above : Number.lt b.score a.score = true ↔ value b.score < value a.score := by
      rw [left.eq, right.eq]
      exact decide_eq_true_iff
    unfold isBetter
    rw [← above]
    split
    · simp [*]
    · split <;> simp [*]
  near_of_eq a b left right same := by
    rw [near_iff_value left right, same, sub_self, abs_zero]
    exact epsilon_positive
  near_congr a b c inA inB inC same close := by
    rw [near_iff_value inA inB] at close
    rwa [near_iff_value inA inC, ← same]

/-! ### Penalties -/

theorem penalty_eq_foldl (root : K → K) (picked : List (Pick K)) (v : List (Number K)) :
    penalty root picked v = (picked.map fun p =>
      (cosine root v p.item.embed).clamp (.finite 0) (.finite 1)).foldl Number.larger (.finite 0) := by
  cases picked <;> rfl

theorem foldl_larger_grows : ∀ (as : List (Number K)) (z : K),
    (∀ a ∈ as, a = .undefined ∨ IsFinite a) →
      ∃ z', z ≤ z' ∧ as.foldl Number.larger (.finite z) = .finite z'
  | [], z, _ => ⟨z, le_rfl, rfl⟩
  | a :: as, z, each => by
      obtain ⟨here, later⟩ := List.forall_mem_cons.mp each
      rcases here with rfl | ⟨x, rfl⟩
      · exact foldl_larger_grows as z later
      · obtain ⟨z', le, folded⟩ := foldl_larger_grows as (max z x) later
        exact ⟨z', (le_max_left z x).trans le, folded⟩

/-- More picks, no smaller penalty. -/
theorem penalty_grows (root : K → K) (picked more : List (Pick K)) (v : List (Number K)) :
    ∃ z z', z ≤ z' ∧ penalty root picked v = .finite z ∧ penalty root (picked ++ more) v = .finite z' := by
  obtain ⟨z, before⟩ := exists_penalty root picked v
  have each : ∀ a ∈ more.map fun p => (cosine root v p.item.embed).clamp (.finite 0) (.finite 1),
      a = .undefined ∨ IsFinite a := by
    intro a member
    obtain ⟨p, -, rfl⟩ := List.mem_map.mp member
    rcases Number.clamp_cases zero_le_one (cosine root v p.item.embed) with ⟨-, same⟩ | ⟨y, -, -, same⟩
    · exact .inl same
    · exact .inr ⟨y, same⟩
  obtain ⟨z', le, after⟩ := foldl_larger_grows _ z each
  refine ⟨z, z', le, before, ?_⟩
  rw [penalty_eq_foldl] at before ⊢
  rw [List.map_append, List.foldl_append, before, after]

theorem effective_finite (l b z : K) :
    effective (.finite l) (.finite b) (.finite z) = .finite ((1 - l) * b - l * z) := by
  simp [effective]

variable {canon : List (Scored K)} {l : K}

theorem isFinite_candidate (root : K → K) (l : K) (based : ∀ s ∈ canon, IsFinite s.base)
    (picked : List (Pick K)) : ∀ p ∈ candidates root (.finite l) canon picked, IsFinite p.score := by
  intro p member
  obtain ⟨e, inCanon, rfl⟩ := List.mem_map.mp member
  obtain ⟨b, base⟩ := based e.1 (List.fst_mem_of_mem_zipIdx (List.mem_filter.mp inCanon).1)
  obtain ⟨z, pen⟩ := exists_penalty root picked e.1.embed
  refine ⟨(1 - l) * b - l * z, ?_⟩
  dsimp only
  rw [base, pen, effective_finite]

/-- A later candidate was one before, and scored no less. -/
theorem candidate_falls (based : ∀ s ∈ canon, IsFinite s.base) (nonneg : 0 ≤ l)
    {picked more : List (Pick K)} {q : Pick K} (member : q ∈ candidates root (.finite l) canon (picked ++ more)) :
    ∃ q' ∈ candidates root (.finite l) canon picked, value q.score ≤ value q'.score := by
  obtain ⟨e, inCanon, rfl⟩ := List.mem_map.mp member
  obtain ⟨there, unpicked⟩ := List.mem_filter.mp inCanon
  obtain ⟨b, base⟩ := based e.1 (List.fst_mem_of_mem_zipIdx there)
  obtain ⟨z, z', le, pen, pen'⟩ := penalty_grows root picked more e.1.embed
  have earlier : e.2 ∉ picked.map Pick.index := by
    have unpicked := of_decide_eq_true unpicked
    rw [List.map_append] at unpicked
    exact fun m => unpicked (List.mem_append_left _ m)
  refine ⟨_, List.mem_map.mpr ⟨e, List.mem_filter.mpr ⟨there, decide_eq_true earlier⟩, rfl⟩, ?_⟩
  dsimp only
  rw [base, pen, pen', effective_finite, effective_finite]
  exact sub_le_sub_left (mul_le_mul_of_nonneg_left le nonneg) _

/-! ### All rounds -/

/-- A round picks the greatest score exactly if it is clear. -/
theorem round_iff (based : ∀ s ∈ canon, IsFinite s.base) {picked : List (Pick K)} {p : Pick K}
    (found : selectBest root (.finite l) canon picked = some p) :
    (∀ q ∈ candidates root (.finite l) canon picked, Number.le q.score p.score = true) ↔
      Clear root (.finite l) canon picked := by
  rw [selectBest_eq] at found
  have finite := isFinite_candidate root l based picked
  have inside : p ∈ candidates root (.finite l) canon picked := by
    rcases Greedy.foldl_keep_mem _ found with inside | none
    · exact inside
    · cases none
  have values : ∀ p ∈ candidates root (.finite l) canon picked,
      ((∀ q ∈ candidates root (.finite l) canon picked, Number.le q.score p.score = true) ↔
        ∀ q ∈ candidates root (.finite l) canon picked, value q.score ≤ value p.score) :=
    fun p inP => forall₂_congr fun q inQ => le_iff_value (finite q inQ) (finite p inP)
  rw [values p inside, margin_isBetter.best_greatest_iff finite found]
  refine exists_congr fun front => exists_congr fun p => exists_congr fun rest => ?_
  refine and_congr_right fun split => and_congr_left' ?_
  exact (values p (split ▸ List.mem_append_right _ List.mem_cons_self)).symm

/-- **A selection is greedy exactly if each of its rounds is clear.** -/
theorem greedily_iff (based : ∀ s ∈ canon, IsFinite s.base) (nonneg : 0 ≤ l) (left : Nat) :
    Greedily root (.finite l) canon (pickLoop root (.finite l) canon left []) ↔
      ∀ before p after, pickLoop root (.finite l) canon left [] = before ++ p :: after →
        Clear root (.finite l) canon before := by
  obtain ⟨picks, ran, rounds⟩ := pickLoop_rounds root (.finite l) canon left []
  rw [List.nil_append] at ran
  rw [ran]
  have inside : ∀ before p after, picks = before ++ p :: after →
      p ∈ candidates root (.finite l) canon before := by
    intro before p after split
    have found := rounds before p after split
    rw [List.nil_append, selectBest_eq] at found
    rcases Greedy.foldl_keep_mem _ found with inside | none
    · exact inside
    · cases none
  constructor
  · intro greedily before p after split
    have found := rounds before p after split
    rw [List.nil_append] at found
    exact (round_iff based found).mp (greedily.greatest before p after split).2
  · intro clear
    have greatest : ∀ before p after, picks = before ++ p :: after →
        p ∈ candidates root (.finite l) canon before ∧
          ∀ q ∈ candidates root (.finite l) canon before, Number.le q.score p.score = true := by
      intro before p after split
      have found := rounds before p after split
      rw [List.nil_append] at found
      exact ⟨inside before p after split, (round_iff based found).mpr (clear before p after split)⟩
    refine ⟨?_, greatest⟩
    refine pairwise_of_split fun before p mid q after split => ?_
    have late := greatest (before ++ p :: mid) q after (by rw [split, List.append_assoc]; rfl)
    obtain ⟨early, below⟩ := greatest before p (mid ++ q :: after) split
    obtain ⟨q', inBefore, falls⟩ := candidate_falls based nonneg late.1
    have finite := fun picked => isFinite_candidate root l based picked
    have upper := (le_iff_value (finite _ q' inBefore) (finite _ p early)).mp (below q' inBefore)
    exact (le_iff_value (finite _ q late.1) (finite _ p early)).mpr (falls.trans upper)

/-! ### From numbers to scores -/

theorem IsFinite.add {a b : Number K} (left : IsFinite a) (right : IsFinite b) : IsFinite (a.add b) := by
  obtain ⟨x, rfl⟩ := left
  obtain ⟨y, rfl⟩ := right
  exact ⟨x + y, rfl⟩

theorem IsFinite.mul {a b : Number K} (left : IsFinite a) (right : IsFinite b) : IsFinite (a.mul b) := by
  obtain ⟨x, rfl⟩ := left
  obtain ⟨y, rfl⟩ := right
  exact ⟨x * y, rfl⟩

theorem isFinite_div {a : Number K} {y : K} (left : IsFinite a) (nonzero : y ≠ 0) :
    IsFinite (a.div (.finite y)) := by
  obtain ⟨x, rfl⟩ := left
  exact ⟨x / y, if_neg nonzero⟩

theorem foldl_cosine : ∀ (ps : List (Number K × Number K)) (x y z : K),
    (∀ p ∈ ps, IsFinite p.1 ∧ IsFinite p.2) → 0 ≤ y → 0 ≤ z → ∃ x' y' z', 0 ≤ y' ∧ 0 ≤ z' ∧
      ps.foldl (fun (sums : Number K × Number K × Number K) (p : Number K × Number K) =>
        (sums.1.add (p.1.mul p.2), sums.2.1.add (p.1.mul p.1), sums.2.2.add (p.2.mul p.2)))
          (.finite x, .finite y, .finite z) = (.finite x', .finite y', .finite z')
  | [], x, y, z, _, left, right => ⟨x, y, z, left, right, rfl⟩
  | (a, b) :: ps, x, y, z, each, left, right => by
      obtain ⟨⟨⟨u, rfl⟩, ⟨v, rfl⟩⟩, later⟩ := List.forall_mem_cons.mp each
      exact foldl_cosine ps (x + u * v) (y + u * u) (z + v * v) later
        (add_nonneg left (mul_self_nonneg u)) (add_nonneg right (mul_self_nonneg v))

theorem isFinite_cosine (root : K → K) {a b : List (Number K)} (left : ∀ x ∈ a, IsFinite x)
    (right : ∀ x ∈ b, IsFinite x) : IsFinite (cosine root a b) := by
  obtain ⟨x, y, z, nonneg, nonneg', sums⟩ := foldl_cosine (a.zip b) 0 0 0
    (fun p m => ⟨left _ (List.of_mem_zip m).1, right _ (List.of_mem_zip m).2⟩) le_rfl le_rfl
  unfold cosine
  rw [sums]
  have rooted : ∀ {u : K}, 0 ≤ u → (Number.finite u).sqrt root = .finite (root u) :=
    fun nonneg => if_neg (not_lt.mpr nonneg)
  dsimp only
  rw [rooted nonneg, rooted nonneg', Number.mul_finite_finite]
  split
  · exact ⟨0, rfl⟩
  · rename_i large
    rw [le_iff_value ⟨_, rfl⟩ ⟨_, rfl⟩] at large
    exact isFinite_div ⟨x, rfl⟩ (ne_of_gt (epsilon_positive.trans (not_le.mp large)))

theorem isFinite_addInto : ∀ {c v : List (Number K)}, (∀ x ∈ c, IsFinite x) → (∀ x ∈ v, IsFinite x) →
    ∀ x ∈ addInto c v, IsFinite x
  | [], [], _, _ => nofun
  | [], _ :: _, _, _ => nofun
  | _ :: _, [], left, _ => left
  | c :: cs, v :: vs, left, right => by
      obtain ⟨here, later⟩ := List.forall_mem_cons.mp left
      obtain ⟨here', later'⟩ := List.forall_mem_cons.mp right
      exact List.forall_mem_cons.mpr ⟨here.add here', isFinite_addInto later later'⟩

theorem isFinite_centroidOf (dim : Nat) {embeds : List (List (Number K))} (some_embed : embeds ≠ [])
    (each : ∀ v ∈ embeds, ∀ x ∈ v, IsFinite x) : ∀ x ∈ centroidOf dim embeds, IsFinite x := by
  have sums : ∀ (vs : List (List (Number K))) (c : List (Number K)), (∀ x ∈ c, IsFinite x) →
      (∀ v ∈ vs, ∀ x ∈ v, IsFinite x) → ∀ x ∈ vs.foldl addInto c, IsFinite x := by
    intro vs
    induction vs with
    | nil => exact fun c start _ => start
    | cons v vs ih =>
        intro c start each
        obtain ⟨here, later⟩ := List.forall_mem_cons.mp each
        exact ih _ (isFinite_addInto start here) later
  have zeros : ∀ x ∈ List.replicate dim (Number.finite (0 : K)), IsFinite x :=
    fun x m => ⟨0, List.eq_of_mem_replicate m⟩
  intro x member
  obtain ⟨c, inside, rfl⟩ := List.mem_map.mp member
  refine isFinite_div (sums embeds _ zeros each c inside) (Nat.cast_ne_zero.mpr ?_)
  exact fun none => some_embed (List.length_eq_zero_iff.mp none)

theorem isFinite_baseScore (root : K → K) {query : Option (List (Number K))}
    {centroid v : List (Number K)} {centrality greatest : Number K}
    (asked : ∀ q ∈ query, ∀ x ∈ q, IsFinite x) (middle : ∀ x ∈ centroid, IsFinite x)
    (here : ∀ x ∈ v, IsFinite x) (share : IsFinite (centrality.div greatest)) :
    IsFinite (baseScore root query centroid v centrality greatest) := by
  have near_query : IsFinite (query.elim (.finite 0) (cosine root v)) := by
    cases query with
    | none => exact ⟨0, rfl⟩
    | some q => exact isFinite_cosine root here (asked q rfl)
  have text : IsFinite (textScore root query centroid v) :=
    (IsFinite.mul ⟨_, rfl⟩ (isFinite_cosine root here middle)).add
      (IsFinite.mul ⟨_, rfl⟩ near_query)
  exact text.add (IsFinite.mul ⟨_, rfl⟩ share)

end Finite

/-! ## Summaries of numbers -/

section Summaries

variable {K D ε : Type} [Field K] [LinearOrder K] [IsStrictOrderedRing K] [LinearOrder D]
  {hash : String → D} {root : K → K}

/-- An embedder that gives vectors of the field. -/
def finiteEmbed (embed : String → Except ε (List K)) (text : String) : Except ε (List (Number K)) :=
  (embed text).map (List.map Number.finite)

theorem isFinite_of_map {v : List K} : ∀ x ∈ v.map Number.finite, IsFinite x := by
  intro x member
  obtain ⟨y, -, rfl⟩ := List.mem_map.mp member
  exact ⟨y, rfl⟩

theorem isFinite_embedded (embed : String → Except ε (List K)) (text : String) :
    ∀ x ∈ embedded (finiteEmbed embed) text, IsFinite x := by
  unfold embedded finiteEmbed
  cases embed text with
  | error e => exact nofun
  | ok v => exact isFinite_of_map

/-- With numbers everywhere, every base score is a number. -/
theorem isFinite_base (embed : String → Except ε (List K)) (dim : Nat) (sentences : List String)
    (query : Option (List K)) (centrality : Nat → K) {canon : List (Scored K)}
    (scored : scoreAll hash root (finiteEmbed embed) dim sentences (query.map (List.map .finite))
      (fun i => .finite (centrality i)) = .ok canon) : ∀ s ∈ canon, IsFinite s.base := by
  rw [scoreAll_eq] at scored
  obtain ⟨embeds, batch, same⟩ : ∃ embeds, embedAll (finiteEmbed embed) dim
      (query.map (List.map .finite)) ((canonical hash sentences fun i => .finite (centrality i)).map
        Prod.fst) = .ok embeds ∧ entries hash root (embedded (finiteEmbed embed))
          (query.map (List.map .finite)) (centroidOf dim embeds) sentences
            (fun i => .finite (centrality i)) = canon := by
    cases ran : embedAll (finiteEmbed embed) dim (query.map (List.map .finite))
        ((canonical hash sentences fun i => .finite (centrality i)).map Prod.fst) with
    | error e =>
        rw [ran] at scored
        cases scored
    | ok embeds =>
        rw [ran] at scored
        exact ⟨embeds, rfl, Except.ok.inj scored⟩
  have vectors := embedAll_eq batch
  subst same
  intro s member
  obtain ⟨a, inCanon, rfl⟩ := List.mem_map.mp member
  have numbers : ∀ b ∈ canonical hash sentences fun i => .finite (centrality i),
      ∃ x, b.2 = .finite x := by
    intro b inB
    obtain ⟨i, -, rfl⟩ := List.mem_map.mp inB
    exact ⟨_, rfl⟩
  have shares : ∀ c ∈ (canonical hash sentences fun i => .finite (centrality i)).map
      (fun a => a.2.larger (.finite 0)), ∃ x, c = .finite x := by
    intro c inC
    obtain ⟨b, inB, rfl⟩ := List.mem_map.mp inC
    obtain ⟨x, same⟩ := numbers b inB
    exact ⟨max x 0, by rw [same]; rfl⟩
  refine isFinite_baseScore root ?_ (isFinite_centroidOf dim ?_ ?_) (isFinite_embedded embed a.1) ?_
  · intro q asked x inQ
    obtain ⟨v, -, rfl⟩ := Option.mem_map.mp asked
    exact isFinite_of_map x inQ
  · rw [vectors]
    simpa using List.ne_nil_of_mem inCanon
  · rw [vectors]
    intro v inV
    obtain ⟨t, -, rfl⟩ := List.mem_map.mp inV
    exact isFinite_embedded embed t
  · have inShares := List.mem_map_of_mem (f := fun a : String × Number K => a.2.larger (.finite 0)) inCanon
    rcases share_cases (fun c m => .inr (shares c m)) inShares with ⟨infinite, -⟩ | ⟨-, share⟩
    · obtain ⟨x, same⟩ := shares _ inShares
      rw [same] at infinite
      cases infinite
    · exact share

/-- **When a summary's scores fall.**  A summary of numbers is the one its picks tell.  Each pick
has the greatest effective score of what was not picked before, and the scores never rise, exactly
if each round is clear: some sentence of the greatest score has no near one with a smaller text
after it. -/
theorem summary_falls_iff (hash : String → D) (root : K → K) (embed : String → Except ε (List K))
    (dim : Nat) (sentences : List String) (query : Option (List K)) (centrality : Nat → K) (k : Nat)
    (mmrLambda : K) {picks : List (Pick K)}
    (ran : picksOf hash root (finiteEmbed embed) dim sentences (query.map (List.map .finite))
      (fun i => .finite (centrality i)) k (.finite mmrLambda) = .ok picks) :
    summarizeCommunity hash root (finiteEmbed embed) dim sentences (query.map (List.map .finite))
        (fun i => .finite (centrality i)) k (.finite mmrLambda) =
      .ok ⟨picks.map fun p => p.item.text, picks.map Pick.score⟩ ∧
    ∃ canon, (picks ≠ [] → scoreAll hash root (finiteEmbed embed) dim sentences
        (query.map (List.map .finite)) (fun i => .finite (centrality i)) = .ok canon) ∧
      (Greedily root ((Number.finite mmrLambda).clamp (.finite 0) (.finite 1)) canon picks ↔
        ∀ before p after, picks = before ++ p :: after →
          Clear root ((Number.finite mmrLambda).clamp (.finite 0) (.finite 1)) canon before) := by
  refine ⟨?_, ?_⟩
  · unfold summarizeCommunity
    rw [ran]
    rfl
  · unfold picksOf at ran
    split at ran
    · cases ran
      refine ⟨[], fun some_pick => absurd rfl some_pick, ?_⟩
      exact ⟨fun _ before p after split => by simp at split,
        fun _ => ⟨.nil, fun before p after split => by simp at split⟩⟩
    · obtain ⟨canon, scored, ran⟩ := Exec.bind_eq_ok.mp ran
      obtain rfl := Except.ok.inj ran
      have based := isFinite_base embed dim sentences query centrality scored
      obtain ⟨undefined, -⟩ | ⟨l, nonneg, -, clamped⟩ :=
        Number.clamp_cases zero_le_one (.finite mmrLambda : Number K)
      · cases undefined
      · rw [clamped]
        exact ⟨canon, fun _ => scored, greedily_iff based nonneg _⟩

end Summaries

/-! ### Two sentences an epsilon apart -/

/-- The first bytes of the BLAKE3 hashes of `a` and `b`. -/
def firstByte (text : String) : Nat := if text = "b" then 0x10 else 0x17

/-- An embedder that sees no difference. -/
def zeros (_ : String) : Except Unit (List ℚ) := .ok [0]

/-- The second sentence is more central, by less than the epsilon in its score. -/
def closeCentrality (i : Nat) : ℚ := if i = 0 then 1 - 1 / 2 ^ 22 else 1

def closeSummary (k : Nat) : Except (SummarizeError Unit) (Summary ℚ) :=
  summarizeCommunity firstByte squareRoot (finiteEmbed zeros) 1 ["a", "b"] none
    (fun i => .finite (closeCentrality i)) k (.finite 0)

/-- A summary of both sentences, whose rounds decide whether it falls. -/
theorem summary_falls_iff_close : ∃ picks, closeSummary 2 = .ok
      ⟨picks.map fun p => p.item.text, picks.map Pick.score⟩ ∧
    ∃ canon, (Greedily squareRoot ((Number.finite 0).clamp (.finite 0) (.finite 1)) canon picks ↔
      ∀ before p after, picks = before ++ p :: after →
        Clear squareRoot ((Number.finite (0 : ℚ)).clamp (.finite 0) (.finite 1)) canon before) := by
  cases ran : picksOf firstByte squareRoot (finiteEmbed zeros) 1 ["a", "b"] (none.map (List.map .finite))
      (fun i => .finite (closeCentrality i)) 2 (.finite 0) with
  | error e =>
      have returns : (picksOf firstByte squareRoot (finiteEmbed zeros) 1 ["a", "b"] none
        (fun i => .finite (closeCentrality i)) 2 (.finite 0)).isOk = true := by decide +kernel
      rw [show none = none.map (List.map Number.finite) from rfl, ran] at returns
      cases returns
  | ok picks =>
      obtain ⟨same, canon, -, falls⟩ := summary_falls_iff firstByte squareRoot zeros 1 ["a", "b"] none
        closeCentrality 2 0 ran
      exact ⟨picks, same, canon, falls⟩

/-- The scores of the two sentences rise: the sentence with the smaller text came second in the
canonical order, and took the place of the better one. -/
theorem summary_rises :
    (closeSummary 2).toOption = some ⟨["a", "b"], [.finite (1 / 5 - 1 / 5 / 2 ^ 22), .finite (1 / 5)]⟩ ∧
      ¬ [Number.finite (1 / 5 - 1 / 5 / 2 ^ 22 : ℚ), .finite (1 / 5)].Pairwise
        fun p q => Number.le q p = true := by
  decide +kernel

end Mnem.Graphrag
