/-
# Graphrag.LocalMove — moving nodes between communities

A pass visits the nodes in order and moves each to the community of a neighbour
where modularity gains most, if it gains more than the tolerance.  The gain that
the source computes is the gain of the score (`climb_eq`), so a move raises the
score by more than the tolerance (`visit_cases`).  The score is bounded, hence
the passes end (`localMove_settles`): with a partition in which no node has a
move left.
-/
import Mnem.Graphrag.Graph
import Mathlib.Tactic.FieldSimp

namespace Mnem.Graphrag

open Http Theory Index

set_option autoImplicit false

/-- `1e-12`. -/
def tolerance (K : Type) [Field K] : K := 1 / 10 ^ 12

/-- The label of a node. -/
def label (part : List Nat) (v : Nat) : Nat := part.getD v 0

/-- A partition under way: the labels, the degrees of each label, and whether a node was moved. -/
structure Moving (K : Type) where
  part : List Nat
  comDeg : OrdMap Nat K
  moved : Bool

section Model

variable {K : Type} [Field K] [LinearOrder K] (g : Graph K)

/-- The degrees by label. -/
def comDegrees (part : List Nat) : OrdMap Nat K := addUp (part.zip g.degrees) OrdMap.empty

/-- The weights of neighbours by their labels. -/
def labelWeights (part : List Nat) (neighbours : List (Nat × K)) : OrdMap Nat K :=
  addUp (neighbours.map fun e => (label part e.1, e.2)) OrdMap.empty

/-- A candidate replaces the best so far if it is better by more than the tolerance, or not worse
by more, and smaller. -/
def considered (cOld : Nat) (dq : Nat × K → K) (best e : Nat × K) : Nat × K :=
  if e.1 = cOld then best
  else if best.2 + tolerance K < dq e ||
      (best.2 - tolerance K < dq e && e.1 < best.1 && tolerance K < dq e) then (e.1, dq e)
  else best

def bestMove (cOld : Nat) (dq : Nat × K → K) (candidates : List (Nat × K)) : Nat × K :=
  candidates.foldl (considered cOld dq) (cOld, 0)

/-- Give `v`, of degree `kv`, the label `c` in place of `cOld`. -/
def Moving.moveTo (s : Moving K) (v cOld c : Nat) (kv : K) : Moving K where
  part := s.part.set v c
  comDeg := (s.comDeg.modify cOld fun w => w.getD 0 - kv).modify c fun w => w.getD 0 + kv
  moved := true

def visit (s : Moving K) (v : Nat) : Moving K :=
  let kv := g.degrees.getD v 0
  if kv ≤ 0 then s
  else
    let cOld := label s.part v
    let kvc := labelWeights s.part ((g.neighbours v).filter fun e => !decide (e.1 = v))
    let selfLoop := (((g.neighbours v).filter fun e => decide (e.1 = v)).map Prod.snd).sum
    let kvOld := (kvc.get? cOld).getD 0
    let sumOld := (s.comDeg.get? cOld).getD 0
    let best := bestMove cOld (fun e => (e.2 - kvOld) / (g.m2 / 2) +
      kv * (sumOld - (s.comDeg.get? e.1).getD 0 - kv + 2 * selfLoop) / (g.m2 * g.m2 / 2)) kvc.entries
    if best.1 ≠ cOld ∧ tolerance K < best.2 then s.moveTo v cOld best.1 kv else s

/-- The label that a visit finds best, and what the source computes for it. -/
def proposal (s : Moving K) (v : Nat) : Nat × K :=
  let kv := g.degrees.getD v 0
  let cOld := label s.part v
  let kvc := labelWeights s.part ((g.neighbours v).filter fun e => !decide (e.1 = v))
  let selfLoop := (((g.neighbours v).filter fun e => decide (e.1 = v)).map Prod.snd).sum
  bestMove cOld (fun e => (e.2 - (kvc.get? cOld).getD 0) / (g.m2 / 2) +
    kv * ((s.comDeg.get? cOld).getD 0 - (s.comDeg.get? e.1).getD 0 - kv + 2 * selfLoop) /
      (g.m2 * g.m2 / 2)) kvc.entries

theorem visit_eq (s : Moving K) (v : Nat) : visit g s v =
    if g.degrees.getD v 0 ≤ 0 then s
    else if (proposal g s v).1 ≠ label s.part v ∧ tolerance K < (proposal g s v).2 then
      s.moveTo v (label s.part v) (proposal g s v).1 (g.degrees.getD v 0)
    else s := rfl

def pass (s : Moving K) : Moving K :=
  (List.range g.adjList.length).foldl (visit g) { s with moved := false }

/-- Passes until one moves nothing. -/
def localMoveLoop : Nat → Moving K → Option (List Nat)
  | 0, _ => none
  | fuel + 1, s =>
      let s := pass g s
      if s.moved then localMoveLoop fuel s else some s.part

def localMove (fuel : Nat) (part : List Nat) : Option (List Nat) :=
  if g.m2 ≤ 0 then some part else localMoveLoop g fuel ⟨part, comDegrees g part, false⟩

omit [LinearOrder K] in
/-- Labels with weights are labels of neighbours. -/
theorem mem_labelWeights {part : List Nat} {near : List (Nat × K)} {e : Nat × K}
    (m : e ∈ (labelWeights part near).entries) : ∃ d ∈ near, label part d.1 = e.1 := by
  have found := (OrdMap.get?_eq_some_iff _).mpr m
  rw [labelWeights, get?_addUp] at found
  split at found
  · rename_i known
    obtain ⟨x, inMap, at_e⟩ := List.mem_map.mp known
    obtain ⟨d, inNear, rfl⟩ := List.mem_map.mp inMap
    exact ⟨d, inNear, at_e⟩
  · cases found

/-! ## The best move -/

variable {g}

/-- A candidate with a gain. -/
def Gains (cOld : Nat) (dq : Nat × K → K) (candidates : List (Nat × K)) (best : Nat × K) : Prop :=
  ∃ e ∈ candidates, e.1 ≠ cOld ∧ tolerance K < dq e ∧ best = (e.1, dq e)

/-- Once there is a gain, the best is always a candidate with a gain. -/
theorem Gains.considered [IsStrictOrderedRing K] {cOld : Nat} {dq : Nat × K → K}
    {candidates : List (Nat × K)} {best : Nat × K} (gains : Gains cOld dq candidates best)
    {d : Nat × K} (known : d ∈ candidates) :
    Gains cOld dq candidates (considered cOld dq best d) := by
  have tiny : 0 < tolerance K := by
    unfold tolerance
    positivity
  unfold Graphrag.considered
  split
  · exact gains
  · rename_i other
    split
    · rename_i better
      obtain ⟨e, -, -, more, rfl⟩ := gains
      refine ⟨d, known, other, ?_, rfl⟩
      rw [Bool.or_eq_true, Bool.and_eq_true, decide_eq_true_eq, decide_eq_true_eq] at better
      rcases better with larger | ⟨-, large⟩
      · dsimp only at larger
        linarith
      · exact large
    · exact gains

/-- From staying, a candidate is taken exactly if it gains. -/
theorem considered_stay (cOld : Nat) (dq : Nat × K → K) (d : Nat × K) :
    considered cOld dq (cOld, 0) d =
      if d.1 ≠ cOld ∧ tolerance K < dq d then (d.1, dq d) else (cOld, 0) := by
  unfold considered
  by_cases own : d.1 = cOld
  · rw [if_pos own, if_neg fun taken => taken.1 own]
  · rw [if_neg own]
    refine if_congr ?_ rfl rfl
    simp only [zero_add, Bool.or_eq_true, Bool.and_eq_true, decide_eq_true_eq]
    constructor
    · rintro (gains | ⟨-, gains⟩)
      · exact ⟨own, gains⟩
      · exact ⟨own, gains⟩
    · exact fun taken => Or.inl taken.2

theorem bestMove_cases [IsStrictOrderedRing K] (cOld : Nat) (dq : Nat × K → K)
    (candidates : List (Nat × K)) :
    (bestMove cOld dq candidates = (cOld, 0) ∧
      ∀ e ∈ candidates, e.1 ≠ cOld → dq e ≤ tolerance K) ∨
    Gains cOld dq candidates (bestMove cOld dq candidates) := by
  have later : ∀ cs : List (Nat × K), cs ⊆ candidates → ∀ best, Gains cOld dq candidates best →
      Gains cOld dq candidates (cs.foldl (considered cOld dq) best) := by
    intro cs
    induction cs with
    | nil => exact fun _ best gains => gains
    | cons d cs ih =>
        intro part best gains
        obtain ⟨first, rest⟩ := List.cons_subset.mp part
        exact ih rest _ (gains.considered first)
  have start : ∀ cs : List (Nat × K), cs ⊆ candidates →
      (cs.foldl (considered cOld dq) (cOld, 0) = (cOld, 0) ∧
        ∀ e ∈ cs, e.1 ≠ cOld → dq e ≤ tolerance K) ∨
      Gains cOld dq candidates (cs.foldl (considered cOld dq) (cOld, 0)) := by
    intro cs
    induction cs with
    | nil => exact fun _ => Or.inl ⟨rfl, fun e m => by cases m⟩
    | cons d cs ih =>
        intro part
        obtain ⟨first, rest⟩ := List.cons_subset.mp part
        rw [List.foldl_cons, considered_stay]
        split
        · rename_i taken
          exact Or.inr (later cs rest _ ⟨d, first, taken.1, taken.2, rfl⟩)
        · rename_i left
          rcases ih rest with ⟨stays, small⟩ | gains
          · refine Or.inl ⟨stays, fun e m other => ?_⟩
            rcases List.mem_cons.mp m with rfl | inRest
            · exact not_lt.mp fun gains => left ⟨other, gains⟩
            · exact small e inRest other
          · exact Or.inr gains
  exact start candidates (List.Subset.refl _)

/-! ## The score -/

/-- The modularity of a partition, by pairs. -/
def score (g : Graph K) (part : List Nat) : K :=
  together g.indices (excess g.indices g.weight) (label part)

/-- What a node gains by a label in place of its own. -/
def gain (g : Graph K) (part : List Nat) (v c : Nat) : K :=
  2 * (pull g.indices (excess g.indices g.weight) (label part) v c -
    pull g.indices (excess g.indices g.weight) (label part) v (label part v))

/-- What a node gains in units of `m2`, whatever the weights add up to. -/
def climb (g : Graph K) (part : List Nat) (v c : Nat) : K :=
  2 * (pull g.indices (excessBy g.m2 g.indices g.weight) (label part) v c -
    pull g.indices (excessBy g.m2 g.indices g.weight) (label part) v (label part v))

/-- The modularity in units of `m2`, by pairs. -/
def quality (g : Graph K) (part : List Nat) : K :=
  together g.indices (excessBy g.m2 g.indices g.weight) (label part)

/-- A visit passes the node over, or finds no neighbour's label that gains more than the tolerance. -/
def Rested (g : Graph K) (part : List Nat) (v : Nat) : Prop :=
  degree g.indices g.weight v ≤ 0 ∨ ∀ e ∈ g.neighbours v, label part e.1 ≠ label part v →
    climb g part v (label part e.1) ≤ tolerance K

/-- No neighbour's label gains a node more than the tolerance. -/
def Settled (g : Graph K) (part : List Nat) (v : Nat) : Prop :=
  ∀ u ∈ neighbours g.indices g.weight v, label part u ≠ label part v →
    gain g part v (label part u) ≤ tolerance K

/-- The degrees that are kept are those of the labels. -/
structure Tracks (g : Graph K) (s : Moving K) : Prop where
  long : s.part.length = g.nodes.length
  degrees : ∀ c, (s.comDeg.get? c).getD 0 = volume g.indices g.weight (label s.part) c

theorem label_set {part : List Nat} {v : Nat} (inside : v < part.length) (c : Nat) :
    label (part.set v c) = Function.update (label part) v c := by
  funext u
  unfold label
  rw [List.getD_eq_getElem?_getD, List.getElem?_set]
  by_cases same : v = u
  · subst same
    rw [if_pos rfl, if_pos inside, Function.update_self]
    rfl
  · rw [if_neg same, Function.update_of_ne (Ne.symm same), List.getD_eq_getElem?_getD]

section Gains

variable (symmetric : Symmetric g)
include symmetric

omit [LinearOrder K] in
theorem quality_set {part : List Nat} (long : part.length = g.nodes.length) {v : Nat}
    (inside : v < g.nodes.length) (c : Nat) :
    quality g (part.set v c) = quality g part + climb g part v c := by
  unfold quality
  rw [label_set (by omega)]
  exact together_update (excessBy_symm _ g.indices symmetric.symm) (label part)
    (Finset.mem_range.mpr inside) c

omit [LinearOrder K] in
theorem Tracks.moveTo {s : Moving K} (tracks : Tracks g s) {v : Nat} (inside : v < g.nodes.length)
    {c : Nat} (other : c ≠ label s.part v) :
    Tracks g (s.moveTo v (label s.part v) c (g.degrees.getD v 0)) where
  long := by
    show (s.part.set v c).length = _
    rw [List.length_set, tracks.long]
  degrees d := by
    show (((s.comDeg.modify _ _).modify _ _).get? d).getD 0 =
      volume g.indices g.weight (label (s.part.set v c)) d
    rw [label_set (by rw [tracks.long]; exact inside),
      volume_update g.indices _ _ (Finset.mem_range.mpr inside), OrdMap.get?_modify, OrdMap.get?_modify,
      OrdMap.get?_modify, symmetric.getD_degrees, ← tracks.degrees d]
    by_cases arrives : c = d
    · subst arrives
      rw [if_pos rfl, if_neg (Ne.symm other), if_neg (Ne.symm other), if_pos rfl, sub_zero]
      rfl
    · rw [if_neg arrives, if_neg arrives, add_zero]
      by_cases from_d : label s.part v = d
      · subst from_d
        rw [if_pos rfl, if_pos rfl]
        rfl
      · rw [if_neg from_d, if_neg from_d, sub_zero]

omit [LinearOrder K] in
/-- The weights that a node has to some of the nodes of a label. -/
theorem getD_labelWeights_filter (part : List Nat) (v c : Nat) (q : Nat → Bool) :
    ((labelWeights part ((g.neighbours v).filter fun e => q e.1)).get? c).getD 0 =
      ∑ u ∈ g.indices with (q u = true ∧ label part u = c), g.weight v u := by
  have sum := symmetric.sum_weight v fun u => q u && decide (label part u = c)
  simp only [Bool.and_eq_true, decide_eq_true_eq] at sum
  have given : givenTo (((g.neighbours v).filter fun e => q e.1).map fun e =>
      (label part e.1, e.2)) c =
      (((g.neighbours v).filter fun e => q e.1 && decide (label part e.1 = c)).map Prod.snd).sum := by
    rw [givenTo, List.filter_map, List.map_map, List.filter_filter]
    refine congrArg List.sum (congrArg _ (List.filter_congr fun e _ => ?_))
    exact Bool.and_comm _ _
  rw [sum, ← given, labelWeights, get?_addUp]
  split
  · rw [OrdMap.get?_empty, Option.getD_none, zero_add]
    rfl
  · rename_i absent
    rw [givenTo_eq_zero absent]
    rfl

omit [LinearOrder K] in
/-- To all of them. -/
theorem getD_labelWeights (part : List Nat) (v c : Nat) :
    ((labelWeights part (g.neighbours v)).get? c).getD 0 =
      ∑ u ∈ g.indices with label part u = c, g.weight v u := by
  have all := getD_labelWeights_filter symmetric part v c fun _ => true
  simpa using all

omit [LinearOrder K] symmetric in
/-- The labels with weights are those of the neighbours. -/
theorem mem_labelWeights_iff (part : List Nat) (near : List (Nat × K)) (c : Nat) :
    (∃ w, (c, w) ∈ (labelWeights part near).entries) ↔ ∃ e ∈ near, label part e.1 = c := by
  have keys : (∃ w, (c, w) ∈ (labelWeights part near).entries) ↔
      c ∈ (near.map fun e => (label part e.1, e.2)).map Prod.fst := by
    simp only [← OrdMap.get?_eq_some_iff, labelWeights, get?_addUp, OrdMap.get?_empty]
    split
    · exact iff_of_true ⟨_, rfl⟩ ‹_›
    · exact iff_of_false (fun found => by obtain ⟨w, same⟩ := found; cases same) ‹_›
  rw [keys, List.map_map]
  exact List.mem_map

omit [LinearOrder K] in
/-- **The gain that the source computes is the gain of the score.** -/
theorem climb_eq (nonzero : g.m2 ≠ 0) (part : List Nat) {v c : Nat} (inside : v < g.nodes.length)
    (other : c ≠ label part v) :
    ((∑ u ∈ g.indices with label part u = c, g.weight v u) -
        ∑ u ∈ g.indices with label part u = label part v, g.weight v u) / (g.m2 / 2) +
      degree g.indices g.weight v * (volume g.indices g.weight (label part) (label part v) -
        volume g.indices g.weight (label part) c - degree g.indices g.weight v) /
          (g.m2 * g.m2 / 2) = climb g part v c :=
  (pull_sub_pull nonzero g.indices g.weight (label part) (Finset.mem_range.mpr inside)
    (Ne.symm other) (symmetric.weight_self v)).symm

end Gains

section Total

variable (undirected : Undirected g)
include undirected

theorem climb_eq_gain (part : List Nat) (v c : Nat) : climb g part v c = gain g part v c := by
  unfold climb
  rw [undirected.total, excessBy_total]
  rfl

theorem quality_eq_score (part : List Nat) : quality g part = score g part := by
  unfold quality
  rw [undirected.total, excessBy_total]
  rfl

theorem score_set {part : List Nat} (long : part.length = g.nodes.length) {v : Nat}
    (inside : v < g.nodes.length) (c : Nat) :
    score g (part.set v c) = score g part + gain g part v c := by
  rw [← quality_eq_score undirected, ← quality_eq_score undirected, ← climb_eq_gain undirected,
    quality_set undirected.symmetric long inside]

theorem Rested.settled [IsStrictOrderedRing K] {part : List Nat} {v : Nat}
    (rested : Rested g part v) : Settled g part v := by
  intro u near other
  obtain ⟨inV, pos⟩ := Finset.mem_filter.mp near
  rcases rested with none | small
  · have more := Finset.single_le_sum (fun u _ => undirected.weight_nonneg v u) inV
    exact absurd (lt_of_lt_of_le pos more) none.not_gt
  · obtain ⟨e, m, rfl⟩ := List.mem_map.mp ((undirected.weight_pos_iff v u).mp pos)
    rw [← climb_eq_gain undirected]
    exact small e m other

end Total

/-! ## Passes -/

section Passes

variable [IsStrictOrderedRing K]

theorem tolerance_pos : 0 < tolerance K := by
  unfold tolerance
  positivity

/-- **What a visit proposes**: to stay, where no neighbour's label gains more than the tolerance,
or a label with its gain, which is more. -/
theorem proposal_cases (symmetric : Symmetric g) (nonzero : g.m2 ≠ 0) {s : Moving K}
    (tracks : Tracks g s) {v : Nat} (inside : v < g.nodes.length) :
    (proposal g s v = (label s.part v, 0) ∧ ∀ e ∈ g.neighbours v,
      label s.part e.1 ≠ label s.part v → climb g s.part v (label s.part e.1) ≤ tolerance K) ∨
    ((proposal g s v).1 ≠ label s.part v ∧ tolerance K < (proposal g s v).2 ∧
      (proposal g s v).2 = climb g s.part v (proposal g s v).1) := by
  have whole : ((g.neighbours v).filter fun e => !decide (e.1 = v)) = g.neighbours v := by
    rw [List.filter_eq_self]
    intro e m
    simpa using symmetric.loopless v e m
  have loops : ((g.neighbours v).filter fun e => decide (e.1 = v)) = [] := by
    rw [List.filter_eq_nil_iff]
    intro e m
    simpa using symmetric.loopless v e m
  unfold proposal
  dsimp only
  rw [whole, loops, symmetric.getD_degrees, tracks.degrees, getD_labelWeights symmetric]
  -- what the source computes for a candidate is its gain
  have gains : ∀ e ∈ (labelWeights s.part (g.neighbours v)).entries, e.1 ≠ label s.part v →
      (e.2 - ∑ u ∈ g.indices with label s.part u = label s.part v, g.weight v u) / (g.m2 / 2) +
        degree g.indices g.weight v *
          (volume g.indices g.weight (label s.part) (label s.part v) -
            (s.comDeg.get? e.1).getD 0 - degree g.indices g.weight v +
              2 * (List.map Prod.snd ([] : List (Nat × K))).sum) / (g.m2 * g.m2 / 2) =
      climb g s.part v e.1 := by
    intro e m other
    have found := (OrdMap.get?_eq_some_iff _).mpr m
    have weight := getD_labelWeights symmetric s.part v e.1
    rw [found, Option.getD_some] at weight
    rw [weight, tracks.degrees, List.map_nil, List.sum_nil, mul_zero, add_zero]
    exact climb_eq symmetric nonzero s.part inside other
  rcases bestMove_cases (label s.part v) _ (labelWeights s.part (g.neighbours v)).entries with
    ⟨stays, small⟩ | ⟨e, m, other, more, best⟩
  · refine .inl ⟨stays, fun d near other => ?_⟩
    obtain ⟨w, m⟩ := (mem_labelWeights_iff s.part (g.neighbours v) _).mpr ⟨d, near, rfl⟩
    rw [← gains _ m other]
    exact small _ m other
  · rw [best]
    exact .inr ⟨other, more, gains e m other⟩

/-- **A visit leaves a node at rest, or raises the score by what it computed.** -/
theorem visit_cases (symmetric : Symmetric g) (nonzero : g.m2 ≠ 0) {s : Moving K}
    (tracks : Tracks g s) {v : Nat} (inside : v < g.nodes.length) :
    (visit g s v = s ∧ Rested g s.part v) ∨
      ((visit g s v).moved = true ∧ (visit g s v).part = s.part.set v (proposal g s v).1 ∧
        Tracks g (visit g s v) ∧ tolerance K < (proposal g s v).2 ∧
        quality g (visit g s v).part = quality g s.part + (proposal g s v).2) := by
  rw [visit_eq, symmetric.getD_degrees]
  split
  · exact .inl ⟨rfl, .inl ‹_›⟩
  · rcases proposal_cases symmetric nonzero tracks inside with ⟨stays, small⟩ | ⟨other, more, same⟩
    · rw [stays, if_neg fun moves => moves.1 rfl]
      exact .inl ⟨rfl, .inr small⟩
    · rw [if_pos ⟨other, more⟩, ← symmetric.getD_degrees]
      refine .inr ⟨rfl, rfl, tracks.moveTo symmetric inside other, more, ?_⟩
      rw [same]
      exact quality_set symmetric tracks.long inside _

/-- A pass over some nodes: nothing moves and all of them are at rest, or the score rises. -/
theorem visits_cases (symmetric : Symmetric g) (nonzero : g.m2 ≠ 0) (vs : List Nat)
    (inside : ∀ v ∈ vs, v < g.nodes.length) {s : Moving K} (tracks : Tracks g s) :
    Tracks g (vs.foldl (visit g) s) ∧
      ((vs.foldl (visit g) s = s ∧ ∀ v ∈ vs, Rested g s.part v) ∨
        ((vs.foldl (visit g) s).moved = true ∧
          quality g s.part + tolerance K < quality g (vs.foldl (visit g) s).part)) := by
  induction vs generalizing s with
  | nil => exact ⟨tracks, Or.inl ⟨rfl, fun v m => by cases m⟩⟩
  | cons v vs ih =>
      have rest := fun u m => inside u (List.mem_cons_of_mem v m)
      rw [List.foldl_cons]
      rcases visit_cases symmetric nonzero tracks (inside v List.mem_cons_self) with
        ⟨same, rested⟩ | ⟨moved, -, tracks', more, rises⟩
      · rw [same]
        obtain ⟨tracked, ⟨stays, all⟩ | rises⟩ := ih rest tracks
        · refine ⟨tracked, Or.inl ⟨stays, fun u m => ?_⟩⟩
          rcases List.mem_cons.mp m with rfl | later
          · exact rested
          · exact all u later
        · exact ⟨tracked, Or.inr rises⟩
      · obtain ⟨tracked, ⟨stays, -⟩ | ⟨moved', rises'⟩⟩ := ih rest tracks'
        · refine ⟨tracked, Or.inr ?_⟩
          rw [stays, rises]
          exact ⟨moved, add_lt_add_right more _⟩
        · refine ⟨tracked, Or.inr ⟨moved', ?_⟩⟩
          have tiny := tolerance_pos (K := K)
          linarith

/-- A partition at rest that is no worse. -/
structure Climbed (g : Graph K) (part part' : List Nat) : Prop where
  long : part'.length = g.nodes.length
  rested : ∀ v < g.nodes.length, Rested g part' v
  rises : quality g part ≤ quality g part'

/-- The passes end before the score is out of bounds, in a state that visits lead to. -/
theorem localMoveLoop_ends (symmetric : Symmetric g) (nonzero : g.m2 ≠ 0) {bound : K}
    (bounded : ∀ part, quality g part ≤ bound) {P : Moving K → Prop}
    (lower : ∀ s, P s → P { s with moved := false })
    (step : ∀ s, ∀ v < g.nodes.length, P s → P (visit g s v)) (fuel : Nat) {s : Moving K}
    (start : P s) (tracks : Tracks g s) (enough : bound < quality g s.part + fuel * tolerance K) :
    ∃ s', P s' ∧ localMoveLoop g fuel s = some s'.part ∧ Climbed g s.part s'.part := by
  induction fuel generalizing s with
  | zero =>
      rw [Nat.cast_zero, zero_mul, add_zero] at enough
      exact absurd enough (bounded s.part).not_gt
  | succ fuel ih =>
      have fresh : Tracks g { s with moved := false } := ⟨tracks.long, tracks.degrees⟩
      have inside : ∀ v ∈ List.range g.adjList.length, v < g.nodes.length := by
        intro v m
        rw [← symmetric.long]
        exact List.mem_range.mp m
      have visits : ∀ vs : List Nat, (∀ v ∈ vs, v < g.nodes.length) → ∀ s, P s →
          P (vs.foldl (visit g) s) := by
        intro vs
        induction vs with
        | nil => exact fun _ s holds => holds
        | cons v vs ih =>
            intro low s holds
            obtain ⟨first, rest⟩ := List.forall_mem_cons.mp low
            exact ih rest _ (step s v first holds)
      have passed : P (pass g s) := visits _ inside _ (lower s start)
      obtain ⟨tracked, ⟨stays, rested⟩ | ⟨moved, rises⟩⟩ :=
        visits_cases symmetric nonzero _ inside fresh
      · refine ⟨{ s with moved := false }, lower s start, ?_, tracks.long, fun v low => rested v ?_,
          le_refl _⟩
        · show (if (pass g s).moved = true then _ else some (pass g s).part) = _
          rw [pass, stays]
          rfl
        · rw [List.mem_range, symmetric.long]
          exact low
      · have rises : quality g s.part + tolerance K < quality g (pass g s).part := rises
        obtain ⟨s', holds, found, climbed⟩ := ih passed tracked (by
          rw [Nat.cast_succ, add_mul, one_mul] at enough
          linarith)
        refine ⟨s', holds, ?_, climbed.long, climbed.rested, ?_⟩
        · show (if (pass g s).moved = true then localMoveLoop g fuel (pass g s) else _) = _
          rw [← found]
          exact if_pos moved
        · have tiny := tolerance_pos (K := K)
          have later := climbed.rises
          linarith

/-- A settled partition that is no worse. -/
structure Improved (g : Graph K) (part part' : List Nat) : Prop where
  long : part'.length = g.nodes.length
  settled : ∀ v < g.nodes.length, Settled g part' v
  rises : score g part ≤ score g part'

theorem score_bounds (undirected : Undirected g) (positive : 0 < g.m2) (part : List Nat) :
    -1 ≤ score g part ∧ score g part ≤ 1 :=
  modularity_bounds (fun u v => undirected.weight_nonneg u v) (undirected.total ▸ positive) _

omit [IsStrictOrderedRing K] in
theorem localMoveLoop_mono {fuel more : Nat} (le : fuel ≤ more) {s : Moving K} {part : List Nat}
    (found : localMoveLoop g fuel s = some part) : localMoveLoop g more s = some part := by
  induction fuel generalizing s more with
  | zero => cases found
  | succ fuel ih =>
      obtain ⟨n, rfl⟩ : ∃ n, more = n + 1 := ⟨more - 1, by omega⟩
      unfold localMoveLoop at found ⊢
      dsimp only at found ⊢
      split at found
      · rename_i moved
        rw [if_pos moved]
        exact ih (by omega) found
      · rename_i still
        rw [if_neg still]
        exact found

omit [LinearOrder K] [IsStrictOrderedRing K] in
/-- The degrees by label, node by node. -/
theorem givenTo_degrees (g : Graph K) (part : List Nat) (c : Nat) :
    givenTo ((List.range g.nodes.length).map fun u => (label part u, degree g.indices g.weight u)) c =
      volume g.indices g.weight (label part) c := by
  have sum := sum_filter_range g.nodes.length (fun u => decide (label part u = c))
    (degree g.indices g.weight)
  simp only [decide_eq_true_eq] at sum
  rw [givenTo, List.filter_map, List.map_map]
  exact sum

omit [LinearOrder K] [IsStrictOrderedRing K] in
theorem getD_addUp (xs : List (Nat × K)) (c : Nat) :
    ((addUp xs OrdMap.empty).get? c).getD 0 = givenTo xs c := by
  rw [get?_addUp]
  split
  · rw [OrdMap.get?_empty, Option.getD_none, zero_add]
    rfl
  · exact (givenTo_eq_zero ‹_›).symm

omit [LinearOrder K] [IsStrictOrderedRing K] in
theorem tracks_comDegrees (symmetric : Symmetric g) {part : List Nat}
    (long : part.length = g.nodes.length) : Tracks g ⟨part, comDegrees g part, false⟩ where
  long := long
  degrees c := by
    have degrees_long : g.degrees.length = g.nodes.length := by
      rw [Graph.degrees, List.length_map, symmetric.long]
    have indexed : part.zip g.degrees =
        (List.range g.nodes.length).map fun u => (label part u, degree g.indices g.weight u) := by
      refine List.ext_getElem (by simp [long, degrees_long]) fun u low high => ?_
      have low' : u < g.nodes.length := by simpa using high
      rw [List.getElem_zip, List.getElem_map, List.getElem_range, ← symmetric.getD_degrees u]
      unfold label
      rw [List.getD_eq_getElem?_getD, List.getD_eq_getElem?_getD,
        List.getElem?_eq_getElem (by omega), List.getElem?_eq_getElem (by omega)]
      rfl
    show ((comDegrees g part).get? c).getD 0 = _
    rw [comDegrees, getD_addUp, indexed, givenTo_degrees]

/-- **Local moving ends, with a settled partition that is no worse.** -/
theorem localMove_settles (undirected : Undirected g) {part : List Nat}
    (long : part.length = g.nodes.length) :
    ∃ part', (∀ fuel, 2 * 10 ^ 12 < fuel → localMove g fuel part = some part') ∧
      Improved g part part' := by
  by_cases none : g.m2 ≤ 0
  · refine ⟨part, fun fuel _ => if_pos none, long, fun v low u near => ?_, le_refl _⟩
    have pos := (Finset.mem_filter.mp near).2
    have row := Finset.single_le_sum (fun u _ => undirected.weight_nonneg v u)
      (Finset.mem_filter.mp near).1
    have all := Finset.single_le_sum (f := degree g.indices g.weight)
      (fun u _ => Finset.sum_nonneg fun w _ => undirected.weight_nonneg u w)
      (Finset.mem_range.mpr low : v ∈ g.indices)
    rw [undirected.total] at none
    exact absurd (lt_of_lt_of_le pos (row.trans all)) none.not_gt
  · have positive := not_le.mp none
    have tracks := tracks_comDegrees undirected.symmetric long
    have low := (score_bounds undirected positive part).1
    have enough : 1 < score g part + ((2 * 10 ^ 12 + 1 : Nat) : K) * tolerance K := by
      have cast : ((2 * 10 ^ 12 + 1 : Nat) : K) * tolerance K = 2 + tolerance K := by
        unfold tolerance
        push_cast
        field_simp
        norm_num
      have tiny := tolerance_pos (K := K)
      rw [cast]
      linarith
    rw [← quality_eq_score undirected] at enough
    obtain ⟨s', -, found, climbed⟩ := localMoveLoop_ends undirected.symmetric positive.ne'
      (fun part => (quality_eq_score undirected part).trans_le
        (score_bounds undirected positive part).2)
      (P := fun _ => True) (fun _ _ => trivial) (fun _ _ _ _ => trivial) _ trivial tracks enough
    refine ⟨s'.part, fun fuel more => (if_neg none).trans (localMoveLoop_mono more found),
      climbed.long, fun v low => (climbed.rested v low).settled undirected, ?_⟩
    rw [← quality_eq_score undirected, ← quality_eq_score undirected]
    exact climbed.rises

end Passes

end Model

end Mnem.Graphrag
