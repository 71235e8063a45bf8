/-
# Graphrag.Refine — splitting communities

The refinement starts again from single nodes and moves each once, within its
community and only where it is well connected.  A label is then never shared
across communities (`Nested`), so what the source counts for a candidate is all
the weight there is to its label, and again a move raises the score: the refined
partition is no worse than the one of single nodes (`refinePartition_improves`).
-/
import Mnem.Graphrag.LocalMove

namespace Mnem.Graphrag

open Http Theory Index

set_option autoImplicit false

section Model

variable {K : Type} [Field K] [LinearOrder K] (g : Graph K)

def visitRefined (outer : List Nat) (gammaThresh : K) (s : Moving K) (v : Nat) : Moving K :=
  let kv := g.degrees.getD v 0
  if kv ≤ 0 then s
  else
    let kvc := labelWeights s.part ((g.neighbours v).filter fun e =>
      !decide (e.1 = v) && decide (label outer e.1 = label outer v))
    let cOld := label s.part v
    let sumOld := (s.comDeg.get? cOld).getD 0
    let kvOld := (kvc.get? cOld).getD 0
    let best := bestMove cOld (fun e => (e.2 - kvOld) / (g.m2 / 2) +
      kv * (sumOld - (s.comDeg.get? e.1).getD 0 - kv) / (g.m2 * g.m2 / 2))
      -- the gate: too weakly connected
      (kvc.entries.filter fun e => !decide (e.2 < gammaThresh * kv))
    if best.1 ≠ cOld ∧ tolerance K < best.2 then s.moveTo v cOld best.1 kv else s

/-- The nodes of each community. -/
def byCom (part : List Nat) : OrdMap Nat (List Nat) := Groups.pushAll OrdMap.empty part.zipIdx

/-- Each node of a community once. -/
def refineCommunity (outer : List Nat) (s : Moving K) (members : List Nat) : Moving K :=
  let totalC := (members.map fun i => g.degrees.getD i 0).sum
  members.foldl (visitRefined g outer (totalC / g.m2)) s

def refinePartition (part : List Nat) : List Nat :=
  if g.m2 ≤ 0 then part
  else
    let singletons := List.range g.adjList.length
    ((byCom part).values.foldl (refineCommunity g part)
      ⟨singletons, comDegrees g singletons, false⟩).part

/-- Nodes with one label are in one community. -/
def Nested (outer part : List Nat) : Prop :=
  ∀ u < g.nodes.length, ∀ v < g.nodes.length,
    label part u = label part v → label outer u = label outer v

variable {g} [IsStrictOrderedRing K]

/-- A partition on the way, no worse than the one it started from. -/
structure Refining (g : Graph K) (outer : List Nat) (start : K) (s : Moving K) : Prop where
  tracks : Tracks g s
  nested : Nested g outer s.part
  rises : start ≤ score g s.part

theorem Refining.visit (undirected : Undirected g) (positive : 0 < g.m2) {outer : List Nat}
    {start : K} {s : Moving K} (refining : Refining g outer start s) (gammaThresh : K) {v : Nat}
    (inside : v < g.nodes.length) :
    Refining g outer start (visitRefined g outer gammaThresh s v) := by
  obtain ⟨tracks, nested, rises⟩ := refining
  have degree_v := undirected.symmetric.getD_degrees v
  unfold visitRefined
  dsimp only
  split
  · exact ⟨tracks, nested, rises⟩
  · -- what is counted for a label of the community is all there is
    have counted : ∀ c, (∀ u < g.nodes.length, label s.part u = c → label outer u = label outer v) →
        ((labelWeights s.part ((g.neighbours v).filter fun e =>
          !decide (e.1 = v) && decide (label outer e.1 = label outer v))).get? c).getD 0 =
          ∑ u ∈ g.indices with label s.part u = c, g.weight v u := by
      intro c within
      rw [getD_labelWeights_filter undirected.symmetric s.part v c fun u =>
        !decide (u = v) && decide (label outer u = label outer v), Finset.sum_filter,
        Finset.sum_filter]
      refine Finset.sum_congr rfl fun u m => ?_
      by_cases self : u = v
      · rw [self, undirected.symmetric.weight_self, ite_self, ite_self]
      · refine if_congr ?_ rfl rfl
        constructor
        · exact fun both => both.2
        · intro at_c
          refine ⟨?_, at_c⟩
          simp [self, within u (Finset.mem_range.mp m) at_c]
    generalize entries_eq : (labelWeights s.part ((g.neighbours v).filter fun e =>
      !decide (e.1 = v) && decide (label outer e.1 = label outer v))) = kvc at counted ⊢
    rw [counted (label s.part v) fun u low same => nested u low v inside same, degree_v,
      tracks.degrees]
    rcases bestMove_cases (label s.part v) _
        (kvc.entries.filter fun e => !decide (e.2 < gammaThresh * degree g.indices g.weight v)) with
      ⟨stays, -⟩ | ⟨e, m, other, more, best⟩
    · rw [stays, if_neg fun moves => moves.1 rfl]
      exact ⟨tracks, nested, rises⟩
    · have inEntries := (List.mem_filter.mp m).1
      have found := (OrdMap.get?_eq_some_iff _).mpr inEntries
      -- the label is that of a neighbour in the community
      obtain ⟨u, low, at_label, same_outer⟩ : ∃ u < g.nodes.length, label s.part u = e.1 ∧
          label outer u = label outer v := by
        obtain ⟨d, kept, at_e⟩ := mem_labelWeights (entries_eq ▸ inEntries)
        obtain ⟨near, counts⟩ := List.mem_filter.mp kept
        rw [Bool.and_eq_true, decide_eq_true_eq] at counts
        exact ⟨d.1, (undirected.inside v d near).2.1, at_e, counts.2⟩
      have within : ∀ u' < g.nodes.length, label s.part u' = e.1 →
          label outer u' = label outer v := fun u' low' at_e =>
        (nested u' low' u low (at_e.trans at_label.symm)).trans same_outer
      have weight := counted e.1 within
      rw [found, Option.getD_some] at weight
      rw [best, if_pos ⟨other, more⟩, ← degree_v]
      rw [weight, tracks.degrees, climb_eq undirected.symmetric positive.ne' s.part inside other,
        climb_eq_gain undirected] at more
      refine ⟨tracks.moveTo undirected.symmetric inside other, ?_, ?_⟩
      · intro a lowA b lowB same
        change label (s.part.set v e.1) a = label (s.part.set v e.1) b at same
        rw [label_set (by rw [tracks.long]; exact inside)] at same
        by_cases isA : a = v
        · by_cases isB : b = v
          · rw [isA, isB]
          · rw [isA, Function.update_self, Function.update_of_ne isB] at same
            rw [isA]
            exact (within b lowB same.symm).symm
        · by_cases isB : b = v
          · rw [isB, Function.update_self, Function.update_of_ne isA] at same
            rw [isB]
            exact within a lowA same
          · rw [Function.update_of_ne isA, Function.update_of_ne isB] at same
            exact nested a lowA b lowB same
      · show start ≤ score g (s.part.set v e.1)
        rw [score_set undirected tracks.long inside]
        have tiny := tolerance_pos (K := K)
        linarith

theorem Refining.community (undirected : Undirected g) (positive : 0 < g.m2) {outer : List Nat}
    {start : K} {s : Moving K} (refining : Refining g outer start s) {members : List Nat}
    (inside : ∀ v ∈ members, v < g.nodes.length) :
    Refining g outer start (refineCommunity g outer s members) := by
  unfold refineCommunity
  dsimp only
  generalize List.sum _ / g.m2 = gammaThresh
  induction members generalizing s with
  | nil => exact refining
  | cons v vs ih =>
      exact ih (refining.visit undirected positive gammaThresh (inside v List.mem_cons_self))
        fun u m => inside u (List.mem_cons_of_mem v m)

theorem mem_byCom {part : List Nat} {members : List Nat} (m : members ∈ (byCom part).values) {v : Nat}
    (inGroup : v ∈ members) : v < part.length := by
  obtain ⟨e, inEntries, rfl⟩ := List.mem_map.mp m
  have found := (OrdMap.get?_eq_some_iff _).mpr inEntries
  rw [byCom, Groups.get?_pushAll_empty] at found
  split at found
  · cases found
  · rw [← Option.some.inj found, Groups.mem_rowsAt] at inGroup
    have inRange := List.mem_zipIdx inGroup
    omega

omit [Field K] [LinearOrder K] [IsStrictOrderedRing K] in
theorem nested_singletons (g : Graph K) (outer : List Nat) :
    Nested g outer (List.range g.nodes.length) := by
  intro u low v low' same
  unfold label at same
  rw [List.getD_eq_getElem?_getD, List.getD_eq_getElem?_getD, List.getElem?_range low,
    List.getElem?_range low'] at same
  rw [show u = v from same]

/-- **The refined partition is no worse than the one of single nodes.** -/
theorem refinePartition_improves (undirected : Undirected g) (positive : 0 < g.m2) {part : List Nat}
    (long : part.length = g.nodes.length) :
    (refinePartition g part).length = g.nodes.length ∧
      score g (List.range g.nodes.length) ≤ score g (refinePartition g part) := by
  have start : Refining g part (score g (List.range g.nodes.length))
      ⟨List.range g.nodes.length, comDegrees g (List.range g.nodes.length), false⟩ :=
    ⟨tracks_comDegrees undirected.symmetric List.length_range, nested_singletons g part, le_refl _⟩
  have groups : ∀ ms : List (List Nat), (∀ members ∈ ms, ∀ v ∈ members, v < g.nodes.length) →
      ∀ s : Moving K, Refining g part (score g (List.range g.nodes.length)) s →
        Refining g part (score g (List.range g.nodes.length))
          (ms.foldl (refineCommunity g part) s) := by
    intro ms
    induction ms with
    | nil => exact fun _ _ refining => refining
    | cons members ms ih =>
        intro inside s refining
        exact ih (fun d m => inside d (List.mem_cons_of_mem members m)) _
          (refining.community undirected positive (inside members List.mem_cons_self))
  unfold refinePartition
  rw [if_neg positive.not_ge, undirected.long]
  have result := groups (byCom part).values
    (fun members m v inGroup => long ▸ mem_byCom m inGroup) _ start
  exact ⟨result.tracks.long, result.rises⟩

end Model

end Mnem.Graphrag
