/-
# Graphrag.Climb — local moving climbs modularity and stops

The graph is any symmetric one without loops, with weights of any sign, and the
total weight any positive number.  Whatever state the visits lead to, the degrees
that are kept are those of the communities, and a visit that moves a node changes
the modularity by the number that the source computes for it, which is more than
the tolerance.  There are finitely many scores within a bound that are so far
apart, so the loop ends; then no node that it visits gains more than the
tolerance by moving to a neighbour's community (`localMove_climbs`).
-/
import Mnem.Graphrag.LocalMove
import Mathlib.Algebra.Order.Archimedean.Basic

namespace Mnem.Graphrag

open Theory Index

set_option autoImplicit false

section Model

variable {K : Type} [Field K] [LinearOrder K]

/-- The documented modularity, over all communities. -/
def fullModularity (g : Graph K) (part : List Nat) : K :=
  ∑ c ∈ g.indices.image (label part), (innerWeight g.indices g.weight (label part) c / g.m2 -
    (volume g.indices g.weight (label part) c / g.m2) ^ 2)

/-- A state that local moving can be in: nodes are visited, and the flag is lowered. -/
inductive Passing (g : Graph K) (part : List Nat) : Moving K → Prop where
  | start : Passing g part ⟨part, comDegrees g part, false⟩
  | lower {s : Moving K} (before : Passing g part s) : Passing g part { s with moved := false }
  | visit {s : Moving K} {v : Nat} (low : v < g.nodes.length) (before : Passing g part s) :
      Passing g part (visit g s v)

variable {g : Graph K}

omit [LinearOrder K] in
theorem fullModularity_eq (g : Graph K) (part : List Nat) :
    fullModularity g part = quality g part :=
  (modularityBy_eq g.m2 g.indices g.weight (label part)).symm

variable [IsStrictOrderedRing K]

theorem Passing.tracks (symmetric : Symmetric g) (nonzero : g.m2 ≠ 0) {part : List Nat}
    (long : part.length = g.nodes.length) {s : Moving K} (passing : Passing g part s) :
    Tracks g s := by
  induction passing with
  | start => exact tracks_comDegrees symmetric long
  | lower _ ih => exact ⟨ih.long, ih.degrees⟩
  | visit low _ ih =>
      rcases visit_cases symmetric nonzero ih low with ⟨same, -⟩ | ⟨-, -, tracks, -⟩
      · rw [same]
        exact ih
      · exact tracks

/-- A node whose weights are nowhere negative and add up to nothing gains nothing. -/
theorem climb_of_zero (symmetric : Symmetric g) (nonzero : g.m2 ≠ 0) (part : List Nat) {v c : Nat}
    (inside : v < g.nodes.length) (other : c ≠ label part v)
    (nonneg : ∀ e ∈ g.neighbours v, 0 ≤ e.2) (none : degree g.indices g.weight v ≤ 0) :
    climb g part v c = 0 := by
  have weights : ∀ u ∈ g.indices, 0 ≤ g.weight v u := by
    intro u _
    refine List.sum_nonneg fun w m => ?_
    obtain ⟨e, near, rfl⟩ := List.mem_map.mp m
    exact nonneg e (List.mem_filter.mp near).1
  have zero : degree g.indices g.weight v = 0 := le_antisymm none (Finset.sum_nonneg weights)
  have nothing : ∀ u ∈ g.indices, g.weight v u = 0 := (Finset.sum_eq_zero_iff_of_nonneg weights).mp zero
  have sums : ∀ d, ∑ u ∈ g.indices with label part u = d, g.weight v u = 0 :=
    fun d => Finset.sum_eq_zero fun u m => nothing u (Finset.mem_filter.mp m).1
  rw [← climb_eq symmetric nonzero part inside other, sums, sums, zero]
  simp

/-- **Local moving climbs and stops.**  In every state it can be in, the kept degrees are those of
the communities, and a visit that moves a node changes the modularity by what it computed, more
than the tolerance.  The loop ends, and no node of a positive degree then gains more than the
tolerance by moving to a neighbour's community, and neither does one without a negative weight. -/
theorem localMove_climbs [Archimedean K] (symmetric : Symmetric g) (positive : 0 < g.m2)
    {part : List Nat} (long : part.length = g.nodes.length) :
    (∀ s, Passing g part s →
      (∀ c, (s.comDeg.get? c).getD 0 =
        ∑ v ∈ g.indices with label s.part v = c, g.degrees.getD v 0) ∧
      ∀ v < g.nodes.length, visit g s v = s ∨
        (visit g s v).part = s.part.set v (proposal g s v).1 ∧ tolerance K < (proposal g s v).2 ∧
          fullModularity g (visit g s v).part = fullModularity g s.part + (proposal g s v).2) ∧
    ∃ s bound, Passing g part s ∧ (∀ fuel, bound ≤ fuel → localMove g fuel part = some s.part) ∧
      ∀ v < g.nodes.length, (0 < g.degrees.getD v 0 ∨ ∀ e ∈ g.neighbours v, 0 ≤ e.2) →
        ∀ e ∈ g.neighbours v, label s.part e.1 ≠ label s.part v →
          fullModularity g (s.part.set v (label s.part e.1)) ≤
            fullModularity g s.part + tolerance K := by
  have nonzero := positive.ne'
  refine ⟨fun s passing => ?_, ?_⟩
  · have tracks := passing.tracks symmetric nonzero long
    refine ⟨fun c => ?_, fun v low => ?_⟩
    · rw [tracks.degrees]
      exact Finset.sum_congr rfl fun v _ => (symmetric.getD_degrees v).symm
    · rw [fullModularity_eq, fullModularity_eq]
      rcases visit_cases symmetric nonzero tracks low with ⟨same, -⟩ | ⟨-, moved, -, more, rises⟩
      · exact .inl same
      · exact .inr ⟨moved, more, rises⟩
  · have tracks := tracks_comDegrees symmetric long
    have tiny := tolerance_pos (K := K)
    obtain ⟨fuel, enough⟩ := Archimedean.arch
      ((∑ u ∈ g.indices, ∑ v ∈ g.indices, |excessBy g.m2 g.indices g.weight u v|) -
        quality g part + 1) tiny
    rw [nsmul_eq_mul] at enough
    obtain ⟨s, passing, found, climbed⟩ := localMoveLoop_ends symmetric nonzero
      (fun part => together_le g.indices _ (label part)) (fun s => Passing.lower)
      (fun s v low => Passing.visit low) fuel Passing.start tracks (by dsimp only; linarith)
    refine ⟨s, fuel, passing, fun more le => ?_, fun v low counts e near other => ?_⟩
    · exact (if_neg positive.not_ge).trans (localMoveLoop_mono le found)
    · rw [fullModularity_eq, fullModularity_eq, quality_set symmetric climbed.long low]
      refine add_le_add_right ?_ _
      rcases climbed.rested v low with none | small
      · rcases counts with some | nonneg
        · rw [symmetric.getD_degrees] at some
          exact absurd some none.not_gt
        · rw [climb_of_zero symmetric nonzero s.part low other nonneg none]
          exact tiny.le
      · exact small e near other

end Model

/-! ## One edge, and a loop -/

/-- Two nodes with an edge, under a total weight that is not theirs. -/
def oneEdge : Graph ℚ := { nodes := [1, 2], adjList := [[(1, 1)], [(0, 1)]], m2 := 3 }

/-- The same with a loop at the first node, and the total weight of its rows. -/
def withLoop : Graph ℚ := { nodes := [1, 2], adjList := [[(0, 10), (1, 1)], [(0, 1)]], m2 := 12 }

theorem neighbours_oneEdge {u : Nat} {e : Nat × ℚ} (m : e ∈ oneEdge.neighbours u) :
    u = 0 ∧ e = (1, 1) ∨ u = 1 ∧ e = (0, 1) := by
  rcases u with _ | _ | u
  · exact .inl ⟨rfl, List.mem_singleton.mp m⟩
  · exact .inr ⟨rfl, List.mem_singleton.mp m⟩
  · cases m

theorem symmetric_oneEdge : Symmetric oneEdge where
  long := rfl
  inside u e m := by
    rcases neighbours_oneEdge m with ⟨-, rfl⟩ | ⟨-, rfl⟩ <;> decide
  loopless u e m := by
    rcases neighbours_oneEdge m with ⟨rfl, rfl⟩ | ⟨rfl, rfl⟩ <;> decide
  symm u v := by
    rcases u with _ | _ | u <;> rcases v with _ | _ | v <;>
      simp [Graph.weight, Graph.neighbours, oneEdge, givenTo]

/-- Local moving ends on one edge. -/
theorem localMove_climbs_oneEdge : ∃ s bound, Passing oneEdge [0, 1] s ∧
    ∀ fuel, bound ≤ fuel → localMove oneEdge fuel [0, 1] = some s.part := by
  obtain ⟨-, s, bound, passing, ends, -⟩ :=
    localMove_climbs symmetric_oneEdge (by norm_num [oneEdge]) (rfl : [0, 1].length = _)
  exact ⟨s, bound, passing, ends⟩

/-- With a loop the first move changes the modularity by less than the source computes. -/
theorem loop_miscounted : (∀ u v, withLoop.weight u v = withLoop.weight v u) ∧ 0 < withLoop.m2 ∧
    (visit withLoop ⟨[0, 1], comDegrees withLoop [0, 1], false⟩ 0).part = [1, 1] ∧
    (proposal withLoop ⟨[0, 1], comDegrees withLoop [0, 1], false⟩ 0).2 = 221 / 72 ∧
    fullModularity withLoop [1, 1] - fullModularity withLoop [0, 1] = 1 / 72 := by
  refine ⟨fun u v => ?_, by norm_num [withLoop], ?_⟩
  · rcases u with _ | _ | u <;> rcases v with _ | _ | v <;>
      simp [Graph.weight, Graph.neighbours, withLoop, givenTo]
  · decide +kernel

end Mnem.Graphrag
