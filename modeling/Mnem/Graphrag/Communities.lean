/-
# Graphrag.Communities — community detection

Local moving and refinement alternate; the partition that is left is settled, and
no worse than the one of single nodes.  Its modularity, as the source sums it,
leaves out the communities without an edge inside; what these would add is
negative, and no more than the tolerance for each edge (`modularity_near_score`).
The communities are numbered by their smallest members (`Numbered`).
-/
import Mnem.Graphrag.Refine

namespace Mnem.Graphrag

open Http Theory Index

set_option autoImplicit false

section Modularity

variable {K : Type} [Field K] [LinearOrder K] (g : Graph K)

/-- The communities that own an edge, each by its weight inside and its degrees. -/
def modularity (part : List Nat) : K :=
  if g.m2 ≤ 0 then 0
  else
    let eC := addUp (g.adjList.zipIdx.flatMap fun p =>
      (p.1.filter fun e => decide (label part e.1 = label part p.2)).map fun e =>
        (label part p.2, e.2)) OrdMap.empty
    let aC := addUp (g.adjList.zipIdx.map fun p => (label part p.2, g.degrees.getD p.2 0))
      OrdMap.empty
    eC.entries.foldl (fun q e => q + (e.2 / g.m2 - ((aC.get? e.1).getD 0 / g.m2) ^ 2)) 0

variable {g}

/-- A label with an edge inside. -/
def Owns (g : Graph K) (part : List Nat) (c : Nat) : Prop :=
  ∃ u ∈ g.indices, ∃ v ∈ g.indices, label part u = c ∧ label part v = c ∧ 0 < g.weight v u

/-- What a label adds to the modularity. -/
def labelTerm (g : Graph K) (part : List Nat) (c : Nat) : K :=
  innerWeight g.indices g.weight (label part) c / g.m2 -
    (volume g.indices g.weight (label part) c / g.m2) ^ 2

theorem zipIdx_adjList (undirected : Undirected g) :
    g.adjList.zipIdx = (List.range g.nodes.length).map fun u => (g.neighbours u, u) := by
  refine List.ext_getElem (by simp [undirected.long]) fun u low high => ?_
  have inside : u < g.adjList.length := by simpa using low
  rw [List.getElem_zipIdx, List.getElem_map, List.getElem_range, Graph.neighbours,
    List.getD_eq_getElem?_getD, List.getElem?_eq_getElem inside, Nat.zero_add]
  rfl

omit [LinearOrder K] in
theorem foldl_add {α : Type} (f : α → K) (es : List α) (q : K) :
    es.foldl (fun q e => q + f e) q = q + (es.map f).sum := by
  induction es generalizing q with
  | nil => exact (add_zero q).symm
  | cons e es ih => rw [List.foldl_cons, ih, List.map_cons, List.sum_cons, add_assoc]

variable [IsStrictOrderedRing K]

/-- **The modularity sums the terms of the labels with an edge inside.** -/
theorem modularity_eq_sum (undirected : Undirected g) (positive : 0 < g.m2) (part : List Nat) :
    ∃ S : Finset Nat, (∀ c, c ∈ S ↔ Owns g part c) ∧
      modularity g part = ∑ c ∈ S, labelTerm g part c := by
  have eRows : (g.adjList.zipIdx.flatMap fun p =>
      (p.1.filter fun e => decide (label part e.1 = label part p.2)).map fun e =>
        (label part p.2, e.2)) = (List.range g.nodes.length).flatMap fun u =>
      ((g.neighbours u).filter fun e => decide (label part e.1 = label part u)).map fun e =>
        (label part u, e.2) := by
    rw [zipIdx_adjList undirected, List.flatMap_map]
  have aRows : (g.adjList.zipIdx.map fun p => (label part p.2, g.degrees.getD p.2 0)) =
      (List.range g.nodes.length).map fun u => (label part u, degree g.indices g.weight u) := by
    rw [zipIdx_adjList undirected, List.map_map]
    exact List.map_congr_left fun u _ => Prod.ext rfl (undirected.symmetric.getD_degrees u)
  have inside : ∀ c, givenTo ((List.range g.nodes.length).flatMap fun u =>
      ((g.neighbours u).filter fun e => decide (label part e.1 = label part u)).map fun e =>
        (label part u, e.2)) c = innerWeight g.indices g.weight (label part) c := by
    intro c
    rw [givenTo_flatMap, sum_map_range, innerWeight, Finset.sum_filter]
    refine Finset.sum_congr rfl fun u _ => ?_
    have row := undirected.symmetric.sum_weight u fun v => decide (label part v = label part u)
    simp only [decide_eq_true_eq] at row
    rw [givenTo, List.filter_map, List.map_map]
    by_cases here : label part u = c
    · subst here
      rw [if_pos rfl, row, List.filter_eq_self.mpr (fun e _ => by simp)]
      rfl
    · rw [if_neg here, List.filter_eq_nil_iff.mpr (fun e _ => by simpa using here)]
      rfl
  unfold modularity
  rw [if_neg positive.not_ge, eRows, aRows]
  dsimp only
  generalize eq : addUp ((List.range g.nodes.length).flatMap fun u =>
    ((g.neighbours u).filter fun e => decide (label part e.1 = label part u)).map fun e =>
      (label part u, e.2)) OrdMap.empty = eC
  have holds : ∀ e ∈ eC.entries, e.2 = innerWeight g.indices g.weight (label part) e.1 := by
    intro e m
    have found := (OrdMap.get?_eq_some_iff _).mpr m
    rw [← inside, ← getD_addUp, eq, found]
    rfl
  refine ⟨eC.keys.toFinset, fun c => ?_, ?_⟩
  · rw [List.mem_toFinset, OrdMap.mem_keys_iff, ← eq, get?_addUp]
    have known : c ∈ ((List.range g.nodes.length).flatMap fun u =>
        ((g.neighbours u).filter fun e => decide (label part e.1 = label part u)).map fun e =>
          (label part u, e.2)).map Prod.fst ↔ Owns g part c := by
      constructor
      · intro m
        obtain ⟨x, inRows, rfl⟩ := List.mem_map.mp m
        obtain ⟨u, low, inRow⟩ := List.mem_flatMap.mp inRows
        obtain ⟨e, kept, rfl⟩ := List.mem_map.mp inRow
        obtain ⟨near, same⟩ := List.mem_filter.mp kept
        rw [decide_eq_true_eq] at same
        refine ⟨e.1, undirected.symmetric.mem_indices near, u, Finset.mem_range.mpr (List.mem_range.mp low),
          same, rfl, ?_⟩
        exact (undirected.weight_pos_iff u e.1).mpr (List.mem_map.mpr ⟨e, near, rfl⟩)
      · rintro ⟨u, -, v, low, at_c, at_c', pos⟩
        obtain ⟨e, near, rfl⟩ := List.mem_map.mp ((undirected.weight_pos_iff v u).mp pos)
        refine List.mem_map.mpr ⟨(label part v, e.2), List.mem_flatMap.mpr
          ⟨v, List.mem_range.mpr (Finset.mem_range.mp low), List.mem_map.mpr ⟨e, ?_, rfl⟩⟩, at_c'⟩
        rw [List.mem_filter, decide_eq_true_eq]
        exact ⟨near, at_c.trans at_c'.symm⟩
    rw [← known]
    split
    · exact iff_of_true rfl ‹_›
    · exact iff_of_false (by simp) ‹_›
  · rw [foldl_add, zero_add, OrdMap.keys, List.sum_toFinset _ eC.ascending.nodup, List.map_map]
    refine congrArg List.sum (List.map_congr_left fun e m => ?_)
    rw [getD_addUp, givenTo_degrees, holds e m]
    rfl

/-- **What is left out of the modularity is negative, and at most the tolerance for each edge.** -/
theorem modularity_near_score (undirected : Undirected g) {part : List Nat}
    (settled : ∀ v < g.nodes.length, Settled g part v) {edges : Nat}
    (counted : ∑ u ∈ g.indices, (g.neighbours u).length ≤ 2 * edges) :
    score g part ≤ modularity g part ∧
      modularity g part ≤ score g part + edges * tolerance K := by
  have tiny := tolerance_pos (K := K)
  by_cases none : g.m2 ≤ 0
  · have nothing : ∀ u v, excess g.indices g.weight u v = 0 := by
      have whole : 0 ≤ total g.indices g.weight := Finset.sum_nonneg fun u _ =>
        Finset.sum_nonneg fun v _ => undirected.weight_nonneg u v
      have zero : total g.indices g.weight = 0 := le_antisymm (undirected.total ▸ none) whole
      intro u v
      rw [excess, zero, pow_two, zero_mul, div_zero, div_zero, sub_zero]
    have score_zero : score g part = 0 := by
      unfold score together
      exact Finset.sum_eq_zero fun u _ => Finset.sum_eq_zero fun v _ => by rw [nothing, ite_self]
    have modularity_zero : modularity g part = 0 := if_pos none
    rw [score_zero, modularity_zero, zero_add]
    exact ⟨le_refl 0, mul_nonneg (Nat.cast_nonneg _) tiny.le⟩
  · have positive := not_le.mp none
    obtain ⟨S, owns, sum⟩ := modularity_eq_sum undirected positive part
    have part_of : S ⊆ g.indices.image (label part) := by
      intro c m
      obtain ⟨u, inside, -, -, at_c, -⟩ := (owns c).mp m
      exact Finset.mem_image.mpr ⟨u, inside, at_c⟩
    have bare : ∀ c ∈ g.indices.image (label part) \ S, ∀ u ∈ g.indices, ∀ v ∈ g.indices,
        label part u = c → label part v = c → g.weight v u = 0 := by
      intro c m u inU v inV at_c at_c'
      by_contra nonzero
      have pos := lt_of_le_of_ne (undirected.weight_nonneg v u) (Ne.symm nonzero)
      exact (Finset.mem_sdiff.mp m).2 ((owns c).mpr ⟨u, inU, v, inV, at_c, at_c', pos⟩)
    have terms : ∀ c ∈ g.indices.image (label part) \ S, labelTerm g part c =
        -(volume g.indices g.weight (label part) c / g.m2) ^ 2 := by
      intro c m
      have empty : innerWeight g.indices g.weight (label part) c = 0 :=
        Finset.sum_eq_zero fun u inU => Finset.sum_eq_zero fun v inV =>
          bare c m v (Finset.mem_filter.mp inV).1 u (Finset.mem_filter.mp inU).1
            (Finset.mem_filter.mp inV).2 (Finset.mem_filter.mp inU).2
      rw [labelTerm, empty, zero_div, zero_sub]
    have whole : score g part = (∑ c ∈ g.indices.image (label part) \ S, labelTerm g part c) +
        modularity g part := by
      rw [sum, Finset.sum_sdiff part_of, score, modularity_eq, ← undirected.total]
      rfl
    have left_out : (∑ c ∈ g.indices.image (label part) \ S, labelTerm g part c) =
        -∑ c ∈ g.indices.image (label part) \ S,
          (volume g.indices g.weight (label part) c / g.m2) ^ 2 := by
      rw [← Finset.sum_neg_distrib]
      exact Finset.sum_congr rfl terms
    have small := squares_of_stuck (V := g.indices) (p := label part) (S := g.indices.image (label part) \ S)
      undirected.weight_nonneg (undirected.total ▸ positive) tiny.le
      (fun v inV u near other => settled v (Finset.mem_range.mp inV) u near other) bare
    rw [← undirected.total] at small
    have squares : 0 ≤ ∑ c ∈ g.indices.image (label part) \ S,
        (volume g.indices g.weight (label part) c / g.m2) ^ 2 :=
      Finset.sum_nonneg fun c _ => sq_nonneg _
    have fewer : (∑ v ∈ g.indices, ((neighbours g.indices g.weight v).card : K)) ≤ 2 * edges := by
      have cards := (Finset.sum_le_sum fun v _ => undirected.card_neighbours v).trans counted
      exact_mod_cast cards
    have most := mul_le_mul_of_nonneg_right fewer (div_nonneg tiny.le zero_le_two)
    have halves : 2 * (edges : K) * (tolerance K / 2) = edges * tolerance K := by ring
    rw [whole, left_out]
    exact ⟨by linarith, by linarith⟩

end Modularity

/-! ## The rounds -/

section Rounds

variable {K : Type} [Field K] [LinearOrder K] (g : Graph K)

/-- Local moving, then refinement and local moving again, kept if that is better; rounds until the
modularity no longer rises, at most so many. -/
def rounds (fuel : Nat) : Nat → List Nat → Option K → Option (List Nat)
  | 0, part, _ => some part
  | n + 1, part, prevQ => do
      let part ← localMove g fuel part
      let qPostMove := modularity g part
      let refined ← localMove g fuel (refinePartition g part)
      let qPostRefine := modularity g refined
      let part := if qPostMove + 1 / 10 ^ 9 < qPostRefine then refined else part
      let q := modularity g part
      if prevQ.any fun p => decide (q ≤ p + 1 / 10 ^ 9) then some part
      else rounds fuel n part (some q)

variable {g} [IsStrictOrderedRing K]

/-- The rounds end with a settled partition that is no worse than single nodes. -/
theorem rounds_improves (undirected : Undirected g) (n : Nat) {part : List Nat} (prevQ : Option K)
    (long : part.length = g.nodes.length)
    (rises : score g (List.range g.nodes.length) ≤ score g part)
    (settled : n = 0 → ∀ v < g.nodes.length, Settled g part v) :
    ∃ part', (∀ fuel, 2 * 10 ^ 12 < fuel → rounds g fuel n part prevQ = some part') ∧
      Improved g (List.range g.nodes.length) part' := by
  induction n generalizing part prevQ with
  | zero => exact ⟨part, fun _ _ => rfl, long, settled rfl, rises⟩
  | succ n ih =>
      obtain ⟨moved, moves, improved⟩ := localMove_settles undirected long
      have refined_long : (refinePartition g moved).length = g.nodes.length ∧
          score g (List.range g.nodes.length) ≤ score g (refinePartition g moved) := by
        by_cases none : g.m2 ≤ 0
        · have same : refinePartition g moved = moved := if_pos none
          rw [same]
          exact ⟨improved.long, rises.trans improved.rises⟩
        · exact refinePartition_improves undirected (not_le.mp none) improved.long
      obtain ⟨refined, refines, better⟩ := localMove_settles undirected refined_long.1
      have kept : Improved g (List.range g.nodes.length)
          (if modularity g moved + 1 / 10 ^ 9 < modularity g refined then refined else moved) := by
        split
        · exact ⟨better.long, better.settled, refined_long.2.trans better.rises⟩
        · exact ⟨improved.long, improved.settled, rises.trans improved.rises⟩
      have step : ∀ fuel, 2 * 10 ^ 12 < fuel → rounds g fuel (n + 1) part prevQ =
          let part := if modularity g moved + 1 / 10 ^ 9 < modularity g refined then refined else moved
          if prevQ.any fun p => decide (modularity g part ≤ p + 1 / 10 ^ 9) then some part
          else rounds g fuel n part (some (modularity g part)) := by
        intro fuel enough
        rw [rounds, moves fuel enough]
        simp only [Option.bind_eq_bind, Option.bind_some, refines fuel enough]
      generalize (if modularity g moved + 1 / 10 ^ 9 < modularity g refined then refined else moved) =
        next at kept step
      dsimp only at step
      by_cases stops : (prevQ.any fun p => decide (modularity g next ≤ p + 1 / 10 ^ 9)) = true
      · exact ⟨next, fun fuel enough => (step fuel enough).trans (if_pos stops), kept⟩
      · obtain ⟨part', found, result⟩ := ih (some (modularity g next)) kept.long kept.rises
          fun _ => kept.settled
        exact ⟨part', fun fuel enough => ((step fuel enough).trans (if_neg stops)).trans
          (found fuel enough), result⟩

end Rounds

end Mnem.Graphrag
