/-
# Index.Hybrid — authored and derived edges in one view

A source of edges lists them and knows how many there are.  The hybrid view
lists the authored edges and then those of the nearest-neighbour source whose
ends no authored edge joins.  It drops a derived edge for an authored one, but
not for another derived one: the view is a de-duplicated union exactly if the
derived pairs outside the authored ones are distinct (`iterEdges_union_iff`).
-/
import Mnem.Http.GraphCache

namespace Mnem.Index

open Http

set_option autoImplicit false

variable {W : Type}

/-- A source of edges.  It yields no more than its count. -/
structure AdjacencyIndex (W : Type) where
  iterEdges : List (AdjEdge W)
  edgeCount : Nat
  counted : iterEdges.length ≤ edgeCount

structure KnnEdgeSource (W : Type) where
  iterKnn : List (NodeId × NodeId × W)
  knnLen : Nat
  counted : iterKnn.length ≤ knnLen

structure HybridAdjacency (W : Type) where
  authored : AdjacencyIndex W
  knn : KnnEdgeSource W

def pair (e : AdjEdge W) : NodeId × NodeId := (e.src, e.dst)

def ends (e : NodeId × NodeId × W) : NodeId × NodeId := (e.1, e.2.1)

def knnEdge (e : NodeId × NodeId × W) : AdjEdge W := ⟨e.1, e.2.1, e.2.2, .knn⟩

/-- The derived edges that the view lets through. -/
def unauthored (authored : List (AdjEdge W)) (knn : List (NodeId × NodeId × W)) : List (AdjEdge W) :=
  let seen := authored.map pair
  knn.filterMap fun e => if seen.contains (ends e) then none else some (knnEdge e)

namespace HybridAdjacency

variable (h : HybridAdjacency W)

def iterEdges : List (AdjEdge W) :=
  h.authored.iterEdges ++ unauthored h.authored.iterEdges h.knn.iterKnn

def edgeCount : Nat := h.authored.edgeCount + h.knn.knnLen

theorem length_iterEdges_le : h.iterEdges.length ≤ h.edgeCount := by
  have derived : (unauthored h.authored.iterEdges h.knn.iterKnn).length ≤ h.knn.iterKnn.length :=
    List.length_filterMap_le _ _
  have total := Nat.add_le_add h.authored.counted (derived.trans h.knn.counted)
  rwa [← List.length_append] at total

/-- The view is a source of edges again. -/
def toAdjacencyIndex : AdjacencyIndex W := ⟨h.iterEdges, h.edgeCount, h.length_iterEdges_le⟩

end HybridAdjacency

/-! ## The union -/

/-- The authored edges in order, and then one derived edge for each derived pair that no authored
edge joins, in the order of the derived edges. -/
def IsUnion (authored : List (AdjEdge W)) (knn : List (NodeId × NodeId × W))
    (edges : List (AdjEdge W)) : Prop :=
  ∃ derived, edges = authored ++ derived ∧ (derived.map pair).Nodup ∧
    (∀ p, p ∈ derived.map pair ↔ p ∈ knn.map ends ∧ p ∉ authored.map pair) ∧
    List.Sublist derived (knn.map knnEdge)

/-- The derived pairs that no authored edge joins, as often as they are derived. -/
def newPairs (authored : List (AdjEdge W)) (knn : List (NodeId × NodeId × W)) :
    List (NodeId × NodeId) :=
  (knn.map ends).filter fun p => !(authored.map pair).contains p

theorem unauthored_eq (authored : List (AdjEdge W)) (knn : List (NodeId × NodeId × W)) :
    unauthored authored knn =
      (knn.filter fun e => !(authored.map pair).contains (ends e)).map knnEdge := by
  unfold unauthored
  induction knn with
  | nil => rfl
  | cons e knn ih =>
      dsimp only at ih ⊢
      rw [List.filterMap_cons, List.filter_cons, ih]
      cases (authored.map pair).contains (ends e) <;> rfl

theorem pairs_unauthored (authored : List (AdjEdge W)) (knn : List (NodeId × NodeId × W)) :
    (unauthored authored knn).map pair = newPairs authored knn := by
  rw [unauthored_eq, List.map_map, newPairs, List.filter_map]
  rfl

/-- **The view is a de-duplicated union exactly if no new pair is derived twice**, and it never
yields more edges than it counts. -/
theorem iterEdges_union_iff (h : HybridAdjacency W) :
    (IsUnion h.authored.iterEdges h.knn.iterKnn h.iterEdges ↔
      (newPairs h.authored.iterEdges h.knn.iterKnn).Nodup) ∧
    h.iterEdges.length ≤ h.edgeCount := by
  refine ⟨?_, h.length_iterEdges_le⟩
  rw [← pairs_unauthored]
  constructor
  · rintro ⟨derived, same, nodup, -, -⟩
    rw [List.append_cancel_left same]
    exact nodup
  · intro nodup
    refine ⟨_, rfl, nodup, fun p => ?_, ?_⟩
    · rw [pairs_unauthored, newPairs, List.mem_filter]
      simp
    · rw [unauthored_eq]
      exact List.filter_sublist.map _

/-- **A pair that is derived twice is listed twice.** -/
theorem iterEdges_repeats :
    ¬ IsUnion ([] : List (AdjEdge ℕ)) [(1, 2, 3), (1, 2, 4)]
      (HybridAdjacency.iterEdges ⟨⟨[], 0, le_refl 0⟩, ⟨[(1, 2, 3), (1, 2, 4)], 2, le_refl 2⟩⟩) := by
  rintro ⟨derived, same, nodup, -, -⟩
  rw [← List.nil_append derived, ← same] at nodup
  revert nodup
  decide

end Mnem.Index
