/-
# Index.Knn — the edges to the nearest neighbours

For each point the other points are sorted by similarity, ties by id, and the
first of them become edges; the edges are then sorted by their ends.  The ids of
the points are distinct, so what is sorted is a ranking (`Theory.Ranking`), which
the points determine in whatever order they are listed (`nearest_edges`,
`nearest_edges_perm`).

The arithmetic is exact, in any ordered field with some root function.
-/
import Mnem.Objects
import Mnem.Theory.Ranking
import Mnem.Theory.OrdMap
import Mathlib.Algebra.Field.Rat
import Mathlib.Algebra.Order.Ring.Rat

namespace Mnem.Index

open Theory

set_option autoImplicit false

inductive DistanceMetric where
  | cosine
  | l2
  | dot
  deriving DecidableEq

structure KnnEdge (K : Type) where
  src : NodeId
  dst : NodeId
  weight : K
  deriving DecidableEq

section Derivation

variable {K : Type} [Field K] [LinearOrder K] (sqrt : K → K)

/-- Higher is closer. -/
def similarity (metric : DistanceMetric) (a b : List K) : K :=
  match metric with
  | .cosine | .dot => (a.zip b).foldl (fun s p => s + p.1 * p.2) 0
  | .l2 => 1 / (1 + sqrt ((a.zip b).foldl (fun acc p => acc + (p.1 - p.2) * (p.1 - p.2)) 0))

/-- The order of the scored neighbours: similarity descending, ties by id. -/
def Closer (a b : K × NodeId) : Prop := b.1 < a.1 ∨ (a.1 = b.1 ∧ a.2 ≤ b.2)

instance : DecidableRel (Closer : K × NodeId → K × NodeId → Prop) := fun a b =>
  inferInstanceAs (Decidable (b.1 < a.1 ∨ (a.1 = b.1 ∧ a.2 ≤ b.2)))

/-- The canonical order of the edges. -/
def EdgeLe (a b : KnnEdge K) : Prop := a.src < b.src ∨ (a.src = b.src ∧ a.dst ≤ b.dst)

instance : DecidableRel (EdgeLe : KnnEdge K → KnnEdge K → Prop) := fun a b =>
  inferInstanceAs (Decidable (a.src < b.src ∨ (a.src = b.src ∧ a.dst ≤ b.dst)))

/-- Every point at another position, with its similarity. -/
def scored (metric : DistanceMetric) (points : List (NodeId × List K)) (i : Nat) (v : List K) :
    List (K × NodeId) :=
  points.zipIdx.filterMap fun q =>
    if i = q.2 then none else some (similarity sqrt metric v q.1.2, q.1.1)

/-- The edges from the point at one position. -/
def edgesFrom (metric : DistanceMetric) (points : List (NodeId × List K)) (k : Nat)
    (p : (NodeId × List K) × Nat) : List (KnnEdge K) :=
  (((scored sqrt metric points p.2 p.1.2).insertionSort Closer).take k).map fun s =>
    ⟨p.1.1, s.2, s.1⟩

/-- `none` is the panic on lists of different lengths. -/
def deriveKnnEdgesFromVectors (ids : List NodeId) (vecs : List (List K)) (k : Nat)
    (metric : DistanceMetric) : Option (List (KnnEdge K)) :=
  if ids.length ≠ vecs.length then none
  else if ids.length = 0 ∨ k = 0 then some []
  else
    let kUsize := min k (ids.length - 1)
    if kUsize = 0 then some []
    else
      let points := ids.zip vecs
      some ((points.zipIdx.flatMap (edgesFrom sqrt metric points kUsize)).insertionSort EdgeLe)

end Derivation

/-! ## The neighbours of one point -/

section Neighbours

variable {K : Type} [Field K] [LinearOrder K] (sqrt : K → K)
  (metric : DistanceMetric) (points : List (NodeId × List K))

/-- The similarity of a vector to the vector of an id. -/
def scoreFrom (v : List K) (d : NodeId) : K :=
  ((Entries.get? d points).map (similarity sqrt metric v)).getD 0

variable {points}

omit [LinearOrder K] in
theorem scoreFrom_eq (distinct : (points.map Prod.fst).Nodup) {p : NodeId × List K}
    (m : p ∈ points) (v : List K) :
    scoreFrom sqrt metric points v p.1 = similarity sqrt metric v p.2 := by
  have found : Entries.get? p.1 points = some p.2 :=
    (Entries.get?_eq_some_iff_of_nodup distinct).mpr m
  rw [scoreFrom, found]
  rfl

omit [LinearOrder K] in
/-- The other points are the points with other ids. -/
theorem scored_eq (distinct : (points.map Prod.fst).Nodup) {src : NodeId} {v : List K} {i : Nat}
    (here : points[i]? = some (src, v)) :
    scored sqrt metric points i v =
      ((points.map Prod.fst).filter fun d => decide (d ≠ src)).map fun d =>
        (scoreFrom sqrt metric points v d, d) := by
  have position : ∀ q ∈ points.zipIdx, (i = q.2 ↔ q.1.1 = src) := by
    intro q m
    have there : points[q.2]? = some q.1 := List.mk_mem_zipIdx_iff_getElem?.mp m
    constructor
    · intro same
      rw [← same, here] at there
      exact congrArg Prod.fst (Option.some.inj there).symm
    · intro same
      obtain ⟨inRange, eq⟩ := List.getElem?_eq_some_iff.mp here
      obtain ⟨inRange', eq'⟩ := List.getElem?_eq_some_iff.mp there
      have bound : i < (points.map Prod.fst).length := by rwa [List.length_map]
      have bound' : q.2 < (points.map Prod.fst).length := by rwa [List.length_map]
      have alike : (points.map Prod.fst)[i] = (points.map Prod.fst)[q.2] := by
        rw [List.getElem_map, List.getElem_map, eq, eq', same]
      exact (List.getElem_inj distinct).mp alike
  calc scored sqrt metric points i v
      = points.zipIdx.filterMap fun q =>
          if q.1.1 = src then none else some (scoreFrom sqrt metric points v q.1.1, q.1.1) := by
        refine List.filterMap_congr fun q m => ?_
        rw [if_congr (position q m) rfl rfl,
          scoreFrom_eq sqrt metric distinct (List.fst_mem_of_mem_zipIdx m)]
    _ = (points.zipIdx.map Prod.fst).filterMap fun p =>
          if p.1 = src then none else some (scoreFrom sqrt metric points v p.1, p.1) := by
        rw [List.filterMap_map]
        rfl
    _ = (points.map Prod.fst).filterMap fun d =>
          if d = src then none else some (scoreFrom sqrt metric points v d, d) := by
        rw [List.zipIdx_map_fst, List.filterMap_map]
        rfl
    _ = ((points.map Prod.fst).filter fun d => decide (d ≠ src)).filterMap fun d =>
          some (scoreFrom sqrt metric points v d, d) := by
        rw [List.filterMap_filter]
        refine List.filterMap_congr fun d m => ?_
        by_cases same : d = src
        · simp [same]
        · simp [same]
    _ = ((points.map Prod.fst).filter fun d => decide (d ≠ src)).map fun d =>
          (scoreFrom sqrt metric points v d, d) := congrFun List.filterMap_eq_map' _

/-- The other points, ranked by their similarity. -/
def nearest (points : List (NodeId × List K)) (src : NodeId) (v : List K) : List NodeId :=
  ranked (scoreFrom sqrt metric points v)
    ((points.map Prod.fst).filter fun d => decide (d ≠ src))

theorem isRanking_nearest (distinct : (points.map Prod.fst).Nodup) (src : NodeId) (v : List K) :
    IsRanking (scoreFrom sqrt metric points v)
      (fun d => d ∈ points.map Prod.fst ∧ d ≠ src) (nearest sqrt metric points src v) := by
  have ranking := isRanking_ranked (scoreFrom sqrt metric points v)
    (distinct.filter fun d => decide (d ≠ src))
  exact ranking.congr (fun _ => rfl) fun d => by simp

theorem edgesFrom_eq (distinct : (points.map Prod.fst).Nodup) {src : NodeId} {v : List K} {i : Nat}
    (here : points[i]? = some (src, v)) (k : Nat) :
    edgesFrom sqrt metric points k ((src, v), i) =
      ((nearest sqrt metric points src v).take k).map fun d =>
        ⟨src, d, scoreFrom sqrt metric points v d⟩ := by
  have sorted : (scored sqrt metric points i v).insertionSort Closer =
      (nearest sqrt metric points src v).map fun d => (scoreFrom sqrt metric points v d, d) := by
    rw [scored_eq sqrt metric distinct here, nearest, ranked]
    exact (List.map_insertionSort (NotAfter (scoreFrom sqrt metric points v)) Closer
      _ _ fun a _ b _ => Iff.rfl).symm
  rw [edgesFrom, sorted, ← List.map_take, List.map_map]
  rfl

theorem length_nearest (distinct : (points.map Prod.fst).Nodup) {src : NodeId}
    (m : src ∈ points.map Prod.fst) (v : List K) :
    (nearest sqrt metric points src v).length = points.length - 1 := by
  rw [nearest, ranked, List.length_insertionSort]
  have erased : ((points.map Prod.fst).filter fun d => decide (d ≠ src)) =
      (points.map Prod.fst).erase src := by
    rw [distinct.erase_eq_filter]
    refine List.filter_congr fun d _ => ?_
    rw [bne, beq_eq_decide, decide_not]
  rw [erased, List.length_erase_of_mem m, List.length_map]

/-! ## All edges -/

/-- The order of the edges, strictly. -/
def EdgeLt (a b : KnnEdge K) : Prop := a.src < b.src ∨ (a.src = b.src ∧ a.dst < b.dst)

instance : Std.Irrefl (EdgeLt : KnnEdge K → KnnEdge K → Prop) :=
  ⟨fun _ before => before.elim (lt_irrefl _) fun both => lt_irrefl _ both.2⟩

instance : Std.Antisymm (EdgeLt : KnnEdge K → KnnEdge K → Prop) := ⟨fun a b first second => by
  rcases first with less | ⟨same, less⟩
  · rcases second with less' | ⟨same', -⟩
    · exact absurd less less'.asymm
    · exact absurd less (same' ▸ lt_irrefl _)
  · rcases second with less' | ⟨-, less'⟩
    · exact absurd less' (same ▸ lt_irrefl _)
    · exact absurd less less'.asymm⟩

instance : Std.Total (EdgeLe : KnnEdge K → KnnEdge K → Prop) := ⟨fun a b => by
  rcases lt_trichotomy a.src b.src with less | same | greater
  · exact Or.inl (Or.inl less)
  · exact (le_total a.dst b.dst).imp (fun le => Or.inr ⟨same, le⟩) fun le => Or.inr ⟨same.symm, le⟩
  · exact Or.inr (Or.inl greater)⟩

instance : IsTrans (KnnEdge K) EdgeLe := ⟨fun a b c first second => by
  rcases first with less | ⟨same, le⟩
  · rcases second with less' | ⟨same', -⟩
    · exact Or.inl (less.trans less')
    · exact Or.inl (same' ▸ less)
  · rcases second with less' | ⟨same', le'⟩
    · exact Or.inl (same ▸ less')
    · exact Or.inr ⟨same.trans same', le.trans le'⟩⟩

/-- The edges of all points, in their canonical order. -/
def knnEdges (points : List (NodeId × List K)) (k : Nat) : List (KnnEdge K) :=
  (points.zipIdx.flatMap (edgesFrom sqrt metric points k)).insertionSort EdgeLe

theorem deriveKnnEdges_eq {ids : List NodeId} {vecs : List (List K)}
    (length : ids.length = vecs.length) (k : Nat) :
    deriveKnnEdgesFromVectors sqrt ids vecs k metric =
      some (knnEdges sqrt metric (ids.zip vecs) (min k (ids.length - 1))) := by
  have nothing : min k (ids.length - 1) = 0 →
      knnEdges sqrt metric (ids.zip vecs) (min k (ids.length - 1)) = [] := by
    intro zero
    have empty : ∀ p ∈ (ids.zip vecs).zipIdx,
        edgesFrom sqrt metric (ids.zip vecs) 0 p = [] := fun p _ => rfl
    rw [knnEdges, zero, List.flatMap_eq_nil_iff.mpr empty]
    rfl
  unfold deriveKnnEdgesFromVectors
  rw [if_neg (not_not.mpr length)]
  dsimp only
  split
  · rename_i none
    rw [nothing (by omega)]
  · split
    · rename_i zero
      rw [nothing zero]
    · rfl

theorem mem_knnEdges (distinct : (points.map Prod.fst).Nodup) {k : Nat} {e : KnnEdge K} :
    e ∈ knnEdges sqrt metric points k ↔ ∃ v, (e.src, v) ∈ points ∧
      e.dst ∈ (nearest sqrt metric points e.src v).take k ∧
      e.weight = scoreFrom sqrt metric points v e.dst := by
  rw [knnEdges, List.mem_insertionSort, List.mem_flatMap]
  constructor
  · rintro ⟨⟨⟨src, v⟩, i⟩, m, inEdges⟩
    rw [edgesFrom_eq sqrt metric distinct (List.mk_mem_zipIdx_iff_getElem?.mp m)] at inEdges
    obtain ⟨d, near, rfl⟩ := List.mem_map.mp inEdges
    exact ⟨v, List.fst_mem_of_mem_zipIdx m, near, rfl⟩
  · rintro ⟨v, m, near, weight⟩
    obtain ⟨i, inRange, here⟩ := List.getElem_of_mem m
    have found : points[i]? = some (e.src, v) := by rw [List.getElem?_eq_getElem inRange, here]
    refine ⟨((e.src, v), i), List.mk_mem_zipIdx_iff_getElem?.mpr found, ?_⟩
    rw [edgesFrom_eq sqrt metric distinct found]
    exact List.mem_map.mpr ⟨e.dst, near, by rw [← weight]⟩

/-- No two edges have the same ends, so they ascend strictly. -/
theorem pairwise_knnEdges (distinct : (points.map Prod.fst).Nodup) (k : Nat) :
    (knnEdges sqrt metric points k).Pairwise EdgeLt := by
  have apart : ((points.zipIdx.flatMap (edgesFrom sqrt metric points k)).Pairwise fun a b =>
      a.src = b.src → a.dst ≠ b.dst) := by
    rw [List.pairwise_flatMap]
    refine ⟨fun p m => ?_, ?_⟩
    · obtain ⟨⟨src, v⟩, i⟩ := p
      rw [edgesFrom_eq sqrt metric distinct (List.mk_mem_zipIdx_iff_getElem?.mp m),
        List.pairwise_map]
      have ranking := (isRanking_nearest sqrt metric distinct src v).nodup
      refine (ranking.sublist (List.take_sublist k _)).imp ?_
      intro a b other _ same
      exact other same
    · have sources : (points.zipIdx.map fun p => p.1.1).Nodup := by
        have eq : (points.zipIdx.map fun p => p.1.1) = points.map Prod.fst := by
          rw [← List.zipIdx_map_fst 0 points, List.map_map, List.zipIdx_map_fst]
          rfl
        rwa [eq]
      refine (List.pairwise_map.mp sources).imp fun {p q} other a inP b inQ same => ?_
      obtain ⟨s, -, rfl⟩ := List.mem_map.mp inP
      obtain ⟨t, -, rfl⟩ := List.mem_map.mp inQ
      exact absurd same other
  have sortedApart : (knnEdges sqrt metric points k).Pairwise fun a b =>
      a.src = b.src → a.dst ≠ b.dst :=
    (List.perm_insertionSort EdgeLe _).symm.pairwise apart fun {a b} other same eq =>
      other same.symm eq.symm
  refine ((List.pairwise_insertionSort EdgeLe _).and sortedApart).imp fun {a b} both => ?_
  rcases both.1 with less | ⟨same, le⟩
  · exact Or.inl less
  · exact Or.inr ⟨same, lt_of_le_of_ne le (both.2 same)⟩

/-- The edges depend on what the points are, not on how they are listed. -/
theorem knnEdges_perm {points' : List (NodeId × List K)} (distinct : (points.map Prod.fst).Nodup)
    (perm : points'.Perm points) (k : Nat) :
    knnEdges sqrt metric points' k = knnEdges sqrt metric points k := by
  have distinct' : (points'.map Prod.fst).Nodup := (perm.map Prod.fst).nodup_iff.mpr distinct
  have scores : ∀ v, scoreFrom sqrt metric points' v = scoreFrom sqrt metric points v := by
    intro v
    funext d
    have lookup : Entries.get? d points' = Entries.get? d points := by
      refine Option.ext fun w => ?_
      rw [Entries.get?_eq_some_iff_of_nodup distinct',
        Entries.get?_eq_some_iff_of_nodup distinct, perm.mem_iff]
    rw [scoreFrom, scoreFrom, lookup]
  have rankings : ∀ src v, nearest sqrt metric points' src v = nearest sqrt metric points src v := by
    intro src v
    refine IsRanking.unique (isRanking_nearest sqrt metric distinct' src v)
      ((isRanking_nearest sqrt metric distinct src v).congr (fun d => by rw [scores]) fun d => ?_)
    rw [(perm.map Prod.fst).mem_iff]
  refine (pairwise_knnEdges sqrt metric distinct' k).eq_of_mem_iff
    (pairwise_knnEdges sqrt metric distinct k) fun e => ?_
  rw [mem_knnEdges sqrt metric distinct', mem_knnEdges sqrt metric distinct]
  refine exists_congr fun v => ?_
  rw [perm.mem_iff, scores, rankings]

/-- The edges from one point are those to the first of its ranking. -/
theorem filter_knnEdges (distinct : (points.map Prod.fst).Nodup) {src : NodeId} {v : List K}
    (m : (src, v) ∈ points) (k : Nat) :
    ((knnEdges sqrt metric points k).filter fun e => decide (e.src = src)).Perm
      (((nearest sqrt metric points src v).take k).map fun d =>
        ⟨src, d, scoreFrom sqrt metric points v d⟩) := by
  have edges := (pairwise_knnEdges sqrt metric distinct k).nodup
  have ranking := (isRanking_nearest sqrt metric distinct src v).nodup
  refine (List.perm_ext_iff_of_nodup (edges.filter _) ?_).mpr fun e => ?_
  · refine (ranking.sublist (List.take_sublist k _)).map fun a b same => ?_
    exact congrArg KnnEdge.dst same
  · rw [List.mem_filter, mem_knnEdges sqrt metric distinct, decide_eq_true_eq, List.mem_map]
    constructor
    · rintro ⟨⟨w, inPoints, near, weight⟩, rfl⟩
      obtain rfl : w = v := by
        have found := (Entries.get?_eq_some_iff_of_nodup distinct).mpr inPoints
        rw [(Entries.get?_eq_some_iff_of_nodup distinct).mpr m] at found
        exact (Option.some.inj found).symm
      exact ⟨e.dst, near, by rw [← weight]⟩
    · rintro ⟨d, near, rfl⟩
      exact ⟨⟨v, m, near, rfl⟩, rfl⟩

/-- **The nearest-neighbour edges are exact**: each point has edges to the first `min k (n - 1)`
of the other points in the order of similarity, ties by id, with the similarities as weights; the
edges ascend strictly by their ends, and do not depend on how the points are listed. -/
theorem nearest_edges {ids : List NodeId} {vecs : List (List K)} (distinct : ids.Nodup)
    (length : ids.length = vecs.length) (k : Nat) (metric : DistanceMetric) :
    ∃ edges, deriveKnnEdgesFromVectors sqrt ids vecs k metric = some edges ∧
      (∀ src v, (src, v) ∈ ids.zip vecs → ∃ score : NodeId → K, ∃ ranking : List NodeId,
        (∀ p ∈ ids.zip vecs, score p.1 = similarity sqrt metric v p.2) ∧
        IsRanking score (fun d => d ∈ ids ∧ d ≠ src) ranking ∧
        (ranking.take (min k (ids.length - 1))).length = min k (ids.length - 1) ∧
        (edges.filter fun e => decide (e.src = src)).Perm
          ((ranking.take (min k (ids.length - 1))).map fun d => ⟨src, d, score d⟩)) ∧
      (∀ e ∈ edges, e.src ∈ ids ∧ e.dst ∈ ids ∧ e.dst ≠ e.src) ∧
      edges.Pairwise EdgeLt ∧
      ∀ ids' vecs', ids'.length = vecs'.length → (ids'.zip vecs').Perm (ids.zip vecs) →
        deriveKnnEdgesFromVectors sqrt ids' vecs' k metric = some edges := by
  have names : (ids.zip vecs).map Prod.fst = ids := List.map_fst_zip (by omega)
  have distinct' : ((ids.zip vecs).map Prod.fst).Nodup := by rwa [names]
  refine ⟨_, deriveKnnEdges_eq sqrt metric length k, ?_, ?_, pairwise_knnEdges sqrt metric
    distinct' _, ?_⟩
  · intro src v m
    have listed : src ∈ (ids.zip vecs).map Prod.fst := List.mem_map_of_mem (f := Prod.fst) m
    refine ⟨scoreFrom sqrt metric (ids.zip vecs) v, nearest sqrt metric (ids.zip vecs) src v,
      fun p inPoints => scoreFrom_eq sqrt metric distinct' inPoints v, ?_, ?_,
      filter_knnEdges sqrt metric distinct' m _⟩
    · exact (isRanking_nearest sqrt metric distinct' src v).congr (fun _ => rfl)
        fun d => by rw [names]
    · rw [List.length_take, length_nearest sqrt metric distinct' listed, List.length_zip]
      omega
  · intro e m
    obtain ⟨v, inPoints, near, -⟩ := (mem_knnEdges sqrt metric distinct').mp m
    have other := ((isRanking_nearest sqrt metric distinct' e.src v).mem e.dst).mp
      (List.mem_of_mem_take near)
    rw [names] at other
    exact ⟨names ▸ List.mem_map_of_mem (f := Prod.fst) inPoints, other⟩
  · intro ids' vecs' length' perm
    have count : ids'.length = ids.length := by
      have both := perm.length_eq
      rw [List.length_zip, List.length_zip] at both
      omega
    rw [deriveKnnEdges_eq sqrt metric length' k, count, knnEdges_perm sqrt metric distinct' perm]

/-- Three points on a line, two of them equally far from the first. -/
theorem nearest_edges_three :
    ∃ edges, deriveKnnEdgesFromVectors (K := ℚ) id [1, 2, 3] [[0], [1], [1]] 1 .dot = some edges ∧
      (edges.filter fun e => decide (e.src = 1)).length = 1 ∧ edges.Pairwise EdgeLt := by
  obtain ⟨edges, derived, each, -, ascending, -⟩ := nearest_edges (K := ℚ) id
    (show ([1, 2, 3] : List NodeId).Nodup from by decide)
    (show ([1, 2, 3] : List NodeId).length = [[(0 : ℚ)], [1], [1]].length from rfl) 1 .dot
  obtain ⟨_, _, -, -, length, perm⟩ := each 1 [0] (by simp)
  refine ⟨edges, derived, ?_, ascending⟩
  rw [perm.length_eq, List.length_map, length]
  rfl

end Neighbours

end Mnem.Index
