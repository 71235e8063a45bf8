/-
# Index.Ppr — personalised PageRank in exact arithmetic

The scores are numbers of an ordered field.  The matrix of the edges is the one
that the graph cache holds; here its rows are read back (`row_matrix`): a row
holds, for each node that an edge of positive weight leads to, the share of
these edges' weights in all of them.  So a live row gives out all it has
(`Stochastic`), and a round of the iteration turns a distribution into one
(`distribution_step`): what a live row holds goes along its edges, what a dead
row holds goes to the personalization, and the damping splits the rest.  Hence the
result is a distribution after any number of rounds, if there is an edge at all
(`ppr_law`).
-/
import Mnem.Http.GraphCache
import Mnem.Theory.Mass
import Mathlib.Tactic.Ring
import Mathlib.Tactic.NormNum
import Mathlib.Algebra.Order.Ring.Rat
import Mathlib.Algebra.Order.Group.Abs

namespace Mnem.Index

open Http Theory

set_option autoImplicit false

variable {K : Type} [Field K] [LinearOrder K]

/-- The numbers of a field as weights; all of them are finite. -/
def exactWeights (K : Type) [Field K] [LinearOrder K] : Weights K where
  zero := 0
  one := 1
  add := (· + ·)
  div := (· / ·)
  usable w := decide (0 < w)
  positive s := decide (0 < s)

structure PprConfig (K : Type) where
  damping : K
  maxIter : Nat
  eps : K

/-- `f32::clamp`. -/
def clamp (x low high : K) : K := if x < low then low else if high < x then high else x

/-! ## The iteration -/

section Iteration

variable (m : SparseTransition K)

/-- The columns and values of a row, between its pointer and the next. -/
def matrixRow (i : Nat) : List (Nat × K) :=
  ((m.colIdx.zip m.values).take (m.rowPtr.getD (i + 1) 0)).drop (m.rowPtr.getD i 0)

def live (i : Nat) : Bool := m.hasOutgoing.getD i false

/-- The personalization by rows: what is in the graph and positive, over its sum. -/
def personalize (personalization : OrdMap NodeId K) : List K :=
  let n := m.nodes.length
  let given := (personalization.entries.filter fun e =>
    decide (e.1 ∈ m.nodes) && decide (0 < e.2)).map fun e => (m.nodes.idxOf e.1, e.2)
  let p := give (List.replicate n 0) given
  let psum := (given.map Prod.snd).sum
  if 0 < psum then p.map (· / psum) else List.replicate n (1 / (n : K))

def danglingMass (r : List K) : K :=
  (List.range m.nodes.length).foldl (fun mass i => if live m i then mass else mass + r.getD i 0) 0

/-- What a live row holds goes along its cells. -/
def spreadRow (damping : K) (r next : List K) (i : Nat) : List K :=
  if !live m i then next
  else
    let ri := r.getD i 0
    if ri = 0 then next
    else give next ((matrixRow m i).map fun c => (c.1, damping * ri * c.2))

/-- One pass over the rows. -/
def spread (damping : K) (r next : List K) : List K :=
  (List.range m.nodes.length).foldl (spreadRow m damping r) next

def pprStep (damping : K) (p r : List K) : List K :=
  let teleportScale := (1 - damping) + damping * danglingMass m r
  let next := spread m damping r (p.map (teleportScale * ·))
  if 0 < next.sum then next.map (· / next.sum) else next

/-- The L1 distance. -/
def l1Delta (next r : List K) : K := ((next.zip r).map fun e => |e.1 - e.2|).sum

/-- Rounds until the distance is below `eps`, at most so many. -/
def iterate (damping eps : K) (p : List K) : Nat → List K → List K
  | 0, r => r
  | n + 1, r =>
      let next := pprStep m damping p r
      if l1Delta next r < eps then next else iterate damping eps p n next

def pprWithMatrix (personalization : OrdMap NodeId K) (cfg : PprConfig K) : OrdMap NodeId K :=
  if m.nodes = [] then OrdMap.empty
  else
    let p := personalize m personalization
    OrdMap.ofList (m.nodes.zip
      (iterate m (clamp cfg.damping 0 (999 / 1000)) cfg.eps p cfg.maxIter p))

end Iteration

def ppr (edges : List (AdjEdge K)) (personalization : OrdMap NodeId K) (cfg : PprConfig K) :
    OrdMap NodeId K :=
  pprWithMatrix (sparseTransitionMatrix (exactWeights K) edges) personalization cfg

/-! ## The rows of the matrix -/

/-- The endpoints of the edges, in ascending order. -/
def endpoints (edges : List (AdjEdge K)) : List NodeId :=
  (OrdMap.ofList (edges.flatMap fun e => [(e.src, ()), (e.dst, ())])).keys

/-- The positive weights of the edges from a node, by the row of the node they lead to. -/
def outgoing (edges : List (AdjEdge K)) (s : NodeId) : List (Nat × K) :=
  (edges.filter fun e => decide (e.src = s) && decide (0 < e.weight)).map fun e =>
    ((endpoints edges).idxOf e.dst, e.weight)

/-- The sum of the positive weights of some of the edges. -/
def weightOf (edges : List (AdjEdge K)) (p : AdjEdge K → Bool) : K :=
  ((edges.filter fun e => p e && decide (0 < e.weight)).map AdjEdge.weight).sum

/-- Of the edges from a node. -/
def outWeight (edges : List (AdjEdge K)) (s : NodeId) : K :=
  weightOf edges fun e => decide (e.src = s)

/-- Of the edges from a node to another. -/
def pairWeight (edges : List (AdjEdge K)) (s d : NodeId) : K :=
  weightOf edges fun e => decide (e.src = s) && decide (e.dst = d)

/-- The cells of a node's row. -/
def cells (edges : List (AdjEdge K)) (s : NodeId) : List (Nat × K) :=
  if 0 < outWeight edges s then
    (addUp (outgoing edges s) OrdMap.empty).entries.map fun c => (c.1, c.2 / outWeight edges s)
  else []

theorem perRow_eq (edges : List (AdjEdge K)) (s : NodeId) :
    perRow (exactWeights K) (endpoints edges) edges s = addUp (outgoing edges s) OrdMap.empty := by
  unfold perRow outgoing
  generalize endpoints edges = nodes
  generalize (OrdMap.empty : OrdMap Nat K) = m
  induction edges generalizing m with
  | nil => rfl
  | cons e edges ih =>
      rw [List.foldl_cons, ih, List.filter_cons]
      by_cases counts : (decide (e.src = s) && decide (0 < e.weight)) = true
      · rw [if_pos counts, List.map_cons, addUp_cons]
        exact congrArg _ (if_pos counts)
      · rw [if_neg counts]
        exact congrArg _ (if_neg counts)

theorem sum_outgoing (edges : List (AdjEdge K)) (s : NodeId) :
    (addUp (outgoing edges s) OrdMap.empty).values.foldl (exactWeights K).add
      (exactWeights K).zero = outWeight edges s := by
  have sum := sum_addUp (outgoing edges s) (OrdMap.empty : OrdMap Nat K)
  have weights : (outgoing edges s).map Prod.snd =
      (edges.filter fun e => decide (e.src = s) && decide (0 < e.weight)).map AdjEdge.weight :=
    List.map_map
  rw [weights] at sum
  rw [outWeight, weightOf, ← zero_add (List.sum _)]
  refine Eq.trans ?_ sum
  exact List.sum_eq_foldl.symm

/-- The matrix is put together of the rows' cells. -/
theorem matrix_eq (edges : List (AdjEdge K)) :
    sparseTransitionMatrix (exactWeights K) edges =
      { nodes := endpoints edges
        rowPtr := ((endpoints edges).map (cells edges)).scanl (fun n row => n + row.length) 0
        colIdx := ((endpoints edges).map (cells edges)).flatten.map Prod.fst
        values := ((endpoints edges).map (cells edges)).flatten.map Prod.snd
        hasOutgoing := (endpoints edges).map fun s => decide (0 < outWeight edges s) } := by
  have rows : ((((endpoints edges).map fun n => perRow (exactWeights K) (endpoints edges) edges n).zip
      (((endpoints edges).map fun n => perRow (exactWeights K) (endpoints edges) edges n).map fun r =>
        r.values.foldl (exactWeights K).add (exactWeights K).zero)).map fun p =>
      if (exactWeights K).positive p.2 then
        p.1.entries.map fun c => (c.1, (exactWeights K).div c.2 p.2)
      else []) = (endpoints edges).map (cells edges) := by
    rw [List.map_map, List.zip_map', List.map_map]
    refine List.map_congr_left fun s _ => ?_
    simp only [Function.comp_apply, perRow_eq, sum_outgoing]
    unfold cells
    by_cases pos : 0 < outWeight edges s
    · rw [if_pos pos]
      exact if_pos (decide_eq_true pos)
    · rw [if_neg pos]
      exact if_neg (by simpa [exactWeights] using pos)
  have out : ((endpoints edges).map fun n => perRow (exactWeights K) (endpoints edges) edges n).map
      (fun r => r.values.foldl (exactWeights K).add (exactWeights K).zero) =
      (endpoints edges).map (outWeight edges) := by
    rw [List.map_map]
    refine List.map_congr_left fun s _ => ?_
    simp only [Function.comp_apply, perRow_eq, sum_outgoing]
  unfold sparseTransitionMatrix
  change SparseTransition.mk (endpoints edges) _ _ _ _ = _
  congr 1
  · exact congrArg _ rows
  · exact congrArg (fun c => List.map Prod.fst (List.flatten c)) rows
  · exact congrArg (fun c => List.map Prod.snd (List.flatten c)) rows
  · refine (congrArg (List.map (exactWeights K).positive) out).trans ?_
    rw [List.map_map]
    rfl

theorem foldl_lengths {α : Type} (L : List (List α)) (n : Nat) :
    L.foldl (fun n row => n + row.length) n = n + (L.map List.length).sum := by
  induction L generalizing n with
  | nil => rfl
  | cons l L ih => rw [List.foldl_cons, ih, List.map_cons, List.sum_cons, Nat.add_assoc]

theorem getD_rowPtr {α : Type} (L : List (List α)) {i : Nat} (inside : i ≤ L.length) :
    (L.scanl (fun n row => n + row.length) 0).getD i 0 = ((L.map List.length).take i).sum := by
  rw [List.getD_eq_getElem?_getD, List.getElem?_scanl, if_pos inside, Option.getD_some,
    foldl_lengths, Nat.zero_add, List.map_take]

/-- A row of the matrix has the cells of its node. -/
theorem row_matrix {edges : List (AdjEdge K)} {i : Nat} {s : NodeId}
    (here : (endpoints edges)[i]? = some s) :
    matrixRow (sparseTransitionMatrix (exactWeights K) edges) i = cells edges s := by
  obtain ⟨inside, at_i⟩ := List.getElem?_eq_some_iff.mp here
  have long : ((endpoints edges).map (cells edges)).length = (endpoints edges).length :=
    List.length_map _
  rw [matrix_eq]
  unfold matrixRow
  dsimp only
  rw [← List.unzip_fst, ← List.unzip_snd, List.zip_unzip,
    getD_rowPtr _ (by omega), getD_rowPtr _ (by omega)]
  rw [List.drop_take_succ_flatten_eq_getElem _ i (by omega), List.getElem_map, at_i]

theorem live_matrix {edges : List (AdjEdge K)} {i : Nat} {s : NodeId}
    (here : (endpoints edges)[i]? = some s) :
    live (sparseTransitionMatrix (exactWeights K) edges) i = decide (0 < outWeight edges s) := by
  rw [matrix_eq]
  unfold live
  rw [List.getD_eq_getElem?_getD, List.getElem?_map, here]
  rfl

section Endpoints

omit [Field K] [LinearOrder K]

theorem mem_endpoints_iff {edges : List (AdjEdge K)} {n : NodeId} :
    n ∈ endpoints edges ↔ ∃ e ∈ edges, n = e.src ∨ n = e.dst := by
  rw [endpoints, OrdMap.mem_keys_iff, OrdMap.get?_ofList, Entries.get?_isSome_iff,
    List.map_reverse, List.mem_reverse, List.map_flatMap, List.mem_flatMap]
  simp

theorem nodup_endpoints (edges : List (AdjEdge K)) : (endpoints edges).Nodup :=
  (OrdMap.ofList _).ascending.nodup

end Endpoints

theorem mem_outgoing {edges : List (AdjEdge K)} {s : NodeId} {c : Nat × K}
    (m : c ∈ outgoing edges s) : ∃ e ∈ edges, e.src = s ∧ 0 < e.weight ∧
      c = ((endpoints edges).idxOf e.dst, e.weight) := by
  obtain ⟨e, kept, rfl⟩ := List.mem_map.mp m
  obtain ⟨inEdges, counts⟩ := List.mem_filter.mp kept
  rw [Bool.and_eq_true, decide_eq_true_eq, decide_eq_true_eq] at counts
  exact ⟨e, inEdges, counts.1, counts.2, rfl⟩

theorem column_cells {edges : List (AdjEdge K)} {s : NodeId} {c : Nat × K} (m : c ∈ cells edges s) :
    c.1 < (endpoints edges).length := by
  unfold cells at m
  split at m
  · obtain ⟨d, inMap, rfl⟩ := List.mem_map.mp m
    have found := (OrdMap.get?_eq_some_iff _).mpr inMap
    rw [get?_addUp] at found
    split at found
    · rename_i given
      obtain ⟨x, inRow, same⟩ := List.mem_map.mp given
      obtain ⟨e, inEdges, -, -, rfl⟩ := mem_outgoing inRow
      rw [← same]
      exact List.idxOf_lt_length_of_mem (mem_endpoints_iff.mpr ⟨e, inEdges, Or.inr rfl⟩)
    · cases found
  · cases m

section Stochastic

variable [IsStrictOrderedRing K]

theorem weightOf_pos {edges : List (AdjEdge K)} {p : AdjEdge K → Bool} {e : AdjEdge K}
    (m : e ∈ edges) (counts : p e = true) (pos : 0 < e.weight) : 0 < weightOf edges p := by
  refine lt_of_lt_of_le pos (List.single_le_sum (fun w inside => ?_) _
    (List.mem_map.mpr ⟨e, List.mem_filter.mpr ⟨m, by simp [counts, pos]⟩, rfl⟩))
  obtain ⟨e', kept, rfl⟩ := List.mem_map.mp inside
  have counts' := (List.mem_filter.mp kept).2
  rw [Bool.and_eq_true, decide_eq_true_eq] at counts'
  exact counts'.2.le

theorem givenTo_outgoing {edges : List (AdjEdge K)} {s d : NodeId} {j : Nat}
    (here : (endpoints edges)[j]? = some d) :
    givenTo (outgoing edges s) j = pairWeight edges s d ∧
      (j ∈ (outgoing edges s).map Prod.fst ↔ 0 < pairWeight edges s d) := by
  obtain ⟨inside, at_j⟩ := List.getElem?_eq_some_iff.mp here
  have same_place : ∀ e ∈ edges, ((endpoints edges).idxOf e.dst = j ↔ e.dst = d) := by
    intro e m
    have known : e.dst ∈ endpoints edges := mem_endpoints_iff.mpr ⟨e, m, Or.inr rfl⟩
    constructor
    · rintro rfl
      rw [← at_j]
      exact (List.getElem_idxOf (List.idxOf_lt_length_of_mem known)).symm
    · rintro rfl
      rw [← at_j]
      exact (nodup_endpoints edges).idxOf_getElem j inside
  have given : givenTo (outgoing edges s) j = pairWeight edges s d := by
    unfold givenTo outgoing pairWeight weightOf
    rw [List.filter_map, List.map_map, List.filter_filter]
    refine congrArg List.sum (congrArg _ (List.filter_congr fun e m => ?_))
    rw [Function.comp_apply, decide_eq_decide.mpr (same_place e m)]
    dsimp only
    cases decide (e.dst = d) <;> cases decide (e.src = s) <;> rfl
  refine ⟨given, ?_⟩
  constructor
  · intro m
    obtain ⟨c, inRow, rfl⟩ := List.mem_map.mp m
    obtain ⟨e, inEdges, from_s, pos, rfl⟩ := mem_outgoing inRow
    have leads : e.dst = d := (same_place e inEdges).mp rfl
    exact weightOf_pos inEdges (by simp [from_s, leads]) pos
  · intro pos
    by_contra absent
    rw [← given, givenTo_eq_zero absent] at pos
    exact lt_irrefl _ pos

/-- A row holds the share of each node in the weights. -/
theorem get?_cells {edges : List (AdjEdge K)} {s d : NodeId} {j : Nat}
    (here : (endpoints edges)[j]? = some d) :
    Entries.get? j (cells edges s) =
      if 0 < pairWeight edges s d then some (pairWeight edges s d / outWeight edges s) else none := by
  obtain ⟨given, positive⟩ := givenTo_outgoing (s := s) here
  unfold cells
  by_cases pos : 0 < outWeight edges s
  · rw [if_pos pos]
    have shares := OrdMap.get?_mapValues (addUp (outgoing edges s) OrdMap.empty)
      (· / outWeight edges s) j
    refine shares.trans ?_
    rw [get?_addUp, given, OrdMap.get?_empty]
    by_cases some : 0 < pairWeight edges s d
    · rw [if_pos some, if_pos (positive.mpr some), Option.map_some, Option.getD_none, zero_add]
    · rw [if_neg some, if_neg fun m => some (positive.mp m)]
      rfl
  · rw [if_neg pos]
    have none : ¬ 0 < pairWeight edges s d := by
      intro some
      obtain ⟨c, inRow, -⟩ := List.mem_map.mp (positive.mpr some)
      obtain ⟨e, inEdges, from_s, weight, -⟩ := mem_outgoing inRow
      exact pos (weightOf_pos inEdges (by simp [from_s]) weight)
    rw [if_neg none]
    rfl

/-- The cells of a live row are shares of it. -/
theorem distribution_cells {edges : List (AdjEdge K)} {s : NodeId} (pos : 0 < outWeight edges s) :
    Distribution ((cells edges s).map Prod.snd) := by
  have sum := sum_outgoing edges s
  have values : (cells edges s).map Prod.snd =
      (addUp (outgoing edges s) OrdMap.empty).values.map (· / outWeight edges s) := by
    rw [cells, if_pos pos, OrdMap.values, List.map_map, List.map_map]
    rfl
  have total : (addUp (outgoing edges s) OrdMap.empty).values.sum = outWeight edges s := by
    rw [← sum]
    exact List.sum_eq_foldl
  have nonneg : ∀ w ∈ (addUp (outgoing edges s) OrdMap.empty).values, 0 ≤ w := by
    intro w m
    obtain ⟨c, inMap, rfl⟩ := List.mem_map.mp m
    have found := (OrdMap.get?_eq_some_iff _).mpr inMap
    rw [get?_addUp] at found
    split at found
    · rw [← Option.some.inj found, OrdMap.get?_empty, Option.getD_none, zero_add]
      refine List.sum_nonneg fun w m => ?_
      obtain ⟨d, kept, rfl⟩ := List.mem_map.mp m
      obtain ⟨e, -, -, weight, rfl⟩ := mem_outgoing (List.mem_filter.mp kept).1
      exact weight.le
    · cases found
  rw [values, ← total]
  rw [← total] at pos
  exact distribution_normalize nonneg pos

/-- A matrix whose live rows give out what they hold. -/
structure Stochastic (m : SparseTransition K) : Prop where
  columns : ∀ i < m.nodes.length, ∀ c ∈ matrixRow m i, c.1 < m.nodes.length
  shares : ∀ i < m.nodes.length, live m i = true → Distribution ((matrixRow m i).map Prod.snd)

theorem stochastic_matrix (edges : List (AdjEdge K)) :
    Stochastic (sparseTransitionMatrix (exactWeights K) edges) := by
  have nodes : (sparseTransitionMatrix (exactWeights K) edges).nodes = endpoints edges := rfl
  refine ⟨fun i inside c m => ?_, fun i inside alive => ?_⟩
  · rw [nodes] at inside ⊢
    rw [row_matrix (List.getElem?_eq_getElem inside)] at m
    exact column_cells m
  · rw [nodes] at inside
    have here := List.getElem?_eq_getElem inside
    rw [live_matrix here, decide_eq_true_eq] at alive
    rw [row_matrix here]
    exact distribution_cells alive

end Stochastic

/-! ## A round -/

section Round

variable {m : SparseTransition K}

omit [LinearOrder K] in
theorem danglingMass_eq (m : SparseTransition K) (r : List K) : danglingMass m r =
    ((List.range m.nodes.length).map fun i => if live m i then 0 else r.getD i 0).sum := by
  have general : ∀ (is : List Nat) (mass : K),
      is.foldl (fun mass i => if live m i then mass else mass + r.getD i 0) mass =
        mass + (is.map fun i => if live m i then 0 else r.getD i 0).sum := by
    intro is
    induction is with
    | nil => exact fun mass => (add_zero mass).symm
    | cons i is ih =>
        intro mass
        rw [List.foldl_cons, ih, List.map_cons, List.sum_cons]
        cases live m i with
        | true => simp
        | false => exact add_assoc mass _ _
  rw [danglingMass, general, zero_add]

omit [LinearOrder K] in
/-- What the dead rows and the live rows hold. -/
theorem sum_parts (m : SparseTransition K) {r : List K} (long : r.length = m.nodes.length) :
    danglingMass m r +
      ((List.range m.nodes.length).map fun i => if live m i then r.getD i 0 else 0).sum = r.sum := by
  have whole : (List.range m.nodes.length).map (fun i => r.getD i 0) = r := by
    refine List.ext_getElem (by simp [long]) fun i _ inside => ?_
    rw [List.getElem_map, List.getElem_range, List.getD_eq_getElem?_getD,
      List.getElem?_eq_getElem inside, Option.getD_some]
  conv_rhs => rw [← whole]
  rw [danglingMass_eq, ← List.sum_map_add]
  refine congrArg List.sum (List.map_congr_left fun i _ => ?_)
  cases live m i with
  | true => exact zero_add _
  | false => exact add_zero _

variable [IsStrictOrderedRing K]

/-- A list for the rows that holds so much. -/
structure Holds (m : SparseTransition K) (next : List K) (total : K) : Prop where
  long : next.length = m.nodes.length
  nonneg : ∀ x ∈ next, 0 ≤ x
  sum : next.sum = total

omit [IsStrictOrderedRing K] in
theorem getD_nonneg {r : List K} (nonneg : ∀ x ∈ r, 0 ≤ x) (i : Nat) : 0 ≤ r.getD i 0 := by
  rw [List.getD_eq_getElem?_getD]
  cases found : r[i]? with
  | none => exact le_refl 0
  | some x => exact nonneg x (List.mem_of_getElem? found)

/-- A live row gives out what it holds, but for the damping. -/
theorem holds_spreadRow (stochastic : Stochastic m) {damping : K} (low : 0 ≤ damping) {r : List K}
    (nonneg : ∀ x ∈ r, 0 ≤ x) {i : Nat} (here : i < m.nodes.length) {next : List K} {total : K}
    (holds : Holds m next total) : Holds m (spreadRow m damping r next i)
      (total + damping * if live m i then r.getD i 0 else 0) := by
  unfold spreadRow
  cases alive : live m i with
  | false =>
      rw [if_pos (show (!false) = true from rfl), if_neg Bool.false_ne_true, mul_zero, add_zero]
      exact holds
  | true =>
      by_cases none : r.getD i 0 = 0
      · dsimp only
        rw [if_neg (by simp), if_pos none, if_pos rfl, none, mul_zero, add_zero]
        exact holds
      · have shares := stochastic.shares i here alive
        have given : ((matrixRow m i).map fun c => (c.1, damping * r.getD i 0 * c.2)).map Prod.snd =
            ((matrixRow m i).map Prod.snd).map (damping * r.getD i 0 * ·) := by
          rw [List.map_map, List.map_map]
          rfl
        dsimp only
        rw [if_neg (by simp), if_neg none, if_pos rfl]
        refine ⟨by rw [length_give]; exact holds.long, nonneg_give holds.nonneg fun c inRow => ?_, ?_⟩
        · obtain ⟨d, m', rfl⟩ := List.mem_map.mp inRow
          exact mul_nonneg (mul_nonneg low (getD_nonneg nonneg i))
            (shares.nonneg _ (List.mem_map.mpr ⟨d, m', rfl⟩))
        · rw [sum_give _ _ fun c inRow => ?_, given, sum_map_mul, shares.sum, holds.sum, mul_one]
          obtain ⟨d, m', rfl⟩ := List.mem_map.mp inRow
          rw [holds.long]
          exact stochastic.columns i here d m'

theorem holds_spread (stochastic : Stochastic m) {damping : K} (low : 0 ≤ damping) {r : List K}
    (nonneg : ∀ x ∈ r, 0 ≤ x) {next : List K} {total : K} (holds : Holds m next total) :
    Holds m (spread m damping r next) (total + damping *
      ((List.range m.nodes.length).map fun i => if live m i then r.getD i 0 else 0).sum) := by
  have rows : ∀ i ∈ List.range m.nodes.length, i < m.nodes.length := fun i => List.mem_range.mp
  unfold spread
  generalize List.range m.nodes.length = is at rows ⊢
  induction is generalizing next total with
  | nil =>
      rw [List.map_nil, List.sum_nil, mul_zero, add_zero]
      exact holds
  | cons i is ih =>
      have later := ih (holds_spreadRow stochastic low nonneg (rows i List.mem_cons_self) holds)
        (fun j m => rows j (List.mem_cons_of_mem i m))
      rw [List.foldl_cons, List.map_cons, List.sum_cons, mul_add, ← add_assoc]
      exact later

/-- **A round turns a distribution into one.** -/
theorem distribution_step (stochastic : Stochastic m) {damping : K} (low : 0 ≤ damping)
    (high : damping ≤ 1) {p r : List K} (teleport : Distribution p) (distribution : Distribution r)
    (p_long : p.length = m.nodes.length) (r_long : r.length = m.nodes.length) :
    Distribution (pprStep m damping p r) ∧ (pprStep m damping p r).length = m.nodes.length := by
  have parts := sum_parts m r_long
  have dangling : 0 ≤ danglingMass m r := by
    rw [danglingMass_eq]
    refine List.sum_nonneg fun x inList => ?_
    obtain ⟨i, -, rfl⟩ := List.mem_map.mp inList
    split
    · exact le_refl 0
    · exact getD_nonneg distribution.nonneg i
  have scale : 0 ≤ (1 - damping) + damping * danglingMass m r :=
    add_nonneg (sub_nonneg.mpr high) (mul_nonneg low dangling)
  have start : Holds m (p.map (((1 - damping) + damping * danglingMass m r) * ·))
      ((1 - damping) + damping * danglingMass m r) := by
    refine ⟨by rw [List.length_map]; exact p_long, fun x inList => ?_, ?_⟩
    · obtain ⟨y, inP, rfl⟩ := List.mem_map.mp inList
      exact mul_nonneg scale (teleport.nonneg y inP)
    · rw [sum_map_mul, teleport.sum, mul_one]
  have spreads := holds_spread stochastic low distribution.nonneg start
  -- what the dead rows hold goes to the personalization, and what the live rows hold along the edges
  have total : (1 - damping) + damping * danglingMass m r + damping *
      ((List.range m.nodes.length).map fun i => if live m i then r.getD i 0 else 0).sum = 1 := by
    rw [distribution.sum] at parts
    rw [add_assoc, ← mul_add, parts]
    ring
  rw [total] at spreads
  have pos : 0 < (spread m damping r
      (p.map (((1 - damping) + damping * danglingMass m r) * ·))).sum := by
    rw [spreads.sum]
    exact zero_lt_one
  unfold pprStep
  dsimp only
  rw [if_pos pos]
  exact ⟨distribution_normalize spreads.nonneg pos, by rw [List.length_map]; exact spreads.long⟩

theorem distribution_iterate (stochastic : Stochastic m) {damping : K} (low : 0 ≤ damping)
    (high : damping ≤ 1) (eps : K) {p : List K} (teleport : Distribution p)
    (p_long : p.length = m.nodes.length) (n : Nat) {r : List K} (distribution : Distribution r)
    (r_long : r.length = m.nodes.length) :
    Distribution (iterate m damping eps p n r) ∧
      (iterate m damping eps p n r).length = m.nodes.length := by
  induction n generalizing r with
  | zero => exact ⟨distribution, r_long⟩
  | succ n ih =>
      obtain ⟨next, long⟩ :=
        distribution_step stochastic low high teleport distribution p_long r_long
      rw [iterate]
      split
      · exact ⟨next, long⟩
      · exact ih next long

theorem distribution_personalize (some : m.nodes ≠ []) (personalization : OrdMap NodeId K) :
    Distribution (personalize m personalization) ∧
      (personalize m personalization).length = m.nodes.length := by
  unfold personalize
  dsimp only
  split
  · rename_i pos
    have given : ∀ c ∈ (personalization.entries.filter fun e =>
        decide (e.1 ∈ m.nodes) && decide (0 < e.2)).map (fun e => (m.nodes.idxOf e.1, e.2)),
        c.1 < m.nodes.length ∧ 0 ≤ c.2 := by
      intro c inGiven
      obtain ⟨e, kept, rfl⟩ := List.mem_map.mp inGiven
      have counts := (List.mem_filter.mp kept).2
      rw [Bool.and_eq_true, decide_eq_true_eq, decide_eq_true_eq] at counts
      exact ⟨List.idxOf_lt_length_of_mem counts.1, counts.2.le⟩
    have sum := sum_give (List.replicate m.nodes.length (0 : K)) _ fun c inGiven => by
      rw [List.length_replicate]
      exact (given c inGiven).1
    rw [List.sum_replicate, nsmul_zero, zero_add] at sum
    rw [← sum] at pos ⊢
    refine ⟨distribution_normalize (nonneg_give (fun x inZeros => ?_) fun c inGiven =>
      (given c inGiven).2) pos, by simp⟩
    rw [List.eq_of_mem_replicate inZeros]
  · exact ⟨distribution_uniform (List.length_pos_iff.mpr some), List.length_replicate⟩

omit [Field K] [IsStrictOrderedRing K] in
theorem clamp_bounds (x : K) {low high : K} (ordered : low ≤ high) :
    low ≤ clamp x low high ∧ clamp x low high ≤ high := by
  unfold clamp
  split
  · exact ⟨le_refl low, ordered⟩
  · split
    · exact ⟨ordered, le_refl high⟩
    · exact ⟨not_lt.mp ‹_›, not_lt.mp ‹_›⟩

end Round

/-! ## The law -/

omit [Field K] [LinearOrder K] in
theorem endpoints_perm {edges edges' : List (AdjEdge K)} (perm : List.Perm edges edges') :
    endpoints edges = endpoints edges' := by
  refine congrArg OrdMap.keys (OrdSet.ext_mem fun n => ?_)
  rw [← OrdSet.mem_keys, ← OrdSet.mem_keys]
  change n ∈ endpoints edges ↔ n ∈ endpoints edges'
  rw [mem_endpoints_iff, mem_endpoints_iff]
  constructor
  · rintro ⟨e, m, ends⟩
    exact ⟨e, perm.mem_iff.mp m, ends⟩
  · rintro ⟨e, m, ends⟩
    exact ⟨e, perm.mem_iff.mpr m, ends⟩

theorem weightOf_perm {edges edges' : List (AdjEdge K)} (perm : List.Perm edges edges')
    (p : AdjEdge K → Bool) : weightOf edges p = weightOf edges' p :=
  ((perm.filter _).map _).sum_eq

/-- The order of the edges does not matter. -/
theorem matrix_perm {edges edges' : List (AdjEdge K)} (perm : List.Perm edges edges') :
    sparseTransitionMatrix (exactWeights K) edges = sparseTransitionMatrix (exactWeights K) edges' := by
  have same : cells edges = cells edges' := by
    funext s
    have row : List.Perm (outgoing edges s) (outgoing edges' s) := by
      unfold outgoing
      rw [endpoints_perm perm]
      exact (perm.filter _).map _
    unfold cells outWeight
    rw [weightOf_perm perm, addUp_perm row]
  rw [matrix_eq, matrix_eq, same, endpoints_perm perm]
  congr 1
  refine List.map_congr_left fun s _ => ?_
  rw [outWeight, outWeight, weightOf_perm perm]

variable [IsStrictOrderedRing K]

theorem entries_pprWithMatrix {m : SparseTransition K} (stochastic : Stochastic m) (some : m.nodes ≠ [])
    (ascending : m.nodes.Pairwise (· < ·)) (personalization : OrdMap NodeId K) (cfg : PprConfig K) :
    (pprWithMatrix m personalization cfg).keys = m.nodes ∧
      Distribution (pprWithMatrix m personalization cfg).values := by
  obtain ⟨teleport, p_long⟩ := distribution_personalize some personalization
  obtain ⟨low, high⟩ := clamp_bounds cfg.damping (show (0 : K) ≤ 999 / 1000 by norm_num)
  obtain ⟨result, long⟩ := distribution_iterate stochastic low
    (high.trans (by norm_num)) cfg.eps teleport p_long cfg.maxIter teleport p_long
  unfold pprWithMatrix
  rw [if_neg some]
  dsimp only
  generalize iterate m _ _ _ _ _ = r at result long
  have keys : (m.nodes.zip r).map Prod.fst = m.nodes := List.map_fst_zip (by omega)
  have values : (m.nodes.zip r).map Prod.snd = r := List.map_snd_zip (by omega)
  have zipped : Entries.Ascending (m.nodes.zip r) := by
    unfold Entries.Ascending
    rw [← keys] at ascending
    exact List.pairwise_map.mp ascending
  rw [OrdMap.ofList_of_ascending zipped]
  exact ⟨keys, by rw [OrdMap.values, values]; exact result⟩

/-- **PageRank is a distribution that does not depend on the order of the edges.**  The matrix has a
row for each endpoint, and the row holds the shares of the nodes in the positive weights, parallel
edges added up; the scores are a distribution after any number of rounds, if there is an edge. -/
theorem ppr_law (edges : List (AdjEdge K)) (personalization : OrdMap NodeId K) (cfg : PprConfig K) :
    let m := sparseTransitionMatrix (exactWeights K) edges
    (m.nodes.Pairwise (· < ·) ∧ ∀ n, n ∈ m.nodes ↔ ∃ e ∈ edges, n = e.src ∨ n = e.dst) ∧
      (∀ i s, m.nodes[i]? = some s →
        live m i = decide (0 < outWeight edges s) ∧
        (live m i = true → ((matrixRow m i).map Prod.snd).sum = 1) ∧
        ∀ j d, m.nodes[j]? = some d → Entries.get? j (matrixRow m i) =
          if 0 < pairWeight edges s d then some (pairWeight edges s d / outWeight edges s)
          else none) ∧
      (∀ edges', List.Perm edges edges' →
        sparseTransitionMatrix (exactWeights K) edges' = m ∧
          ppr edges' personalization cfg = ppr edges personalization cfg) ∧
      (edges = [] → ppr edges personalization cfg = OrdMap.empty) ∧
      (edges ≠ [] → (ppr edges personalization cfg).keys = m.nodes ∧
        (∀ x ∈ (ppr edges personalization cfg).values, 0 ≤ x) ∧
        (ppr edges personalization cfg).values.sum = 1) := by
  intro m
  have ascending : m.nodes.Pairwise (· < ·) := List.pairwise_map.mpr (OrdMap.ofList _).ascending
  have stochastic := stochastic_matrix edges
  refine ⟨⟨ascending, fun n => mem_endpoints_iff⟩, fun i s here => ⟨live_matrix here, fun alive => ?_,
    fun j d there => ?_⟩, fun edges' perm => ?_, ?_, fun some => ?_⟩
  · exact (stochastic.shares i (List.getElem?_eq_some_iff.mp here).1 alive).sum
  · rw [row_matrix here]
    exact get?_cells there
  · have same := matrix_perm perm.symm
    exact ⟨same, congrArg (fun m => pprWithMatrix m personalization cfg) same⟩
  · rintro rfl
    rfl
  · obtain ⟨e, rest, rfl⟩ := List.exists_cons_of_ne_nil some
    have endpoint : e.src ∈ m.nodes :=
      mem_endpoints_iff.mpr ⟨e, List.mem_cons_self, Or.inl rfl⟩
    obtain ⟨keys, distribution⟩ := entries_pprWithMatrix stochastic (List.ne_nil_of_mem endpoint)
      ascending personalization cfg
    exact ⟨keys, distribution.nonneg, distribution.sum⟩

/-- Two parallel edges and a dead end, the other way round. -/
theorem ppr_law_parallel :
    ppr [⟨1, 2, 2, .knn⟩, ⟨1, 2, 1, .authored⟩] OrdMap.empty ⟨17 / 20, 15, 0⟩ =
        ppr [⟨1, 2, 1, .authored⟩, ⟨1, 2, (2 : ℚ), .knn⟩] OrdMap.empty ⟨17 / 20, 15, 0⟩ ∧
      (ppr [⟨1, 2, 1, .authored⟩, ⟨1, 2, (2 : ℚ), .knn⟩] OrdMap.empty
        ⟨17 / 20, 15, 0⟩).values.sum = 1 :=
  have law := ppr_law [⟨1, 2, 1, .authored⟩, ⟨1, 2, (2 : ℚ), .knn⟩] OrdMap.empty ⟨17 / 20, 15, 0⟩
  ⟨(law.2.2.1 _ (List.Perm.swap _ _ _)).2, (law.2.2.2.2 (List.cons_ne_nil _ _)).2.2⟩

/-- Without edges there are no scores. -/
theorem ppr_empty : ¬ ∀ (edges : List (AdjEdge ℚ)) (personalization : OrdMap NodeId ℚ)
    (cfg : PprConfig ℚ), (ppr edges personalization cfg).values.sum = 1 := by
  intro law
  have sum := law [] OrdMap.empty ⟨17 / 20, 15, 0⟩
  change (0 : ℚ) = 1 at sum
  exact zero_ne_one sum

end Mnem.Index
