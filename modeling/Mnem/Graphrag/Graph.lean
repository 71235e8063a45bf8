/-
# Graphrag.Graph — the undirected graph of a list of edges

Community detection collapses the edges to one for each unordered pair of
different nodes, with the largest of their positive weights (`link`).  The graph
is symmetric, has no loop, and weighs each pair as its link
(`undirected_build`, `weight_build`).  Neither the order of the edges nor their
directions matter (`build_rearranged`).
-/
import Mnem.Index.Ppr
import Mnem.Theory.Groups
import Mnem.Theory.Modularity
import Mathlib.Data.Prod.Lex
import Mathlib.Data.List.Sort

namespace Mnem.Graphrag

open Http Theory Index

set_option autoImplicit false

/-- A graph over nodes in ascending order: the neighbours of each by index, with the weights, and
twice the weight of all edges. -/
structure Graph (K : Type) where
  nodes : List NodeId
  adjList : List (List (Nat × K))
  m2 : K

/-- An unordered pair, the smaller node first. -/
abbrev Pair := Lex (NodeId × NodeId)

def pairOf (x y : NodeId) : Pair := if x < y then toLex (x, y) else toLex (y, x)

theorem pairOf_symm (x y : NodeId) : pairOf x y = pairOf y x := by
  unfold pairOf
  rcases lt_trichotomy x y with less | rfl | more
  · rw [if_pos less, if_neg less.not_gt]
  · rfl
  · rw [if_neg more.not_gt, if_pos more]

theorem pairOf_eq_iff {x y : NodeId} {p : Pair} (ordered : (ofLex p).1 < (ofLex p).2) :
    p = pairOf x y ↔ (ofLex p).1 = x ∧ (ofLex p).2 = y ∨ (ofLex p).1 = y ∧ (ofLex p).2 = x := by
  obtain ⟨a, b⟩ := p
  change a < b at ordered
  change (toLex (a, b) = pairOf x y) ↔ (a = x ∧ b = y ∨ a = y ∧ b = x)
  constructor
  · intro same
    unfold pairOf at same
    split at same
    · cases same
      exact Or.inl ⟨rfl, rfl⟩
    · cases same
      exact Or.inr ⟨rfl, rfl⟩
  · rintro (⟨rfl, rfl⟩ | ⟨rfl, rfl⟩)
    · exact (if_pos ordered).symm
    · exact (if_neg ordered.not_gt).symm

section Build

variable {K : Type} [Field K] [LinearOrder K]

/-- Keep the larger weight of a pair; a loop is dropped. -/
def collapseEdge (edges : OrdMap Pair K) (e : AdjEdge K) : OrdMap Pair K :=
  if e.src = e.dst then edges
  else
    let w := max e.weight 0
    edges.modify (pairOf e.src e.dst) fun cur =>
      match cur with
      | none => w
      | some c => if c < w then w else c

def collapse (edges : List (AdjEdge K)) : OrdMap Pair K := edges.foldl collapseEdge OrdMap.empty

/-- The pairs with a positive weight, as arcs both ways between the indices of the nodes. -/
def arcs (nodes : List NodeId) (pairs : List (Pair × K)) : List (Nat × (Nat × K)) :=
  pairs.flatMap fun e =>
    [(nodes.idxOf (ofLex e.1).1, (nodes.idxOf (ofLex e.1).2, e.2)),
      (nodes.idxOf (ofLex e.1).2, (nodes.idxOf (ofLex e.1).1, e.2))]

/-- `adj[i].push(x)` for each row. -/
def pushInto {α : Type} (adj : List (List α)) (rows : List (Nat × α)) : List (List α) :=
  rows.foldl (fun adj r => adj.modify r.1 (· ++ [r.2])) adj

def sortByKey (neighbours : List (Nat × K)) : List (Nat × K) :=
  neighbours.insertionSort fun x y => x.1 ≤ y.1

def assemble (nodes : List NodeId) (edges : OrdMap Pair K) : Graph K :=
  let pairs := edges.entries.filter fun e => !decide (e.2 ≤ 0)
  { nodes
    adjList := (pushInto (List.replicate nodes.length []) (arcs nodes pairs)).map sortByKey
    m2 := pairs.foldl (fun m2 e => m2 + 2 * e.2) 0 }

def buildUndirectedGraph (edges : List (AdjEdge K)) : Graph K :=
  assemble (endpoints edges) (collapse edges)

namespace Graph

variable (g : Graph K)

def neighbours (u : Nat) : List (Nat × K) := g.adjList.getD u []

def degrees : List K := g.adjList.map fun neighbours => (neighbours.map Prod.snd).sum

/-- The weight between two nodes. -/
def weight (u v : Nat) : K := givenTo (g.neighbours u) v

/-- The indices of the nodes. -/
def indices : Finset Nat := Finset.range g.nodes.length

end Graph

/-! ## The links -/

/-- The edge joins the two nodes, either way. -/
def joins (x y : NodeId) (e : AdjEdge K) : Bool :=
  (decide (e.src = x) && decide (e.dst = y)) || (decide (e.src = y) && decide (e.dst = x))

/-- The largest positive weight of the edges between two different nodes, 0 without one. -/
def link (edges : List (AdjEdge K)) (x y : NodeId) : K :=
  if x = y then 0 else ((edges.filter (joins x y)).map AdjEdge.weight).foldl max 0

/-- The edge counts for the pair. -/
def countsFor (p : Pair) (e : AdjEdge K) : Bool :=
  !decide (e.src = e.dst) && decide (pairOf e.src e.dst = p)

/-- The weights that are collapsed into one for a pair. -/
def weightsOf (edges : List (AdjEdge K)) (p : Pair) : List K :=
  (edges.filter (countsFor p)).map AdjEdge.weight

/-- No collapsed weight is negative. -/
def Positive (m : OrdMap Pair K) : Prop := ∀ p c, m.get? p = some c → 0 ≤ c

theorem get?_collapseEdge {m : OrdMap Pair K} (positive : Positive m) (e : AdjEdge K) (p : Pair) :
    (collapseEdge m e).get? p =
      if countsFor p e then some (max ((m.get? p).getD 0) e.weight) else m.get? p := by
  unfold collapseEdge countsFor
  by_cases loop : e.src = e.dst
  · rw [if_pos loop, if_neg (by simp [loop])]
  · rw [if_neg loop]
    dsimp only
    rw [OrdMap.get?_modify]
    by_cases here : pairOf e.src e.dst = p
    · rw [if_pos here, if_pos (by simp [loop, here]), here]
      congr 1
      cases found : m.get? p with
      | none => exact max_comm _ _
      | some c =>
          have pos := positive p c found
          dsimp only
          rw [Option.getD_some]
          split
          · rename_i less
            rcases max_choice e.weight 0 with at_weight | at_zero
            · rw [at_weight] at less ⊢
              exact (max_eq_right less.le).symm
            · rw [at_zero] at less
              exact absurd pos less.not_ge
          · rename_i more
            exact (max_eq_left ((le_max_left _ _).trans (not_lt.mp more))).symm
    · rw [if_neg here, if_neg (by simp [here])]

theorem Positive.collapseEdge {m : OrdMap Pair K} (positive : Positive m) (e : AdjEdge K) :
    Positive (collapseEdge m e) := by
  intro p c found
  rw [get?_collapseEdge positive] at found
  split at found
  · rw [← Option.some.inj found]
    refine le_max_of_le_left ?_
    cases before : m.get? p with
    | none => exact le_refl 0
    | some d => exact positive p d before
  · exact positive p c found

/-- A pair has the largest of its weights. -/
theorem get?_collapse (edges : List (AdjEdge K)) (p : Pair) : (collapse edges).get? p =
    if weightsOf edges p = [] then none else some ((weightsOf edges p).foldl max 0) := by
  have general : ∀ m : OrdMap Pair K, Positive m → (edges.foldl collapseEdge m).get? p =
      if weightsOf edges p = [] then m.get? p
      else some ((weightsOf edges p).foldl max ((m.get? p).getD 0)) := by
    induction edges with
    | nil => exact fun _ _ => rfl
    | cons e edges ih =>
        intro m positive
        rw [List.foldl_cons, ih _ (positive.collapseEdge e), get?_collapseEdge positive]
        unfold weightsOf
        rw [List.filter_cons]
        cases counts : countsFor p e with
        | false => rfl
        | true =>
            rw [if_pos rfl, if_pos rfl, List.map_cons, if_neg (List.cons_ne_nil _ _)]
            rw [List.foldl_cons, Option.getD_some]
            split
            · rename_i none
              rw [none]
              rfl
            · rfl
  exact general OrdMap.empty fun q c found => by cases found

theorem positive_collapse (edges : List (AdjEdge K)) : Positive (collapse edges) := by
  have general : ∀ m : OrdMap Pair K, Positive m → Positive (edges.foldl collapseEdge m) := by
    induction edges with
    | nil => exact fun _ positive => positive
    | cons e edges ih => exact fun m positive => ih _ (positive.collapseEdge e)
  exact general OrdMap.empty fun q c found => by cases found

omit [Field K] [LinearOrder K] in
theorem countsFor_pairOf {x y : NodeId} (apart : x ≠ y) (e : AdjEdge K) :
    countsFor (pairOf x y) e = joins x y e := by
  have same : countsFor (pairOf x y) e = true ↔ joins x y e = true := by
    unfold countsFor joins
    simp only [Bool.and_eq_true, Bool.or_eq_true, Bool.not_eq_true', decide_eq_true_eq,
      decide_eq_false_iff_not]
    constructor
    · rintro ⟨loop, here⟩
      unfold pairOf at here
      split at here <;> split at here <;> cases here
      · exact Or.inl ⟨rfl, rfl⟩
      · exact Or.inr ⟨rfl, rfl⟩
      · exact Or.inr ⟨rfl, rfl⟩
      · exact Or.inl ⟨rfl, rfl⟩
    · rintro (⟨rfl, rfl⟩ | ⟨rfl, rfl⟩)
      · exact ⟨apart, rfl⟩
      · exact ⟨fun loop => apart loop.symm, pairOf_symm _ _⟩
  cases one : countsFor (pairOf x y) e <;> cases two : joins x y e
  · rfl
  · exact absurd (same.mpr two) (by simp [one])
  · exact absurd (same.mp one) (by simp [two])
  · rfl

theorem link_eq (edges : List (AdjEdge K)) {x y : NodeId} (apart : x ≠ y) :
    link edges x y = (weightsOf edges (pairOf x y)).foldl max 0 := by
  rw [link, if_neg apart, weightsOf]
  exact congrArg (fun es => List.foldl max 0 (List.map AdjEdge.weight es))
    (List.filter_congr fun e _ => (countsFor_pairOf apart e).symm)

/-! ## The adjacency lists -/

theorem length_pushInto {α : Type} (adj : List (List α)) (rows : List (Nat × α)) :
    (pushInto adj rows).length = adj.length := by
  induction rows generalizing adj with
  | nil => rfl
  | cons r rows ih => exact (ih _).trans (List.length_modify ..)

theorem getElem?_pushInto {α : Type} (adj : List (List α)) (rows : List (Nat × α)) (i : Nat) :
    (pushInto adj rows)[i]? = adj[i]?.map (· ++ Groups.rowsAt rows i) := by
  induction rows generalizing adj with
  | nil =>
      show adj[i]? = adj[i]?.map (· ++ [])
      simp
  | cons r rows ih =>
      change (pushInto (adj.modify r.1 (· ++ [r.2])) rows)[i]? = _
      rw [ih, List.getElem?_modify, Groups.rowsAt_cons]
      cases adj[i]? with
      | none => rfl
      | some l => by_cases here : r.1 = i <;> simp [here]

section Assemble

variable (nodes : List NodeId) (edges : OrdMap Pair K)

/-- The pairs with a positive weight. -/
def kept : List (Pair × K) := edges.entries.filter fun e => !decide (e.2 ≤ 0)

theorem neighbours_assemble (u : Nat) : (assemble nodes edges).neighbours u =
    if u < nodes.length then sortByKey (Groups.rowsAt (arcs nodes (kept edges)) u) else [] := by
  unfold Graph.neighbours assemble
  dsimp only
  rw [List.getD_eq_getElem?_getD, List.getElem?_map, getElem?_pushInto, List.getElem?_replicate]
  by_cases inside : u < nodes.length
  · rw [if_pos inside, if_pos inside]
    rfl
  · rw [if_neg inside, if_neg inside]
    rfl

omit [Field K] [LinearOrder K] in
theorem perm_sortByKey (l : List (Nat × K)) : List.Perm (sortByKey l) l := List.perm_insertionSort _ l

theorem weight_assemble {u : Nat} (inside : u < nodes.length) (v : Nat) :
    (assemble nodes edges).weight u v =
      givenTo (Groups.rowsAt (arcs nodes (kept edges)) u) v := by
  rw [Graph.weight, neighbours_assemble, if_pos inside]
  exact givenTo_perm (perm_sortByKey _) v

theorem mem_neighbours_assemble {u : Nat} {e : Nat × K}
    (m : e ∈ (assemble nodes edges).neighbours u) : (u, e) ∈ arcs nodes (kept edges) := by
  rw [neighbours_assemble] at m
  split at m
  · exact Groups.mem_rowsAt.mp ((perm_sortByKey _).mem_iff.mp m)
  · cases m

end Assemble

/-- Pairs of different nodes of a list. -/
def PairsOf (nodes : List NodeId) (pairs : List (Pair × K)) : Prop :=
  ∀ e ∈ pairs, (ofLex e.1).1 < (ofLex e.1).2 ∧ (ofLex e.1).1 ∈ nodes ∧ (ofLex e.1).2 ∈ nodes

theorem idxOf_eq_iff {nodes : List NodeId} {a x : NodeId} (known : a ∈ nodes) :
    nodes.idxOf a = nodes.idxOf x ↔ a = x := List.idxOf_inj known

omit [LinearOrder K] in
theorem givenTo_rowsAt_cons (i j : Nat) (w : K) (rows : List (Nat × (Nat × K))) (u v : Nat) :
    givenTo (Groups.rowsAt ((i, (j, w)) :: rows) u) v =
      (if i = u ∧ j = v then w else 0) + givenTo (Groups.rowsAt rows u) v := by
  rw [Groups.rowsAt_cons]
  by_cases at_u : i = u
  · rw [if_pos at_u, givenTo_cons]
    exact congrArg (· + _) (if_congr (by simp [at_u]) rfl rfl)
  · rw [if_neg at_u, if_neg fun both => at_u both.1, zero_add]

omit [LinearOrder K] in
/-- Arcs from a node to another come from their pair alone. -/
theorem givenTo_arcs {nodes : List NodeId} {pairs : List (Pair × K)} (valid : PairsOf nodes pairs)
    (x y : NodeId) : givenTo (Groups.rowsAt (arcs nodes pairs) (nodes.idxOf x)) (nodes.idxOf y) =
      if x = y then 0 else givenTo pairs (pairOf x y) := by
  induction pairs with
  | nil => exact (ite_self 0).symm
  | cons e pairs ih =>
      obtain ⟨ordered, first, second⟩ := valid e List.mem_cons_self
      have rest := ih fun d m => valid d (List.mem_cons_of_mem e m)
      have step : givenTo (Groups.rowsAt (arcs nodes (e :: pairs)) (nodes.idxOf x)) (nodes.idxOf y) =
          (if (ofLex e.1).1 = x ∧ (ofLex e.1).2 = y then e.2 else 0) +
            ((if (ofLex e.1).2 = x ∧ (ofLex e.1).1 = y then e.2 else 0) +
              givenTo (Groups.rowsAt (arcs nodes pairs) (nodes.idxOf x)) (nodes.idxOf y)) := by
        unfold arcs
        rw [List.flatMap_cons, List.cons_append, List.cons_append, List.nil_append,
          givenTo_rowsAt_cons, givenTo_rowsAt_cons]
        simp only [idxOf_eq_iff first, idxOf_eq_iff second]
      rw [step, rest, givenTo_cons]
      by_cases same : x = y
      · subst same
        rw [if_pos rfl, if_neg fun both => ordered.ne (both.1.trans both.2.symm),
          if_neg fun both => ordered.ne (both.2.trans both.1.symm), zero_add, zero_add, if_pos rfl]
      · rw [if_neg same, if_neg same]
        by_cases here : e.1 = pairOf x y
        · rw [if_pos here]
          rcases (pairOf_eq_iff ordered).mp here with ⟨fx, sy⟩ | ⟨fy, sx⟩
          · rw [if_pos ⟨fx, sy⟩, if_neg fun both => same (both.2.symm.trans fx).symm, zero_add]
          · rw [if_neg fun both => same (both.1.symm.trans fy), if_pos ⟨sx, fy⟩, zero_add]
        · have apart := fun both => here ((pairOf_eq_iff ordered).mpr (Or.inl both))
          have apart' := fun both => here ((pairOf_eq_iff ordered).mpr (Or.inr (And.symm both)))
          rw [if_neg here, if_neg apart, if_neg apart', zero_add]

/-! ## The graph of the edges -/

theorem pairsOf_kept (edges : List (AdjEdge K)) :
    PairsOf (endpoints edges) (kept (collapse edges)) := by
  intro e m
  have found := (OrdMap.get?_eq_some_iff _).mpr (List.mem_filter.mp m).1
  rw [get?_collapse] at found
  split at found
  · cases found
  · rename_i some
    obtain ⟨w, inWeights⟩ := List.exists_mem_of_ne_nil _ some
    obtain ⟨d, counts, -⟩ := List.mem_map.mp inWeights
    obtain ⟨inEdges, forPair⟩ := List.mem_filter.mp counts
    unfold countsFor at forPair
    rw [Bool.and_eq_true, Bool.not_eq_true', decide_eq_false_iff_not, decide_eq_true_eq] at forPair
    obtain ⟨loop, here⟩ := forPair
    have source : d.src ∈ endpoints edges := mem_endpoints_iff.mpr ⟨d, inEdges, Or.inl rfl⟩
    have target : d.dst ∈ endpoints edges := mem_endpoints_iff.mpr ⟨d, inEdges, Or.inr rfl⟩
    rw [← here]
    unfold pairOf
    split
    · rename_i less
      exact ⟨less, source, target⟩
    · rename_i more
      exact ⟨lt_of_le_of_ne (not_lt.mp more) (Ne.symm loop), target, source⟩

theorem givenTo_kept (edges : List (AdjEdge K)) (p : Pair) :
    givenTo (kept (collapse edges)) p = (weightsOf edges p).foldl max 0 := by
  have drop : ∀ es : List (Pair × K), (∀ e ∈ es, 0 ≤ e.2) →
      givenTo (es.filter fun e => !decide (e.2 ≤ 0)) p = givenTo es p := by
    intro es
    induction es with
    | nil => exact fun _ => rfl
    | cons e es ih =>
        intro positive
        have rest := ih fun d m => positive d (List.mem_cons_of_mem e m)
        rw [List.filter_cons, givenTo_cons]
        by_cases nothing : e.2 ≤ 0
        · have zero : e.2 = 0 := le_antisymm nothing (positive e List.mem_cons_self)
          rw [if_neg (by simp [nothing]), rest, zero, ite_self, zero_add]
        · rw [if_pos (by simpa using nothing), givenTo_cons, rest]
  have positive := positive_collapse edges
  rw [kept, drop _ fun e m => positive e.1 e.2 ((OrdMap.get?_eq_some_iff _).mpr m),
    givenTo_entries, get?_collapse]
  split
  · rename_i none
    rw [none]
    rfl
  · rfl

/-- **The graph weighs two nodes as their link.** -/
theorem weight_build {edges : List (AdjEdge K)} {x : NodeId} (known : x ∈ endpoints edges)
    (y : NodeId) : (buildUndirectedGraph edges).weight ((endpoints edges).idxOf x)
      ((endpoints edges).idxOf y) = link edges x y := by
  unfold buildUndirectedGraph
  rw [weight_assemble _ _ (List.idxOf_lt_length_of_mem known), givenTo_arcs (pairsOf_kept edges)]
  by_cases same : x = y
  · rw [if_pos same, link, if_pos same]
  · rw [if_neg same, link_eq edges same, givenTo_kept]

/-- A graph whose weights are symmetric and positive, without loops, with twice its weight. -/
structure Undirected (g : Graph K) : Prop where
  long : g.adjList.length = g.nodes.length
  inside : ∀ u, ∀ e ∈ g.neighbours u, u < g.nodes.length ∧ e.1 < g.nodes.length ∧ e.1 ≠ u ∧ 0 < e.2
  symm : ∀ u v, g.weight u v = g.weight v u
  total : g.m2 = total g.indices g.weight

/-- A graph whose weights are symmetric, of any sign, without loops. -/
structure Symmetric (g : Graph K) : Prop where
  long : g.adjList.length = g.nodes.length
  inside : ∀ u, ∀ e ∈ g.neighbours u, e.1 < g.nodes.length
  loopless : ∀ u, ∀ e ∈ g.neighbours u, e.1 ≠ u
  symm : ∀ u v, g.weight u v = g.weight v u

section Facts

variable {g : Graph K}

theorem Undirected.symmetric (undirected : Undirected g) : Symmetric g where
  long := undirected.long
  inside u e m := (undirected.inside u e m).2.1
  loopless u e m := (undirected.inside u e m).2.2.1
  symm := undirected.symm

namespace Symmetric

variable (symmetric : Symmetric g)
include symmetric

omit [LinearOrder K] in
theorem weight_self (u : Nat) : g.weight u u = 0 := by
  refine givenTo_eq_zero fun m => ?_
  obtain ⟨e, near, same⟩ := List.mem_map.mp m
  exact symmetric.loopless u e near same

omit [LinearOrder K] in
theorem mem_indices {u : Nat} {e : Nat × K} (m : e ∈ g.neighbours u) : e.1 ∈ g.indices :=
  Finset.mem_range.mpr (symmetric.inside u e m)

omit [LinearOrder K] in
/-- The weight of some of the neighbours. -/
theorem sum_weight (u : Nat) (p : Nat → Bool) : ∑ v ∈ g.indices with p v = true, g.weight u v =
    (((g.neighbours u).filter fun e => p e.1).map Prod.snd).sum := by
  rw [← sum_givenTo (S := g.indices) fun e m => symmetric.mem_indices (List.mem_filter.mp m).1,
    Finset.sum_filter]
  exact Finset.sum_congr rfl fun v _ => (givenTo_filter (g.neighbours u) p v).symm

omit [LinearOrder K] in
theorem degree_eq (u : Nat) : degree g.indices g.weight u = ((g.neighbours u).map Prod.snd).sum :=
  sum_givenTo fun _ => symmetric.mem_indices

omit [LinearOrder K] in
theorem getD_degrees (u : Nat) : g.degrees.getD u 0 = degree g.indices g.weight u := by
  rw [symmetric.degree_eq, List.getD_eq_getElem?_getD]
  unfold Graph.degrees Graph.neighbours
  rw [List.getElem?_map, List.getD_eq_getElem?_getD]
  cases g.adjList[u]? with
  | none => rfl
  | some l => rfl

end Symmetric

variable [IsStrictOrderedRing K]

theorem Undirected.weight_nonneg (undirected : Undirected g) (u v : Nat) : 0 ≤ g.weight u v := by
  refine List.sum_nonneg fun w m => ?_
  obtain ⟨e, near, rfl⟩ := List.mem_map.mp m
  exact (undirected.inside u e (List.mem_filter.mp near).1).2.2.2.le

theorem Undirected.weight_pos_iff (undirected : Undirected g) (u v : Nat) :
    0 < g.weight u v ↔ v ∈ (g.neighbours u).map Prod.fst := by
  constructor
  · intro pos
    by_contra absent
    rw [Graph.weight, givenTo_eq_zero absent] at pos
    exact lt_irrefl _ pos
  · intro m
    obtain ⟨e, near, rfl⟩ := List.mem_map.mp m
    have pos := (undirected.inside u e near).2.2.2
    refine lt_of_lt_of_le pos (List.single_le_sum (fun w inside => ?_) _
      (List.mem_map.mpr ⟨e, List.mem_filter.mpr ⟨near, by simp⟩, rfl⟩))
    obtain ⟨d, near', rfl⟩ := List.mem_map.mp inside
    exact (undirected.inside u d (List.mem_filter.mp near').1).2.2.2.le

theorem Undirected.card_neighbours (undirected : Undirected g) (u : Nat) :
    (neighbours g.indices g.weight u).card ≤ (g.neighbours u).length := by
  have part : neighbours g.indices g.weight u ⊆ ((g.neighbours u).map Prod.fst).toFinset := by
    intro v m
    rw [List.mem_toFinset]
    exact (undirected.weight_pos_iff u v).mp (Finset.mem_filter.mp m).2
  refine (Finset.card_le_card part).trans ((List.toFinset_card_le _).trans ?_)
  rw [List.length_map]

end Facts

omit [Field K] [LinearOrder K] in
theorem joins_symm (x y : NodeId) (e : AdjEdge K) : joins x y e = joins y x e := Bool.or_comm _ _

theorem link_symm (edges : List (AdjEdge K)) (x y : NodeId) : link edges x y = link edges y x := by
  unfold link
  refine if_congr eq_comm rfl (congrArg (fun es => List.foldl max 0 (List.map AdjEdge.weight es)) ?_)
  exact List.filter_congr fun e _ => joins_symm x y e

theorem mem_arcs {edges : List (AdjEdge K)} {u : Nat} {e : Nat × K}
    (m : (u, e) ∈ arcs (endpoints edges) (kept (collapse edges))) :
    u < (endpoints edges).length ∧ e.1 < (endpoints edges).length ∧ e.1 ≠ u ∧ 0 < e.2 := by
  obtain ⟨d, inPairs, isArc⟩ := List.mem_flatMap.mp m
  obtain ⟨ordered, first, second⟩ := pairsOf_kept edges d inPairs
  have positive : 0 < d.2 := by
    have counts := (List.mem_filter.mp inPairs).2
    rw [Bool.not_eq_true', decide_eq_false_iff_not] at counts
    exact not_le.mp counts
  have low := List.idxOf_lt_length_of_mem first
  have high := List.idxOf_lt_length_of_mem second
  have apart : (endpoints edges).idxOf (ofLex d.1).2 ≠ (endpoints edges).idxOf (ofLex d.1).1 :=
    fun same => ordered.ne ((idxOf_eq_iff second).mp same).symm
  rcases List.mem_cons.mp isArc with out | back
  · cases out
    exact ⟨low, high, apart, positive⟩
  · cases List.mem_singleton.mp back
    exact ⟨high, low, apart.symm, positive⟩

omit [LinearOrder K] in
/-- The arcs count twice the weight of the pairs. -/
theorem sum_arcs (nodes : List NodeId) (pairs : List (Pair × K)) :
    ((arcs nodes pairs).map fun r => r.2.2).sum = pairs.foldl (fun m2 e => m2 + 2 * e.2) 0 := by
  have general : ∀ m2 : K, pairs.foldl (fun m2 e => m2 + 2 * e.2) m2 =
      m2 + ((arcs nodes pairs).map fun r => r.2.2).sum := by
    induction pairs with
    | nil => exact fun m2 => (add_zero m2).symm
    | cons e pairs ih =>
        intro m2
        rw [List.foldl_cons, ih]
        unfold arcs
        rw [List.flatMap_cons, List.map_append, List.sum_append]
        simp only [List.map_cons, List.map_nil, List.sum_cons, List.sum_nil]
        ring
  rw [general 0, zero_add]

/-- **The graph of the edges is undirected.** -/
theorem undirected_build (edges : List (AdjEdge K)) : Undirected (buildUndirectedGraph edges) := by
  have nodes : (buildUndirectedGraph edges).nodes = endpoints edges := rfl
  have inside : ∀ u, ∀ e ∈ (buildUndirectedGraph edges).neighbours u,
      u < (endpoints edges).length ∧ e.1 < (endpoints edges).length ∧ e.1 ≠ u ∧ 0 < e.2 :=
    fun u e m => mem_arcs (mem_neighbours_assemble _ _ m)
  have outside : ∀ u v, ¬ (u < (endpoints edges).length ∧ v < (endpoints edges).length) →
      (buildUndirectedGraph edges).weight u v = 0 := by
    intro u v out
    refine givenTo_eq_zero fun m => ?_
    obtain ⟨e, near, rfl⟩ := List.mem_map.mp m
    exact out ⟨(inside u e near).1, (inside u e near).2.1⟩
  have at_index : ∀ {u : Nat} (within : u < (endpoints edges).length),
      (endpoints edges).idxOf ((endpoints edges)[u]) = u :=
    fun {u} within => (nodup_endpoints edges).idxOf_getElem u within
  have degrees : ∀ u ∈ Finset.range (endpoints edges).length,
      degree (Finset.range (endpoints edges).length) (buildUndirectedGraph edges).weight u =
        givenTo ((arcs (endpoints edges) (kept (collapse edges))).map fun r => (r.1, r.2.2)) u := by
    intro u m
    have row : degree (Finset.range (endpoints edges).length)
        (buildUndirectedGraph edges).weight u =
        (((buildUndirectedGraph edges).neighbours u).map Prod.snd).sum :=
      sum_givenTo fun e near => Finset.mem_range.mpr (inside u e near).2.1
    unfold buildUndirectedGraph at row ⊢
    rw [row, neighbours_assemble, if_pos (Finset.mem_range.mp m)]
    rw [((perm_sortByKey _).map Prod.snd).sum_eq, givenTo, List.filter_map, List.map_map]
    unfold Groups.rowsAt
    rw [List.map_map]
    rfl
  refine ⟨?_, inside, fun u v => ?_, ?_⟩
  · show (List.map sortByKey _).length = _
    rw [List.length_map, length_pushInto, List.length_replicate]
    rfl
  · by_cases within : u < (endpoints edges).length ∧ v < (endpoints edges).length
    · obtain ⟨low, high⟩ := within
      have one := weight_build (List.getElem_mem low) ((endpoints edges)[v])
      have two := weight_build (List.getElem_mem high) ((endpoints edges)[u])
      rw [at_index low, at_index high] at one two
      rw [one, two, link_symm]
    · rw [outside u v within, outside v u fun both => within both.symm]
  · show List.foldl _ 0 _ = ∑ u ∈ Finset.range (endpoints edges).length, _
    refine Eq.trans ?_ (Finset.sum_congr rfl degrees).symm
    rw [sum_givenTo fun r m => ?_]
    · rw [List.map_map]
      exact (sum_arcs (endpoints edges) (kept (collapse edges))).symm
    · obtain ⟨d, inArcs, rfl⟩ := List.mem_map.mp m
      exact Finset.mem_range.mpr (mem_arcs inArcs).1

/-! ## Rearranged edges -/

omit [Field K] [LinearOrder K] in
theorem length_arcs (nodes : List NodeId) (pairs : List (Pair × K)) :
    (arcs nodes pairs).length = 2 * pairs.length := by
  induction pairs with
  | nil => rfl
  | cons e pairs ih =>
      change (arcs nodes pairs).length + 1 + 1 = 2 * (pairs.length + 1)
      omega

theorem length_kept_le (edges : List (AdjEdge K)) : (kept (collapse edges)).length ≤ edges.length := by
  have known : (collapse edges).keys ⊆ edges.map fun e => pairOf e.src e.dst := by
    intro p m
    rw [OrdMap.mem_keys_iff, get?_collapse] at m
    split at m
    · cases m
    · rename_i some
      obtain ⟨w, inWeights⟩ := List.exists_mem_of_ne_nil _ some
      obtain ⟨d, counts, -⟩ := List.mem_map.mp inWeights
      obtain ⟨inEdges, forPair⟩ := List.mem_filter.mp counts
      unfold countsFor at forPair
      rw [Bool.and_eq_true, decide_eq_true_eq] at forPair
      exact List.mem_map.mpr ⟨d, inEdges, forPair.2⟩
  have fewer := ((collapse edges).ascending.nodup.subperm known).length_le
  rw [List.length_map, List.length_map] at fewer
  exact (List.length_filter_le _ _).trans fewer

/-- A node has as many neighbours as edges, counted twice. -/
theorem sum_lengths (edges : List (AdjEdge K)) :
    ∑ u ∈ (buildUndirectedGraph edges).indices,
      ((buildUndirectedGraph edges).neighbours u).length ≤ 2 * edges.length := by
  have rows : ∀ u ∈ (buildUndirectedGraph edges).indices,
      ((buildUndirectedGraph edges).neighbours u).length =
        givenTo ((arcs (endpoints edges) (kept (collapse edges))).map fun r => (r.1, 1)) u := by
    intro u m
    have within : u < (endpoints edges).length := Finset.mem_range.mp m
    unfold buildUndirectedGraph
    rw [neighbours_assemble, if_pos within, (perm_sortByKey _).length_eq, givenTo, List.filter_map,
      List.map_map]
    unfold Groups.rowsAt
    rw [List.length_map]
    change _ = (List.map (fun _ => 1) _).sum
    rw [List.map_const', List.sum_replicate_nat, Nat.mul_one]
    rfl
  rw [Finset.sum_congr rfl rows, sum_givenTo fun r m => ?_]
  · rw [List.map_map]
    change (List.map (fun _ => 1) _).sum ≤ _
    rw [List.map_const', List.sum_replicate_nat, Nat.mul_one, length_arcs]
    exact Nat.mul_le_mul_left 2 (length_kept_le edges)
  · obtain ⟨d, inArcs, rfl⟩ := List.mem_map.mp m
    exact Finset.mem_range.mpr (mem_arcs inArcs).1

/-- An edge, possibly turned round. -/
def Turned (e f : AdjEdge K) : Prop :=
  f.weight = e.weight ∧ (f.src = e.src ∧ f.dst = e.dst ∨ f.src = e.dst ∧ f.dst = e.src)

/-- The same edges in another order, some turned round. -/
def Rearranged (edges edges' : List (AdjEdge K)) : Prop :=
  ∃ turned, List.Forall₂ Turned edges turned ∧ List.Perm turned edges'

omit [Field K] [LinearOrder K] in
theorem Turned.countsFor {e f : AdjEdge K} (turned : Turned e f) (p : Pair) :
    countsFor p f = countsFor p e := by
  obtain ⟨-, ⟨source, target⟩ | ⟨source, target⟩⟩ := turned
  · unfold Graphrag.countsFor
    rw [source, target]
  · unfold Graphrag.countsFor
    rw [source, target, pairOf_symm]
    exact congrArg (fun b => !b && _) (decide_eq_decide.mpr eq_comm)

omit [Field K] [LinearOrder K] in
theorem weightsOf_turned {edges turned : List (AdjEdge K)} (each : List.Forall₂ Turned edges turned)
    (p : Pair) : weightsOf turned p = weightsOf edges p := by
  unfold weightsOf
  induction each with
  | nil => rfl
  | cons first _ ih =>
      rw [List.filter_cons, List.filter_cons, first.countsFor p]
      split
      · rw [List.map_cons, List.map_cons, ih, first.1]
      · exact ih

omit [Field K] [LinearOrder K] in
theorem mem_endpoints_turned {edges turned : List (AdjEdge K)}
    (each : List.Forall₂ Turned edges turned) (n : NodeId) :
    n ∈ endpoints turned ↔ n ∈ endpoints edges := by
  rw [mem_endpoints_iff, mem_endpoints_iff]
  induction each with
  | nil => exact Iff.rfl
  | cons first _ ih =>
      simp only [List.exists_mem_cons_iff, ih]
      obtain ⟨-, ⟨source, target⟩ | ⟨source, target⟩⟩ := first
      · rw [source, target]
      · rw [source, target]
        exact or_congr_left or_comm

/-- **Neither the order of the edges nor their directions matter.** -/
theorem build_rearranged {edges edges' : List (AdjEdge K)} (rearranged : Rearranged edges edges') :
    buildUndirectedGraph edges' = buildUndirectedGraph edges := by
  obtain ⟨turned, each, perm⟩ := rearranged
  have nodes : endpoints edges' = endpoints edges := by
    rw [← endpoints_perm perm]
    refine congrArg OrdMap.keys (OrdSet.ext_mem fun n => ?_)
    rw [← OrdSet.mem_keys, ← OrdSet.mem_keys]
    exact mem_endpoints_turned each n
  have pairs : collapse edges' = collapse edges := by
    refine OrdMap.ext fun p => ?_
    have weights : List.Perm (weightsOf edges p) (weightsOf edges' p) := by
      rw [← weightsOf_turned each p]
      exact (perm.filter _).map _
    have none : weightsOf edges' p = [] ↔ weightsOf edges p = [] := by
      constructor
      · intro nothing
        rw [nothing] at weights
        exact weights.eq_nil
      · intro nothing
        rw [nothing] at weights
        exact weights.symm.eq_nil
    rw [get?_collapse, get?_collapse]
    exact if_congr none rfl (congrArg some (weights.symm.foldl_eq 0))
  unfold buildUndirectedGraph
  rw [nodes, pairs]

end Build

end Mnem.Graphrag
