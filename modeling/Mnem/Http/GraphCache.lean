/-
# Http.GraphCache — one slot for each derived graph

The cache keeps one value for each of the graphs derived from a repository: the
authored edges, the nearest-neighbour edges, their union, the communities and
the transition matrix.  A new operation empties every slot.  The neighbour edges
are derived again at each call and checked by their CID; the communities and the
matrix are handed out as they are, whatever vectors they were made from.

* `answers_fresh`: where the calls at one operation that share a slot see the
  same graph (`Calm`), every call answers as a fresh cache would;
* `authored_agree`: intact repositories at one operation have the same authored
  edges, whatever the store;
* `communityForHead_leiden`: serving a head moves the policy state as
  `LeidenCache.serveHead` does.

Pole (fixed input): `stale_matrix`, a call without vectors and then one with.
-/
import Mnem.Http.LeidenCache
import Mnem.Repo.Readonly

namespace Mnem.Http

open Theory Theory.Exec Prolly Index Repo

set_option autoImplicit false
set_option linter.unusedSectionVars false

/-! ## Graphs -/

inductive EdgeProvenance where
  | authored
  | knn
  deriving DecidableEq, Repr

structure AdjEdge (W : Type) where
  src : NodeId
  dst : NodeId
  weight : W
  provenance : EdgeProvenance
  deriving DecidableEq

/-- A row-stochastic matrix in compressed rows. -/
structure SparseTransition (W : Type) where
  nodes : List NodeId
  rowPtr : List Nat
  colIdx : List Nat
  values : List W
  hasOutgoing : List Bool
  deriving DecidableEq

/-- The numbers on edges, with the operations the matrix is made with. -/
structure Weights (W : Type) where
  zero : W
  one : W
  add : W → W → W
  div : W → W → W
  /-- `w > 0.0` and finite. -/
  usable : W → Bool
  /-- `sum > 0.0`. -/
  positive : W → Bool

section Matrix

variable {W : Type} (weights : Weights W)

/-- The weights of one row by column; parallel edges add up. -/
def perRow (nodes : List NodeId) (edges : List (AdjEdge W)) (row : NodeId) : OrdMap Nat W :=
  edges.foldl (fun m e =>
    if e.src = row && weights.usable e.weight then
      m.modify (nodes.idxOf e.dst) fun w => weights.add (w.getD weights.zero) e.weight
    else m) OrdMap.empty

def sparseTransitionMatrix (edges : List (AdjEdge W)) : SparseTransition W :=
  let nodes := (OrdMap.ofList (edges.flatMap fun e => [(e.src, ()), (e.dst, ())])).keys
  let rows := nodes.map fun n => perRow weights nodes edges n
  let sums := rows.map fun r => r.values.foldl weights.add weights.zero
  let cells := (rows.zip sums).map fun p =>
    if weights.positive p.2 then p.1.entries.map fun c => (c.1, weights.div c.2 p.2) else []
  { nodes
    rowPtr := cells.scanl (fun n row => n + row.length) 0
    colIdx := cells.flatten.map Prod.fst
    values := cells.flatten.map Prod.snd
    hasOutgoing := sums.map weights.positive }

end Matrix

/-- What the cache saves the work of: the neighbour edges of a vector index, with the CID of
the edge index made of them, and the communities of a graph.  The CID is taken over the
edges. -/
structure Algorithms (K W V C : Type) extends Weights W where
  isEmpty : V → Bool
  deriveKnnEdges : V → List (NodeId × NodeId × W)
  knnCid : V → Except String K
  knnCid_determines : ∀ {v v' : V} {k : K}, knnCid v = .ok k → knnCid v' = .ok k →
    deriveKnnEdges v = deriveKnnEdges v'
  computeCommunities : List (AdjEdge W) → C

/-- The adjacency handed out: the authored edges, or their union with the neighbour edges. -/
inductive Adjacency (W : Type) where
  | authored (edges : List (NodeId × NodeId))
  | hybrid (authored : List (NodeId × NodeId)) (knn : List (NodeId × NodeId × W))
  deriving DecidableEq

section Model

variable {Cid : Type} {H : Hashing Cid} [LinearOrder Cid] {K W V C : Type} [DecidableEq K]
  (A : Algorithms K W V C)

def Adjacency.iterEdges : Adjacency W → List (AdjEdge W)
  | .authored edges => edges.map fun e => ⟨e.1, e.2, A.one, .authored⟩
  | .hybrid edges knn =>
      (edges.map fun e => ⟨e.1, e.2, A.one, .authored⟩) ++
        knn.map fun e => ⟨e.1, e.2.1, e.2.2, .knn⟩

/-- A failed call: a read of the repository, or the CID of the neighbour edges. -/
inductive GraphError (Cid : Type) where
  | edges (e : Error Cid)
  | knnEdgeCid (message : String)
  deriving DecidableEq

/-- The endpoints of the head commit's edges, in tree order. -/
def collectAuthoredEdges (s : Store H) (r : ReadonlyRepo Cid) :
    Except (GraphError Cid) (List (NodeId × NodeId)) :=
  match r.commit with
  | none => .ok []
  | some commit =>
      match entries s commit.edges >>= fun es => decodeEdges s (es.map Prod.snd) with
      | .error e => .error (.edges e)
      | .ok edges => .ok (edges.map fun e => (e.src, e.dst))

/-! ## The cache -/

structure GraphCache (Cid K W C : Type) where
  key : Option Cid := none
  adjacency : Option (List (NodeId × NodeId)) := none
  knnEdges : Option (List (NodeId × NodeId × W)) := none
  knnKey : Option K := none
  hybrid : Option (List (NodeId × NodeId) × List (NodeId × NodeId × W)) := none
  community : Option C := none
  pprMatrix : Option (SparseTransition W) := none
  communityStale : Option C := none
  leidenCache : LeidenCache := {}

namespace GraphCache

/-- A new operation empties the slots; its communities stay behind as stale ones. -/
def reconcile (g : GraphCache Cid K W C) (r : ReadonlyRepo Cid) : GraphCache Cid K W C :=
  if g.key = some r.opId then g
  else
    { key := some r.opId
      communityStale := g.community.or g.communityStale
      leidenCache := g.leidenCache }

def adjacencyFor (s : Store H) (r : ReadonlyRepo Cid) (g : GraphCache Cid K W C) :
    Except (GraphError Cid) (List (NodeId × NodeId)) × GraphCache Cid K W C :=
  let g := g.reconcile r
  match g.adjacency with
  | some a => (.ok a, g)
  | none =>
      match collectAuthoredEdges s r with
      | .error e => (.error e, g)
      | .ok a => (.ok a, { g with adjacency := some a })

/-- Derive the neighbour edges; the slot is kept if it has the same CID. -/
def ensureKnnEdges (v : V) (g : GraphCache Cid K W C) :
    Except (GraphError Cid) Unit × GraphCache Cid K W C :=
  match A.knnCid v with
  | .error e => (.error (.knnEdgeCid e), g)
  | .ok cid =>
      if g.knnKey = some cid && g.knnEdges.isSome then (.ok (), g)
      else
        (.ok (), { g with
          knnEdges := some (A.deriveKnnEdges v)
          knnKey := some cid
          hybrid := none })

/-- The union with the neighbour edges; the slots it reads are filled (`expect` in the source). -/
def combine (authored : List (NodeId × NodeId)) (v : V) (g : GraphCache Cid K W C) :
    Except (GraphError Cid) (Adjacency W) × GraphCache Cid K W C :=
  match ensureKnnEdges A v g with
  | (.error e, g) => (.error e, g)
  | (.ok (), g) =>
      let combined := g.hybrid.getD (authored, g.knnEdges.getD [])
      (.ok (.hybrid combined.1 combined.2), { g with hybrid := some combined })

def hybridAdjacencyFor (s : Store H) (r : ReadonlyRepo Cid) (vector : Option V)
    (g : GraphCache Cid K W C) :
    Except (GraphError Cid) (Adjacency W) × GraphCache Cid K W C :=
  match adjacencyFor s r (g.reconcile r) with
  | (.error e, g) => (.error e, g)
  | (.ok authored, g) =>
      if authored ≠ [] then (.ok (.authored authored), g)
      else
        match vector with
        | none => (.ok (.authored authored), g)
        | some v =>
            if A.isEmpty v then (.ok (.authored authored), g) else combine A authored v g

def communityFor (s : Store H) (r : ReadonlyRepo Cid) (g : GraphCache Cid K W C) :
    Except (GraphError Cid) C × GraphCache Cid K W C :=
  let g := g.reconcile r
  match g.community with
  | some c => (.ok c, g)
  | none =>
      match adjacencyFor s r g with
      | (.error e, g) => (.error e, g)
      | (.ok adj, g) =>
          let assignment := A.computeCommunities ((Adjacency.authored adj).iterEdges A)
          (.ok assignment, { g with community := some assignment })

def hybridCommunityFor (s : Store H) (r : ReadonlyRepo Cid) (vector : Option V)
    (g : GraphCache Cid K W C) : Except (GraphError Cid) C × GraphCache Cid K W C :=
  let g := g.reconcile r
  match g.community with
  | some c => (.ok c, g)
  | none =>
      match hybridAdjacencyFor A s r vector g with
      | (.error e, g) => (.error e, g)
      | (.ok adj, g) =>
          let assignment := A.computeCommunities (adj.iterEdges A)
          (.ok assignment, { g with community := some assignment })

def pprMatrixFor (s : Store H) (r : ReadonlyRepo Cid) (vector : Option V)
    (g : GraphCache Cid K W C) :
    Except (GraphError Cid) (SparseTransition W) × GraphCache Cid K W C :=
  let g := g.reconcile r
  match g.pprMatrix with
  | some m => (.ok m, g)
  | none =>
      match hybridAdjacencyFor A s r vector g with
      | (.error e, g) => (.error e, g)
      | (.ok adj, g) =>
          let m := sparseTransitionMatrix A.toWeights (adj.iterEdges A)
          (.ok m, { g with pprMatrix := some m })

/-- The number of distinct endpoints. -/
def authoredNodeCount (adj : Adjacency W) : Nat :=
  (((adj.iterEdges A).flatMap fun e => [e.src, e.dst]).dedup).length

/-- The communities of a head in the mode the policy selects. -/
def communityForHead (s : Store H) (r : ReadonlyRepo Cid) (vector : Option V) (now : Int)
    (g : GraphCache Cid K W C) :
    Except (GraphError Cid) (C × LeidenMode) × GraphCache Cid K W C :=
  match hybridAdjacencyFor A s r vector (g.reconcile r) with
  | (.error e, g) => (.error e, g)
  | (.ok adj, g) =>
      let mode := g.leidenCache.selectMode (authoredNodeCount A adj) now
      match g.community with
      | some c => (.ok (c, mode), g)
      | none =>
          if mode = .fallbackStale then
            match g.communityStale with
            | some c => (.ok (c, mode), g)
            | none =>
                let assignment := A.computeCommunities (adj.iterEdges A)
                (.ok (assignment, mode), { g with communityStale := some assignment })
          else
            let assignment := A.computeCommunities (adj.iterEdges A)
            let leiden := if mode = .fullDebounced then
                { g.leidenCache with lastRecomputeAt := some now } else g.leidenCache
            (.ok (assignment, mode), { g with
              community := some assignment
              leidenCache := leiden.observeCommitArrival now })

end GraphCache

/-! ## Calls -/

inductive GraphQuery (V : Type) where
  | adjacency
  | hybridAdjacency (vector : Option V)
  | community
  | hybridCommunity (vector : Option V)
  | pprMatrix (vector : Option V)

/-- The vectors a query brings. -/
def GraphQuery.vector : GraphQuery V → Option V
  | .adjacency | .community => none
  | .hybridAdjacency v | .hybridCommunity v | .pprMatrix v => v

/-- Queries answered from the same slot, by values that depend on the vectors. -/
def GraphQuery.SharesSlot : GraphQuery V → GraphQuery V → Prop
  | .community, .community | .community, .hybridCommunity _ => True
  | .hybridCommunity _, .community | .hybridCommunity _, .hybridCommunity _ => True
  | .pprMatrix _, .pprMatrix _ => True
  | _, _ => False

/-- A query about a repository, with the blocks there are at the time. -/
structure Call (H : Hashing Cid) (V : Type) where
  store : Store H
  repo : ReadonlyRepo Cid
  query : GraphQuery V

inductive Answer (W C : Type) where
  | edges (edges : List (NodeId × NodeId))
  | adjacency (adj : Adjacency W)
  | community (assignment : C)
  | matrix (m : SparseTransition W)

namespace GraphCache

/-- Answer a call. -/
def answer (g : GraphCache Cid K W C) (c : Call H V) :
    Except (GraphError Cid) (Answer W C) × GraphCache Cid K W C :=
  match c.query with
  | .adjacency => (adjacencyFor c.store c.repo g).map (Except.map .edges) id
  | .hybridAdjacency v => (hybridAdjacencyFor A c.store c.repo v g).map (Except.map .adjacency) id
  | .community => (communityFor A c.store c.repo g).map (Except.map .community) id
  | .hybridCommunity v => (hybridCommunityFor A c.store c.repo v g).map (Except.map .community) id
  | .pprMatrix v => (pprMatrixFor A c.store c.repo v g).map (Except.map .matrix) id

/-- The answers to a sequence of calls. -/
def answers : GraphCache Cid K W C → List (Call H V) →
    List (Except (GraphError Cid) (Answer W C))
  | _, [] => []
  | g, c :: cs => (g.answer A c).1 :: answers (g.answer A c).2 cs

end GraphCache

/-! ## What a call sees -/

namespace Call

variable {A}

/-- The authored edges a call reads. -/
def authored (c : Call H V) : Except (GraphError Cid) (List (NodeId × NodeId)) :=
  collectAuthoredEdges c.store c.repo

variable (A)

/-- The neighbour edges that stand in for authored edges. -/
def fallback : Option V → Except (GraphError Cid) (Option (List (NodeId × NodeId × W)))
  | none => .ok none
  | some v =>
      if A.isEmpty v then .ok none
      else
        match A.knnCid v with
        | .error e => .error (.knnEdgeCid e)
        | .ok _ => .ok (some (A.deriveKnnEdges v))

/-- The adjacency that a call is about. -/
def effective (c : Call H V) : Except (GraphError Cid) (Adjacency W) :=
  match c.authored with
  | .error e => .error e
  | .ok es =>
      if es ≠ [] then .ok (.authored es)
      else
        match fallback A c.query.vector with
        | .error e => .error e
        | .ok none => .ok (.authored es)
        | .ok (some knn) => .ok (.hybrid es knn)

/-- The answer that depends on the call alone. -/
def expected (c : Call H V) : Except (GraphError Cid) (Answer W C) :=
  match c.query with
  | .adjacency => Except.map .edges c.authored
  | .hybridAdjacency _ => Except.map .adjacency (c.effective A)
  | .community | .hybridCommunity _ =>
      Except.map (fun adj => .community (A.computeCommunities (adj.iterEdges A))) (c.effective A)
  | .pprMatrix _ =>
      Except.map (fun adj => .matrix (sparseTransitionMatrix A.toWeights (adj.iterEdges A)))
        (c.effective A)

/-- What a later call at the same operation must see of an earlier one: its authored edges,
and, where a slot is shared and there are no authored edges, its neighbour edges. -/
structure Agrees (d c : Call H V) : Prop where
  edges : ∀ es, d.authored = .ok es → c.authored = .ok es
  neighbours : d.query.SharesSlot c.query → c.authored = .ok [] → ∀ knn,
    fallback A d.query.vector = (.ok knn : Except (GraphError Cid) _) →
      ∃ knn', fallback A c.query.vector = (.ok knn' : Except (GraphError Cid) _) ∧
        knn'.getD [] = knn.getD []

/-- The calls answered since the cache was last emptied agree with each call that follows. -/
def Calm : List (Call H V) → List (Call H V) → Prop
  | _, [] => True
  | served, c :: cs =>
      (∀ d ∈ served.filter (fun d => decide (d.repo.opId = c.repo.opId)), d.Agrees A c) ∧
        Calm (c :: served.filter fun d => decide (d.repo.opId = c.repo.opId)) cs

end Call

/-! ## The invariant -/

namespace GraphCache

open Call

/-- Every filled slot holds what one of the calls since the last reset is about. -/
structure Sound (g : GraphCache Cid K W C) (served : List (Call H V)) : Prop where
  key : ∀ c ∈ served, g.key = some c.repo.opId
  adjacency : ∀ es, g.adjacency = some es → ∃ c ∈ served, c.authored = .ok es
  knn : ∀ es k, g.knnEdges = some es → g.knnKey = some k →
    ∃ v, A.knnCid v = .ok k ∧ es = A.deriveKnnEdges v
  hybrid : ∀ p, g.hybrid = some p → p.1 = [] ∧ g.knnEdges = some p.2
  community : ∀ x, g.community = some x → ∃ c ∈ served,
    c.query.SharesSlot .community ∧ ∃ adj, c.effective A = .ok adj ∧
      x = A.computeCommunities (adj.iterEdges A)
  matrix : ∀ m, g.pprMatrix = some m → ∃ c ∈ served,
    c.query.SharesSlot (.pprMatrix none) ∧ ∃ adj, c.effective A = .ok adj ∧
      m = sparseTransitionMatrix A.toWeights (adj.iterEdges A)

variable {A}

theorem reconcile_of_key {g : GraphCache Cid K W C} {r : ReadonlyRepo Cid}
    (at_op : g.key = some r.opId) : g.reconcile r = g := if_pos at_op

theorem key_reconcile (g : GraphCache Cid K W C) (r : ReadonlyRepo Cid) :
    (g.reconcile r).key = some r.opId := by
  unfold reconcile
  split
  · assumption
  · rfl

theorem reconcile_reconcile (g : GraphCache Cid K W C) (r : ReadonlyRepo Cid) :
    (g.reconcile r).reconcile r = g.reconcile r := reconcile_of_key (g.key_reconcile r)

/-- Emptying the cache forgets the calls at other operations. -/
theorem Sound.reconcile {g : GraphCache Cid K W C} {served : List (Call H V)}
    (sound : g.Sound A served) (r : ReadonlyRepo Cid) :
    (g.reconcile r).Sound A (served.filter fun d => decide (d.repo.opId = r.opId)) := by
  unfold GraphCache.reconcile
  by_cases at_op : g.key = some r.opId
  · rw [if_pos at_op, List.filter_eq_self.mpr]
    · exact sound
    · intro c m
      have same := (sound.key c m).symm.trans at_op
      exact decide_eq_true (Option.some.inj same)
  · rw [if_neg at_op]
    constructor
    · intro c m
      rw [of_decide_eq_true (List.mem_filter.mp m).2]
    · intro es found
      cases found
    · intro es k found
      cases found
    · intro p found
      cases found
    · intro x found
      cases found
    · intro m found
      cases found

/-- A call more is served. -/
theorem Sound.serve {g : GraphCache Cid K W C} {served : List (Call H V)} (sound : g.Sound A served)
    {c : Call H V} (at_op : g.key = some c.repo.opId) : g.Sound A (c :: served) := by
  have widen : ∀ {P : Call H V → Prop}, (∃ d ∈ served, P d) → ∃ d ∈ c :: served, P d :=
    fun ⟨d, m, holds⟩ => ⟨d, List.mem_cons_of_mem c m, holds⟩
  refine ⟨fun d m => ?_, fun es found => widen (sound.adjacency es found), sound.knn, sound.hybrid,
    fun x found => widen (sound.community x found), fun x found => widen (sound.matrix x found)⟩
  rcases List.mem_cons.mp m with rfl | old
  · exact at_op
  · exact sound.key d old

/-- What every method keeps of a cache at the operation of `c`. -/
structure Serves (A : Algorithms K W V C) (served : List (Call H V)) (c : Call H V)
    (g : GraphCache Cid K W C) : Prop where
  sound : g.Sound A (c :: served)
  at_op : g.key = some c.repo.opId

theorem adjacencyFor_spec {g : GraphCache Cid K W C} {served : List (Call H V)} {c : Call H V}
    (serves : g.Serves A served c) (agrees : ∀ d ∈ served, d.Agrees A c) :
    (adjacencyFor c.store c.repo g).1 = c.authored ∧
      (adjacencyFor c.store c.repo g).2.Serves A served c ∧
      (adjacencyFor c.store c.repo g).2.community = g.community ∧
      (adjacencyFor c.store c.repo g).2.pprMatrix = g.pprMatrix := by
  unfold adjacencyFor
  simp only [reconcile_of_key serves.at_op]
  cases filled : g.adjacency with
  | some es =>
      refine ⟨?_, serves, rfl, rfl⟩
      obtain ⟨d, m, read⟩ := serves.sound.adjacency es filled
      rcases List.mem_cons.mp m with rfl | old
      · exact read.symm
      · exact ((agrees d old).edges es read).symm
  | none =>
      cases read : collectAuthoredEdges c.store c.repo with
      | error e => exact ⟨read.symm, serves, rfl, rfl⟩
      | ok es =>
          refine ⟨read.symm, ⟨⟨serves.sound.key, ?_, serves.sound.knn, serves.sound.hybrid,
            serves.sound.community, serves.sound.matrix⟩, serves.at_op⟩, rfl, rfl⟩
          rintro es' ⟨⟩
          exact ⟨c, List.mem_cons_self, read⟩

/-- After deriving, the slot holds the neighbour edges of these vectors. -/
theorem ensureKnnEdges_spec {g : GraphCache Cid K W C} {served : List (Call H V)} {c : Call H V}
    (serves : g.Serves A served c) {v : V} {k : K} (addressed : A.knnCid v = .ok k) :
    (ensureKnnEdges A v g).1 = .ok () ∧ (ensureKnnEdges A v g).2.Serves A served c ∧
      (ensureKnnEdges A v g).2.knnEdges = some (A.deriveKnnEdges v) ∧
      (ensureKnnEdges A v g).2.community = g.community ∧
      (ensureKnnEdges A v g).2.pprMatrix = g.pprMatrix := by
  unfold ensureKnnEdges
  simp only [addressed]
  by_cases hit : (g.knnKey = some k && g.knnEdges.isSome) = true
  · rw [if_pos hit]
    simp only [Bool.and_eq_true, decide_eq_true_eq] at hit
    obtain ⟨es, filled⟩ := Option.isSome_iff_exists.mp hit.2
    obtain ⟨v', addressed', rfl⟩ := serves.sound.knn es k filled hit.1
    refine ⟨rfl, serves, ?_, rfl, rfl⟩
    rw [filled, A.knnCid_determines addressed' addressed]
  · rw [if_neg hit]
    refine ⟨rfl, ⟨⟨serves.sound.key, serves.sound.adjacency, ?_, ?_, serves.sound.community,
      serves.sound.matrix⟩, serves.at_op⟩, rfl, rfl, rfl⟩
    · rintro es k' ⟨⟩ ⟨⟩
      exact ⟨v, addressed, rfl⟩
    · intro p found
      cases found

theorem combine_error {g : GraphCache Cid K W C} {es : List (NodeId × NodeId)} {v : V}
    {e : String} (unaddressed : A.knnCid v = .error e) :
    combine A es v g = (.error (.knnEdgeCid e), g) := by
  unfold combine ensureKnnEdges
  rw [unaddressed]

theorem combine_spec {g : GraphCache Cid K W C} {served : List (Call H V)} {c : Call H V}
    (serves : g.Serves A served c) {v : V} {k : K} (addressed : A.knnCid v = .ok k) :
    (combine A [] v g).1 = .ok (.hybrid [] (A.deriveKnnEdges v)) ∧
      (combine A [] v g).2.Serves A served c ∧
      (combine A [] v g).2.community = g.community ∧
      (combine A [] v g).2.pprMatrix = g.pprMatrix := by
  obtain ⟨ran, serves', derived, community, matrix⟩ := ensureKnnEdges_spec serves addressed
  unfold combine
  generalize ensureKnnEdges A v g = result at ran serves' derived community matrix ⊢
  obtain ⟨result, g'⟩ := result
  change result = _ at ran
  subst ran
  dsimp only at serves' derived community matrix ⊢
  have combined : g'.hybrid.getD ([], g'.knnEdges.getD []) = ([], A.deriveKnnEdges v) := by
    cases filled : g'.hybrid with
    | none => rw [Option.getD_none, derived, Option.getD_some]
    | some p =>
        obtain ⟨empty, same⟩ := serves'.sound.hybrid p filled
        rw [Option.getD_some]
        exact Prod.ext empty (Option.some.inj (same.symm.trans derived))
  rw [combined]
  refine ⟨rfl, ⟨⟨serves'.sound.key, serves'.sound.adjacency, serves'.sound.knn, ?_,
    serves'.sound.community, serves'.sound.matrix⟩, serves'.at_op⟩, community, matrix⟩
  rintro p ⟨⟩
  exact ⟨rfl, derived⟩

theorem hybridAdjacencyFor_spec {g : GraphCache Cid K W C} {served : List (Call H V)}
    {c : Call H V} (serves : g.Serves A served c) (agrees : ∀ d ∈ served, d.Agrees A c) :
    (hybridAdjacencyFor A c.store c.repo c.query.vector g).1 = c.effective A ∧
      (hybridAdjacencyFor A c.store c.repo c.query.vector g).2.Serves A served c ∧
      (hybridAdjacencyFor A c.store c.repo c.query.vector g).2.community = g.community ∧
      (hybridAdjacencyFor A c.store c.repo c.query.vector g).2.pprMatrix = g.pprMatrix := by
  obtain ⟨read, serves₁, community₁, matrix₁⟩ := adjacencyFor_spec serves agrees
  unfold hybridAdjacencyFor effective
  rw [reconcile_of_key serves.at_op]
  generalize adjacencyFor c.store c.repo g = first at read serves₁ community₁ matrix₁ ⊢
  obtain ⟨result, g₁⟩ := first
  change result = c.authored at read
  rw [← read]
  dsimp only at serves₁ community₁ matrix₁ ⊢
  cases result with
  | error e => exact ⟨rfl, serves₁, community₁, matrix₁⟩
  | ok es =>
      by_cases some_authored : es ≠ []
      · simp only [if_pos some_authored]
        exact ⟨trivial, serves₁, community₁, matrix₁⟩
      · simp only [if_neg some_authored]
        cases c.query.vector with
        | none => exact ⟨rfl, serves₁, community₁, matrix₁⟩
        | some v =>
            unfold fallback
            by_cases empty : A.isEmpty v = true
            · simp only [if_pos empty]
              exact ⟨trivial, serves₁, community₁, matrix₁⟩
            · simp only [if_neg empty]
              obtain rfl := not_not.mp some_authored
              cases addressed : A.knnCid v with
              | error e =>
                  rw [combine_error addressed]
                  exact ⟨rfl, serves₁, community₁, matrix₁⟩
              | ok k =>
                  obtain ⟨ran, serves₂, community₂, matrix₂⟩ := combine_spec serves₁ addressed
                  exact ⟨ran, serves₂, community₂.trans community₁, matrix₂.trans matrix₁⟩

/-- What a call sees is seen by a later call that agrees with it and shares its slot. -/
theorem effective_of_agrees {d c : Call H V} (agrees : d.Agrees A c)
    (shares : d.query.SharesSlot c.query) {adj : Adjacency W} (sees : d.effective A = .ok adj) :
    ∃ adj', c.effective A = .ok adj' ∧ adj'.iterEdges A = adj.iterEdges A := by
  unfold effective at sees
  cases read : d.authored with
  | error e =>
      rw [read] at sees
      cases sees
  | ok es =>
      have read' := agrees.edges es read
      rw [read] at sees
      unfold effective
      rw [read']
      by_cases some_authored : es ≠ []
      · simp only [if_pos some_authored] at sees ⊢
        exact ⟨_, rfl, by rw [← Except.ok.inj sees]⟩
      · obtain rfl := not_not.mp some_authored
        simp only [if_neg some_authored] at sees ⊢
        cases neighbours : (fallback A d.query.vector :
            Except (GraphError Cid) (Option (List (NodeId × NodeId × W)))) with
        | error e =>
            rw [neighbours] at sees
            cases sees
        | ok knn =>
            obtain ⟨knn', neighbours', same⟩ := agrees.neighbours shares read' knn neighbours
            rw [neighbours] at sees
            rw [neighbours']
            -- no neighbour edges and an empty union have the same edges
            cases knn <;> cases knn' <;>
              simp only [Except.ok.injEq, Option.getD_none, Option.getD_some] at sees same ⊢ <;>
              subst sees <;> simp [Adjacency.iterEdges, same]

/-- The authored-only entry point is the other one without vectors. -/
theorem communityFor_eq (s : Store H) (r : ReadonlyRepo Cid) (g : GraphCache Cid K W C) :
    communityFor A s r g = hybridCommunityFor A s r none g := by
  unfold communityFor hybridCommunityFor hybridAdjacencyFor
  simp only [reconcile_reconcile]
  cases (g.reconcile r).community with
  | some x => rfl
  | none =>
      dsimp only
      generalize adjacencyFor s r (g.reconcile r) = first
      obtain ⟨result, g₁⟩ := first
      cases result with
      | error e => rfl
      | ok es => simp only [ite_self]

theorem sharesSlot_community {p q : GraphQuery V} (first : p.SharesSlot .community)
    (second : q.SharesSlot .community) : p.SharesSlot q := by
  cases p <;> cases q <;> trivial

theorem sharesSlot_pprMatrix {p q : GraphQuery V} (first : p.SharesSlot (.pprMatrix none))
    (second : q.SharesSlot (.pprMatrix none)) : p.SharesSlot q := by
  cases p <;> cases q <;> trivial

theorem hybridCommunityFor_spec {g : GraphCache Cid K W C} {served : List (Call H V)}
    {c : Call H V} (serves : g.Serves A served c) (agrees : ∀ d ∈ served, d.Agrees A c)
    (slot : c.query.SharesSlot .community) :
    (hybridCommunityFor A c.store c.repo c.query.vector g).1 =
        Except.map (fun adj => A.computeCommunities (adj.iterEdges A)) (c.effective A) ∧
      (hybridCommunityFor A c.store c.repo c.query.vector g).2.Serves A served c := by
  unfold hybridCommunityFor
  simp only [reconcile_of_key serves.at_op]
  cases filled : g.community with
  | some x =>
      refine ⟨?_, serves⟩
      obtain ⟨d, m, shares, adj, sees, rfl⟩ := serves.sound.community x filled
      rcases List.mem_cons.mp m with rfl | old
      · rw [sees]
        rfl
      · obtain ⟨adj', sees', same⟩ :=
          effective_of_agrees (agrees d old) (sharesSlot_community shares slot) sees
        rw [sees', ← same]
        rfl
  | none =>
      obtain ⟨sees, serves₁, -, -⟩ := hybridAdjacencyFor_spec serves agrees
      dsimp only
      generalize hybridAdjacencyFor A c.store c.repo c.query.vector g = first at sees serves₁ ⊢
      obtain ⟨result, g₁⟩ := first
      change result = c.effective A at sees
      rw [← sees]
      cases result with
      | error e => exact ⟨rfl, serves₁⟩
      | ok adj =>
          refine ⟨rfl, ⟨⟨serves₁.sound.key, serves₁.sound.adjacency, serves₁.sound.knn,
            serves₁.sound.hybrid, ?_, serves₁.sound.matrix⟩, serves₁.at_op⟩⟩
          rintro x ⟨⟩
          exact ⟨c, List.mem_cons_self, slot, adj, sees.symm, rfl⟩

theorem pprMatrixFor_spec {g : GraphCache Cid K W C} {served : List (Call H V)}
    {c : Call H V} (serves : g.Serves A served c) (agrees : ∀ d ∈ served, d.Agrees A c)
    (slot : c.query.SharesSlot (.pprMatrix none)) :
    (pprMatrixFor A c.store c.repo c.query.vector g).1 =
        Except.map (fun adj => sparseTransitionMatrix A.toWeights (adj.iterEdges A))
          (c.effective A) ∧
      (pprMatrixFor A c.store c.repo c.query.vector g).2.Serves A served c := by
  unfold pprMatrixFor
  simp only [reconcile_of_key serves.at_op]
  cases filled : g.pprMatrix with
  | some x =>
      refine ⟨?_, serves⟩
      obtain ⟨d, m, shares, adj, sees, rfl⟩ := serves.sound.matrix x filled
      rcases List.mem_cons.mp m with rfl | old
      · rw [sees]
        rfl
      · obtain ⟨adj', sees', same⟩ :=
          effective_of_agrees (agrees d old) (sharesSlot_pprMatrix shares slot) sees
        rw [sees', ← same]
        rfl
  | none =>
      obtain ⟨sees, serves₁, -, -⟩ := hybridAdjacencyFor_spec serves agrees
      dsimp only
      generalize hybridAdjacencyFor A c.store c.repo c.query.vector g = first at sees serves₁ ⊢
      obtain ⟨result, g₁⟩ := first
      change result = c.effective A at sees
      rw [← sees]
      cases result with
      | error e => exact ⟨rfl, serves₁⟩
      | ok adj =>
          refine ⟨rfl, ⟨⟨serves₁.sound.key, serves₁.sound.adjacency, serves₁.sound.knn,
            serves₁.sound.hybrid, serves₁.sound.community, ?_⟩, serves₁.at_op⟩⟩
          rintro x ⟨⟩
          exact ⟨c, List.mem_cons_self, slot, adj, sees.symm, rfl⟩

/-! ## Whole runs -/

theorem answer_reconcile (g : GraphCache Cid K W C) (c : Call H V) :
    (g.reconcile c.repo).answer A c = g.answer A c := by
  unfold answer adjacencyFor hybridAdjacencyFor communityFor hybridCommunityFor pprMatrixFor
  simp only [reconcile_reconcile]

/-- A cache whose calls agree with the next one answers it from the call alone. -/
theorem answer_spec {g : GraphCache Cid K W C} {served : List (Call H V)} {c : Call H V}
    (serves : g.Serves A served c) (agrees : ∀ d ∈ served, d.Agrees A c) :
    (g.answer A c).1 = c.expected A ∧ (g.answer A c).2.Sound A (c :: served) := by
  obtain ⟨s, r, q⟩ := c
  cases q with
  | adjacency =>
      obtain ⟨read, serves', -, -⟩ := adjacencyFor_spec serves agrees
      exact ⟨congrArg (Except.map Answer.edges) read, serves'.sound⟩
  | hybridAdjacency v =>
      obtain ⟨sees, serves', -, -⟩ := hybridAdjacencyFor_spec serves agrees
      exact ⟨congrArg (Except.map Answer.adjacency) sees, serves'.sound⟩
  | community =>
      obtain ⟨sees, serves'⟩ := hybridCommunityFor_spec serves agrees trivial
      unfold answer expected
      rw [communityFor_eq]
      refine ⟨(congrArg (Except.map Answer.community) sees).trans ?_, serves'.sound⟩
      cases effective A (⟨s, r, .community⟩ : Call H V) <;> rfl
  | hybridCommunity v =>
      obtain ⟨sees, serves'⟩ := hybridCommunityFor_spec serves agrees trivial
      refine ⟨(congrArg (Except.map Answer.community) sees).trans ?_, serves'.sound⟩
      unfold expected
      cases effective A (⟨s, r, .hybridCommunity v⟩ : Call H V) <;> rfl
  | pprMatrix v =>
      obtain ⟨sees, serves'⟩ := pprMatrixFor_spec serves agrees trivial
      refine ⟨(congrArg (Except.map Answer.matrix) sees).trans ?_, serves'.sound⟩
      unfold expected
      cases effective A (⟨s, r, .pprMatrix v⟩ : Call H V) <;> rfl

theorem sound_empty : ({} : GraphCache Cid K W C).Sound A ([] : List (Call H V)) := by
  constructor
  · intro c m
    cases m
  · intro es found
    cases found
  · intro es k found
    cases found
  · intro p found
    cases found
  · intro x found
    cases found
  · intro m found
    cases found

/-- One call of a run: the calls at other operations are forgotten. -/
theorem answer_sound {g : GraphCache Cid K W C} {served : List (Call H V)} (sound : g.Sound A served)
    {c : Call H V}
    (agrees : ∀ d ∈ served.filter (fun d => decide (d.repo.opId = c.repo.opId)), d.Agrees A c) :
    (g.answer A c).1 = c.expected A ∧
      (g.answer A c).2.Sound A
        (c :: served.filter fun d => decide (d.repo.opId = c.repo.opId)) := by
  have at_op := g.key_reconcile c.repo
  rw [← answer_reconcile]
  exact answer_spec ⟨(sound.reconcile c.repo).serve at_op, at_op⟩ agrees

theorem answer_empty (c : Call H V) : (({} : GraphCache Cid K W C).answer A c).1 = c.expected A :=
  (answer_sound sound_empty fun _ m => by cases m).1

theorem answers_of_calm (calls : List (Call H V)) {g : GraphCache Cid K W C}
    {served : List (Call H V)} (sound : g.Sound A served) (calm : Calm A served calls) :
    g.answers A calls = calls.map fun c => (({} : GraphCache Cid K W C).answer A c).1 := by
  induction calls generalizing g served with
  | nil => rfl
  | cons c calls ih =>
      obtain ⟨answered, sound'⟩ := answer_sound sound calm.1
      rw [answers, List.map_cons, answered, answer_empty, ih sound' calm.2]

/-- **The cache is transparent over calm runs**: every call answers as a fresh cache would. -/
theorem answers_fresh (A : Algorithms K W V C) (calls : List (Call H V))
    (calm : Calm A [] calls) :
    ({} : GraphCache Cid K W C).answers A calls =
      calls.map fun c => (({} : GraphCache Cid K W C).answer A c).1 :=
  answers_of_calm calls sound_empty calm

/-! ### Repositories that agree -/

/-- An operation determines the head commit read through it. -/
theorem commit_agree {s s' : Store H} {opId : Cid} {r r' : ReadonlyRepo Cid}
    (opened : ReadonlyRepo.loadAt s opId = .ok r)
    (opened' : ReadonlyRepo.loadAt s' opId = .ok r') : r.commit = r'.commit := by
  unfold ReadonlyRepo.loadAt at opened opened'
  obtain ⟨op, loads, opened⟩ := Exec.bind_eq_ok.mp opened
  obtain ⟨op', loads', opened'⟩ := Exec.bind_eq_ok.mp opened'
  obtain rfl := Store.Loads.same loads loads'
  obtain ⟨view, loads, opened⟩ := Exec.bind_eq_ok.mp opened
  obtain ⟨view', loads', opened'⟩ := Exec.bind_eq_ok.mp opened'
  obtain rfl := Store.Loads.same loads loads'
  cases heads : view.heads.head? with
  | none =>
      rw [heads] at opened opened'
      cases opened
      cases opened'
      rfl
  | some head =>
      rw [heads] at opened opened'
      obtain ⟨commit, loads, opened⟩ := Exec.bind_eq_ok.mp opened
      obtain ⟨commit', loads', opened'⟩ := Exec.bind_eq_ok.mp opened'
      obtain rfl := Store.Loads.same loads loads'
      cases opened
      cases opened'
      rfl

theorem edges_of_rows {s : Store H} {root : Cid} {m : OrdMap ProllyKey Cid}
    {rows : List (Row Cid (Edge Cid))} (tree : IsTree s root m)
    (reads : ReadsRows s m.entries rows) :
    (entries s root >>= fun es => decodeEdges s (es.map Prod.snd)) =
      .ok (rows.map Row.object) := by
  rw [entries_of_isTree tree]
  show decodeEdges s (m.entries.map Prod.snd) = _
  rw [← reads.entries, List.map_map]
  refine Exec.mapM_of_forall₂ ?_
  rw [List.forall₂_map_left_iff, List.forall₂_map_right_iff, List.forall₂_same]
  exact fun r m => reads.loads r m

/-- The edges of an intact repository are those of its operation, whatever the store. -/
theorem authored_agree {s s' : Store H} {opId : Cid} {r r' : ReadonlyRepo Cid}
    (opened : ReadonlyRepo.loadAt s opId = .ok r) (opened' : ReadonlyRepo.loadAt s' opId = .ok r')
    (intact : ∀ commit, r.commit = some commit → ∃ m, EdgeTable s commit.edges m)
    (intact' : ∀ commit, r'.commit = some commit → ∃ m, EdgeTable s' commit.edges m) :
    collectAuthoredEdges s r = collectAuthoredEdges s' r' := by
  have same : r.commit = r'.commit := commit_agree opened opened'
  unfold collectAuthoredEdges
  rw [same] at intact
  rw [same]
  cases head : r'.commit with
  | none => rfl
  | some commit =>
      obtain ⟨m, table⟩ := intact commit head
      obtain ⟨m', table'⟩ := intact' commit head
      obtain rfl := table.tree.unique table'.tree
      obtain ⟨rows, reads, -⟩ := table.rows
      obtain ⟨rows', reads', -⟩ := table'.rows
      obtain rfl := reads.unique reads'
      dsimp only
      rw [edges_of_rows table.tree reads, edges_of_rows table'.tree reads']

/-- Serving a head moves the policy state as `serveHead` does. -/
theorem communityForHead_leiden {s : Store H} {r : ReadonlyRepo Cid} {vector : Option V} {now : Int}
    {g : GraphCache Cid K W C} {adj : Adjacency W} {g₁ : GraphCache Cid K W C}
    (sees : hybridAdjacencyFor A s r vector (g.reconcile r) = (.ok adj, g₁)) :
    (communityForHead A s r vector now g).2.leidenCache =
      (g₁.leidenCache.serveHead (authoredNodeCount A adj) now g₁.community.isSome).2 := by
  unfold communityForHead LeidenCache.serveHead
  rw [sees]
  dsimp only
  generalize g₁.leidenCache.selectMode (authoredNodeCount A adj) now = mode
  cases cached : g₁.community with
  | some x => simp
  | none =>
      by_cases stale : mode = .fallbackStale
      · simp only [stale, if_true]
        cases g₁.communityStale <;> simp
      · simp only [stale, if_false]
        simp

end GraphCache

end Model

/-! ### Vectors that come late -/

/-- Indexes of points that all have the same unit vector: every other point is a neighbour. -/
def onePoint : Algorithms (List NodeId) Nat (List NodeId) (List NodeId) where
  zero := 0
  one := 1
  add := (· + ·)
  div := (· / ·)
  usable w := decide (0 < w)
  positive w := decide (0 < w)
  isEmpty := List.isEmpty
  deriveKnnEdges ids := ids.flatMap fun i => (ids.filter (· ≠ i)).map fun j => (i, j, 1)
  knnCid := .ok
  knnCid_determines := by
    rintro v v' k ⟨⟩ ⟨⟩
    rfl
  computeCommunities edges := (edges.flatMap fun e => [e.src, e.dst]).dedup

/-- A repository without a head commit. -/
def edgeless : ReadonlyRepo ℕ where
  opId := 0
  op := { view := 0, author := "", time := 0, description := "" }
  view := {}
  commit := none

def askMatrix (vector : Option (List NodeId)) : Call shortHashing (List NodeId) :=
  ⟨{}, edgeless, .pprMatrix vector⟩

/-- The rows of a matrix that was handed out. -/
def Answer.rows : Answer Nat (List NodeId) → Option (List NodeId)
  | .matrix m => some m.nodes
  | _ => none

/-- After a call without vectors, the matrix of two neighbours has no rows; a fresh cache
gives it both. -/
theorem stale_matrix :
    (({} : GraphCache ℕ (List NodeId) Nat (List NodeId)).answers onePoint
        [askMatrix none, askMatrix (some [1, 2])]).map (fun a => a.toOption.bind Answer.rows) =
      [some [], some []] ∧
    (({} : GraphCache ℕ (List NodeId) Nat (List NodeId)).answer onePoint
        (askMatrix (some [1, 2]))).1.toOption.bind Answer.rows = some [1, 2] := by
  decide

/-- The same vectors twice. -/
theorem answers_fresh_twice :
    ({} : GraphCache ℕ (List NodeId) Nat (List NodeId)).answers onePoint
        [askMatrix (some [1, 2]), askMatrix (some [1, 2])] =
      [askMatrix (some [1, 2]), askMatrix (some [1, 2])].map fun c =>
        (({} : GraphCache ℕ (List NodeId) Nat (List NodeId)).answer onePoint c).1 := by
  refine GraphCache.answers_fresh onePoint _ ⟨(fun d m => by cases m), fun d m => ?_, trivial⟩
  have twice : d = askMatrix (some [1, 2]) := List.mem_singleton.mp m
  subst twice
  exact ⟨fun es read => read, fun _ _ knn neighbours => ⟨knn, neighbours, rfl⟩⟩

end Mnem.Http
