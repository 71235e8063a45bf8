/-
# Http.Traverse — the hop loop of `POST /v1/traverse_answer`

The loop starts from seed nodes and reports one frontier for each hop, while it
collects the next one from the outgoing edges.  A neighbour is marked visited
before its tombstone is looked at, and `charge` is what the budget guard says
after each hop.

* While the guard lets the loop proceed, entry `i` lists the nodes at distance
  `i` from the seeds, along edges to nodes that are not tombstoned, and there
  is an entry for each non-empty layer below the hop limit (`traverse_layers`).
-/
import Mnem.Repo.Integrity
import Mnem.Retrieve.Retriever
import Mnem.Theory.Distance

namespace Mnem.Http

open Theory Repo Index

set_option autoImplicit false
set_option linter.unusedSectionVars false

variable {Cid : Type} {H : Hashing Cid} [LinearOrder Cid]

/-! ## The loop -/

/-- What the budget guard says when a hop is charged. -/
inductive Charge where
  | proceed
  | shouldDefer
  | hardWall
deriving DecidableEq

/-- A node entry of a hop. -/
structure HopNode where
  id : NodeId
  ntype : String
  summary : Option String

/-- The nodes that one hop reports. -/
structure HopResult where
  hop : Nat
  nodes : List HopNode

/-- What the loop leaves behind. -/
structure Traversal where
  hops : List HopResult := []
  hopsExecuted : Nat := 0
  hardWallCutoff : Bool := false

/-- `effective_max_hops`: the caller can only lower the server's limit, to no less than one. -/
def effectiveMaxHops (asked : Option Nat) (maxHops : Nat) : Nat :=
  asked.elim maxHops fun caller => max 1 (min caller maxHops)

section Loop

variable (s : Store H) (r : ReadonlyRepo Cid)

/-- The entry of a frontier member; one that does not resolve has none. -/
def hopNode (id : NodeId) : Option HopNode :=
  match r.lookupNode s id with
  | .ok (some node) => some ⟨node.id, node.ntype, node.summary⟩
  | _ => none

/-- `outgoing_edges(node_id, None).unwrap_or_default()` -/
def edgesAt (id : NodeId) : List (Edge Cid) := (r.outgoingEdges s id none).toOption.getD []

/-- One frontier member: its entry, and the neighbours that its edges meet. -/
def expandNode (st : List HopNode × OrdSet NodeId × List NodeId) (id : NodeId) :
    List HopNode × OrdSet NodeId × List NodeId :=
  (st.1 ++ (hopNode s r id).toList,
    (edgesAt s r id).foldl
      (fun found edge => Distance.meet (fun v => !r.isTombstoned v) found edge.dst) st.2)

/-- The entries of a frontier, the visited nodes, and the next frontier. -/
def expand (visited : OrdSet NodeId) (frontier : List NodeId) :
    List HopNode × OrdSet NodeId × List NodeId :=
  frontier.foldl (expandNode s r) ([], visited, [])

/-- The loop from `hop` on, for the hops that are left. -/
def hopLoop (charge : Nat → Charge) : Nat → Nat → OrdSet NodeId → List NodeId → Traversal →
    Traversal
  | 0, _, _, _, t => t
  | left + 1, hop, visited, frontier, t =>
      if frontier = [] then t
      else
        let (nodes, visited, next) := expand s r visited frontier
        let t := { t with hops := t.hops ++ [HopResult.mk hop nodes] }
        match charge hop with
        | .proceed => hopLoop charge left (hop + 1) visited next { t with hopsExecuted := hop + 1 }
        | .shouldDefer => { t with hopsExecuted := hop + 1 }
        | .hardWall => { t with hardWallCutoff := true }

/-- The hops of an answer. -/
def traverse (charge : Nat → Charge) (limit : Nat) (seeds : List NodeId) : Traversal :=
  hopLoop s r charge limit 0 (seeds.foldl OrdSet.add .empty) seeds {}

end Loop

/-! ## What a hop reads -/

section Reads

variable {s : Store H} {r : ReadonlyRepo Cid} {g : Graph Cid}

/-- The graph has an edge from one id to the other. -/
def Arc (H : Hashing Cid) (g : Graph Cid) (u v : NodeId) : Prop :=
  ∃ k, ∃ e : Edge Cid, g.edges.get? k = some (H.cidOf (Object.toBlock e)) ∧ e.src = u ∧ e.dst = v

/-- An edge to a node that is not tombstoned. -/
def LiveArc (H : Hashing Cid) (g : Graph Cid) (r : ReadonlyRepo Cid) (u v : NodeId) : Prop :=
  Arc H g u v ∧ (!r.isTombstoned v) = true

/-- The edges read at a node are the edges of the graph that leave it. -/
theorem mem_edgesAt (holds : HeadHolds s r.commit g) {id : NodeId} {e : Edge Cid} :
    e ∈ edgesAt s r id ↔ e.src = id ∧ ∃ k, g.edges.get? k = some (H.cidOf (Object.toBlock e)) := by
  cases head : r.commit with
  | none =>
      rw [head] at holds
      obtain rfl : g = {} := holds
      have nothing : edgesAt s r id = [] := by
        simp only [edgesAt, ReadonlyRepo.outgoingEdges, head]
        rfl
      rw [nothing]
      constructor
      · intro m
        cases m
      · rintro ⟨-, k, found⟩
        cases found
  | some commit =>
      rw [head] at holds
      obtain ⟨nodes, edges, c, -, edgesRead, indexed⟩ := Stands.indexed holds
      have loads : ∀ cid ∈ (outgoingEntries edges id).map AdjacencyEntry.edge,
          ∃ e : Edge Cid, s.Loads cid e := by
        intro cid m
        obtain ⟨ae, inBucket, rfl⟩ := List.mem_map.mp m
        obtain ⟨row, inRows, -, rfl⟩ := mem_outgoingEntries.mp inBucket
        exact ⟨row.object, edgesRead.loads row inRows⟩
      obtain ⟨es, ran, each⟩ := decodeEdges_of_loads loads
      have same : edgesAt s r id = es := by
        rw [edgesAt, (outgoingEdges_eq head indexed id).trans ran]
        rfl
      rw [same]
      constructor
      · intro m
        obtain ⟨cid, inCids, loads⟩ := Exec.exists_left_of_forall₂ each m
        obtain ⟨ae, inBucket, rfl⟩ := List.mem_map.mp inCids
        obtain ⟨row, inRows, atId, rfl⟩ := mem_outgoingEntries.mp inBucket
        obtain rfl : row.object = e := (edgesRead.loads row inRows).unique loads
        refine ⟨atId, row.key, ?_⟩
        rw [loads.cidOf]
        exact g.edges.get?_eq_some_iff.mpr (edgesRead.mem_iff.mp inRows).1
      · rintro ⟨atId, k, found⟩
        obtain ⟨row, inRows, same⟩ :=
          edgesRead.exists_row (g.edges.get?_eq_some_iff.mp found)
        have cid : row.cid = H.cidOf (Object.toBlock e) := congrArg Prod.snd same
        have loads := edgesRead.loads row inRows
        obtain rfl : row.object = e :=
          Store.toBlock_injective (H.cidOf_injective (loads.cidOf.trans cid))
        have inCids : row.cid ∈ (outgoingEntries edges id).map AdjacencyEntry.edge :=
          List.mem_map.mpr ⟨_, mem_outgoingEntries.mpr ⟨row, inRows, atId, rfl⟩, rfl⟩
        obtain ⟨e', m, there⟩ := Exec.exists_right_of_forall₂ each inCids
        rwa [loads.unique there]

/-- The neighbours at an id are the targets of the live arcs from it, once dead ones are dropped. -/
theorem liveArc_iff (holds : HeadHolds s r.commit g) {u v : NodeId} :
    LiveArc H g r u v ↔ v ∈ (edgesAt s r u).map Edge.dst ∧ (!r.isTombstoned v) = true := by
  refine and_congr_left' ?_
  rw [List.mem_map]
  constructor
  · rintro ⟨k, e, found, src, dst⟩
    exact ⟨e, (mem_edgesAt holds).mpr ⟨src, k, found⟩, dst⟩
  · rintro ⟨e, m, dst⟩
    obtain ⟨src, k, found⟩ := (mem_edgesAt holds).mp m
    exact ⟨k, e, found, src, dst⟩

/-- An id has an entry if it is a node, and the entry is under that id. -/
theorem map_id_hopNode (holds : HeadHolds s r.commit g) (id : NodeId) :
    (hopNode s r id).map HopNode.id = if (g.nodes.get? id).isSome then some id else none := by
  obtain ⟨found, looked, present⟩ := Transaction.lookupNode_of_holds holds id
  unfold hopNode
  rw [looked]
  cases found with
  | none =>
      rw [if_neg (fun there => nomatch present.mpr there)]
      rfl
  | some node =>
      rw [if_pos (present.mp rfl)]
      exact congrArg some (Retrieve.Retriever.id_of_lookupNode holds looked)

theorem ids_hopNodes (holds : HeadHolds s r.commit g) (ids : List NodeId) :
    (ids.filterMap (hopNode s r)).map HopNode.id =
      ids.filter fun id => (g.nodes.get? id).isSome := by
  rw [List.map_filterMap, ← List.filterMap_eq_filter]
  refine List.filterMap_congr fun id _ => ?_
  rw [map_id_hopNode holds]
  rfl

end Reads

/-! ## What the loop reports -/

section Layers

variable {s : Store H} {r : ReadonlyRepo Cid} {g : Graph Cid} {seeds : List NodeId}

/-- Expanding a frontier looks up its members, and meets the ends of all their edges. -/
theorem expand_eq (visited : OrdSet NodeId) (frontier : List NodeId) :
    expand s r visited frontier = (frontier.filterMap (hopNode s r),
      (frontier.flatMap fun id => (edgesAt s r id).map Edge.dst).foldl
        (Distance.meet fun v => !r.isTombstoned v) (visited, [])) := by
  have onwards : ∀ (ids : List NodeId) (st : List HopNode × OrdSet NodeId × List NodeId),
      ids.foldl (expandNode s r) st = (st.1 ++ ids.filterMap (hopNode s r),
        (ids.flatMap fun id => (edgesAt s r id).map Edge.dst).foldl
          (Distance.meet fun v => !r.isTombstoned v) st.2) := by
    intro ids
    induction ids with
    | nil => intro st; simp
    | cons id ids ih =>
        intro st
        rw [List.foldl_cons, ih, List.flatMap_cons, List.foldl_append, List.foldl_map]
        simp only [expandNode, List.filterMap_cons]
        cases hopNode s r id <;> simp
  rw [expand, onwards, List.nil_append]

/-- The distance from the seeds, along edges to nodes that are not tombstoned. -/
abbrev HopsTo (H : Hashing Cid) (g : Graph Cid) (r : ReadonlyRepo Cid) (seeds : List NodeId)
    (n : Nat) (id : NodeId) : Prop :=
  Distance.At (LiveArc H g r) (· ∈ seeds) n id

/-- An entry reports layer `n`: its members that are nodes, each once. -/
def Reports (s : Store H) (g : Graph Cid) (r : ReadonlyRepo Cid) (seeds : List NodeId) (n : Nat)
    (entry : HopResult) : Prop :=
  entry.hop = n ∧ ∃ layer : List NodeId, layer.Nodup ∧ (∀ id, id ∈ layer ↔ HopsTo H g r seeds n id) ∧
    entry.nodes = layer.filterMap (hopNode s r)

/-- From layer `hop` on the loop reports the layers up to the first empty one. -/
theorem hopLoop_layers (holds : HeadHolds s r.commit g) (seeds : List NodeId)
    (charge : Nat → Charge) : ∀ (left : Nat) {hop : Nat} {visited : OrdSet NodeId} {frontier : List NodeId} (t : Traversal),
      Distance.Layered (LiveArc H g r) (· ∈ seeds) (fun v => !r.isTombstoned v) hop visited
        frontier →
      t.hopsExecuted = hop →
      (∀ h < hop + left, charge h = .proceed) →
      ∃ more, hopLoop s r charge left hop visited frontier t =
          { t with hops := t.hops ++ more, hopsExecuted := hop + more.length } ∧
        (∀ i, i < more.length ↔ i < left ∧ ∃ id, HopsTo H g r seeds (hop + i) id) ∧
        ∀ i entry, more[i]? = some entry → Reports s g r seeds (hop + i) entry
  | 0, hop, visited, frontier, t, _, executed, _ => by
      refine ⟨[], ?_, by simp, by simp⟩
      rw [List.append_nil, List.length_nil, Nat.add_zero, ← executed]
      rfl
  | left + 1, hop, visited, frontier, t, layered, executed, uncut => by
      by_cases empty : frontier = []
      · refine ⟨[], ?_, fun i => ?_, by simp⟩
        · rw [List.append_nil, List.length_nil, hopLoop, if_pos empty, ← executed]
          rfl
        · have none : ∀ id, ¬ HopsTo H g r seeds hop id := by
            intro id here
            have listed := (layered.layer id).mpr here
            rw [empty] at listed
            cases listed
          refine ⟨fun less => absurd less (Nat.not_lt_zero i), fun ⟨_, id, here⟩ => ?_⟩
          exact absurd here (Distance.not_at_of_empty none (Nat.le_add_right hop i))
      · have after := layered.next (fun id => (edgesAt s r id).map Edge.dst)
          fun u v => liveArc_iff holds
        obtain ⟨more, ran, long, each⟩ := hopLoop_layers holds seeds charge left
          { t with
            hops := t.hops ++ [⟨hop, frontier.filterMap (hopNode s r)⟩], hopsExecuted := hop + 1 }
          after rfl fun h less => uncut h (by omega)
        refine ⟨⟨hop, frontier.filterMap (hopNode s r)⟩ :: more, ?_, fun i => ?_, fun i entry at_i => ?_⟩
        · rw [hopLoop, if_neg empty, expand_eq]
          simp only [uncut hop (by omega)]
          rw [ran, List.append_assoc, List.length_cons]
          simp only [List.singleton_append]
          congr 1
          omega
        · cases i with
          | zero =>
              obtain ⟨id, listed⟩ := List.exists_mem_of_ne_nil _ empty
              simp only [List.length_cons, Nat.zero_lt_succ, true_and, Nat.add_zero, true_iff]
              exact ⟨id, (layered.layer id).mp listed⟩
          | succ i =>
              rw [List.length_cons, Nat.succ_lt_succ_iff, long, Nat.succ_lt_succ_iff,
                Nat.add_right_comm, Nat.add_assoc]
        · cases i with
          | zero =>
              cases at_i
              exact ⟨rfl, frontier, layered.once, layered.layer, rfl⟩
          | succ i =>
              have reports := each i entry at_i
              rwa [Nat.add_right_comm, Nat.add_assoc] at reports

/-- **The hop loop layers the graph.**  Seeds that are distinct nodes, not tombstoned, and no
cutoff: entry `i` lists the nodes at distance `i`, each once over all entries. -/
theorem traverse_layers (holds : HeadHolds s r.commit g) (seeds : List NodeId)
    (charge : Nat → Charge) (asked : Option Nat) (maxHops : Nat) (distinct : seeds.Nodup)
    (present : ∀ id ∈ seeds, (g.nodes.get? id).isSome ∧ r.isTombstoned id = false)
    (uncut : ∀ hop < effectiveMaxHops asked maxHops, charge hop = .proceed) :
    let out := traverse s r charge (effectiveMaxHops asked maxHops) seeds
    (∀ i, i < out.hops.length ↔
      i < effectiveMaxHops asked maxHops ∧ ∃ id, HopsTo H g r seeds i id) ∧
    (∀ i entry, out.hops[i]? = some entry → entry.hop = i ∧
      ∀ id, id ∈ entry.nodes.map HopNode.id ↔
        HopsTo H g r seeds i id ∧ (g.nodes.get? id).isSome) ∧
    (out.hops.flatMap fun entry => entry.nodes.map HopNode.id).Nodup ∧
    (∀ id ∈ out.hops.flatMap fun entry => entry.nodes.map HopNode.id,
      r.isTombstoned id = false) ∧
    (Graph.Closed H g → ∀ i id, HopsTo H g r seeds i id → (g.nodes.get? id).isSome) ∧
    out.hopsExecuted = out.hops.length ∧ out.hardWallCutoff = false := by
  intro out
  obtain ⟨hops, ran, long, each⟩ := hopLoop_layers holds seeds charge
    (effectiveMaxHops asked maxHops) {} (Distance.layered_start distinct) rfl
    fun h less => uncut h (by omega)
  simp only [Nat.zero_add] at long each ran
  have outHops : out.hops = hops := congrArg Traversal.hops ran
  have reported : ∀ i entry, out.hops[i]? = some entry →
      entry.hop = i ∧ (entry.nodes.map HopNode.id).Nodup ∧
        ∀ id, id ∈ entry.nodes.map HopNode.id ↔
          HopsTo H g r seeds i id ∧ (g.nodes.get? id).isSome := by
    intro i entry at_i
    obtain ⟨hop, layer, once, all, nodes⟩ := each i entry (outHops ▸ at_i)
    rw [nodes, ids_hopNodes holds]
    refine ⟨hop, once.filter _, fun id => ?_⟩
    rw [List.mem_filter, all]
  have live : ∀ i id, HopsTo H g r seeds i id → r.isTombstoned id = false := by
    rintro i id ⟨trail, -⟩
    cases trail with
    | start seed => exact (present id seed).2
    | step _ arc => simpa using arc.2
  refine ⟨fun i => outHops ▸ long i, fun i entry at_i => ?_, ?_, ?_, fun closed i id here => ?_,
    ?_, congrArg Traversal.hardWallCutoff ran⟩
  · obtain ⟨hop, -, ids⟩ := reported i entry at_i
    exact ⟨hop, ids⟩
  · refine List.nodup_flatMap.mpr ⟨fun entry m => ?_, List.pairwise_iff_getElem.mpr ?_⟩
    · obtain ⟨i, at_i⟩ := List.mem_iff_getElem?.mp m
      exact (reported i entry at_i).2.1
    · intro i j inI inJ less id first second
      have one := ((reported i _ (List.getElem?_eq_getElem inI)).2.2 id).mp first
      have other := ((reported j _ (List.getElem?_eq_getElem inJ)).2.2 id).mp second
      exact absurd (one.1.unique other.1) less.ne
  · intro id m
    obtain ⟨entry, inHops, listed⟩ := List.mem_flatMap.mp m
    obtain ⟨i, at_i⟩ := List.mem_iff_getElem?.mp inHops
    exact live i id (((reported i entry at_i).2.2 id).mp listed).1
  · obtain ⟨trail, -⟩ := here
    cases trail with
    | start seed => exact (present id seed).1
    | step _ arc =>
        obtain ⟨⟨k, e, found, -, rfl⟩, -⟩ := arc
        exact (closed k e found).2
  · rw [outHops]
    exact congrArg Traversal.hopsExecuted ran

/-- A cycle of three nodes, with a parallel edge and a loop, and a tombstoned node beside it. -/
def ringRun : WorldM shortHashing (ReadonlyRepo ℕ) :=
  seeded [.addNode { id := 1, ntype := "Person" }, .addNode { id := 2, ntype := "Person" },
    .addNode { id := 3, ntype := "Person" }, .addNode { id := 4, ntype := "Person" },
    .addEdge { id := 1, etype := "knows", src := 1, dst := 2 },
    .addEdge { id := 2, etype := "likes", src := 1, dst := 2 },
    .addEdge { id := 3, etype := "knows", src := 2, dst := 2 },
    .addEdge { id := 4, etype := "knows", src := 2, dst := 3 },
    .addEdge { id := 5, etype := "knows", src := 2, dst := 4 },
    .addEdge { id := 6, etype := "knows", src := 3, dst := 1 }, .tombstoneNode 4 "gone"]

/-- The ids of each hop from node 1, with a hop to spare. -/
def ringHops (s : Store shortHashing) (r : ReadonlyRepo ℕ) : List (List NodeId) :=
  (traverse s r (fun _ => .proceed) (effectiveMaxHops (some 9) 4) [1]).hops.map fun entry =>
    entry.nodes.map HopNode.id

theorem ringRun_check : ringRun.check {} (fun r w =>
    decide (r.isTombstoned 1 = false) &&
    (Exec.okAnd (r.lookupNode w.store 1) Option.isSome &&
    decide (ringHops w.store r = [[1], [2], [3]]))) = true := by
  decide +kernel

theorem traverse_layers_ring : ∃ (r : ReadonlyRepo ℕ) (w : World shortHashing) (g : Graph ℕ),
    HeadHolds w.store r.commit g ∧ ringHops w.store r = [[1], [2], [3]] ∧
      ∀ i, i < 3 ↔ i < 4 ∧ ∃ id, HopsTo shortHashing g r [1] i id := by
  obtain ⟨r, w, ran, passed⟩ := Exec.exists_of_check ringRun_check
  obtain ⟨alive, passed⟩ := Bool.and_eq_true_iff.mp passed
  obtain ⟨node, ids⟩ := Bool.and_eq_true_iff.mp passed
  obtain ⟨g, pinned⟩ := seeded_returns ran
  obtain ⟨found, looked, there⟩ := Exec.exists_of_okAnd node
  obtain ⟨found', looked', present⟩ := Transaction.lookupNode_of_holds pinned.holds (1 : NodeId)
  obtain rfl : found = found' := Except.ok.inj (looked.symm.trans looked')
  have layers := (traverse_layers pinned.holds [1] (fun _ => .proceed) (some 9) 4 (by decide) (fun id m => by
      obtain rfl := List.mem_singleton.mp m
      exact ⟨present.mp there, of_decide_eq_true alive⟩) fun _ _ => rfl).1
  have long : ringHops w.store r = [[1], [2], [3]] := of_decide_eq_true ids
  have count := congrArg List.length long
  rw [ringHops, List.length_map] at count
  refine ⟨r, w, g, pinned.holds, long, fun i => ?_⟩
  have at_i := layers i
  rwa [count] at at_i

end Layers

end Mnem.Http
