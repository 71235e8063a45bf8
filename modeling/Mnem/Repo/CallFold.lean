/-
# Repo.CallFold — a transaction against the log of its calls

`GraphState.apply` says what each call does to the nodes, the edges and the
tombstones of a repository; a transaction should commit the fold of its calls.

* Nodes always come out as in the fold.
* An edge id is followed by a `Trail`: the edge that the last call for the id
  left, and the nodes removed since.  The fold drops the edge when one of them
  is an endpoint (`Trail.severed`), the transaction when one of them lists the
  edge in the adjacency index of the base (`Trail.cut`).
* A node that is untombstoned and then tombstoned again is not tombstoned.

`transact_folds_iff` puts the three together.
-/
import Mnem.Repo.Session

namespace Mnem.Repo

open Theory Prolly Index Transaction

set_option autoImplicit false
set_option linter.unusedSectionVars false

variable {Cid : Type} {H : Hashing Cid} [LinearOrder Cid]

/-! ## The log -/

/-- The nodes, the edges and the tombstones of a repository. -/
@[ext] structure GraphState (Cid : Type) where
  nodes : NodeId → Option (Node Cid)
  edges : EdgeId → Option (Edge Cid)
  tombstoned : NodeId → Bool

/-- One of the endpoints. -/
def touches (e : Edge Cid) (id : NodeId) : Bool := e.src == id || e.dst == id

namespace GraphState

/-- What a repository reads. -/
def of (s : Store H) (r : ReadonlyRepo Cid) : GraphState Cid where
  nodes id := (r.lookupNode s id).toOption.join
  edges id := (r.lookupEdge s id).toOption.join
  tombstoned := r.isTombstoned

/-- What a call does.  An object without an encoding is not added. -/
def apply (H : Hashing Cid) (g : GraphState Cid) : Call Cid → GraphState Cid
  | .addNode node =>
      if H.encodes (Object.toBlock node) then
        { g with nodes := Function.update g.nodes node.id (some node) }
      else g
  | .removeNode id =>
      { g with
        nodes := Function.update g.nodes id none
        edges := fun k => (g.edges k).filter fun e => !touches e id }
  | .addEdge edge =>
      if H.encodes (Object.toBlock edge) then
        { g with edges := Function.update g.edges edge.id (some edge) }
      else g
  | .removeEdge id => { g with edges := Function.update g.edges id none }
  | .tombstoneNode id _ => { g with tombstoned := Function.update g.tombstoned id true }
  | .untombstoneNode id => { g with tombstoned := Function.update g.tombstoned id false }
  | _ => g

end GraphState

/-- The calls of the log. -/
def Transaction.Call.Logged : Call Cid → Prop
  | .addNode _ | .removeNode _ | .addEdge _ | .removeEdge _ | .tombstoneNode .. |
    .untombstoneNode _ => True
  | _ => False

/-! ## Trails -/

/-- What became of an edge id: the edge that the last call for it left, whether there was such a
call, and the nodes removed since. -/
structure Trail (Cid : Type) where
  edge : Option (Edge Cid)
  staged : Bool := false
  removals : List NodeId := []

namespace Trail

def after (H : Hashing Cid) (k : EdgeId) (t : Trail Cid) : Call Cid → Trail Cid
  | .addEdge edge =>
      if edge.id = k ∧ H.encodes (Object.toBlock edge) then ⟨some edge, true, []⟩ else t
  | .removeEdge id => if id = k then ⟨none, true, []⟩ else t
  | .removeNode id => { t with removals := id :: t.removals }
  | _ => t

/-- An endpoint of the edge is removed. -/
def severed (t : Trail Cid) : Bool := t.removals.any fun id => t.edge.any fun e => touches e id

/-- The edge that the log has. -/
def live (t : Trail Cid) : Option (Edge Cid) := if t.severed then none else t.edge

/-- A node is removed for which the base lists the edge, or an endpoint of an edge staged here. -/
def cut (listed : NodeId → List EdgeId) (k : EdgeId) (t : Trail Cid) : Bool :=
  t.removals.any fun id => (listed id).contains k || (t.staged && t.edge.any fun e => touches e id)

end Trail

/-- The edges that the adjacency index of a repository lists at a node, incoming ones up to the
cap. -/
def ReadonlyRepo.listed (s : Store H) (r : ReadonlyRepo Cid) (id : NodeId) : List EdgeId :=
  found (r.outgoingEdges s id none) ++ found (r.incomingEdges s id none)

/-- The last call that tombstones a node or takes its tombstone back. -/
def lastTombstone (id : NodeId) (last : Option Bool) : Call Cid → Option Bool
  | .tombstoneNode i _ => if i = id then some true else last
  | .untombstoneNode i => if i = id then some false else last
  | _ => last

/-- The calls on which a transaction follows its log: an edge goes from the index when it goes from
the log, and no node is tombstoned last after it was untombstoned. -/
structure FollowsLog (H : Hashing Cid) (s : Store H) (r : ReadonlyRepo Cid) (calls : List (Call Cid)) :
    Prop where
  edges : ∀ k (t : Trail Cid),
    calls.foldl (Trail.after H k) { edge := (GraphState.of s r).edges k } = t →
      t.edge.isSome → t.cut (r.listed s) k = t.severed
  tombstones : ∀ id, calls.foldl (lastTombstone id) none = some true →
    .untombstoneNode id ∉ calls

/-! ## Single calls -/

namespace Transaction

section Calls

variable {s : Store H} {tx : Transaction Cid}

theorem apply_addNode (s : Store H) (tx : Transaction Cid) (node : Node Cid) :
    (tx.apply s (.addNode node)).1 =
      if H.encodes (Object.toBlock node) then
        tx.stageNode H node (H.cidOf (Object.toBlock node))
      else tx := by
  by_cases encodes : H.encodes (Object.toBlock node) = true
  · obtain ⟨s', applied⟩ := exists_apply_addNode s tx node encodes
    rw [applied, if_pos encodes]
  · rw [if_neg encodes]
    rcases (tx.exec (.addNode node) : StoreM H _).attempt_cases tx s with ran | ⟨e, -, same⟩
    · obtain ⟨out, added, -⟩ := Exec.returns_map.mp ran
      obtain ⟨-, loads, -⟩ := addNode_returns added
      exact absurd (Store.encodes_of_get (Store.loads_iff.mp loads)) encodes
    · exact same

theorem apply_addEdge (s : Store H) (tx : Transaction Cid) (edge : Edge Cid) :
    (tx.apply s (.addEdge edge)).1 =
      if H.encodes (Object.toBlock edge) then
        tx.stageEdge edge (H.cidOf (Object.toBlock edge))
      else tx := by
  by_cases encodes : H.encodes (Object.toBlock edge) = true
  · obtain ⟨s', applied⟩ := exists_apply_addEdge s tx encodes
    rw [applied, if_pos encodes]
  · rw [if_neg encodes]
    rcases (tx.exec (.addEdge edge) : StoreM H _).attempt_cases tx s with ran | ⟨e, -, same⟩
    · obtain ⟨out, added, -⟩ := Exec.returns_map.mp ran
      obtain ⟨cid, s₁, put, -⟩ := Exec.returns_bind.mp added
      obtain ⟨-, -, loads⟩ := putObject_returns put
      exact absurd (Store.encodes_of_get (Store.loads_iff.mp loads)) encodes
    · exact same

/-- The staged edges at a node, while they decode. -/
theorem mem_stagedIncident (staged : Staged s tx) (id : NodeId) (k : EdgeId) :
    k ∈ tx.stagedIncident s id ↔ ∃ e : Edge Cid,
      tx.newEdges.get? k = some (H.cidOf (Object.toBlock e)) ∧ touches e id = true := by
  unfold stagedIncident
  simp only [List.mem_map, List.mem_filter, Prod.exists, exists_and_right, exists_eq_right]
  constructor
  · rintro ⟨cid, member, at_id⟩
    have here := tx.newEdges.get?_eq_some_iff.mpr member
    obtain ⟨e, loads, -⟩ := staged.edges k cid here
    have decoded : s.decodeFromStore (Edge Cid) cid = .ok e := loads
    rw [decoded] at at_id
    exact ⟨e, loads.cidOf ▸ here, at_id⟩
  · rintro ⟨e, here, at_id⟩
    obtain ⟨e', loads, -⟩ := staged.edges k _ here
    obtain rfl := Store.toBlock_injective (H.cidOf_injective loads.cidOf)
    have decoded : s.decodeFromStore (Edge Cid) (H.cidOf (Object.toBlock e')) = .ok e' := loads
    refine ⟨_, tx.newEdges.get?_eq_some_iff.mp here, ?_⟩
    rw [decoded]
    exact at_id

/-- What `remove_node` removes: what the base lists at the node, and what is staged there. -/
theorem mem_cascade_iff (staged : Staged s tx) {id : NodeId} {k : EdgeId} :
    k ∈ tx.cascade s id ↔ k ∈ tx.base.listed s id ∨ ∃ e : Edge Cid,
      tx.newEdges.get? k = some (H.cidOf (Object.toBlock e)) ∧ touches e id = true := by
  have left := (staged.unstageNode id).removeEdges (tx.base.listed s id)
  obtain ⟨newEdges, removedEdges, eq, added, -⟩ :=
    (tx.unstageNode id).removeEdges_eq (tx.base.listed s id)
  have incident := mem_stagedIncident left id k
  change k ∈ tx.base.listed s id ++ ((tx.unstageNode id).removeEdges
    (tx.base.listed s id)).stagedIncident s id ↔ _
  rw [List.mem_append, incident, eq]
  change _ ∨ (∃ e : Edge Cid, newEdges.get? k = _ ∧ _) ↔ _
  rw [added]
  by_cases now : k ∈ tx.base.listed s id
  · exact iff_of_true (.inl now) (.inl now)
  · rw [if_neg now]
    exact Iff.rfl

end Calls

end Transaction

/-- Edges that decode keep decoding. -/
theorem decodeEdges_of_le {s s' : Store H} {cids : List Cid} (le : s ≤ s')
    (loads : ∀ c ∈ cids, ∃ e : Edge Cid, s.Loads c e) : decodeEdges s' cids = decodeEdges s cids := by
  obtain ⟨es, ran, each⟩ := decodeEdges_of_loads loads
  rw [ran]
  exact Exec.mapM_of_forall₂ (each.imp fun c e here => here.mono le)

/-- What is listed at a node does not change while the store grows. -/
theorem ReadonlyRepo.listed_of_le {P : Graph Cid → Prop} {s s' : Store H} {r : ReadonlyRepo Cid}
    {g : Graph Cid} (pinned : Pinned P s r g) (le : s ≤ s') (id : NodeId) :
    r.listed s' id = r.listed s id := by
  have holds := pinned.holds
  unfold ReadonlyRepo.listed
  cases head : r.commit with
  | none =>
      simp only [ReadonlyRepo.outgoingEdges, ReadonlyRepo.incomingEdges,
        ReadonlyRepo.incomingEdgesCapped, head]
  | some commit =>
      rw [head] at holds
      obtain ⟨nodes, edges, c, -, edgesRead, indexed⟩ := Stands.indexed holds
      have later := indexed.mono le
      rw [outgoingEdges_eq head later, outgoingEdges_eq head indexed, incomingEdges_eq head later,
        incomingEdges_eq head indexed, decodeEdges_of_le le, decodeEdges_of_le le]
      · intro cid member
        obtain ⟨ae, inBucket, rfl⟩ := List.mem_map.mp member
        obtain ⟨row, inRows, -, rfl⟩ := mem_incomingEntries.mp (List.mem_of_mem_take inBucket)
        exact ⟨row.object, edgesRead.loads row inRows⟩
      · intro cid member
        obtain ⟨ae, inBucket, rfl⟩ := List.mem_map.mp member
        obtain ⟨row, inRows, -, rfl⟩ := mem_outgoingEntries.mp inBucket
        exact ⟨row.object, edgesRead.loads row inRows⟩

/-! ## Reading a pinned repository -/

section Read

variable {P : Graph Cid → Prop} {s : Store H} {r : ReadonlyRepo Cid} {g : Graph Cid}

/-- Looking up an object in a table gives what is filed there. -/
theorem map_addr_bucketAt {α : Type} [Object Cid α] {idOf : α → ProllyKey} {root : Cid}
    {m : OrdMap ProllyKey Cid} (table : Table idOf s root m) (k : ProllyKey) :
    ((bucketAt α s (some root) k).toOption.join).map (fun a => H.cidOf (Object.toBlock a)) =
      m.get? k := by
  rw [bucketAt_of_isTree table.tree]
  cases at_k : m.get? k with
  | none => rfl
  | some cid =>
      obtain ⟨a, loads, -⟩ := table.filed k cid at_k
      have decoded : s.decodeFromStore α cid = .ok a := loads
      simp only [decoded]
      exact congrArg some loads.cidOf

theorem GraphState.of_nodes (pinned : Pinned P s r g) (id : NodeId) :
    ((GraphState.of s r).nodes id).map (fun n => H.cidOf (Object.toBlock n)) = g.nodes.get? id := by
  have holds := pinned.holds
  change ((r.lookupNode s id).toOption.join).map _ = _
  unfold ReadonlyRepo.lookupNode
  cases head : r.commit with
  | none =>
      rw [head] at holds
      obtain rfl : g = {} := holds
      rfl
  | some commit =>
      rw [head] at holds
      exact map_addr_bucketAt (Stands.nodes holds) id

theorem GraphState.of_edges (pinned : Pinned P s r g) (k : EdgeId) :
    ((GraphState.of s r).edges k).map (fun e => H.cidOf (Object.toBlock e)) = g.edges.get? k := by
  have holds := pinned.holds
  change ((r.lookupEdge s k).toOption.join).map _ = _
  unfold ReadonlyRepo.lookupEdge
  cases head : r.commit with
  | none =>
      rw [head] at holds
      obtain rfl : g = {} := holds
      rfl
  | some commit =>
      rw [head] at holds
      exact map_addr_bucketAt (Stands.edges holds) k

end Read

/-- Objects are known by their addresses. -/
theorem addr_injective {α : Type} [Object Cid α] :
    Function.Injective fun a : α => H.cidOf (Object.toBlock a) := fun _ _ same =>
  Store.toBlock_injective (H.cidOf_injective same)

/-! ## A run of calls beside its log -/

namespace Transaction

/-! ### Nodes -/

/-- The staged nodes over those of the base are the nodes of the log. -/
def NodesFollow (H : Hashing Cid) (g : Graph Cid) (tx : Transaction Cid)
    (log : GraphState Cid) : Prop :=
  ∀ id, (log.nodes id).map (fun n => H.cidOf (Object.toBlock n)) =
    (tx.newNodes.get? id).or (if id ∈ tx.removedNodes then none else g.nodes.get? id)

theorem nodesFollow_apply {g : Graph Cid} {s : Store H} {tx : Transaction Cid}
    {log : GraphState Cid} {call : Call Cid} (logged : call.Logged)
    (follow : NodesFollow H g tx log) : NodesFollow H g (tx.apply s call).1 (log.apply H call) := by
  intro k
  cases call with
  | addNode node =>
      rw [apply_addNode]
      by_cases encodes : H.encodes (Object.toBlock node) = true
      · rw [GraphState.apply, if_pos encodes, if_pos encodes]
        change (Function.update log.nodes node.id (some node) k).map _ =
          ((tx.newNodes.insert node.id _).get? k).or
            (if k ∈ tx.removedNodes.remove node.id then none else g.nodes.get? k)
        rw [OrdMap.get?_insert, Function.update_apply]
        by_cases here : k = node.id
        · subst here
          rw [if_pos rfl, if_pos rfl]
          rfl
        · rw [if_neg here, if_neg (Ne.symm here), follow k]
          simp [OrdSet.mem_remove, here]
      · rw [GraphState.apply, if_neg encodes, if_neg encodes]
        exact follow k
  | removeNode id =>
      change (Function.update log.nodes id none k).map _ = ((tx.removeNode s id).newNodes.get? k).or
        (if k ∈ (tx.removeNode s id).removedNodes then none else g.nodes.get? k)
      obtain ⟨newEdges, removedEdges, eq, -⟩ := (tx.unstageNode id).removeEdges_eq (tx.cascade s id)
      rw [removeNode_eq, eq]
      change _ = ((tx.newNodes.erase id).get? k).or
        (if k ∈ tx.removedNodes.add id then none else g.nodes.get? k)
      rw [OrdMap.get?_erase, Function.update_apply]
      by_cases here : k = id
      · simp [here]
      · rw [if_neg here, follow k]
        simp [OrdSet.mem_add, here]
  | addEdge edge =>
      rw [apply_addEdge]
      by_cases encodes : H.encodes (Object.toBlock edge) = true
      · rw [GraphState.apply, if_pos encodes, if_pos encodes]
        exact follow k
      · rw [GraphState.apply, if_neg encodes, if_neg encodes]
        exact follow k
  | removeEdge id => exact follow k
  | tombstoneNode id reason => exact follow k
  | untombstoneNode id => exact follow k
  | _ => exact logged.elim

/-! ### Edges -/

/-- What is staged for an edge id is what its trail says. -/
structure EdgeFollows (H : Hashing Cid) (listed : NodeId → List EdgeId) (base : Option (Edge Cid))
    (k : EdgeId) (tx : Transaction Cid) (t : Trail Cid) : Prop where
  added : tx.newEdges.get? k =
    if t.staged && !t.cut listed k then t.edge.map fun e => H.cidOf (Object.toBlock e) else none
  removed : tx.newEdges.get? k = none → (k ∈ tx.removedEdges ↔ t.staged ∨ t.cut listed k)
  unstaged : t.staged = false → t.edge = base

variable {listed : NodeId → List EdgeId} {base : Option (Edge Cid)} {k : EdgeId} {s : Store H}
  {tx : Transaction Cid} {t : Trail Cid}

/-- Only the edge maps matter. -/
theorem EdgeFollows.congr {tx' : Transaction Cid} (follows : EdgeFollows H listed base k tx t)
    (newEdges : tx'.newEdges = tx.newEdges) (removedEdges : tx'.removedEdges = tx.removedEdges) :
    EdgeFollows H listed base k tx' t := by
  refine ⟨?_, ?_, follows.unstaged⟩
  · rw [newEdges]
    exact follows.added
  · rw [newEdges, removedEdges]
    exact follows.removed

theorem EdgeFollows.removeNode (staged : Staged s tx) (follows : EdgeFollows H listed base k tx t)
    (id : NodeId) (same : tx.base.listed s id = listed id) :
    EdgeFollows H listed base k (tx.removeNode s id) { t with removals := id :: t.removals } := by
  obtain ⟨newEdges, removedEdges, eq, added, removed⟩ :=
    (tx.unstageNode id).removeEdges_eq (tx.cascade s id)
  have cascade : k ∈ tx.cascade s id ↔ k ∈ listed id ∨
      t.staged = true ∧ t.cut listed k = false ∧ t.edge.any (fun e => touches e id) = true := by
    rw [mem_cascade_iff staged, same, follows.added]
    refine or_congr_right ⟨?_, ?_⟩
    · rintro ⟨e, here, at_id⟩
      split at here
      · rename_i live
        obtain ⟨e', at_k, same⟩ := Option.map_eq_some_iff.mp here
        obtain rfl := addr_injective same
        simp only [Bool.and_eq_true, Bool.not_eq_true'] at live
        exact ⟨live.1, live.2, by rw [at_k]; exact at_id⟩
      · cases here
    · rintro ⟨now, live, at_id⟩
      obtain ⟨e, at_k, at_id⟩ := (Option.any_eq_true _ _).mp at_id
      exact ⟨e, by simp [now, live, at_k], at_id⟩
  have cutNow : Trail.cut listed k { t with removals := id :: t.removals } =
      (((listed id).contains k || (t.staged && t.edge.any fun e => touches e id)) ||
        t.cut listed k) := List.any_cons
  have before := follows.added
  rw [removeNode_eq, eq]
  refine ⟨?_, fun absent => ?_, follows.unstaged⟩
  · change newEdges.get? k = _
    rw [added]
    change (if k ∈ tx.cascade s id then none else tx.newEdges.get? k) = _
    rw [cutNow, before]
    by_cases inListed : k ∈ listed id <;> by_cases now : t.staged = true <;>
      by_cases cut : t.cut listed k = true <;>
        by_cases at_id : t.edge.any (fun e => touches e id) = true <;>
          simp [cascade, inListed, now, cut, at_id]
  · change k ∈ removedEdges ↔ _
    rw [removed]
    change k ∈ tx.cascade s id ∨ k ∈ tx.removedEdges ↔ _
    rw [cutNow]
    by_cases here : k ∈ tx.cascade s id
    · refine iff_of_true (.inl here) ?_
      rcases cascade.mp here with inListed | ⟨now, -⟩
      · exact .inr (by simp [inListed])
      · exact .inl now
    · have still : tx.newEdges.get? k = none := by
        have now := added k
        rw [absent, if_neg here] at now
        exact now.symm
      have unlisted : k ∉ listed id := fun h => here (cascade.mpr (.inl h))
      rw [follows.removed still]
      by_cases now : t.staged = true <;> simp [here, unlisted, now]

theorem edgeFollows_apply {call : Call Cid} (logged : call.Logged) (staged : Staged s tx)
    (same : ∀ id, tx.base.listed s id = listed id) (follows : EdgeFollows H listed base k tx t) :
    EdgeFollows H listed base k (tx.apply s call).1 (t.after H k call) := by
  cases call with
  | addNode node =>
      rw [apply_addNode]
      split
      · exact follows.congr rfl rfl
      · exact follows
  | removeNode id => exact follows.removeNode staged id (same id)
  | addEdge edge =>
      rw [apply_addEdge]
      by_cases encodes : H.encodes (Object.toBlock edge) = true
      · by_cases here : edge.id = k
        · rw [Trail.after, if_pos encodes, if_pos ⟨here, encodes⟩]
          have added : (tx.stageEdge edge (H.cidOf (Object.toBlock edge))).newEdges.get? k =
              some (H.cidOf (Object.toBlock edge)) := here ▸ tx.newEdges.get?_insert_self _ _
          refine ⟨added, fun absent => ?_, nofun⟩
          rw [added] at absent
          cases absent
        · rw [Trail.after, if_pos encodes, if_neg fun h => here h.1]
          have added : (tx.stageEdge edge (H.cidOf (Object.toBlock edge))).newEdges.get? k =
              tx.newEdges.get? k := (tx.newEdges.get?_insert _ _ k).trans (if_neg here)
          refine ⟨added.trans follows.added, fun absent => ?_, follows.unstaged⟩
          change k ∈ tx.removedEdges.remove edge.id ↔ _
          rw [OrdSet.mem_remove, follows.removed (added.symm.trans absent)]
          exact and_iff_left (Ne.symm here)
      · rw [Trail.after, if_neg encodes, if_neg fun h => encodes h.2]
        exact follows
  | removeEdge id =>
      change EdgeFollows H listed base k (tx.removeEdge id) _
      by_cases here : id = k
      · rw [Trail.after, if_pos here]
        refine ⟨?_, fun _ => ?_, nofun⟩
        · change (tx.newEdges.erase id).get? k = none
          rw [OrdMap.get?_erase, if_pos here.symm]
        · exact iff_of_true (OrdSet.mem_add.mpr (.inl here.symm)) (.inl rfl)
      · rw [Trail.after, if_neg here]
        have kept : (tx.removeEdge id).newEdges.get? k = tx.newEdges.get? k :=
          (tx.newEdges.get?_erase id k).trans (if_neg (Ne.symm here))
        refine ⟨kept.trans follows.added, fun absent => ?_, follows.unstaged⟩
        change k ∈ tx.removedEdges.add id ↔ _
        rw [OrdSet.mem_add, follows.removed (kept.symm.trans absent)]
        exact or_iff_right (Ne.symm here)
  | tombstoneNode id reason => exact follows.congr rfl rfl
  | untombstoneNode id => exact follows.congr rfl rfl
  | _ => exact logged.elim

/-- What a commit makes of the staged edges, in terms of the trail. -/
theorem EdgeFollows.committed (follows : EdgeFollows H listed base k tx t) :
    (tx.newEdges.get? k).or (if k ∈ tx.removedEdges then none
      else base.map fun e => H.cidOf (Object.toBlock e)) =
        (if t.cut listed k then none else t.edge).map fun e => H.cidOf (Object.toBlock e) := by
  have added := follows.added
  cases here : tx.newEdges.get? k with
  | some cid =>
      rw [here] at added
      split at added
      · rename_i live
        simp only [Bool.and_eq_true, Bool.not_eq_true'] at live
        rw [live.2]
        exact added
      · cases added
  | none =>
      rw [here] at added
      have removed := follows.removed here
      by_cases cut : t.cut listed k = true
      · simp [removed, cut]
      · by_cases now : t.staged = true
        · rw [if_pos (by simp [now, cut])] at added
          rw [if_pos (removed.mpr (.inl now)), if_neg cut]
          exact added
        · rw [if_neg fun h => (removed.mp h).elim now cut, if_neg cut,
            follows.unstaged (Bool.eq_false_iff.mpr now)]
          rfl

/-! ### Tombstones -/

/-- The staged tombstones are the nodes that were tombstoned last, and every tombstone ever taken
back stays among the removed ones. -/
structure TombstoneFollows (id : NodeId) (tx : Transaction Cid) (log : Option Bool × Bool) :
    Prop where
  added : tx.newTombstones.contains id = true ↔ log.1 = some true
  removed : id ∈ tx.removedTombstones ↔ log.2 = true

/-- `lastTombstone`, and whether a tombstone of the node was ever taken back. -/
def tombstoneLog (id : NodeId) (log : Option Bool × Bool) (call : Call Cid) : Option Bool × Bool :=
  (lastTombstone id log.1 call, log.2 || match call with
    | .untombstoneNode i => decide (i = id)
    | _ => false)

/-- Calls about nodes and edges leave the tombstones. -/
theorem TombstoneFollows.congr {id : NodeId} {tx tx' : Transaction Cid} {log : Option Bool × Bool}
    (follows : TombstoneFollows id tx log) (new : tx'.newTombstones = tx.newTombstones)
    (removed : tx'.removedTombstones = tx.removedTombstones) :
    TombstoneFollows id tx' (log.1, log.2 || false) := by
  refine ⟨?_, ?_⟩
  · rw [new]
    exact follows.added
  · rw [removed, Bool.or_false]
    exact follows.removed

theorem tombstoneFollows_apply {id : NodeId} {s : Store H} {tx : Transaction Cid}
    {log : Option Bool × Bool} {call : Call Cid} (logged : call.Logged)
    (follows : TombstoneFollows id tx log) :
    TombstoneFollows id (tx.apply s call).1 (tombstoneLog id log call) := by
  have ⟨added, removed⟩ := follows
  cases call with
  | addNode node =>
      rw [apply_addNode]
      split <;> exact follows.congr rfl rfl
  | removeNode i =>
      change TombstoneFollows id (tx.removeNode s i) _
      obtain ⟨newEdges, removedEdges, eq, -⟩ := (tx.unstageNode i).removeEdges_eq (tx.cascade s i)
      rw [removeNode_eq, eq]
      exact follows.congr rfl rfl
  | addEdge edge =>
      rw [apply_addEdge]
      split <;> exact follows.congr rfl rfl
  | removeEdge i => exact follows.congr rfl rfl
  | tombstoneNode i reason =>
      refine ⟨?_, (follows.congr rfl rfl).removed⟩
      change ((tx.newTombstones.insert i _).get? id).isSome = true ↔
        (if i = id then some true else log.1) = some true
      rw [OrdMap.get?_insert]
      by_cases here : i = id
      · simp [here]
      · rw [if_neg here, if_neg here]
        exact added
  | untombstoneNode i =>
      constructor
      · change ((tx.newTombstones.erase i).get? id).isSome = true ↔
          (if i = id then some false else log.1) = some true
        rw [OrdMap.get?_erase]
        by_cases here : i = id
        · simp [here]
        · rw [if_neg here, if_neg (Ne.symm here)]
          exact added
      · change id ∈ tx.removedTombstones.add i ↔ (log.2 || decide (i = id)) = true
        rw [OrdSet.mem_add, removed, Bool.or_eq_true, decide_eq_true_eq]
        exact or_comm.trans (or_congr_right eq_comm)
  | _ => exact logged.elim

end Transaction

/-! ## The log, id by id -/

/-- The edge that the log leaves at the end of a trail. -/
theorem GraphState.edges_foldl (calls : List (Transaction.Call Cid)) (k : EdgeId)
    (log : GraphState Cid) (t : Trail Cid) (start : log.edges k = t.live) :
    (calls.foldl (GraphState.apply H) log).edges k = (calls.foldl (Trail.after H k) t).live := by
  induction calls generalizing log t with
  | nil => exact start
  | cons call calls ih =>
      refine ih _ _ ?_
      cases call with
      | addNode node =>
          rw [GraphState.apply]
          split <;> exact start
      | addEdge edge =>
          change _ = Trail.live (if edge.id = k ∧ H.encodes (Object.toBlock edge) then
            ⟨some edge, true, []⟩ else t)
          rw [GraphState.apply]
          by_cases encodes : H.encodes (Object.toBlock edge) = true
          · rw [if_pos encodes]
            change Function.update log.edges edge.id (some edge) k = _
            rw [Function.update_apply]
            by_cases here : k = edge.id
            · rw [if_pos here, if_pos ⟨here.symm, encodes⟩]
              rfl
            · rw [if_neg here, if_neg fun h => here h.1.symm]
              exact start
          · rw [if_neg encodes, if_neg fun h => encodes h.2]
            exact start
      | removeNode id =>
          change (log.edges k).filter (fun e => !touches e id) =
            if (t.edge.any fun e => touches e id) || t.severed then none else t.edge
          rw [start, Trail.live]
          cases t.edge with
          | none => simp
          | some e =>
              by_cases severed : t.severed = true
              · simp [severed]
              · by_cases at_id : touches e id = true <;> simp [severed, at_id]
      | removeEdge id =>
          change Function.update log.edges id none k =
            Trail.live (if id = k then ⟨none, true, []⟩ else t)
          rw [Function.update_apply]
          by_cases here : k = id
          · rw [if_pos here, if_pos here.symm]
            rfl
          · rw [if_neg here, if_neg (Ne.symm here)]
            exact start
      | _ => exact start

/-- The tombstone that the log leaves: the last call for the node decides. -/
theorem GraphState.tombstoned_foldl (calls : List (Transaction.Call Cid)) (id : NodeId)
    (log : GraphState Cid) (last : Option Bool) (base : Bool)
    (start : log.tombstoned id = last.getD base) :
    (calls.foldl (GraphState.apply H) log).tombstoned id =
      (calls.foldl (lastTombstone id) last).getD base := by
  induction calls generalizing log last with
  | nil => exact start
  | cons call calls ih =>
      refine ih _ _ ?_
      cases call with
      | addNode node =>
          rw [GraphState.apply]
          split <;> exact start
      | addEdge edge =>
          rw [GraphState.apply]
          split <;> exact start
      | tombstoneNode i reason =>
          change Function.update log.tombstoned i true id = _
          rw [Function.update_apply, lastTombstone]
          by_cases here : id = i
          · rw [if_pos here, if_pos here.symm]
            rfl
          · rw [if_neg here, if_neg (Ne.symm here)]
            exact start
      | untombstoneNode i =>
          change Function.update log.tombstoned i false id = _
          rw [Function.update_apply, lastTombstone]
          by_cases here : id = i
          · rw [if_pos here, if_pos here.symm]
            rfl
          · rw [if_neg here, if_neg (Ne.symm here)]
            exact start
      | _ => exact start

/-- Whether a tombstone of the node was ever taken back. -/
theorem Transaction.tombstoneLog_foldl (id : NodeId) (calls : List (Transaction.Call Cid))
    (log : Option Bool × Bool) :
    (calls.foldl (tombstoneLog id) log).1 = calls.foldl (lastTombstone id) log.1 ∧
      ((calls.foldl (tombstoneLog id) log).2 = true ↔
        log.2 = true ∨ .untombstoneNode id ∈ calls) := by
  induction calls generalizing log with
  | nil => simp
  | cons call calls ih =>
      obtain ⟨last, ever⟩ := ih (tombstoneLog id log call)
      refine ⟨last, ever.trans ?_⟩
      cases call with
      | untombstoneNode i =>
          change (log.2 || decide (i = id)) = true ∨ _ ↔ _
          rw [Bool.or_eq_true, decide_eq_true_eq, List.mem_cons, Call.untombstoneNode.injEq,
            or_assoc, eq_comm (a := i)]
      | _ => simp [tombstoneLog]

/-- Unless the node was tombstoned last, some call took its tombstone back or none was about it. -/
theorem lastTombstone_cases (id : NodeId) (calls : List (Transaction.Call Cid)) :
    (calls.foldl (lastTombstone id) none = some false → .untombstoneNode id ∈ calls) ∧
      (calls.foldl (lastTombstone id) none = none → .untombstoneNode id ∉ calls) := by
  induction calls using List.reverseRecOn with
  | nil => simp
  | append_singleton calls call ih =>
      rw [List.foldl_append]
      simp only [List.foldl_cons, List.foldl_nil, List.mem_append, List.mem_singleton]
      cases call with
      | tombstoneNode i reason =>
          rw [lastTombstone]
          by_cases here : i = id
          · simp [here]
          · simpa [here] using ih
      | untombstoneNode i =>
          rw [lastTombstone]
          by_cases here : i = id
          · simp [here]
          · simpa [here, Ne.symm here] using ih
      | _ => simpa [lastTombstone] using ih

/-! ## The theorem -/

section Folds

variable {w w' : World H} {r r' : ReadonlyRepo Cid} {g : Graph Cid}
  {calls : List (Transaction.Call Cid)} {opts : CommitOptions}

/-- What a committed transaction leaves, beside its log. -/
theorem transact_beside (pinned : Pinned (fun _ => True) w.store r g)
    (logged : ∀ c ∈ calls, c.Logged) (ran : (r.transact calls opts : WorldM H _).Returns w r' w') :
    let log := calls.foldl (GraphState.apply H) (GraphState.of w.store r)
    (GraphState.of w'.store r').nodes = log.nodes ∧
      (∀ k, (GraphState.of w'.store r').edges k =
        let t := calls.foldl (Trail.after H k) { edge := (GraphState.of w.store r).edges k }
        if t.cut (r.listed w.store) k then none else t.edge) ∧
      ∀ id, (GraphState.of w'.store r').tombstoned id = true ↔
        .untombstoneNode id ∉ calls ∧
          (calls.foldl (lastTombstone id) none = some true ∨ r.isTombstoned id = true) := by
  obtain ⟨tx, s₁, staging, le, rfl, staged, ran⟩ := transact_returns ran
  obtain ⟨-, -, -, cid, commit, viewCid, -, view, -, -, -, pinned'⟩ :=
    Transaction.commitOpts_loads (w := { w with store := s₁ }) (pinned.mono le) staged
      (fun _ => trivial) ran
  have run : tx = ((Transaction.new tx.base).stage w.store calls).1 := by rw [staging]
  refine ⟨?_, fun k => ?_, fun id => ?_⟩
  · funext id
    have beside := Transaction.stage_beside (GraphState.apply H)
      (I := Transaction.NodesFollow H g) w.store calls
      (fun s tx log c m _ _ follow => Transaction.nodesFollow_apply (logged c m) follow)
      (le_refl _) (Transaction.staged_new w.store tx.base)
      (fun id => GraphState.of_nodes pinned id)
    rw [← run] at beside
    refine Option.map_injective addr_injective ((GraphState.of_nodes pinned' id).trans ?_)
    rw [beside id]
    exact get?_rebuiltEntries _ _ _ _
  · have beside := Transaction.stage_beside (Trail.after H k)
      (I := fun tx' t => tx'.base = tx.base ∧ Transaction.EdgeFollows H (tx.base.listed w.store)
        ((GraphState.of w.store tx.base).edges k) k tx' t) w.store calls
      (fun s tx' t c m grown staged ⟨base, follows⟩ =>
        ⟨(Transaction.apply_change s tx' c).base.trans base,
          Transaction.edgeFollows_apply (logged c m) staged
            (fun id => by rw [base]; exact ReadonlyRepo.listed_of_le pinned grown id) follows⟩)
      (le_refl _) (Transaction.staged_new w.store tx.base)
      (a := { edge := (GraphState.of w.store tx.base).edges k })
      ⟨rfl, rfl, fun _ => by simp [Transaction.new, Trail.cut], fun _ => rfl⟩
    rw [← run] at beside
    refine Option.map_injective addr_injective ((GraphState.of_edges pinned' k).trans ?_)
    rw [← beside.2.committed, GraphState.of_edges pinned k]
    exact get?_rebuiltEntries _ _ _ _
  · have beside := Transaction.stage_beside (Transaction.tombstoneLog id)
      (I := Transaction.TombstoneFollows id) w.store calls
      (fun s tx log c m _ _ follows => Transaction.tombstoneFollows_apply (logged c m) follows)
      (le_refl _) (Transaction.staged_new w.store tx.base) (a := (none, false))
      ⟨by simp [Transaction.new, OrdMap.contains], by simp [Transaction.new]⟩
    rw [← run] at beside
    obtain ⟨last, ever⟩ := Transaction.tombstoneLog_foldl id calls (none, false)
    change r'.view.tombstones.contains id = true ↔ _
    rw [view, Transaction.newView_tombstones, beside.added, beside.removed, last, ever]
    simp only [Bool.false_eq_true, false_or]
    rfl

/-- A transaction commits the fold of its calls exactly when they follow the log. -/
theorem transact_folds_iff (pinned : Pinned (fun _ => True) w.store r g)
    (logged : ∀ c ∈ calls, c.Logged) (ran : (r.transact calls opts : WorldM H _).Returns w r' w') :
    GraphState.of w'.store r' = calls.foldl (GraphState.apply H) (GraphState.of w.store r) ↔
      FollowsLog H w.store r calls := by
  obtain ⟨nodes, edges, tombstones⟩ := transact_beside pinned logged ran
  have logEdges (k : EdgeId) := GraphState.edges_foldl (H := H) calls k (GraphState.of w.store r)
    { edge := (GraphState.of w.store r).edges k } rfl
  have logTombstoned (id : NodeId) := GraphState.tombstoned_foldl (H := H) calls id
    (GraphState.of w.store r) none (r.isTombstoned id) rfl
  constructor
  · intro same
    refine ⟨?_, fun id last taken => ?_⟩
    · rintro k t rfl present
      have at_k := congrFun (congrArg GraphState.edges same) k
      rw [edges k, logEdges k, Trail.live] at at_k
      dsimp only at at_k
      generalize calls.foldl (Trail.after H k) _ = t at at_k present ⊢
      obtain ⟨e, edge⟩ := Option.isSome_iff_exists.mp present
      rw [edge] at at_k
      cases cut : t.cut (r.listed w.store) k <;> cases severed : t.severed <;>
        simp [cut, severed] at at_k ⊢
    · have at_id := congrFun (congrArg GraphState.tombstoned same) id
      rw [logTombstoned id, last] at at_id
      exact ((tombstones id).mp at_id).1 taken
  · intro follows
    refine GraphState.ext nodes (funext fun k => ?_) (funext fun id => ?_)
    · rw [edges k, logEdges k, Trail.live]
      have at_k := follows.edges k _ rfl
      dsimp only
      generalize calls.foldl (Trail.after H k) _ = t at at_k ⊢
      cases edge : t.edge with
      | none => rw [ite_self, ite_self]
      | some e => rw [at_k (by rw [edge]; rfl)]
    · rw [Bool.eq_iff_iff, tombstones id, logTombstoned id]
      have last := follows.tombstones id
      obtain ⟨taken, untouched⟩ := lastTombstone_cases id calls
      rcases ends : calls.foldl (lastTombstone id) none with _ | _ | _
      · simp [untouched ends]
      · simp [taken ends]
      · simp [last ends]

end Folds

/-! ## A node tombstoned after it was untombstoned -/

/-- A base with one node, and a transaction that takes its tombstone back and sets it again. -/
theorem untombstoned_then_tombstoned :
    ∃ (r r' : ReadonlyRepo Nat) (w w' : World shortHashing) (g : Graph Nat),
      Pinned (fun _ => True) w.store r g ∧
        (r.transact [.untombstoneNode 1, .tombstoneNode 1 "spam"]
          { author := "", message := "second" } : WorldM shortHashing _).Returns w r' w' ∧
        r'.isTombstoned 1 = false := by
  have check : (transactTwice [.addNode { id := 1, ntype := "N" }]
      [.untombstoneNode 1, .tombstoneNode 1 "spam"] :
        WorldM shortHashing _).check {} (fun r _ => !r.2.isTombstoned 1) = true := by
    decide +kernel
  obtain ⟨⟨r, r'⟩, w', ran, kept⟩ := Exec.exists_of_check check
  obtain ⟨w, g, pinned, -, second⟩ := transactTwice_returns ran
  exact ⟨r, r', w, w', g, pinned, second, by simpa using kept⟩

/-- The node is not tombstoned, though the last call for it was `tombstone_node`. -/
theorem transact_not_fold :
    ∃ (r r' : ReadonlyRepo Nat) (w w' : World shortHashing) (g : Graph Nat),
      Pinned (fun _ => True) w.store r g ∧
        (r.transact [.untombstoneNode 1, .tombstoneNode 1 "spam"]
          { author := "", message := "second" } : WorldM shortHashing _).Returns w r' w' ∧
        GraphState.of w'.store r' ≠ [Transaction.Call.untombstoneNode 1, .tombstoneNode 1 "spam"].foldl
          (GraphState.apply shortHashing) (GraphState.of w.store r) := by
  obtain ⟨r, r', w, w', g, pinned, ran, lost⟩ := untombstoned_then_tombstoned
  refine ⟨r, r', w, w', g, pinned, ran, fun same => ?_⟩
  have at_1 := congrFun (congrArg GraphState.tombstoned same) 1
  rw [show (GraphState.of w'.store r').tombstoned 1 = false from lost] at at_1
  cases at_1

theorem transact_folds_iff_witness :
    ∃ (r r' : ReadonlyRepo Nat) (w w' : World shortHashing),
      GraphState.of w'.store r' = [Transaction.Call.untombstoneNode 1, .tombstoneNode 1 "spam"].foldl
          (GraphState.apply shortHashing) (GraphState.of w.store r) ↔
        FollowsLog shortHashing w.store r [.untombstoneNode 1, .tombstoneNode 1 "spam"] := by
  obtain ⟨r, r', w, w', g, pinned, ran, -⟩ := untombstoned_then_tombstoned
  exact ⟨r, r', w, w', transact_folds_iff pinned (by simp [Transaction.Call.Logged]) ran⟩

end Mnem.Repo
