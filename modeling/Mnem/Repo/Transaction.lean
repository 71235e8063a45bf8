/-
# Repo.Transaction — mutations staged against a pinned repository

A `Transaction` collects additions and removals until it is committed.  Nodes
and edges are written when they are added; nothing else touches the store.  The
calls a client can make are the constructors of `Call`, and `stage` runs a list
of them: a call that fails leaves the transaction as it was.  `Change` says once
what a call can do to the staged maps, and `Staged` is what every run of calls
keeps.
-/
import Mnem.Repo.Readonly

namespace Mnem.Repo

open Theory Prolly Index

set_option autoImplicit false
set_option linter.unusedSectionVars false

variable {Cid : Type} {H : Hashing Cid} [LinearOrder Cid]

/-- Buffered mutations against a `ReadonlyRepo`. -/
structure Transaction (Cid : Type) [LinearOrder Cid] where
  base : ReadonlyRepo Cid
  newNodes : OrdMap NodeId Cid := OrdMap.empty
  removedNodes : OrdSet NodeId := OrdMap.empty
  newEdges : OrdMap EdgeId Cid := OrdMap.empty
  removedEdges : OrdSet EdgeId := OrdMap.empty
  refUpdates : OrdMap String (Option (RefTarget Cid)) := OrdMap.empty
  newTombstones : OrdMap NodeId Tombstone := OrdMap.empty
  removedTombstones : OrdSet NodeId := OrdMap.empty
  pendingByProp : OrdMap (String ×ₗ String ×ₗ ProllyKey) NodeId := OrdMap.empty
  pendingEmbeddings : OrdMap Cid EmbeddingBucket := OrdMap.empty
  pendingSparse : OrdMap Cid SparseBucket := OrdMap.empty
  activeBranchOverride : Option String := none

/-- `index::lookup_by_prop`: the node the property index has for a value, confirmed. -/
def lookupByProp (s : Store H) (indexes : IndexSet Cid) (label propName : String)
    (value : Ipld Cid) : Except (Error Cid) (Option (Node Cid)) :=
  match Groups.row indexes.nodesByProp label propName with
  | none => .ok none
  | some treeRoot => do
      let key ← propValueHash H value
      match ← lookup s treeRoot key with
      | none => return none
      | some nodeCid => do
          let node ← s.decodeFromStore (Node Cid) nodeCid
          if node.ntype != label then return none
          else if !(node.props.get? propName).any fun v => Ipld.eq v value then return none
          else return some node

namespace Transaction

/-! ## Mutations -/

section Mutations

variable (tx : Transaction Cid)

/-- `pending_by_prop` with the properties of an added node. -/
def notePending (H : Hashing Cid) (node : Node Cid) :
    OrdMap (String ×ₗ String ×ₗ ProllyKey) NodeId :=
  node.props.entries.foldl (fun pending prop =>
    match propValueHash H prop.2 with
    | .ok hash => pending.insert (toLex (node.ntype, toLex (prop.1, hash))) node.id
    | .error _ => pending) tx.pendingByProp

/-- What `add_node` stages once the node is written. -/
def stageNode (H : Hashing Cid) (node : Node Cid) (cid : Cid) : Transaction Cid :=
  { tx with
    removedNodes := tx.removedNodes.remove node.id
    newNodes := tx.newNodes.insert node.id cid
    pendingByProp := tx.notePending H node }

/-- Add or overwrite a node. -/
def addNode (node : Node Cid) : StoreM H (Cid × Transaction Cid) := do
  let cid ← putObject node
  return (cid, tx.stageNode H node cid)

/-- Stage a vector under a name; the names of a node's vectors share a bucket. -/
def stageVector {V : Type} (message : String) (pending : OrdMap Cid (Bucket V)) (nodeCid : Cid)
    (name : String) (vector : V) : Except (Error Cid) (OrdMap Cid (Bucket V)) :=
  if name.isEmpty then .error (.invalidInput message)
  else .ok (pending.modify nodeCid fun bucket => (bucket.getD {}).upsert name vector)

def setEmbedding (nodeCid : Cid) (model : String) (embedding : Embedding) :
    Except (Error Cid) (Transaction Cid) :=
  (fun pending => { tx with pendingEmbeddings := pending }) <$>
    stageVector "model string must not be empty" tx.pendingEmbeddings nodeCid model embedding

def setSparseEmbedding (nodeCid : Cid) (vocabId : String) (sparse : SparseEmbed) :
    Except (Error Cid) (Transaction Cid) :=
  (fun pending => { tx with pendingSparse := pending }) <$>
    stageVector "vocab_id string must not be empty" tx.pendingSparse nodeCid vocabId sparse

/-- What `add_edge` stages once the edge is written. -/
def stageEdge (edge : Edge Cid) (cid : Cid) : Transaction Cid :=
  { tx with
    removedEdges := tx.removedEdges.remove edge.id
    newEdges := tx.newEdges.insert edge.id cid }

/-- Add or overwrite an edge; its endpoints are checked at commit. -/
def addEdge (edge : Edge Cid) : StoreM H (Cid × Transaction Cid) := do
  let cid ← putObject edge
  return (cid, tx.stageEdge edge cid)

def removeEdge (id : EdgeId) : Transaction Cid :=
  { tx with
    newEdges := tx.newEdges.erase id
    removedEdges := tx.removedEdges.add id }

def removeEdges (ids : List EdgeId) : Transaction Cid := ids.foldl removeEdge tx

/-- The part of `remove_node` about the node itself: a staged addition goes, and the
vectors staged for it. -/
def unstageNode (id : NodeId) : Transaction Cid :=
  { tx with
    newNodes := tx.newNodes.erase id
    removedNodes := tx.removedNodes.add id
    pendingEmbeddings := (tx.newNodes.get? id).elim tx.pendingEmbeddings tx.pendingEmbeddings.erase
    pendingSparse := (tx.newNodes.get? id).elim tx.pendingSparse tx.pendingSparse.erase
    pendingByProp := ⟨tx.pendingByProp.entries.filter fun e => e.2 != id,
      tx.pendingByProp.ascending.filter _⟩ }

/-- The edges the adjacency index finds; errors are swallowed. -/
def found (edges : Except (Error Cid) (List (Edge Cid))) : List EdgeId :=
  match edges with
  | .ok edges => edges.map Edge.id
  | .error _ => []

/-- The staged edges at a node. -/
def stagedIncident (s : Store H) (id : NodeId) : List EdgeId :=
  (tx.newEdges.entries.filter fun e =>
    match s.decodeFromStore (Edge Cid) e.2 with
    | .ok edge => edge.src == id || edge.dst == id
    | .error _ => false).map Prod.fst

/-- Remove a node and every edge at it: those of the base that the adjacency index
finds, then those staged. -/
def removeNode (s : Store H) (id : NodeId) : Transaction Cid :=
  let tx := tx.unstageNode id
  let tx := tx.removeEdges (found (tx.base.outgoingEdges s id none))
  let tx := tx.removeEdges (found (tx.base.incomingEdges s id none))
  tx.removeEdges (tx.stagedIncident s id)

/-- The timestamp is filled in at commit. -/
def tombstoneNode (id : NodeId) (reason : String) : Transaction Cid :=
  { tx with newTombstones := tx.newTombstones.insert id ⟨reason, 0⟩ }

def untombstoneNode (id : NodeId) : Transaction Cid :=
  { tx with
    newTombstones := tx.newTombstones.erase id
    removedTombstones := tx.removedTombstones.add id }

def updateRef (name : String) (target : Option (RefTarget Cid)) : Transaction Cid :=
  { tx with refUpdates := tx.refUpdates.insert name target }

def setActiveBranch (branch : String) : Transaction Cid :=
  { tx with activeBranchOverride := some branch }

/-- `entry(key).or_insert(value)`. -/
def orInsert (props : Props Cid) (key : String) (value : Ipld Cid) : Props Cid :=
  props.modify key fun old => old.getD value

/-- Write a node with a fresh id, stamped with the two reserved temporal properties. -/
def commitMemory (fresh : NodeId) (now : Nat) (ntype summary : String)
    (props : List (String × Ipld Cid)) : StoreM H (NodeId × Transaction Cid) := do
  let given : Props Cid := OrdMap.ofList props
  let stamped := orInsert (orInsert given "mnem:created_at" (.integer now))
    "mnem:updated_at" (.integer now)
  let added ← tx.addNode { id := fresh, ntype := ntype, summary := some summary, props := stamped }
  return (fresh, added.2)

/-- The node with this value that the base's property index has, unless it is removed
or tombstoned. -/
def resolveInBase (s : Store H) (label propName : String) (value : Ipld Cid) :
    Except (Error Cid) (Option NodeId) := do
  let indexes ← (tx.base.commit.elim (.ok none) (indexesOf s) :
    Except (Error Cid) (Option (IndexSet Cid)))
  match indexes with
  | none => return none
  | some indexes => do
      let node ← lookupByProp s indexes label propName value
      return (node.map Node.id).filter fun id =>
        !tx.removedNodes.contains id && !tx.base.view.tombstones.contains id

/-- Find a node by a property value, among the pending ones and then in the base, or
create one with the fresh id. -/
def resolveOrCreateNode (fresh : NodeId) (label propName : String) (value : Ipld Cid) :
    StoreM H (NodeId × Transaction Cid) := do
  let hash ← Exec.read fun _ => propValueHash H value
  let pending := (tx.pendingByProp.get? (toLex (label, toLex (propName, hash)))).filter
    fun id => !tx.newTombstones.contains id
  match pending with
  | some id => return (id, tx)
  | none => do
      let resolved ← Exec.read fun s => tx.resolveInBase s label propName value
      match resolved with
      | some id => return (id, tx)
      | none => do
          let added ← tx.addNode
            { id := fresh, ntype := label, props := OrdMap.empty.insert propName value }
          return (fresh, added.2)

end Mutations

/-! ## Runs of calls -/

/-- A call on a transaction, with what it reads from the clock. -/
inductive Call (Cid : Type) where
  | addNode (node : Node Cid)
  | setEmbedding (nodeCid : Cid) (model : String) (embedding : Embedding)
  | setSparseEmbedding (nodeCid : Cid) (vocabId : String) (sparse : SparseEmbed)
  | removeNode (id : NodeId)
  | addEdge (edge : Edge Cid)
  | removeEdge (id : EdgeId)
  | tombstoneNode (id : NodeId) (reason : String)
  | untombstoneNode (id : NodeId)
  | updateRef (name : String) (target : Option (RefTarget Cid))
  | setActiveBranch (branch : String)
  | commitMemory (fresh : NodeId) (now : Nat) (ntype summary : String)
      (props : List (String × Ipld Cid))
  | resolveOrCreateNode (fresh : NodeId) (label propName : String) (value : Ipld Cid)

def exec (tx : Transaction Cid) : Call Cid → StoreM H (Transaction Cid)
  | .addNode node => Prod.snd <$> tx.addNode node
  | .setEmbedding nodeCid model embedding =>
      Exec.read fun _ => tx.setEmbedding nodeCid model embedding
  | .setSparseEmbedding nodeCid vocabId sparse =>
      Exec.read fun _ => tx.setSparseEmbedding nodeCid vocabId sparse
  | .removeNode id => Exec.read fun s => .ok (tx.removeNode s id)
  | .addEdge edge => Prod.snd <$> tx.addEdge edge
  | .removeEdge id => pure (tx.removeEdge id)
  | .tombstoneNode id reason => pure (tx.tombstoneNode id reason)
  | .untombstoneNode id => pure (tx.untombstoneNode id)
  | .updateRef name target => pure (tx.updateRef name target)
  | .setActiveBranch branch => pure (tx.setActiveBranch branch)
  | .commitMemory fresh now ntype summary props =>
      Prod.snd <$> tx.commitMemory fresh now ntype summary props
  | .resolveOrCreateNode fresh label propName value =>
      Prod.snd <$> tx.resolveOrCreateNode fresh label propName value

/-- Make a call; a failure leaves the transaction as it was. -/
def apply (s : Store H) (tx : Transaction Cid) (call : Call Cid) : Transaction Cid × Store H :=
  (tx.exec call).attempt tx s

/-- Make calls in order. -/
def stage (s : Store H) (tx : Transaction Cid) : List (Call Cid) → Transaction Cid × Store H
  | [] => (tx, s)
  | call :: calls => stage (tx.apply s call).2 (tx.apply s call).1 calls

/-- A transaction just started. -/
def new (base : ReadonlyRepo Cid) : Transaction Cid := { base := base }

/-! ## What a call changes -/

/-- The staged maps are the same. -/
structure SameStaging (tx tx' : Transaction Cid) : Prop where
  base : tx'.base = tx.base
  newNodes : tx'.newNodes = tx.newNodes
  removedNodes : tx'.removedNodes = tx.removedNodes
  newEdges : tx'.newEdges = tx.newEdges
  removedEdges : tx'.removedEdges = tx.removedEdges
  pendingEmbeddings : tx'.pendingEmbeddings = tx.pendingEmbeddings
  pendingSparse : tx'.pendingSparse = tx.pendingSparse

theorem SameStaging.refl (tx : Transaction Cid) : SameStaging tx tx :=
  ⟨rfl, rfl, rfl, rfl, rfl, rfl, rfl⟩

/-- Calls that stage no vector and remove no node. -/
def Call.Plain : Call Cid → Prop
  | .setEmbedding .. | .setSparseEmbedding .. | .removeNode _ => False
  | _ => True

/-- What a call does to the staged maps, between the stores before and after it. -/
inductive Change (s s' : Store H) (tx : Transaction Cid) : Call Cid → Transaction Cid → Prop where
  | node {call : Call Cid} {node : Node Cid} {cid : Cid} (plain : call.Plain)
      (loads : s'.Loads cid node) : Change s s' tx call (tx.stageNode H node cid)
  | removal (id : NodeId) : Change s s' tx (.removeNode id) (tx.removeNode s id)
  | edge {edge : Edge Cid} {cid : Cid} (loads : s'.Loads cid edge) :
      Change s s' tx (.addEdge edge) (tx.stageEdge edge cid)
  | edgeRemoval (id : EdgeId) : Change s s' tx (.removeEdge id) (tx.removeEdge id)
  | embedding {nodeCid : Cid} {model : String} {embedding : Embedding} (named : model ≠ "") :
      Change s s' tx (.setEmbedding nodeCid model embedding)
        { tx with pendingEmbeddings :=
            tx.pendingEmbeddings.modify nodeCid fun b => (b.getD {}).upsert model embedding }
  | sparse {nodeCid : Cid} {vocabId : String} {sparse : SparseEmbed} (named : vocabId ≠ "") :
      Change s s' tx (.setSparseEmbedding nodeCid vocabId sparse)
        { tx with pendingSparse :=
            tx.pendingSparse.modify nodeCid fun b => (b.getD {}).upsert vocabId sparse }
  | unnamedEmbedding {nodeCid : Cid} {embedding : Embedding} :
      Change s s' tx (.setEmbedding nodeCid "" embedding) tx
  | unnamedSparse {nodeCid : Cid} {sparse : SparseEmbed} :
      Change s s' tx (.setSparseEmbedding nodeCid "" sparse) tx
  | rest {call : Call Cid} {tx' : Transaction Cid} (plain : call.Plain)
      (same : SameStaging tx tx') : Change s s' tx call tx'

theorem stageVector_ok {V : Type} {message name : String} {pending pending' : OrdMap Cid (Bucket V)}
    {nodeCid : Cid} {vector : V}
    (ran : (stageVector message pending nodeCid name vector : Except (Error Cid) _) =
      .ok pending') :
    name ≠ "" ∧ pending' = pending.modify nodeCid fun b => (b.getD {}).upsert name vector := by
  unfold stageVector at ran
  split at ran
  · cases ran
  · rename_i named
    refine ⟨fun h => named ?_, (Except.ok.inj ran).symm⟩
    rw [h]
    rfl

theorem addNode_returns {tx : Transaction Cid} {node : Node Cid} {s s' : Store H}
    {out : Cid × Transaction Cid} (ran : (tx.addNode node : StoreM H _).Returns s out s') :
    s ≤ s' ∧ s'.Loads out.1 node ∧ out.2 = tx.stageNode H node out.1 := by
  obtain ⟨cid, s₁, put, done⟩ := Exec.returns_bind.mp ran
  obtain ⟨rfl, rfl⟩ := Exec.returns_pure.mp done
  obtain ⟨-, le, loads⟩ := putObject_returns put
  exact ⟨le, loads, rfl⟩

theorem resolveOrCreateNode_returns {tx : Transaction Cid} {fresh : NodeId}
    {label propName : String} {value : Ipld Cid} {s s' : Store H}
    {out : NodeId × Transaction Cid}
    (ran : (tx.resolveOrCreateNode fresh label propName value : StoreM H _).Returns s out s') :
    s ≤ s' ∧ (out.2 = tx ∨
      ∃ node cid, s'.Loads cid node ∧ out.2 = tx.stageNode H node cid) := by
  obtain ⟨hash, s₁, read, ran⟩ := Exec.returns_bind.mp ran
  obtain ⟨-, rfl⟩ := Exec.returns_read.mp read
  dsimp only at ran
  split at ran
  · obtain ⟨rfl, rfl⟩ := Exec.returns_pure.mp ran
    exact ⟨le_refl _, .inl rfl⟩
  · obtain ⟨resolved, s₂, read, ran⟩ := Exec.returns_bind.mp ran
    obtain ⟨-, rfl⟩ := Exec.returns_read.mp read
    split at ran
    · obtain ⟨rfl, rfl⟩ := Exec.returns_pure.mp ran
      exact ⟨le_refl _, .inl rfl⟩
    · obtain ⟨added, s₃, add, ran⟩ := Exec.returns_bind.mp ran
      obtain ⟨rfl, rfl⟩ := Exec.returns_pure.mp ran
      obtain ⟨le, loads, staged⟩ := addNode_returns add
      exact ⟨le, .inr ⟨_, _, loads, staged⟩⟩

/-- What a call that returns has done. -/
theorem exec_returns {tx tx' : Transaction Cid} {call : Call Cid} {s s' : Store H}
    (ran : (tx.exec call : StoreM H _).Returns s tx' s') : s ≤ s' ∧ Change s s' tx call tx' := by
  cases call with
  | addNode node =>
      obtain ⟨out, add, rfl⟩ := Exec.returns_map.mp ran
      obtain ⟨le, loads, staged⟩ := addNode_returns add
      rw [staged]
      exact ⟨le, .node trivial loads⟩
  | setEmbedding nodeCid model embedding =>
      obtain ⟨set, rfl⟩ := Exec.returns_read.mp ran
      obtain ⟨pending, staged, rfl⟩ := Exec.map_eq_ok.mp set
      obtain ⟨named, rfl⟩ := stageVector_ok staged
      exact ⟨le_refl _, .embedding named⟩
  | setSparseEmbedding nodeCid vocabId sparse =>
      obtain ⟨set, rfl⟩ := Exec.returns_read.mp ran
      obtain ⟨pending, staged, rfl⟩ := Exec.map_eq_ok.mp set
      obtain ⟨named, rfl⟩ := stageVector_ok staged
      exact ⟨le_refl _, .sparse named⟩
  | removeNode id =>
      obtain ⟨removed, rfl⟩ := Exec.returns_read.mp ran
      cases removed
      exact ⟨le_refl _, .removal id⟩
  | addEdge edge =>
      obtain ⟨out, add, rfl⟩ := Exec.returns_map.mp ran
      obtain ⟨cid, s₁, put, done⟩ := Exec.returns_bind.mp add
      obtain ⟨rfl, rfl⟩ := Exec.returns_pure.mp done
      obtain ⟨-, le, loads⟩ := putObject_returns put
      exact ⟨le, .edge loads⟩
  | removeEdge id =>
      obtain ⟨rfl, rfl⟩ := Exec.returns_pure.mp ran
      exact ⟨le_refl _, .edgeRemoval id⟩
  | tombstoneNode id reason =>
      obtain ⟨rfl, rfl⟩ := Exec.returns_pure.mp ran
      exact ⟨le_refl _, .rest trivial ⟨rfl, rfl, rfl, rfl, rfl, rfl, rfl⟩⟩
  | untombstoneNode id =>
      obtain ⟨rfl, rfl⟩ := Exec.returns_pure.mp ran
      exact ⟨le_refl _, .rest trivial ⟨rfl, rfl, rfl, rfl, rfl, rfl, rfl⟩⟩
  | updateRef name target =>
      obtain ⟨rfl, rfl⟩ := Exec.returns_pure.mp ran
      exact ⟨le_refl _, .rest trivial ⟨rfl, rfl, rfl, rfl, rfl, rfl, rfl⟩⟩
  | setActiveBranch branch =>
      obtain ⟨rfl, rfl⟩ := Exec.returns_pure.mp ran
      exact ⟨le_refl _, .rest trivial ⟨rfl, rfl, rfl, rfl, rfl, rfl, rfl⟩⟩
  | commitMemory fresh now ntype summary props =>
      obtain ⟨out, written, rfl⟩ := Exec.returns_map.mp ran
      obtain ⟨added, s₁, add, done⟩ := Exec.returns_bind.mp written
      obtain ⟨rfl, rfl⟩ := Exec.returns_pure.mp done
      obtain ⟨le, loads, staged⟩ := addNode_returns add
      rw [staged]
      exact ⟨le, .node trivial loads⟩
  | resolveOrCreateNode fresh label propName value =>
      obtain ⟨out, resolved, rfl⟩ := Exec.returns_map.mp ran
      obtain ⟨le, same | ⟨node, cid, loads, staged⟩⟩ := resolveOrCreateNode_returns resolved
      · rw [same]
        exact ⟨le, .rest trivial (SameStaging.refl tx)⟩
      · rw [staged]
        exact ⟨le, .node trivial loads⟩

theorem addNode_grows (tx : Transaction Cid) (node : Node Cid) :
    Exec.Grows (tx.addNode node : StoreM H _) :=
  Exec.grows_bind (putObject_grows node) fun _ => Exec.grows_pure _

theorem exec_grows (tx : Transaction Cid) (call : Call Cid) :
    Exec.Grows (tx.exec call : StoreM H _) := by
  cases call with
  | addNode node => exact Exec.grows_map (addNode_grows tx node)
  | addEdge edge =>
      exact Exec.grows_map (Exec.grows_bind (putObject_grows edge) fun _ => Exec.grows_pure _)
  | commitMemory fresh now ntype summary props =>
      exact Exec.grows_map (Exec.grows_bind (addNode_grows tx _) fun _ => Exec.grows_pure _)
  | resolveOrCreateNode fresh label propName value =>
      refine Exec.grows_map (Exec.grows_bind (Exec.grows_read _) fun hash => ?_)
      dsimp only
      split
      · exact Exec.grows_pure _
      · refine Exec.grows_bind (Exec.grows_read _) fun resolved => ?_
        split
        · exact Exec.grows_pure _
        · exact Exec.grows_bind (addNode_grows tx _) fun _ => Exec.grows_pure _
  | setEmbedding _ _ _ => exact Exec.grows_read _
  | setSparseEmbedding _ _ _ => exact Exec.grows_read _
  | removeNode _ => exact Exec.grows_read _
  | removeEdge _ => exact Exec.grows_pure _
  | tombstoneNode _ _ => exact Exec.grows_pure _
  | untombstoneNode _ => exact Exec.grows_pure _
  | updateRef _ _ => exact Exec.grows_pure _
  | setActiveBranch _ => exact Exec.grows_pure _

theorem le_apply (s : Store H) (tx : Transaction Cid) (call : Call Cid) :
    s ≤ (tx.apply s call).2 := (exec_grows tx call).attempt tx s

theorem stageVector_of_named {V : Type} (message : String) (pending : OrdMap Cid (Bucket V))
    (nodeCid : Cid) {name : String} (named : name ≠ "") (vector : V) :
    (stageVector message pending nodeCid name vector : Except (Error Cid) _) =
      .ok (pending.modify nodeCid fun b => (b.getD {}).upsert name vector) :=
  if_neg (by simpa using named)

/-- What a call does to the staged maps, whether it returns or fails. -/
theorem apply_change (s : Store H) (tx : Transaction Cid) (call : Call Cid) :
    Change s (tx.apply s call).2 tx call (tx.apply s call).1 := by
  unfold apply
  rcases (tx.exec call : StoreM H _).attempt_cases tx s with ran | ⟨e, failed, same⟩
  · exact (exec_returns ran).2
  · rw [same]
    cases call with
    | setEmbedding nodeCid model embedding =>
        by_cases named : model = ""
        · subst named
          exact .unnamedEmbedding
        · have set : tx.setEmbedding nodeCid model embedding = .error e :=
            congrArg Prod.fst failed
          rw [setEmbedding, stageVector_of_named _ _ _ named] at set
          cases set
    | setSparseEmbedding nodeCid vocabId sparse =>
        by_cases named : vocabId = ""
        · subst named
          exact .unnamedSparse
        · have set : tx.setSparseEmbedding nodeCid vocabId sparse = .error e :=
            congrArg Prod.fst failed
          rw [setSparseEmbedding, stageVector_of_named _ _ _ named] at set
          cases set
    | removeNode id => cases congrArg Prod.fst failed
    | _ => exact .rest trivial (SameStaging.refl tx)

/-! Calls that cannot fail. -/

theorem apply_of_returns {tx tx' : Transaction Cid} {s s' : Store H} {call : Call Cid} (ran : (tx.exec call : StoreM H _).Returns s tx' s') :
    tx.apply s call = (tx', s') := by
  unfold apply Exec.attempt
  rw [show (tx.exec call : StoreM H _).outcome s = (.ok tx', s') from ran]

theorem exists_apply_addNode (s : Store H) (tx : Transaction Cid) (node : Node Cid)
    (encodes : H.encodes (Object.toBlock node) = true) :
    ∃ s', tx.apply s (.addNode node) =
      (tx.stageNode H node (H.cidOf (Object.toBlock node)), s') := by
  obtain ⟨cid, s', put, rfl, -⟩ := putObject_succeeds encodes s
  refine ⟨s', apply_of_returns (Exec.returns_map.mpr ⟨(H.cidOf (Object.toBlock node), _), ?_, rfl⟩)⟩
  exact Exec.returns_bind.mpr ⟨_, _, put, Exec.returns_pure.mpr ⟨rfl, rfl⟩⟩

theorem exists_apply_addEdge (s : Store H) (tx : Transaction Cid) {edge : Edge Cid}
    (encodes : H.encodes (Object.toBlock edge) = true) :
    ∃ s', tx.apply s (.addEdge edge) =
      (tx.stageEdge edge (H.cidOf (Object.toBlock edge)), s') := by
  obtain ⟨cid, s', put, rfl, -⟩ := putObject_succeeds encodes s
  refine ⟨s', apply_of_returns (Exec.returns_map.mpr ⟨(H.cidOf (Object.toBlock edge), _), ?_, rfl⟩)⟩
  exact Exec.returns_bind.mpr ⟨_, _, put, Exec.returns_pure.mpr ⟨rfl, rfl⟩⟩

theorem le_stage (s : Store H) (tx : Transaction Cid) (calls : List (Call Cid)) :
    s ≤ (tx.stage s calls).2 := by
  induction calls generalizing s tx with
  | nil => exact le_refl s
  | cons call calls ih => exact (le_apply s tx call).trans (ih _ _)

/-! ## Edge removals -/

section Removals

variable (tx : Transaction Cid) (ids : List EdgeId)

theorem removeEdges_append (more : List EdgeId) :
    tx.removeEdges (ids ++ more) = (tx.removeEdges ids).removeEdges more :=
  List.foldl_append

/-- Removing edges touches the two edge maps only. -/
theorem removeEdges_eq : ∃ newEdges removedEdges,
    tx.removeEdges ids = { tx with newEdges := newEdges, removedEdges := removedEdges } ∧
      (∀ k, newEdges.get? k = if k ∈ ids then none else tx.newEdges.get? k) ∧
      ∀ k, k ∈ removedEdges ↔ k ∈ ids ∨ k ∈ tx.removedEdges := by
  induction ids generalizing tx with
  | nil => exact ⟨_, _, rfl, by simp, by simp⟩
  | cons id ids ih =>
      obtain ⟨newEdges, removedEdges, eq, added, removed⟩ := ih (tx.removeEdge id)
      refine ⟨newEdges, removedEdges, eq, fun k => ?_, fun k => ?_⟩
      · rw [added]
        change (if k ∈ ids then none else (tx.newEdges.erase id).get? k) = _
        rw [OrdMap.get?_erase]
        simp only [List.mem_cons]
        by_cases here : k = id <;> by_cases later : k ∈ ids <;> simp [here, later]
      · rw [removed]
        change k ∈ ids ∨ k ∈ tx.removedEdges.add id ↔ _
        rw [OrdSet.mem_add, List.mem_cons]
        tauto

/-- The edges that `remove_node` removes. -/
def cascade (s : Store H) (id : NodeId) : List EdgeId :=
  let fromIndex := found (tx.base.outgoingEdges s id none) ++ found (tx.base.incomingEdges s id none)
  fromIndex ++ ((tx.unstageNode id).removeEdges fromIndex).stagedIncident s id

theorem base_removeEdges : (tx.removeEdges ids).base = tx.base := by
  obtain ⟨_, _, eq, -⟩ := tx.removeEdges_eq ids
  rw [eq]

/-- Removing a node unstages it and removes its edges. -/
theorem removeNode_eq (s : Store H) (id : NodeId) :
    tx.removeNode s id = (tx.unstageNode id).removeEdges (tx.cascade s id) := by
  unfold removeNode cascade
  rw [removeEdges_append, removeEdges_append]
  simp only [base_removeEdges]
  rfl

theorem mem_cascade_of_outgoing {s : Store H} {id : NodeId} {out : List (Edge Cid)}
    (ran : tx.base.outgoingEdges s id none = .ok out) {e : Edge Cid} (m : e ∈ out) :
    e.id ∈ tx.cascade s id := by
  refine List.mem_append_left _ (List.mem_append_left _ ?_)
  rw [ran]
  exact List.mem_map_of_mem m

theorem mem_cascade_of_incoming {s : Store H} {id : NodeId} {out : List (Edge Cid)}
    (ran : tx.base.incomingEdges s id none = .ok out) {e : Edge Cid} (m : e ∈ out) :
    e.id ∈ tx.cascade s id := by
  refine List.mem_append_left _ (List.mem_append_right _ ?_)
  rw [ran]
  exact List.mem_map_of_mem m

end Removals

/-! ## What every run of calls keeps -/

/-- Staged objects are stored under their ids, and nothing is both added and removed. -/
structure Staged (s : Store H) (tx : Transaction Cid) : Prop where
  nodes : ∀ id cid, tx.newNodes.get? id = some cid → ∃ n : Node Cid, s.Loads cid n ∧ n.id = id
  edges : ∀ id cid, tx.newEdges.get? id = some cid → ∃ e : Edge Cid, s.Loads cid e ∧ e.id = id
  nodesApart : ∀ id ∈ tx.removedNodes, tx.newNodes.get? id = none
  edgesApart : ∀ id ∈ tx.removedEdges, tx.newEdges.get? id = none

theorem staged_new (s : Store H) (base : ReadonlyRepo Cid) : Staged s (new base) where
  nodes _ _ h := by cases h
  edges _ _ h := by cases h
  nodesApart _ _ := rfl
  edgesApart _ _ := rfl

theorem Staged.mono {s s' : Store H} {tx : Transaction Cid} (staged : Staged s tx) (le : s ≤ s') :
    Staged s' tx where
  nodes id cid h := by
    obtain ⟨n, loads, at_id⟩ := staged.nodes id cid h
    exact ⟨n, loads.mono le, at_id⟩
  edges id cid h := by
    obtain ⟨e, loads, at_id⟩ := staged.edges id cid h
    exact ⟨e, loads.mono le, at_id⟩
  nodesApart := staged.nodesApart
  edgesApart := staged.edgesApart

/-- Only the node and edge maps matter. -/
theorem Staged.congr {s : Store H} {tx tx' : Transaction Cid} (staged : Staged s tx)
    (newNodes : tx'.newNodes = tx.newNodes) (removedNodes : tx'.removedNodes = tx.removedNodes)
    (newEdges : tx'.newEdges = tx.newEdges) (removedEdges : tx'.removedEdges = tx.removedEdges) :
    Staged s tx' where
  nodes := by rw [newNodes]; exact staged.nodes
  edges := by rw [newEdges]; exact staged.edges
  nodesApart := by rw [newNodes, removedNodes]; exact staged.nodesApart
  edgesApart := by rw [newEdges, removedEdges]; exact staged.edgesApart

theorem Staged.stageNode {s : Store H} {tx : Transaction Cid} (staged : Staged s tx)
    {node : Node Cid} {cid : Cid} (loads : s.Loads cid node) :
    Staged s (tx.stageNode H node cid) where
  nodes id c h := by
    change (tx.newNodes.insert node.id cid).get? id = some c at h
    rw [OrdMap.get?_insert] at h
    split at h
    · cases h
      exact ⟨node, loads, ‹_›⟩
    · exact staged.nodes id c h
  edges := staged.edges
  nodesApart id m := by
    obtain ⟨removed, other⟩ := OrdSet.mem_remove.mp m
    change (tx.newNodes.insert node.id cid).get? id = none
    rw [OrdMap.get?_insert, if_neg (Ne.symm other)]
    exact staged.nodesApart id removed
  edgesApart := staged.edgesApart

theorem Staged.stageEdge {s : Store H} {tx : Transaction Cid} (staged : Staged s tx)
    {edge : Edge Cid} {cid : Cid} (loads : s.Loads cid edge) :
    Staged s (tx.stageEdge edge cid) where
  nodes := staged.nodes
  edges id c h := by
    change (tx.newEdges.insert edge.id cid).get? id = some c at h
    rw [OrdMap.get?_insert] at h
    split at h
    · cases h
      exact ⟨edge, loads, ‹_›⟩
    · exact staged.edges id c h
  nodesApart := staged.nodesApart
  edgesApart id m := by
    obtain ⟨removed, other⟩ := OrdSet.mem_remove.mp m
    change (tx.newEdges.insert edge.id cid).get? id = none
    rw [OrdMap.get?_insert, if_neg (Ne.symm other)]
    exact staged.edgesApart id removed

theorem Staged.unstageNode {s : Store H} {tx : Transaction Cid} (staged : Staged s tx)
    (id : NodeId) : Staged s (tx.unstageNode id) where
  nodes k c h := by
    change (tx.newNodes.erase id).get? k = some c at h
    rw [OrdMap.get?_erase] at h
    split at h
    · cases h
    · exact staged.nodes k c h
  edges := staged.edges
  nodesApart k m := by
    change (tx.newNodes.erase id).get? k = none
    rw [OrdMap.get?_erase]
    rcases OrdSet.mem_add.mp m with rfl | removed
    · exact if_pos rfl
    · rw [staged.nodesApart k removed, ite_self]
  edgesApart := staged.edgesApart

theorem Staged.removeEdges {s : Store H} {tx : Transaction Cid} (staged : Staged s tx)
    (ids : List EdgeId) : Staged s (tx.removeEdges ids) := by
  obtain ⟨newEdges, removedEdges, eq, added, removed⟩ := tx.removeEdges_eq ids
  rw [eq]
  refine ⟨staged.nodes, fun k c h => ?_, staged.nodesApart, fun k m => ?_⟩
  · change newEdges.get? k = some c at h
    rw [added] at h
    split at h
    · cases h
    · exact staged.edges k c h
  · change newEdges.get? k = none
    rw [added]
    rcases (removed k).mp m with inIds | before
    · exact if_pos inIds
    · rw [staged.edgesApart k before, ite_self]

/-- A call keeps the staged maps in order. -/
theorem Staged.change {s s' : Store H} {tx tx' : Transaction Cid} {call : Call Cid} (le : s ≤ s')
    (staged : Staged s tx) (change : Change s s' tx call tx') : Staged s' tx' := by
  have now := staged.mono le
  cases change with
  | node _ loads => exact now.stageNode loads
  | removal id =>
      rw [removeNode_eq]
      exact (now.unstageNode id).removeEdges _
  | edge loads => exact now.stageEdge loads
  | edgeRemoval id => exact now.removeEdges [id]
  | embedding _ => exact now.congr rfl rfl rfl rfl
  | sparse _ => exact now.congr rfl rfl rfl rfl
  | unnamedEmbedding => exact now
  | unnamedSparse => exact now
  | rest _ same => exact now.congr same.newNodes same.removedNodes same.newEdges same.removedEdges

theorem Change.base {s s' : Store H} {tx tx' : Transaction Cid} {call : Call Cid}
    (change : Change s s' tx call tx') : tx'.base = tx.base := by
  cases change with
  | removal id =>
      rw [removeNode_eq, base_removeEdges]
      rfl
  | rest _ same => exact same.base
  | _ => rfl

/-- The invariant rule for runs of calls: what each call keeps, a run keeps. -/
theorem stage_keeps {I : Store H → Transaction Cid → Prop} (calls : List (Call Cid))
    (keep : ∀ s tx call s' tx', call ∈ calls → I s tx → s ≤ s' → Change s s' tx call tx' → I s' tx')
    {s : Store H} {tx : Transaction Cid} (start : I s tx) :
    I (tx.stage s calls).2 (tx.stage s calls).1 := by
  induction calls generalizing s tx with
  | nil => exact start
  | cons call calls ih =>
      have one := keep s tx call _ _ List.mem_cons_self start (le_apply s tx call)
        (apply_change s tx call)
      exact ih (fun s tx c s' tx' m => keep s tx c s' tx' (List.mem_cons_of_mem _ m)) one

theorem Staged.stage {s : Store H} {tx : Transaction Cid} (staged : Staged s tx)
    (calls : List (Call Cid)) : Staged (tx.stage s calls).2 (tx.stage s calls).1 :=
  stage_keeps calls (fun _ _ _ _ _ _ staged le change => staged.change le change) staged

theorem base_stage (s : Store H) (tx : Transaction Cid) (calls : List (Call Cid)) :
    (tx.stage s calls).1.base = tx.base :=
  stage_keeps (I := fun _ tx' => tx'.base = tx.base) calls
    (fun _ _ _ _ _ _ same _ change => change.base.trans same) rfl

/-- The invariant rule for a run of calls beside a fold over them. -/
theorem stage_beside {A : Type} (f : A → Call Cid → A) {I : Transaction Cid → A → Prop}
    (s₀ : Store H) (calls : List (Call Cid))
    (step : ∀ (s : Store H) (tx : Transaction Cid) (a : A) (call : Call Cid), call ∈ calls →
      s₀ ≤ s → Staged s tx → I tx a → I (tx.apply s call).1 (f a call))
    {s : Store H} {tx : Transaction Cid} {a : A} (le : s₀ ≤ s) (staged : Staged s tx)
    (start : I tx a) : I (tx.stage s calls).1 (calls.foldl f a) := by
  induction calls generalizing s tx a with
  | nil => exact start
  | cons call calls ih =>
      exact ih (fun s tx a c m => step s tx a c (List.mem_cons_of_mem _ m))
        (le.trans (le_apply s tx call))
        (staged.change (le_apply s tx call) (apply_change s tx call))
        (step s tx a call List.mem_cons_self le staged start)

end Transaction

end Mnem.Repo
