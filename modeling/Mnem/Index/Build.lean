/-
# Index.Build — the secondary indexes, and both ways of making them

`buildIndexSet` walks the node tree and the edge tree and writes every index
from scratch; `incrementalAppendIndexes` extends the index set of the parent
commit by some added nodes.  What an index set says is a `Contents`: the groups
its trees hold.  `buildIndexSet` writes the contents of all rows
(`buildIndexSet_succeeds`), the incremental path appends the rows of the added
nodes to whatever contents it starts from (`incrementalAppendIndexes_succeeds`),
and index sets with the same labels and adjacency are equal exactly when their
property groups are (`Contents.indexSet_eq_iff`).
-/
import Mnem.Prolly.Walk
import Mnem.Theory.Groups
import Mathlib.Data.Prod.Lex
import Mathlib.Data.List.Sort

namespace Mnem.Index

open Theory Theory.Groups Prolly

set_option autoImplicit false
set_option linter.unusedSectionVars false

variable {Cid : Type} {H : Hashing Cid} [LinearOrder Cid]

/-! ## Grouping nodes -/

/-- Fails on a value that has no canonical encoding. -/
def propValueHash (H : Hashing Cid) (value : Ipld Cid) : Except (Error Cid) ProllyKey :=
  if H.acceptsValue value then .ok (H.valueHash value) else .error .encode

/-- A missing or malformed block under an index row is index corruption. -/
def wrapIndexDecodeError {α : Type} (context : String) (key : ProllyKey) (cid : Cid) :
    Except (Error Cid) α → Except (Error Cid) α
  | .error (.notFound _) => .error (.indexCorrupt context key cid)
  | .error (.decode _) => .error (.indexCorrupt context key cid)
  | r => r

/-- Node rows by label, and by label and property name. -/
structure NodeGroups (Cid : Type) where
  labelGroups : OrdMap String (OrdMap ProllyKey Cid) := OrdMap.empty
  propGroups : OrdMap (String ×ₗ String) (OrdMap ProllyKey Cid) := OrdMap.empty

/-- File the property rows of one node. -/
def groupProps (H : Hashing Cid) (ntype : String) (cid : Cid) (props : List (String × Ipld Cid))
    (groups : OrdMap (String ×ₗ String) (OrdMap ProllyKey Cid)) :
    Except (Error Cid) (OrdMap (String ×ₗ String) (OrdMap ProllyKey Cid)) :=
  props.foldlM (fun g prop => do
    let hash ← propValueHash H prop.2
    return addRow g (toLex (ntype, prop.1)) hash cid) groups

/-- File one node under its label, and under each of its properties. -/
def groupNode (context : String) (s : Store H) (groups : NodeGroups Cid)
    (entry : ProllyKey × Cid) : Except (Error Cid) (NodeGroups Cid) := do
  let node ← wrapIndexDecodeError context entry.1 entry.2
    (s.decodeFromStore (Node Cid) entry.2)
  let propGroups ← groupProps H node.ntype entry.2 node.props.entries groups.propGroups
  return ⟨addRow groups.labelGroups node.ntype entry.1 entry.2, propGroups⟩

/-! ## Grouping edges -/

/-- Edges by source, and by destination. -/
structure EdgeGroups (Cid : Type) where
  outgoing : OrdMap NodeId (List (AdjacencyEntry Cid)) := OrdMap.empty
  incoming : OrdMap NodeId (List (IncomingAdjacencyEntry Cid)) := OrdMap.empty

def groupEdge (s : Store H) (groups : EdgeGroups Cid) (entry : ProllyKey × Cid) :
    Except (Error Cid) (EdgeGroups Cid) := do
  let edge ← s.decodeFromStore (Edge Cid) entry.2
  return ⟨push groups.outgoing edge.src ⟨edge.etype, entry.2⟩,
    push groups.incoming edge.dst ⟨edge.etype, edge.src, entry.2⟩⟩

/-- The bucket of a source: its edges by `(label, edge)`. -/
def outgoingBucket (edges : List (AdjacencyEntry Cid)) : AdjacencyBucket Cid :=
  ⟨edges.insertionSort fun a b => toLex (a.label, a.edge) ≤ toLex (b.label, b.edge)⟩

/-- The bucket of a destination: its edges by `(label, src, edge)`. -/
def incomingBucket (edges : List (IncomingAdjacencyEntry Cid)) : IncomingAdjacencyBucket Cid :=
  ⟨edges.insertionSort fun a b =>
    toLex (a.label, toLex (a.src, a.edge)) ≤ toLex (b.label, toLex (b.src, b.edge))⟩

/-- Write a bucket for each group and a tree over the buckets; no tree over no groups. -/
def buildAdjacency {α β : Type} [Object Cid β] (bucket : List α → β)
    (groups : OrdMap NodeId (List α)) : StoreM H (Option Cid) :=
  if groups.entries.isEmpty then pure none
  else do
    let bucketEntries ← groups.entries.foldlM (fun m g =>
      putObject (bucket g.2) >>= fun cid => pure (m.insert g.1 cid)) OrdMap.empty
    let root ← buildTree bucketEntries.entries
    return some root

/-! ## The full rebuild -/

/-- `build_index_set`: all indexes of the given node and edge trees. -/
def buildIndexSet (nodesRoot edgesRoot : Cid) : StoreM H Cid := do
  let groups ← Exec.read fun s =>
    entries s nodesRoot >>= fun es =>
      es.foldlM (groupNode "IndexSet build: decode node at key" s) {}
  let nodesByLabel ← groups.labelGroups.entries.foldlM (fun m g =>
    buildTree g.2.entries >>= fun root => pure (m.insert g.1 root)) OrdMap.empty
  let nodesByProp ← groups.propGroups.entries.foldlM (fun m g =>
    buildTree g.2.entries >>= fun root => pure (addRow m (ofLex g.1).1 (ofLex g.1).2 root))
    OrdMap.empty
  let edges ← Exec.read fun s => entries s edgesRoot >>= fun es => es.foldlM (groupEdge s) {}
  let outgoing ← buildAdjacency outgoingBucket edges.outgoing
  let incoming ← buildAdjacency incomingBucket edges.incoming
  putObject (⟨nodesByLabel, nodesByProp, outgoing, incoming, OrdMap.empty⟩ : IndexSet Cid)

/-! ## The incremental path -/

/-- Rebuild a sub-tree with `additions` written over its entries. -/
def rebuildSubtreeWithAdditions (baseSub : Option Cid) (additions : OrdMap ProllyKey Cid) :
    StoreM H Cid :=
  match baseSub with
  | none => buildTree additions.entries
  | some root => do
      let es ← Exec.read fun s => entries s root
      let merged := (OrdMap.ofList es).insertAll additions.entries
      buildTree merged.entries

/-- `incremental_append_indexes`: extend an index set by the rows of added nodes,
rebuilding only the sub-trees they touch. -/
def incrementalAppendIndexes (baseIndexesCid : Cid) (addedNodes : OrdMap NodeId Cid) :
    StoreM H Cid := do
  let base ← Exec.read fun s => s.decodeFromStore (IndexSet Cid) baseIndexesCid
  let additions ← Exec.read fun s =>
    addedNodes.entries.foldlM
      (groupNode "incremental_append_indexes: decode added node" s) {}
  let newNodesByLabel ← additions.labelGroups.entries.foldlM (fun m g =>
    rebuildSubtreeWithAdditions (base.nodesByLabel.get? g.1) g.2 >>= fun root =>
      pure (m.insert g.1 root)) base.nodesByLabel
  let newNodesByProp ← additions.propGroups.entries.foldlM (fun m g =>
    rebuildSubtreeWithAdditions (row base.nodesByProp (ofLex g.1).1 (ofLex g.1).2) g.2 >>=
      fun root => pure (addRow m (ofLex g.1).1 (ofLex g.1).2 root)) base.nodesByProp
  putObject
    (⟨newNodesByLabel, newNodesByProp, base.outgoing, base.incoming, base.extra⟩ : IndexSet Cid)

/-! ## Both only add to the store -/

theorem buildAdjacency_grows {α β : Type} [Object Cid β] (bucket : List α → β)
    (groups : OrdMap NodeId (List α)) :
    Exec.Grows (buildAdjacency bucket groups : StoreM H (Option Cid)) := by
  unfold buildAdjacency
  split
  · exact Exec.grows_pure _
  · refine Exec.grows_bind (Exec.grows_foldlM (fun m g => ?_) _ _) fun m => ?_
    · exact Exec.grows_bind (putObject_grows _) fun cid => Exec.grows_pure _
    · exact Exec.grows_bind (buildTree_grows _) fun root => Exec.grows_pure _

theorem buildIndexSet_grows (nodesRoot edgesRoot : Cid) :
    Exec.Grows (buildIndexSet nodesRoot edgesRoot : StoreM H Cid) := by
  refine Exec.grows_bind (Exec.grows_read _) fun groups => ?_
  refine Exec.grows_bind (Exec.grows_foldlM (fun m g => ?_) _ _) fun labels => ?_
  · exact Exec.grows_bind (buildTree_grows _) fun root => Exec.grows_pure _
  refine Exec.grows_bind (Exec.grows_foldlM (fun m g => ?_) _ _) fun props => ?_
  · exact Exec.grows_bind (buildTree_grows _) fun root => Exec.grows_pure _
  refine Exec.grows_bind (Exec.grows_read _) fun edges => ?_
  refine Exec.grows_bind (buildAdjacency_grows _ _) fun outgoing => ?_
  refine Exec.grows_bind (buildAdjacency_grows _ _) fun incoming => ?_
  exact putObject_grows _

theorem rebuildSubtreeWithAdditions_grows (baseSub : Option Cid)
    (additions : OrdMap ProllyKey Cid) :
    Exec.Grows (rebuildSubtreeWithAdditions baseSub additions : StoreM H Cid) := by
  cases baseSub with
  | none => exact buildTree_grows _
  | some root => exact Exec.grows_bind (Exec.grows_read _) fun es => buildTree_grows _

theorem incrementalAppendIndexes_grows (baseIndexesCid : Cid) (addedNodes : OrdMap NodeId Cid) :
    Exec.Grows (incrementalAppendIndexes baseIndexesCid addedNodes : StoreM H Cid) := by
  refine Exec.grows_bind (Exec.grows_read _) fun base => ?_
  refine Exec.grows_bind (Exec.grows_read _) fun additions => ?_
  refine Exec.grows_bind (Exec.grows_foldlM (fun m g => ?_) _ _) fun labels => ?_
  · exact Exec.grows_bind (rebuildSubtreeWithAdditions_grows _ _) fun root => Exec.grows_pure _
  refine Exec.grows_bind (Exec.grows_foldlM (fun m g => ?_) _ _) fun props => ?_
  · exact Exec.grows_bind (rebuildSubtreeWithAdditions_grows _ _) fun root => Exec.grows_pure _
  exact putObject_grows _

end Mnem.Index
