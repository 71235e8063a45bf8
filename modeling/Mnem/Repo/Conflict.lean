/-
# Repo.Conflict — structured conflicts of a three-way merge

The detector walks the trees of two commits and of their common ancestor and
records every point at which the two sides cannot be unioned.  Nodes compare by
id.  Edges are filed again under `(src, dst, etype)` and compare by their
properties, so of parallel edges only the last in id order is seen.  The
tombstones of a side are those that the operation of its commit added; the
operation is searched for from the operation heads.
-/
import Mnem.Repo.Lca
import Mnem.Repo.OpHeads

namespace Mnem.Repo

open Theory Prolly Index

set_option autoImplicit false
set_option linter.unusedSectionVars false

variable {Cid : Type} {H : Hashing Cid} [LinearOrder Cid]

/-! ## Conflict records -/

/-- `MERGE_CONFLICTS_SCHEMA`. -/
def mergeConflictsSchema : String := "mnem.v1.merge_conflicts"

inductive ConflictCategory where
  | nodeCidDivergence
  | edgePropCollision
  | tombstoneVsModify
  deriving DecidableEq

/-- The category as a number. -/
def ConflictCategory.rank : ConflictCategory → Nat
  | .nodeCidDivergence => 0
  | .edgePropCollision => 1
  | .tombstoneVsModify => 2

/-- `(src, dst, etype)`, in this order. -/
abbrev EdgeKey := NodeId ×ₗ NodeId ×ₗ String

def edgeKeyOf (edge : Edge Cid) : EdgeKey := toLex (edge.src, toLex (edge.dst, edge.etype))

/-- What a side of a conflict holds. -/
inductive Payload (Cid : Type) where
  | nodeCid (cid : Cid)
  | tombstoned
  | props (props : Props Cid)

inductive Side where
  | left
  | right
  deriving DecidableEq

/-- A proposed resolution. -/
inductive Suggestion (Cid : Type) where
  | tombstone (id : NodeId)
  | branchHeadCidLex (winner : Side) (props : Props Cid)

structure Conflict (Cid : Type) where
  nodeId : Option NodeId
  edgeKey : Option EdgeKey
  category : ConflictCategory
  left : Payload Cid
  right : Payload Cid
  base : Option (Payload Cid)
  suggested : Option (Suggestion Cid)
  resolution : Option String := none

structure MergeConflicts (Cid : Type) where
  schema : String
  leftHead : Cid
  rightHead : Cid
  lca : Option Cid
  conflicts : List (Conflict Cid)

inductive PropTiebreak where
  | branchHeadCidLex
  deriving DecidableEq

structure ConflictPolicy where
  tombstoneWins : Bool := true
  edgePropTiebreak : PropTiebreak := .branchHeadCidLex

/-- The order of the record: nodes before edges, then by key, then by category. -/
def Conflict.order (c : Conflict Cid) : Bool ×ₗ WithBot NodeId ×ₗ WithBot EdgeKey ×ₗ Nat :=
  toLex (c.edgeKey.isSome, toLex (c.nodeId, toLex (c.edgeKey, c.category.rank)))

def sortConflicts (conflicts : List (Conflict Cid)) : List (Conflict Cid) :=
  conflicts.insertionSort fun a b => a.order ≤ b.order

/-! ## Collecting the trees -/

/-- All entries of a tree. -/
def collectProlly (s : Store H) (root : Cid) : Except (Error Cid) (OrdMap ProllyKey Cid) :=
  OrdMap.ofList <$> entries s root

/-- The properties of all edges of a tree, filed under their triples. -/
def collectEdges (s : Store H) (root : Cid) : Except (Error Cid) (OrdMap EdgeKey (Props Cid)) := do
  let es ← entries s root
  es.foldlM (fun out e => do
    let edge ← s.decodeFromStore (Edge Cid) e.2
    return out.insert (edgeKeyOf edge) edge.props) OrdMap.empty

/-- The keys that either of two maps has. -/
def allKeys {K V : Type} [LinearOrder K] (left right : OrdMap K V) : OrdSet K :=
  (left.keys ++ right.keys).foldl OrdSet.add OrdMap.empty

/-- The derived equality of property maps. -/
def propsEq (a b : Props Cid) : Bool := Ipld.eqMap a.entries b.entries

/-! ## Tombstones of a commit -/

/-- The tombstones of a view, as a set. -/
def tombstoneSet (view : View Cid) : OrdSet NodeId := view.tombstones.mapValues fun _ => ()

/-- The tombstones that an operation's view has and no parent's view has. -/
def tombstoneDelta (s : Store H) (op : Operation Cid) (view : View Cid) :
    Except (Error Cid) (OrdSet NodeId) := do
  let parents ← op.parents.foldlM (fun (ts : OrdSet NodeId) parent => do
    let parentOp ← s.decodeFromStore (Operation Cid) parent
    let parentView ← s.decodeFromStore (View Cid) parentOp.view
    return ts.insertAll (tombstoneSet parentView).entries) OrdMap.empty
  return (tombstoneSet view).filterKeys fun id => id ∉ parents

/-- Stop at an operation whose view has the commit as a head, or go on to its parents. -/
def visitOperation (s : Store H) (commit cid : Cid) :
    Except (Error Cid) (OrdSet NodeId ⊕ List Cid) := do
  let op ← s.decodeFromStore (Operation Cid) cid
  let view ← s.decodeFromStore (View Cid) op.view
  if commit ∈ view.heads then return .inl (← tombstoneDelta s op view)
  else return .inr op.parents

/-- The tombstones added by the operation that made `commit`; none when it is not found. -/
def tombstonesForCommit (w : World H) (commit : Cid) : Except (Error Cid) (OrdSet NodeId) := do
  let startHeads := OpHeads.current w.opHeads
  match ← Reach.search (visitOperation w.store commit) .diverged
      (startHeads.length + walkBound w.store) OrdMap.empty startHeads.reverse with
  | .inl delta => return delta
  | .inr _ => return OrdMap.empty

/-! ## Detection -/

def tombstoneSuggestion (policy : ConflictPolicy) (id : NodeId) : Option (Suggestion Cid) :=
  if policy.tombstoneWins then some (.tombstone id) else none

/-- The conflict at a node key, given what each side and the base have there and whether
a side tombstoned the node. -/
def nodeConflict (policy : ConflictPolicy) (id : NodeId) (leftTomb rightTomb : Bool)
    (l r base : Option Cid) : Option (Conflict Cid) :=
  let rightModified := r.isSome && r != base
  let leftModified := l.isSome && l != base
  if leftTomb && rightModified && !rightTomb then
    some { nodeId := some id, edgeKey := none, category := .tombstoneVsModify, left := .tombstoned,
           right := r.elim .tombstoned .nodeCid, base := base.map .nodeCid,
           suggested := tombstoneSuggestion policy id }
  else if rightTomb && leftModified && !leftTomb then
    some { nodeId := some id, edgeKey := none, category := .tombstoneVsModify,
           left := l.elim .tombstoned .nodeCid, right := .tombstoned, base := base.map .nodeCid,
           suggested := tombstoneSuggestion policy id }
  else
    match l, r with
    | some lc, some rc =>
        -- a side that kept the base's CID has not changed
        if lc ≠ rc ∧ base ≠ some lc ∧ base ≠ some rc then
          some { nodeId := some id, edgeKey := none, category := .nodeCidDivergence,
                 left := .nodeCid lc, right := .nodeCid rc, base := base.map .nodeCid,
                 suggested := none }
        else none
    | _, _ => none

/-- The conflict at an edge key. -/
def edgeConflict (leftWinsLex : Bool) (key : EdgeKey) (l r base : Option (Props Cid)) :
    Option (Conflict Cid) :=
  match l, r with
  | some lp, some rp =>
      if propsEq lp rp then none
      else if !(base.all (fun b => !propsEq b lp) && base.all fun b => !propsEq b rp) then none
      else
        some { nodeId := none, edgeKey := some key, category := .edgePropCollision,
               left := .props lp, right := .props rp, base := base.map .props,
               suggested := some (if leftWinsLex then .branchHeadCidLex .left lp
                 else .branchHeadCidLex .right rp) }
  | _, _ => none

/-- The conflicts of the nodes, in key order. -/
def nodeConflicts (policy : ConflictPolicy) (leftTombs rightTombs : OrdSet NodeId)
    (left right base : OrdMap ProllyKey Cid) : List (Conflict Cid) :=
  (allKeys left right).keys.filterMap fun key =>
    nodeConflict policy key (leftTombs.contains key) (rightTombs.contains key) (left.get? key)
      (right.get? key) (base.get? key)

def edgeConflicts (leftWinsLex : Bool) (left right base : OrdMap EdgeKey (Props Cid)) :
    List (Conflict Cid) :=
  (allKeys left right).keys.filterMap fun key =>
    edgeConflict leftWinsLex key (left.get? key) (right.get? key) (base.get? key)

/-- Collect a tree of the common ancestor, nothing when there is none. -/
def collectLca {β : Type} (collect : Cid → Except (Error Cid) β) (none : β)
    (root : Option Cid) : Except (Error Cid) β := root.elim (.ok none) collect

def detectConflictsWithPolicy (w : World H) (left right : Cid) (lca : Option Cid)
    (policy : ConflictPolicy) : Except (Error Cid) (MergeConflicts Cid) := do
  let s := w.store
  let leftCommit ← s.decodeFromStore (Commit Cid) left
  let rightCommit ← s.decodeFromStore (Commit Cid) right
  let lcaCommit ← (lca.elim (.ok none) fun cid => some <$> s.decodeFromStore (Commit Cid) cid :
    Except (Error Cid) (Option (Commit Cid)))
  let leftTombs ← tombstonesForCommit w left
  let rightTombs ← tombstonesForCommit w right
  let leftNodes ← collectProlly s leftCommit.nodes
  let rightNodes ← collectProlly s rightCommit.nodes
  let lcaNodes ← collectLca (collectProlly s) OrdMap.empty (lcaCommit.map Commit.nodes)
  let leftEdges ← collectEdges s leftCommit.edges
  let rightEdges ← collectEdges s rightCommit.edges
  let lcaEdges ← collectLca (collectEdges s) OrdMap.empty (lcaCommit.map Commit.edges)
  let leftWinsLex := match policy.edgePropTiebreak with
    | .branchHeadCidLex => decide (left < right)
  return { schema := mergeConflictsSchema, leftHead := left, rightHead := right, lca := lca,
           conflicts := sortConflicts
             (nodeConflicts policy leftTombs rightTombs leftNodes rightNodes lcaNodes ++
               edgeConflicts leftWinsLex leftEdges rightEdges lcaEdges) }

/-! ## Detection with views -/

/-- Turn a node's entry into tombstone-versus-modify when one side's view has a tombstone. -/
def upgrade (policy : ConflictPolicy) (leftTs rightTs : OrdSet NodeId) (c : Conflict Cid) :
    Conflict Cid :=
  match c.nodeId with
  | none => c
  | some id =>
      if leftTs.contains id != rightTs.contains id then
        { c with
          category := .tombstoneVsModify
          left := if leftTs.contains id then .tombstoned else c.left
          right := if rightTs.contains id then .tombstoned else c.right
          suggested := if policy.tombstoneWins then some (.tombstone id) else c.suggested }
      else c

/-- The entry for a tombstoned node that both trees still have. -/
def emitFor (policy : ConflictPolicy) (left right : OrdMap ProllyKey Cid) (tombstoned : Side)
    (id : NodeId) : Option (Conflict Cid) :=
  match left.get? id, right.get? id with
  | some ln, some rn =>
      some { nodeId := some id, edgeKey := none, category := .tombstoneVsModify,
             left := if tombstoned = .left then .tombstoned else .nodeCid ln,
             right := if tombstoned = .left then .nodeCid rn else .tombstoned,
             base := none, suggested := tombstoneSuggestion policy id }
  | _, _ => none

/-- Add the entries of the tombstoned nodes that have none yet. -/
def emitAll (policy : ConflictPolicy) (left right : OrdMap ProllyKey Cid) (tombstoned : Side)
    (conflicts : List (Conflict Cid)) (ids : List NodeId) : List (Conflict Cid) :=
  ids.foldl (fun conflicts id =>
    if conflicts.any fun c => c.nodeId = some id then conflicts
    else conflicts ++ (emitFor policy left right tombstoned id).toList) conflicts

def detectConflictsWithViews (w : World H) (left right : Cid) (lca : Option Cid)
    (leftView rightView : View Cid) (policy : ConflictPolicy) :
    Except (Error Cid) (MergeConflicts Cid) := do
  let mc ← detectConflictsWithPolicy w left right lca policy
  let leftTs := tombstoneSet leftView
  let rightTs := tombstoneSet rightView
  let upgraded := mc.conflicts.map (upgrade policy leftTs rightTs)
  let leftCommit ← w.store.decodeFromStore (Commit Cid) left
  let rightCommit ← w.store.decodeFromStore (Commit Cid) right
  let leftNodes ← collectProlly w.store leftCommit.nodes
  let rightNodes ← collectProlly w.store rightCommit.nodes
  let withLeft := emitAll policy leftNodes rightNodes .left upgraded leftTs.keys
  let withRight := emitAll policy leftNodes rightNodes .right withLeft rightTs.keys
  return { mc with conflicts := sortConflicts withRight }

/-! ## What is collected -/

section Collect

variable {s : Store H}

theorem mem_allKeys {K V : Type} [LinearOrder K] {left right : OrdMap K V} {k : K} :
    k ∈ (allKeys left right).keys ↔ (left.get? k).isSome ∨ (right.get? k).isSome := by
  rw [OrdSet.mem_keys, allKeys, OrdSet.mem_addAll, List.mem_append, OrdMap.mem_keys_iff,
    OrdMap.mem_keys_iff]
  simp

theorem collectProlly_of_isTree {root : Cid} {m : OrdMap ProllyKey Cid} (tree : IsTree s root m) :
    collectProlly s root = .ok m := by
  rw [collectProlly, entries_of_isTree tree]
  change Except.ok (OrdMap.ofList m.entries) = _
  rw [OrdMap.ofList_entries]

/-- What the detector keeps of some edges: for each triple the properties of the last. -/
def edgeProps (rows : List (Row Cid (Edge Cid))) : OrdMap EdgeKey (Props Cid) :=
  OrdMap.ofList (rows.map fun r => (edgeKeyOf r.object, r.object.props))

theorem collectEdges_of_isTree {root : Cid} {m : OrdMap ProllyKey Cid}
    {rows : List (Row Cid (Edge Cid))} (tree : IsTree s root m)
    (reads : ReadsRows s m.entries rows) : collectEdges s root = .ok (edgeProps rows) := by
  have loop : ∀ (rows : List (Row Cid (Edge Cid))) (out : OrdMap EdgeKey (Props Cid)),
      (∀ r ∈ rows, s.Loads r.cid r.object) →
      (rows.map Row.entry).foldlM (fun out e => (do
        let edge ← s.decodeFromStore (Edge Cid) e.2
        return out.insert (edgeKeyOf edge) edge.props : Except (Error Cid) _)) out =
        .ok (out.insertAll (rows.map fun r => (edgeKeyOf r.object, r.object.props))) := by
    intro rows
    induction rows with
    | nil => exact fun _ _ => rfl
    | cons r rows ih =>
        intro out loads
        have decoded : s.decodeFromStore (Edge Cid) r.cid = .ok r.object :=
          loads r List.mem_cons_self
        rw [List.map_cons, List.foldlM_cons]
        change (s.decodeFromStore (Edge Cid) r.cid >>= _) >>= _ = _
        rw [decoded]
        exact ih _ fun x m => loads x (List.mem_cons_of_mem _ m)
  rw [collectEdges, entries_of_isTree tree]
  change m.entries.foldlM _ _ = _
  rw [← reads.entries]
  exact loop rows OrdMap.empty reads.loads

/-- Collecting the edges decodes all of them. -/
theorem rows_of_collectEdges {root : Cid} {m : OrdMap ProllyKey Cid}
    {out : OrdMap EdgeKey (Props Cid)} (tree : IsTree s root m)
    (ran : collectEdges s root = .ok out) :
    ∃ rows : List (Row Cid (Edge Cid)), ReadsRows s m.entries rows ∧ out = edgeProps rows := by
  have decoded : ∀ (es : List (ProllyKey × Cid)) (start out : OrdMap EdgeKey (Props Cid)),
      es.foldlM (fun out e => (do
        let edge ← s.decodeFromStore (Edge Cid) e.2
        return out.insert (edgeKeyOf edge) edge.props : Except (Error Cid) _)) start = .ok out →
        ∀ e ∈ es, ∃ edge : Edge Cid, s.Loads e.2 edge := by
    intro es
    induction es with
    | nil => exact fun _ _ _ => nofun
    | cons e es ih =>
        intro start out ran x m
        rw [List.foldlM_cons] at ran
        obtain ⟨next, first, rest⟩ := Exec.bind_eq_ok.mp ran
        obtain ⟨edge, loads, -⟩ := Exec.bind_eq_ok.mp first
        rcases List.mem_cons.mp m with rfl | later
        · exact ⟨edge, loads⟩
        · exact ih next out rest x later
  have folded := ran
  rw [collectEdges, entries_of_isTree tree] at folded
  obtain ⟨rows, reads⟩ := exists_rows (decoded m.entries OrdMap.empty out folded)
  rw [collectEdges_of_isTree tree reads] at ran
  exact ⟨rows, reads, (Except.ok.inj ran).symm⟩

/-- The last edge of a triple, in the order of edge ids. -/
structure LastWith (s : Store H) (m : OrdMap ProllyKey Cid) (key : EdgeKey) (k : ProllyKey)
    (e : Edge Cid) : Prop where
  filed : ∃ cid, m.get? k = some cid ∧ s.Loads cid e
  triple : edgeKeyOf e = key
  last : ∀ k' cid' (e' : Edge Cid), m.get? k' = some cid' → s.Loads cid' e' →
    edgeKeyOf e' = key → k' ≤ k

/-- The properties kept for a triple are those of its last edge. -/
theorem get?_edgeProps {m : OrdMap ProllyKey Cid} {rows : List (Row Cid (Edge Cid))}
    (reads : ReadsRows s m.entries rows) {key : EdgeKey} {p : Props Cid} :
    (edgeProps rows).get? key = some p ↔ ∃ k e, LastWith s m key k e ∧ e.props = p := by
  have row : ∀ {k cid} {e : Edge Cid}, m.get? k = some cid → s.Loads cid e →
      (⟨k, cid, e⟩ : Row Cid (Edge Cid)) ∈ rows := fun found loads =>
    reads.mem_iff.mpr ⟨m.get?_eq_some_iff.mp found, loads⟩
  have ascending : rows.Pairwise fun a b => a.key < b.key := by
    have asc := m.ascending
    rw [← reads.entries] at asc
    have byEntry := List.pairwise_map.mp asc
    exact byEntry
  rw [edgeProps, OrdMap.get?_ofList, Entries.get?_reverse_eq_some_iff]
  constructor
  · rintro ⟨before, after, split, last⟩
    obtain ⟨pre, rest, shape, -, tail⟩ := List.map_eq_append_iff.mp split
    obtain ⟨r, post, rfl, here, rfl⟩ := List.map_eq_cons_iff.mp tail
    obtain ⟨triple, props⟩ := Prod.mk.inj here
    have inRows : r ∈ rows := shape ▸ List.mem_append_right _ List.mem_cons_self
    obtain ⟨inTree, loads⟩ := reads.mem_iff.mp inRows
    refine ⟨r.key, r.object, ⟨⟨r.cid, m.get?_eq_some_iff.mpr inTree, loads⟩, triple, ?_⟩, props⟩
    intro k' cid' e' found' loads' triple'
    rw [shape] at ascending
    have member := row found' loads'
    rw [shape] at member
    rcases List.mem_append.mp member with earlier | later
    · exact le_of_lt ((List.pairwise_append.mp ascending).2.2 _ earlier _ List.mem_cons_self)
    · rcases List.mem_cons.mp later with same | inPost
      · exact le_of_eq (congrArg Row.key same)
      · exact absurd triple' (last _ (List.mem_map_of_mem inPost))
  · rintro ⟨k, e, ⟨⟨cid, found, loads⟩, triple, last⟩, rfl⟩
    obtain ⟨pre, post, shape⟩ := List.append_of_mem (row found loads)
    refine ⟨pre.map fun r => (edgeKeyOf r.object, r.object.props),
      post.map fun r => (edgeKeyOf r.object, r.object.props), ?_, ?_⟩
    · rw [shape, List.map_append, List.map_cons, triple]
    · intro x inMap same
      obtain ⟨r, inPost, rfl⟩ := List.mem_map.mp inMap
      have inRows : r ∈ rows := by
        rw [shape]
        exact List.mem_append_right _ (List.mem_cons_of_mem _ inPost)
      obtain ⟨inTree, loads'⟩ := reads.mem_iff.mp inRows
      have below := last _ _ _ (m.get?_eq_some_iff.mpr inTree) loads' same
      rw [shape] at ascending
      have above := (List.pairwise_cons.mp (List.pairwise_append.mp ascending).2.1).1 r inPost
      exact absurd below (not_le.mpr above)

end Collect

/-! ## What the detector reports -/

section Detect

variable {s : Store H}

/-- Without operation heads no tombstone is found. -/
theorem tombstonesForCommit_of_no_heads (commit : Cid) :
    tombstonesForCommit ({ store := s } : World H) commit = .ok OrdMap.empty := by
  unfold tombstonesForCommit
  have none : (OpHeads.current ({ store := s } : World H).opHeads).reverse = [] := rfl
  simp only [none, Reach.search_nil]
  rfl

/-- The trees of the two sides and of the base, as the detector collects them. -/
structure Sides (Cid : Type) where
  leftNodes : OrdMap ProllyKey Cid
  rightNodes : OrdMap ProllyKey Cid
  baseNodes : OrdMap ProllyKey Cid
  leftEdges : OrdMap EdgeKey (Props Cid)
  rightEdges : OrdMap EdgeKey (Props Cid)
  baseEdges : OrdMap EdgeKey (Props Cid)

structure ReadsSides (s : Store H) (left right base : Commit Cid) (sides : Sides Cid) : Prop where
  leftNodes : collectProlly s left.nodes = .ok sides.leftNodes
  rightNodes : collectProlly s right.nodes = .ok sides.rightNodes
  baseNodes : collectProlly s base.nodes = .ok sides.baseNodes
  leftEdges : collectEdges s left.edges = .ok sides.leftEdges
  rightEdges : collectEdges s right.edges = .ok sides.rightEdges
  baseEdges : collectEdges s base.edges = .ok sides.baseEdges

/-- What the detector finds when there are no tombstones. -/
def foundConflicts (policy : ConflictPolicy) (left right : Cid) (sides : Sides Cid) :
    List (Conflict Cid) :=
  nodeConflicts policy OrdMap.empty OrdMap.empty sides.leftNodes sides.rightNodes
      sides.baseNodes ++
    edgeConflicts (decide (left < right)) sides.leftEdges sides.rightEdges sides.baseEdges

/-- The record of a detection without tombstones. -/
def recordOf (policy : ConflictPolicy) (left right lca : Cid) (sides : Sides Cid) :
    MergeConflicts Cid where
  schema := mergeConflictsSchema
  leftHead := left
  rightHead := right
  lca := some lca
  conflicts := sortConflicts (foundConflicts policy left right sides)

variable {left right lca : Cid} {policy : ConflictPolicy}

theorem detectConflictsWithPolicy_eq_ok {mc : MergeConflicts Cid} :
    detectConflictsWithPolicy ({ store := s } : World H) left right (some lca) policy = .ok mc ↔
      ∃ (l r b : Commit Cid) (sides : Sides Cid), s.Loads left l ∧ s.Loads right r ∧
        s.Loads lca b ∧ ReadsSides s l r b sides ∧ mc = recordOf policy left right lca sides := by
  unfold detectConflictsWithPolicy
  simp only [Exec.bind_eq_ok, tombstonesForCommit_of_no_heads, Option.elim_some,
    Exec.map_eq_ok]
  constructor
  · rintro ⟨l, leftLoads, r, rightLoads, _, ⟨b, lcaLoads, rfl⟩, _, ⟨⟩, _, ⟨⟩, ln, leftNodes, rn,
      rightNodes, bn, baseNodes, le, leftEdges, re, rightEdges, be, baseEdges, done⟩
    exact ⟨l, r, b, ⟨ln, rn, bn, le, re, be⟩, leftLoads, rightLoads, lcaLoads,
      ⟨leftNodes, rightNodes, baseNodes, leftEdges, rightEdges, baseEdges⟩,
      (Except.ok.inj done).symm⟩
  · rintro ⟨l, r, b, sides, leftLoads, rightLoads, lcaLoads, reads, rfl⟩
    exact ⟨l, leftLoads, r, rightLoads, _, ⟨b, lcaLoads, rfl⟩, _, rfl, _, rfl, _, reads.leftNodes,
      _, reads.rightNodes, _, reads.baseNodes, _, reads.leftEdges, _, reads.rightEdges, _,
      reads.baseEdges, rfl⟩

/-! ### With empty views -/

theorem sortConflicts_sorted (conflicts : List (Conflict Cid)) :
    sortConflicts (sortConflicts conflicts) = sortConflicts conflicts := by
  have total : Std.Total fun a b : Conflict Cid => a.order ≤ b.order :=
    ⟨fun a b => le_total a.order b.order⟩
  have trans : IsTrans (Conflict Cid) fun a b => a.order ≤ b.order :=
    ⟨fun _ _ _ => le_trans⟩
  exact (List.pairwise_insertionSort _ conflicts).insertionSort_eq

theorem mem_sortConflicts {conflicts : List (Conflict Cid)} {c : Conflict Cid} :
    c ∈ sortConflicts conflicts ↔ c ∈ conflicts := List.mem_insertionSort _

/-- A view without tombstones upgrades nothing. -/
theorem upgrade_empty (c : Conflict Cid) : upgrade policy OrdMap.empty OrdMap.empty c = c := by
  unfold upgrade
  split <;> rfl

/-- What is found with empty views: the record without tombstones. -/
theorem detectConflictsWithViews_eq_ok {mc : MergeConflicts Cid} :
    detectConflictsWithViews ({ store := s } : World H) left right (some lca) {} {} policy =
        .ok mc ↔
      ∃ (l r b : Commit Cid) (sides : Sides Cid), s.Loads left l ∧ s.Loads right r ∧
        s.Loads lca b ∧ ReadsSides s l r b sides ∧ mc = recordOf policy left right lca sides := by
  have views : ∀ (mc : MergeConflicts Cid) (ln rn : OrdMap ProllyKey Cid),
      emitAll policy ln rn .right (emitAll policy ln rn .left
        (mc.conflicts.map (upgrade policy (tombstoneSet {}) (tombstoneSet {})))
          (tombstoneSet ({} : View Cid)).keys) (tombstoneSet ({} : View Cid)).keys =
        mc.conflicts := fun mc _ _ => by
    have same : upgrade policy (tombstoneSet ({} : View Cid)) (tombstoneSet ({} : View Cid)) =
        (id : Conflict Cid → Conflict Cid) := funext upgrade_empty
    rw [same, List.map_id]
    rfl
  have sorted : ∀ sides : Sides Cid, { recordOf policy left right lca sides with
      conflicts := sortConflicts (recordOf policy left right lca sides).conflicts } =
      recordOf policy left right lca sides := fun sides => by
    rw [recordOf, sortConflicts_sorted]
  unfold detectConflictsWithViews
  simp only [Exec.bind_eq_ok, detectConflictsWithPolicy_eq_ok, views]
  constructor
  · rintro ⟨_, ⟨l, r, b, sides, leftLoads, rightLoads, lcaLoads, reads, rfl⟩, _, _, _, _, _, _, _,
      _, done⟩
    rw [sorted] at done
    exact ⟨l, r, b, sides, leftLoads, rightLoads, lcaLoads, reads, (Except.ok.inj done).symm⟩
  · rintro ⟨l, r, b, sides, leftLoads, rightLoads, lcaLoads, reads, rfl⟩
    refine ⟨_, ⟨l, r, b, sides, leftLoads, rightLoads, lcaLoads, reads, rfl⟩, _, leftLoads, _,
      rightLoads, _, reads.leftNodes, _, reads.rightNodes, ?_⟩
    rw [sorted]
    rfl

/-! ### The entries -/

/-- Both sides have the node, differ, and neither kept what the base has. -/
def NodeDiverges (l r base : Option Cid) : Prop :=
  ∃ lc rc, l = some lc ∧ r = some rc ∧ lc ≠ rc ∧ base ≠ some lc ∧ base ≠ some rc

/-- Both sides have the edge, with other properties than each other and than the base. -/
def EdgeCollides (l r base : Option (Props Cid)) : Prop :=
  ∃ lp rp, l = some lp ∧ r = some rp ∧ propsEq lp rp = false ∧
    ∀ b, base = some b → propsEq b lp = false ∧ propsEq b rp = false

/-- Without tombstones a node's entry is a divergence. -/
theorem nodeConflict_eq_some {id : NodeId} {l r base : Option Cid} {c : Conflict Cid}
    (found : nodeConflict policy id false false l r base = some c) :
    c.category = .nodeCidDivergence ∧ c.nodeId = some id ∧ NodeDiverges l r base := by
  simp only [nodeConflict, Bool.false_and, Bool.false_eq_true, if_false] at found
  split at found
  · split at found
    · rename_i lc rc diverges
      cases found
      exact ⟨rfl, rfl, lc, rc, rfl, rfl, diverges⟩
    · cases found
  · cases found

theorem nodeConflict_eq_none {id : NodeId} {l r base : Option Cid} :
    nodeConflict policy id false false l r base = none ↔ ¬ NodeDiverges l r base := by
  constructor
  · rintro absent ⟨lc, rc, rfl, rfl, diverges⟩
    simp only [nodeConflict, Bool.false_and, Bool.false_eq_true, if_false] at absent
    rw [if_pos diverges] at absent
    cases absent
  · intro agrees
    cases found : nodeConflict policy id false false l r base with
    | none => rfl
    | some c => exact absurd (nodeConflict_eq_some found).2.2 agrees

theorem edgeConflict_eq_some {leftWinsLex : Bool} {key : EdgeKey} {l r base : Option (Props Cid)}
    {c : Conflict Cid} (found : edgeConflict leftWinsLex key l r base = some c) :
    c.category = .edgePropCollision ∧ c.nodeId = none ∧ EdgeCollides l r base := by
  unfold edgeConflict at found
  split at found
  · rename_i lp rp
    split at found
    · cases found
    · rename_i differ
      split at found
      · cases found
      · rename_i changed
        cases found
        refine ⟨rfl, rfl, lp, rp, rfl, rfl, by simpa using differ, ?_⟩
        rintro b rfl
        simpa using changed
  · cases found

theorem edgeConflict_eq_none {leftWinsLex : Bool} {key : EdgeKey}
    {l r base : Option (Props Cid)} :
    edgeConflict leftWinsLex key l r base = none ↔ ¬ EdgeCollides l r base := by
  constructor
  · rintro absent ⟨lp, rp, rfl, rfl, differ, changed⟩
    unfold edgeConflict at absent
    dsimp only at absent
    rw [if_neg (by simp [differ]), if_neg] at absent
    · cases absent
    · cases base with
      | none => simp
      | some b => simp [changed b rfl]
  · intro agrees
    cases found : edgeConflict leftWinsLex key l r base with
    | none => rfl
    | some c => exact absurd (edgeConflict_eq_some found).2.2 agrees

/-- No entry is about a tombstone. -/
theorem category_of_mem_found {sides : Sides Cid} {c : Conflict Cid}
    (member : c ∈ foundConflicts policy left right sides) : c.category ≠ .tombstoneVsModify := by
  rcases List.mem_append.mp member with atNode | atEdge
  · obtain ⟨key, -, found⟩ := List.mem_filterMap.mp atNode
    rw [(nodeConflict_eq_some found).1]
    decide
  · obtain ⟨key, -, found⟩ := List.mem_filterMap.mp atEdge
    rw [(edgeConflict_eq_some found).1]
    decide

/-- Nothing is found when no node diverges and no triple collides. -/
theorem foundConflicts_eq_nil {sides : Sides Cid} :
    foundConflicts policy left right sides = [] ↔
      (∀ k, ¬ NodeDiverges (sides.leftNodes.get? k) (sides.rightNodes.get? k)
        (sides.baseNodes.get? k)) ∧
      ∀ key, ¬ EdgeCollides (sides.leftEdges.get? key) (sides.rightEdges.get? key)
        (sides.baseEdges.get? key) := by
  have nodes : nodeConflicts policy OrdMap.empty OrdMap.empty sides.leftNodes sides.rightNodes
      sides.baseNodes = [] ↔ ∀ k, ¬ NodeDiverges (sides.leftNodes.get? k)
        (sides.rightNodes.get? k) (sides.baseNodes.get? k) := by
    refine List.filterMap_eq_nil_iff.trans ⟨fun all k diverges => ?_, fun none k _ => ?_⟩
    · have present : k ∈ (allKeys sides.leftNodes sides.rightNodes).keys := by
        obtain ⟨lc, rc, atLeft, -⟩ := diverges
        exact mem_allKeys.mpr (.inl (by rw [atLeft]; rfl))
      exact nodeConflict_eq_none.mp (all k present) diverges
    · exact nodeConflict_eq_none.mpr (none k)
  have edges : edgeConflicts (decide (left < right)) sides.leftEdges sides.rightEdges
      sides.baseEdges = [] ↔ ∀ key, ¬ EdgeCollides (sides.leftEdges.get? key)
        (sides.rightEdges.get? key) (sides.baseEdges.get? key) := by
    refine List.filterMap_eq_nil_iff.trans ⟨fun all key collides => ?_, fun none key _ => ?_⟩
    · have present : key ∈ (allKeys sides.leftEdges sides.rightEdges).keys := by
        obtain ⟨lp, rp, atLeft, -⟩ := collides
        exact mem_allKeys.mpr (.inl (by rw [atLeft]; rfl))
      exact edgeConflict_eq_none.mp (all key present) collides
    · exact edgeConflict_eq_none.mpr (none key)
  rw [foundConflicts, List.append_eq_nil_iff, nodes, edges]

end Detect

end Mnem.Repo
