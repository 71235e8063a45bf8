/-
# Repo.AppendIndexes — the incremental index path of a commit

A commit that only adds nodes with new ids extends the index set of its base
where any other commit rebuilds it.  Labels and adjacency come out the same.
Property rows do where the added nodes come last: `append_is_rebuild_iff` says
when the two index sets are one.
-/
import Mnem.Repo.Session
import Mnem.Addressing

namespace Mnem.Repo

open Theory Theory.Groups Prolly Index

set_option autoImplicit false
set_option linter.unusedSectionVars false

variable {Cid : Type} {H : Hashing Cid} [LinearOrder Cid]

/-! ## Holders of a property row -/

/-- The node filed under the id competes for the property row. -/
def HolderAt (s : Store H) (nodes : NodeId → Option Cid) (label name : String) (hash : ProllyKey)
    (id : NodeId) : Prop :=
  ∃ cid node, nodes id = some cid ∧ s.Loads cid node ∧ HasProp H label name hash node

/-- The row that an index set has for a property value. -/
def propRow (s : Store H) (indexes : IndexSet Cid) (label name : String) (hash : ProllyKey) :
    Option Cid :=
  (row indexes.nodesByProp label name).bind fun root =>
    match lookup s root hash with
    | .ok found => found
    | .error _ => none

/-- The added nodes come last: below each holder of a row that a node is added to there is an
added holder above; and a row that no node is added to names its greatest holder. -/
structure AddsLast (s : Store H) (base added : NodeId → Option Cid) (indexes : IndexSet Cid) :
    Prop where
  above : ∀ label name hash b a, HolderAt s base label name hash b →
    HolderAt s added label name hash a → ∃ a', HolderAt s added label name hash a' ∧ b < a'
  greatest : ∀ label name hash b, (∀ a, ¬ HolderAt s added label name hash a) →
    HolderAt s base label name hash b → (∀ b', HolderAt s base label name hash b' → b' ≤ b) →
      propRow s indexes label name hash = base b

section Rows

variable {s : Store H} {base added : OrdMap NodeId Cid} {c : Contents Cid}
  {baseRows addedRows : List (Row Cid (Node Cid))}

theorem holderAt_iff (reads : ReadsRows s base.entries baseRows) {label name : String}
    {hash : ProllyKey} {id : NodeId} : HolderAt s base.get? label name hash id ↔
      ∃ r ∈ baseRows, r.key = id ∧ HasProp H label name hash r.object := by
  constructor
  · rintro ⟨cid, node, found, loads, holds⟩
    have member := reads.mem_iff (r := ⟨id, cid, node⟩) |>.mpr
      ⟨base.get?_eq_some_iff.mp found, loads⟩
    exact ⟨_, member, rfl, holds⟩
  · rintro ⟨r, member, rfl, holds⟩
    obtain ⟨inTree, loads⟩ := reads.mem_iff.mp member
    exact ⟨r.cid, r.object, base.get?_eq_some_iff.mpr inTree, loads, holds⟩

theorem propRow_eq (stored : c.Stored s) (label name : String) (hash : ProllyKey) :
    propRow s (c.indexSet H) label name hash = row c.props (toLex (label, name)) hash := by
  change ((row (propRoots H c.props) label name).bind _ : Option Cid) = (c.props.get? _).bind _
  rw [row_propRoots]
  cases group : c.props.get? (toLex (label, name)) with
  | none => rfl
  | some g =>
      have tree := stored.props _ (c.props.get?_eq_some_iff.mp group)
      rw [Option.map_some, Option.bind_some, Option.bind_some, lookup_of_isTree tree]

/-- The condition on the stores is the condition on the rows. -/
theorem addsLast_iff (stored : c.Stored s) (baseRead : ReadsRows s base.entries baseRows)
    (addedRead : ReadsRows s added.entries addedRows) :
    AddsLast s base.get? added.get? (c.indexSet H) ↔ AppendsInOrder H c baseRows addedRows := by
  constructor
  · intro last label name hash
    refine ⟨fun a top b member holds => ?_, fun noneAdded b top => ?_⟩
    · obtain ⟨a', held, below⟩ := last.above label name hash b.key a.key
        ((holderAt_iff baseRead).mpr ⟨b, member, rfl, holds⟩)
        ((holderAt_iff addedRead).mpr ⟨a, top.mem, rfl, top.holds⟩)
      obtain ⟨r, inAdded, rfl, holds'⟩ := (holderAt_iff addedRead).mp held
      exact below.trans_le (top.le r inAdded holds')
    · have named := last.greatest label name hash b.key
        (fun a held => by
          obtain ⟨r, inAdded, -, holds⟩ := (holderAt_iff addedRead).mp held
          exact noneAdded r inAdded holds)
        ((holderAt_iff baseRead).mpr ⟨b, top.mem, rfl, top.holds⟩)
        (fun b' held => by
          obtain ⟨r, inBase, rfl, holds⟩ := (holderAt_iff baseRead).mp held
          exact top.le r inBase holds)
      rw [← propRow_eq stored, named]
      exact base.get?_eq_some_iff.mpr (baseRead.mem_iff.mp top.mem).1
  · intro inOrder
    refine ⟨fun label name hash b a heldBase heldAdded => ?_,
      fun label name hash b noneAdded heldBase isTop => ?_⟩
    · obtain ⟨x, inBase, rfl, holds⟩ := (holderAt_iff baseRead).mp heldBase
      obtain ⟨y, inAdded, -, holds'⟩ := (holderAt_iff addedRead).mp heldAdded
      obtain ⟨top, greatest⟩ := exists_greatest addedRead.ascending ⟨y, inAdded, holds'⟩
      exact ⟨top.key, (holderAt_iff addedRead).mpr ⟨top, greatest.mem, rfl, greatest.holds⟩,
        (inOrder label name hash).1 top greatest x inBase holds⟩
    · obtain ⟨x, inBase, rfl, holds⟩ := (holderAt_iff baseRead).mp heldBase
      have greatest : Greatest (HasProp H label name hash) baseRows x :=
        ⟨inBase, holds, fun r member holds' =>
          isTop r.key ((holderAt_iff baseRead).mpr ⟨r, member, rfl, holds'⟩)⟩
      rw [propRow_eq stored, (inOrder label name hash).2 (fun a inAdded holds' =>
        noneAdded a.key ((holderAt_iff addedRead).mpr ⟨a, inAdded, rfl, holds'⟩)) x greatest]
      exact (base.get?_eq_some_iff.mpr (baseRead.mem_iff.mp inBase).1).symm

end Rows

/-! ## Extending and rebuilding -/

/-- The transaction adds nodes under new ids and does nothing else to the graph. -/
structure OnlyAdds (tx : Transaction Cid) (base : NodeId → Option Cid) : Prop where
  noNodesRemoved : tx.removedNodes.entries = []
  noEdgesRemoved : tx.removedEdges.entries = []
  noEdges : tx.newEdges.entries = []
  fresh : ∀ id, (tx.newNodes.get? id).isSome → base id = none

/-- What both ways write: the labels and the adjacency are alike, and all is when the nodes are
added last. -/
structure BothWays (s s₁ s₂ : Store H) (fast full : Cid) (last : Prop) : Prop where
  sets : ∃ fastSet fullSet : IndexSet Cid, s₁.Loads fast fastSet ∧ s₂.Loads full fullSet ∧
    fastSet.nodesByLabel = fullSet.nodesByLabel ∧ fastSet.outgoing = fullSet.outgoing ∧
    fastSet.incoming = fullSet.incoming ∧ (fastSet = fullSet ↔ last)
  cid : fast = full ↔ last

section Paths

variable {P : Graph Cid → Prop} {s : Store H} {tx : Transaction Cid} {g : Graph Cid}
  {commit : Commit Cid}

/-- Both ways from the base's commit, over the trees that a commit writes. -/
theorem bothWays_of_stands (stands : Stands s commit g) (staged : Transaction.Staged s tx)
    (adds : OnlyAdds tx g.nodes.get?) :
    ∃ baseIdx indexes, commit.indexes = some baseIdx ∧ s.Loads baseIdx indexes ∧
      (rebuildTree commit.nodes tx.newNodes tx.removedNodes : StoreM H Cid).Succeeds s fun nodes s₁ =>
        (rebuildTree commit.edges tx.newEdges tx.removedEdges : StoreM H Cid).Succeeds s₁
          fun edges s₂ =>
            (incrementalAppendIndexes baseIdx tx.newNodes : StoreM H Cid).Succeeds s₂ fun fast s₃ =>
              (buildIndexSet nodes edges : StoreM H Cid).Succeeds s₂ fun full s₄ =>
                BothWays s s₃ s₄ fast full
                  (AddsLast s g.nodes.get? tx.newNodes.get? indexes) := by
  obtain ⟨baseRows, edgeRows, c, baseRead, edgesRead, root, stored, covers⟩ := stands.indexed
  obtain ⟨addedRows, addedRead⟩ := staged.exists_rows
  refine ⟨c.cid H, c.indexSet H, root, stored.set, ?_⟩
  obtain ⟨sameNodes, sameEdges⟩ := Transaction.committed_of_onlyAdds (H := H) adds.noNodesRemoved
    adds.noEdgesRemoved adds.noEdges g
  refine (rebuildTree_succeeds stands.nodes.tree _ _).mono ?_
  rintro nodes s₁ ⟨-, le₁, nodeTree⟩
  refine (rebuildTree_succeeds (stands.edges.tree.mono le₁) _ _).mono ?_
  rintro edges s₂ ⟨-, le₂, edgeTree⟩
  have le := le₁.trans le₂
  have nodeTable := table_rebuilt stands.nodes le (staged.mono le).nodes (nodeTree.mono le₂)
  obtain ⟨mergedRows, mergedRead, filed⟩ := nodeTable.rows
  change IsTree s₂ edges (tx.committed H g).edges at edgeTree
  change ReadsRows s₂ (tx.committed H g).nodes.entries mergedRows at mergedRead
  rw [sameEdges] at edgeTree
  have appended : Appended baseRows addedRows mergedRows :=
    appended_of_reads adds.fresh (baseRead.mono le) (addedRead.mono le) (sameNodes ▸ mergedRead)
  have labels := append_labels covers appended
  have props := append_props_eq_iff covers appended (distinctCids_of_reads mergedRead filed)
  have sets := (Contents.indexSet_eq_iff (H := H) labels covers.outgoing covers.incoming).trans
    (props.trans (addsLast_iff stored baseRead addedRead).symm)
  refine (incrementalAppendIndexes_succeeds (stored.mono le) (addedRead.mono le)).mono ?_
  rintro _ s₃ ⟨rfl, -, storedFast⟩
  refine (buildIndexSet_succeeds nodeTable.tree edgeTree mergedRead (edgesRead.mono le)).mono ?_
  rintro _ s₄ ⟨rfl, -, storedFull⟩
  refine ⟨⟨_, _, storedFast.set, storedFull.set, ?_, ?_, ?_, sets⟩, ?_⟩
  · exact congrArg (subtreeRoots H) labels
  · exact congrArg (adjacencyRoot H outgoingBucket) covers.outgoing
  · exact congrArg (adjacencyRoot H incomingBucket) covers.incoming
  · refine Iff.trans ⟨fun same => ?_, fun same => ?_⟩ sets
    · exact Block.indexSet.inj (H.cidOf_injective same)
    · exact congrArg (fun set => H.cidOf (.indexSet set)) same

/-- **The incremental path.**  For a transaction that only adds nodes under new ids, extending the
index set of the base's commit gives the labels and the adjacency of a rebuild over the new trees,
and the rebuilt index set itself if and only if the nodes are added last. -/
theorem append_is_rebuild_iff {w : World H} {r : ReadonlyRepo Cid}
    {calls : List (Transaction.Call Cid)} (pinned : Pinned P w.store r g)
    (head : r.commit = some commit) (staging : (Transaction.new r).stage w.store calls = (tx, s))
    (adds : OnlyAdds tx (r.nodeCid w.store)) :
    ∃ baseIdx indexes, commit.indexes = some baseIdx ∧ s.Loads baseIdx indexes ∧
      (rebuildTree commit.nodes tx.newNodes tx.removedNodes : StoreM H Cid).Succeeds s fun nodes s₁ =>
        (rebuildTree commit.edges tx.newEdges tx.removedEdges : StoreM H Cid).Succeeds s₁
          fun edges s₂ =>
            (incrementalAppendIndexes baseIdx tx.newNodes : StoreM H Cid).Succeeds s₂ fun fast s₃ =>
              (buildIndexSet nodes edges : StoreM H Cid).Succeeds s₂ fun full s₄ =>
                BothWays s s₃ s₄ fast full
                  (AddsLast s (r.nodeCid s) tx.newNodes.get? indexes) := by
  have le := Transaction.le_stage w.store (Transaction.new r) calls
  have staged := (Transaction.staged_new w.store r).stage calls
  rw [staging] at le staged
  have later := pinned.mono le
  have atBase : r.nodeCid w.store = g.nodes.get? := funext pinned.nodeCid_eq
  have atLater : r.nodeCid s = g.nodes.get? := funext later.nodeCid_eq
  have holds := later.holds
  rw [head] at holds
  rw [atBase] at adds
  rw [atLater]
  exact bothWays_of_stands holds staged adds

end Paths

/-! ## A node that is not last -/

/-- People with one name. -/
def named (id : NodeId) : Node ℕ :=
  { id := id, ntype := "Person", props := OrdMap.empty.insert "name" (.string "x") }

theorem named_holds (id : NodeId) :
    HasProp shortHashing "Person" "name" (shortHashing.valueHash (.string "x")) (named id) :=
  ⟨rfl, .string "x", OrdMap.get?_insert_self _ _ _, rfl⟩

def namedRun : WorldM shortHashing (ReadonlyRepo ℕ) := seeded [.addNode (named 5)]

/-- The base has node 5 only. -/
theorem namedRun_holds : ∃ (r : ReadonlyRepo ℕ) (w : World shortHashing) (g : Graph ℕ)
    (commit : Commit ℕ), Pinned (fun _ => True) w.store r g ∧
    r.commit = some commit ∧ g.nodes.get? 5 = some (shortHashing.cidOf (Object.toBlock (named 5))) ∧
      r.nodeCid w.store 3 = none := by
  have passed : namedRun.check {} (fun r w => r.commit.isSome &&
      (decide (r.nodeCid w.store 5 = some (shortHashing.cidOf (Object.toBlock (named 5)))) &&
        decide (r.nodeCid w.store 3 = none))) = true := by decide +kernel
  obtain ⟨r, w, ran, passed⟩ := Exec.exists_of_check passed
  obtain ⟨committed, passed⟩ := Bool.and_eq_true_iff.mp passed
  obtain ⟨commit, head⟩ := Option.isSome_iff_exists.mp committed
  obtain ⟨five, three⟩ := Bool.and_eq_true_iff.mp passed
  obtain ⟨g, pinned⟩ := seeded_returns ran
  refine ⟨r, w, g, commit, pinned, head, ?_, of_decide_eq_true three⟩
  rw [← pinned.nodeCid_eq]
  exact of_decide_eq_true five

/-- Node 3 is added under the name of node 5. -/
theorem stage_named (s : Store shortHashing) (r : ReadonlyRepo ℕ) : ∃ s',
    (Transaction.new r).stage s [.addNode (named 3)] =
      ((Transaction.new r).stageNode shortHashing (named 3)
        (shortHashing.cidOf (Object.toBlock (named 3))), s') := by
  obtain ⟨s', applied⟩ := Transaction.exists_apply_addNode s (Transaction.new r) (named 3) rfl
  refine ⟨s', ?_⟩
  change ((Transaction.new r).apply s (.addNode (named 3))).1.stage _ [] = _
  rw [applied]
  rfl

/-- What is filed under the address of an object is that object. -/
theorem holderAt_of_filed {s : Store shortHashing} {m : OrdMap NodeId ℕ} {id : NodeId}
    (filed : ∀ k cid, m.get? k = some cid → ∃ n : Node ℕ, s.Loads cid n ∧ n.id = k)
    (here : m.get? id = some (shortHashing.cidOf (Object.toBlock (named id)))) :
    HolderAt s m.get? "Person" "name" (shortHashing.valueHash (.string "x")) id := by
  obtain ⟨n, loads, -⟩ := filed _ _ here
  obtain rfl   : n = named id := Store.toBlock_injective (shortHashing.cidOf_injective loads.cidOf)
  exact ⟨_, _, here, loads, named_holds id⟩

theorem named_not_last {s : Store shortHashing} {r : ReadonlyRepo ℕ} {nodes : OrdMap NodeId ℕ}
    {indexes : IndexSet ℕ}
    (staged : Transaction.Staged s ((Transaction.new r).stageNode shortHashing (named 3)
      (shortHashing.cidOf (Object.toBlock (named 3)))))
    (filed : ∀ k cid, nodes.get? k = some cid → ∃ n : Node ℕ, s.Loads cid n ∧ n.id = k)
    (five : nodes.get? 5 = some (shortHashing.cidOf (Object.toBlock (named 5)))) :
    ¬ AddsLast s nodes.get? (((Transaction.new r).stageNode shortHashing (named 3)
      (shortHashing.cidOf (Object.toBlock (named 3)))).newNodes.get?) indexes := by
  intro last
  obtain ⟨a, ⟨cid, node, added, -⟩, above⟩ := last.above _ _ _ 5 3 (holderAt_of_filed filed five)
    (holderAt_of_filed staged.nodes (OrdMap.get?_insert_self _ _ _))
  change (OrdMap.empty.insert (3 : NodeId) _).get? a = some cid at added
  rw [OrdMap.get?_insert] at added
  split at added
  · rename_i same
    subst same
    exact absurd above (by decide)
  · cases added

theorem named_onlyAdds {r : ReadonlyRepo ℕ} {base : NodeId → Option ℕ} (fresh : base 3 = none) :
    OnlyAdds ((Transaction.new r).stageNode shortHashing (named 3)
      (shortHashing.cidOf (Object.toBlock (named 3)))) base where
  noNodesRemoved := rfl
  noEdgesRemoved := rfl
  noEdges := rfl
  fresh id added := by
    change ((OrdMap.empty.insert (3 : NodeId) _).get? id).isSome at added
    rw [OrdMap.get?_insert] at added
    split at added
    · rename_i same
      exact same ▸ fresh
    · cases added

/-- Both ways over the base with node 5, and the node that is added. -/
theorem append_is_not_rebuild : ∃ (w : World shortHashing) (r : ReadonlyRepo ℕ) (g : Graph ℕ)
    (commit : Commit ℕ) (calls : List (Transaction.Call ℕ)) (tx : Transaction ℕ)
    (s : Store shortHashing) (baseIdx : ℕ), Pinned (fun _ => True) w.store r g ∧
      r.commit = some commit ∧ commit.indexes = some baseIdx ∧
      (Transaction.new r).stage w.store calls = (tx, s) ∧ OnlyAdds tx (r.nodeCid w.store) ∧
      ∃ nodes s₁ edges s₂ fast s₃ full s₄,
        (rebuildTree commit.nodes tx.newNodes tx.removedNodes : StoreM shortHashing ℕ).Returns s
          nodes s₁ ∧
        (rebuildTree commit.edges tx.newEdges tx.removedEdges : StoreM shortHashing ℕ).Returns s₁
          edges s₂ ∧
        (incrementalAppendIndexes baseIdx tx.newNodes : StoreM shortHashing ℕ).Returns s₂ fast s₃ ∧
        (buildIndexSet nodes edges : StoreM shortHashing ℕ).Returns s₂ full s₄ ∧ fast ≠ full := by
  obtain ⟨r, w, g, commit, pinned, head, five, three⟩ := namedRun_holds
  obtain ⟨s, staging⟩ := stage_named w.store r
  have le := Transaction.le_stage w.store (Transaction.new r) [.addNode (named 3)]
  have staged := (Transaction.staged_new w.store r).stage [.addNode (named 3)]
  rw [staging] at le staged
  have holds := (pinned.mono le).holds
  rw [head] at holds
  have three' : g.nodes.get? 3 = none := (pinned.nodeCid_eq 3).symm.trans three
  obtain ⟨baseIdx, indexes, root, -, nodes, s₁, buildNodes, edges, s₂, buildEdges, fast, s₃, append,
    full, s₄, build, both⟩ := bothWays_of_stands holds staged (named_onlyAdds three')
  refine ⟨w, r, g, commit, _, _, s, baseIdx, pinned, head, root, staging, named_onlyAdds three,
    nodes, s₁, edges, s₂, fast, s₃, full, s₄, buildNodes, buildEdges, append, build, fun same => ?_⟩
  exact named_not_last staged (Stands.nodes holds).filed five (both.cid.mp same)

/-- The law there. -/
theorem append_is_rebuild_iff_named : ∃ (s s₃ s₄ : Store shortHashing) (r : ReadonlyRepo ℕ)
    (tx : Transaction ℕ) (fast full : ℕ) (indexes : IndexSet ℕ),
    BothWays s s₃ s₄ fast full (AddsLast s (r.nodeCid s) tx.newNodes.get? indexes) ∧
      ¬ AddsLast s (r.nodeCid s) tx.newNodes.get? indexes := by
  obtain ⟨r, w, g, commit, pinned, head, five, three⟩ := namedRun_holds
  obtain ⟨s, staging⟩ := stage_named w.store r
  have le := Transaction.le_stage w.store (Transaction.new r) [.addNode (named 3)]
  have staged := (Transaction.staged_new w.store r).stage [.addNode (named 3)]
  rw [staging] at le staged
  have holds := (pinned.mono le).holds
  rw [head] at holds
  obtain ⟨baseIdx, indexes, -, -, nodes, s₁, -, edges, s₂, -, fast, s₃, -, full, s₄, -, both⟩ :=
    append_is_rebuild_iff pinned head staging (named_onlyAdds three)
  refine ⟨s, s₃, s₄, r, _, fast, full, indexes, both, fun last => ?_⟩
  rw [show r.nodeCid s = g.nodes.get? from funext (pinned.mono le).nodeCid_eq] at last
  exact named_not_last staged (Stands.nodes holds).filed five last

end Mnem.Repo
