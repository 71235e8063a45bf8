/-
# Repo.ContentCid — does the content of a commit depend on its history?

`content_cid` hashes the roots of a commit and leaves out whatever varies with
time.  Two runs of transactions that end with the same nodes and edges end with
the same node root, edge root and schema.  Their index sets are the same when
the last commit of each wrote the rebuilt one, and a commit that extended the
indexes of its base did so exactly when it added its nodes last (`InOrder`).
-/
import Mnem.Repo.AppendIndexes
import Mnem.Repo.CallFold

namespace Mnem

open Theory Theory.Groups Prolly Index

set_option autoImplicit false
set_option linter.unusedSectionVars false

/-! ## The content of a commit -/

/-- What `content_cid` hashes. -/
structure ContentCidPayload (Cid : Type) where
  schemaVersion : Nat
  nodes : Cid
  edges : Cid
  schema : Cid
  indexes : Option Cid

def Commit.contentCidPayload {Cid : Type} (commit : Commit Cid) : ContentCidPayload Cid where
  schemaVersion := 2
  nodes := commit.nodes
  edges := commit.edges
  schema := commit.schema
  indexes := commit.indexes

/-- `Commit::content_cid`, over the hash of the payload's encoding. -/
def Commit.contentCid {Cid : Type} (hash : ContentCidPayload Cid → Cid) (commit : Commit Cid) :
    Cid :=
  hash commit.contentCidPayload

namespace Repo

variable {Cid : Type} {H : Hashing Cid} [LinearOrder Cid]

/-! ## Histories -/

/-- A repository reached from `init` by transactions, in the world they left. -/
inductive History : World H → ReadonlyRepo Cid → Prop where
  | init {w w' : World H} {r : ReadonlyRepo Cid} {now : Nat}
      (ran : (init now : WorldM H _).Returns w r w') : History w' r
  | transact {w w' : World H} {r r' : ReadonlyRepo Cid} {calls : List (Transaction.Call Cid)}
      {opts : CommitOptions} (before : History w r)
      (ran : (r.transact calls opts : WorldM H _).Returns w r' w') : History w' r'

/-- If the calls only add nodes, all under ids that the base does not have, they add them last. -/
def InOrder (w : World H) (r : ReadonlyRepo Cid) (calls : List (Transaction.Call Cid)) : Prop :=
  ∀ tx s, (Transaction.new r).stage w.store calls = (tx, s) → tx.isAppendOnly = true →
    (∀ id, (tx.newNodes.get? id).isSome → r.nodeCid s id = none) →
    ∀ commit baseIdx indexes, r.commit = some commit → commit.indexes = some baseIdx →
      s.Loads baseIdx indexes → AddsLast s (r.nodeCid s) tx.newNodes.get? indexes

/-! ## What a commit writes -/

namespace Transaction

section Writes

variable {tx : Transaction Cid} {s s' : Store H} {g : Graph Cid}

theorem baseRoots_schema {roots : Cid × Cid × Cid}
    (ran : (tx.baseRoots : StoreM H _).Returns s roots s') :
    roots.2.2 = tx.base.commit.elim (treeRoot H []) Commit.schema := by
  unfold baseRoots at ran
  cases head : tx.base.commit with
  | some commit =>
      rw [head] at ran
      obtain ⟨rfl, -⟩ := Exec.returns_pure.mp ran
      rfl
  | none =>
      rw [head] at ran
      obtain ⟨root, s₁, build, done⟩ := Exec.returns_bind.mp ran
      obtain ⟨rfl, -⟩ := Exec.returns_pure.mp done
      exact ((buildTree_succeeds OrdMap.empty s).of_returns build).1

/-- Ids that are not in the base do not collide. -/
theorem not_collides_of_fresh {baseNodes : Cid} (tree : IsTree s baseNodes g.nodes)
    (fresh : ∀ id, (tx.newNodes.get? id).isSome → g.nodes.get? id = none) :
    tx.newNodes.keys.any (collides s baseNodes) = false := by
  rw [List.any_eq_false]
  intro id member
  unfold collides
  rw [lookup_of_isTree tree, fresh id (tx.newNodes.mem_keys_iff.mp member)]
  simp

/-- The index set that a commit gets is the rebuilt one, unless it extended the base's and the nodes
were not added last. -/
theorem newIndexes_eq_iff {s₀ : Store H} {baseNodes newNodesRoot newEdgesRoot idx : Cid}
    {nodeRows : List (Row Cid (Node Cid))} {edgeRows : List (Row Cid (Edge Cid))}
    (holds : HeadHolds s₀ tx.base.commit g) (staged : Staged s₀ tx) (le : s₀ ≤ s)
    (baseTree : IsTree s baseNodes g.nodes)
    (nodes : NodeTable s newNodesRoot (tx.committed H g).nodes)
    (edges : IsTree s newEdgesRoot (tx.committed H g).edges)
    (nodesRead : ReadsRows s (tx.committed H g).nodes.entries nodeRows)
    (edgesRead : ReadsRows s (tx.committed H g).edges.entries edgeRows)
    (ran : (tx.newIndexes baseNodes newNodesRoot newEdgesRoot : StoreM H Cid).Returns s idx s') :
    idx = (contentsOf H nodeRows edgeRows).cid H ↔
      (tx.isAppendOnly = true → (∀ id, (tx.newNodes.get? id).isSome → g.nodes.get? id = none) →
        ∀ commit baseIdx indexes, tx.base.commit = some commit → commit.indexes = some baseIdx →
          s₀.Loads baseIdx indexes → AddsLast s₀ g.nodes.get? tx.newNodes.get? indexes) := by
  have rebuilt (built : (buildIndexSet newNodesRoot newEdgesRoot : StoreM H Cid).Returns s idx s') :
      idx = (contentsOf H nodeRows edgeRows).cid H :=
    ((buildIndexSet_succeeds nodes.tree edges nodesRead edgesRead).of_returns built).1
  unfold newIndexes at ran
  split at ran
  · rename_i _ _ baseIdx appendOnly indexed
    obtain ⟨hasCollision, s₁, read, ran⟩ := Exec.returns_bind.mp ran
    obtain ⟨collided, rfl⟩ := Exec.returns_read.mp read
    split at ran
    · rename_i collision
      refine iff_of_true (rebuilt ran) fun _ fresh => ?_
      have apart := not_collides_of_fresh baseTree fresh
      rw [Except.ok.inj collided, collision] at apart
      cases apart
    · rename_i noCollision
      obtain ⟨sameNodes, sameEdges⟩ := committed_of_appendOnly (H := H) appendOnly g
      obtain ⟨commit, head, root⟩ := Option.bind_eq_some_iff.mp indexed
      rw [head] at holds
      obtain ⟨baseRows, baseEdges, c, baseRead, baseEdgesRead, root', stored, covers⟩ :=
        Stands.indexed holds
      obtain rfl : baseIdx = c.cid H := Option.some.inj (root.symm.trans root')
      obtain ⟨addedRows, addedRead⟩ := staged.exists_rows
      have fresh := fresh_of_not_collides baseTree
        ((Except.ok.inj collided).trans (by simpa using noCollision))
      have appended : Appended baseRows addedRows nodeRows :=
        appended_of_reads fresh (baseRead.mono le) (addedRead.mono le) (sameNodes ▸ nodesRead)
      obtain rfl : edgeRows = baseEdges := edgesRead.unique (sameEdges ▸ baseEdgesRead)
      obtain ⟨rfl, -, -⟩ :=
        (incrementalAppendIndexes_succeeds (stored.mono le) (addedRead.mono le)).of_returns ran
      have props := append_props_eq_iff covers appended (distinctCids_of_reads nodesRead
        (fun r member => by
          obtain ⟨rows, reads, filed⟩ := nodes.rows
          exact filed r (nodesRead.unique reads ▸ member)))
      have sets := (Contents.indexSet_eq_iff (H := H) (append_labels covers appended)
        covers.outgoing covers.incoming).trans
          (props.trans (addsLast_iff stored baseRead addedRead).symm)
      constructor
      · intro same _ _ commit' baseIdx indexes head' root' loads
        obtain rfl := Option.some.inj (head.symm.trans head')
        obtain rfl := Option.some.inj (root.symm.trans root')
        rw [loads.unique stored.set]
        exact sets.mp (Block.indexSet.inj (H.cidOf_injective same))
      · intro last
        exact congrArg (fun set => H.cidOf (.indexSet set))
          (sets.mpr (last appendOnly fresh commit _ _ head root stored.set))
  · rename_i notBoth
    refine iff_of_true (rebuilt ran) fun appendOnly _ commit baseIdx indexes head root _ => ?_
    exact (notBoth baseIdx appendOnly (by rw [head]; exact root)).elim

/-- The roots of a written commit. -/
structure Roots (H : Hashing Cid) (s : Store H) (tx : Transaction Cid) (g : Graph Cid)
    (nodeRows : List (Row Cid (Node Cid))) (edgeRows : List (Row Cid (Edge Cid)))
    (commit : Commit Cid) : Prop where
  nodes : commit.nodes = treeRoot H (tx.committed H g).nodes.entries
  edges : commit.edges = treeRoot H (tx.committed H g).edges.entries
  schema : commit.schema = tx.base.commit.elim (treeRoot H []) Commit.schema
  indexes : commit.indexes = some ((contentsOf H nodeRows edgeRows).cid H) ↔
    (tx.isAppendOnly = true → (∀ id, (tx.newNodes.get? id).isSome → g.nodes.get? id = none) →
      ∀ commit baseIdx indexes, tx.base.commit = some commit → commit.indexes = some baseIdx →
        s.Loads baseIdx indexes → AddsLast s g.nodes.get? tx.newNodes.get? indexes)

theorem writeCommit_roots {opts : CommitOptions} {cid : Cid}
    (holds : HeadHolds s tx.base.commit g) (staged : Staged s tx)
    (ran : (tx.writeCommit opts : StoreM H _).Returns s cid s') :
    ∃ commit nodeRows edgeRows, s'.Loads cid commit ∧
      ReadsRows s' (tx.committed H g).nodes.entries nodeRows ∧
      ReadsRows s' (tx.committed H g).edges.entries edgeRows ∧
      Roots H s tx g nodeRows edgeRows commit := by
  unfold writeCommit at ran
  obtain ⟨roots, s₁, openRoots, ran⟩ := Exec.returns_bind.mp ran
  obtain ⟨nodes, s₂, buildNodes, ran⟩ := Exec.returns_bind.mp ran
  obtain ⟨edges, s₃, buildEdges, ran⟩ := Exec.returns_bind.mp ran
  obtain ⟨idx, s₄, index, ran⟩ := Exec.returns_bind.mp ran
  obtain ⟨removals, s₅, read, ran⟩ := Exec.returns_bind.mp ran
  obtain ⟨embeddings, s₆, buildEmbeddings, ran⟩ := Exec.returns_bind.mp ran
  obtain ⟨sparse, s₇, buildSparse, put⟩ := Exec.returns_bind.mp ran
  obtain ⟨le₁, baseNodes, baseEdges⟩ := baseRoots_returns holds openRoots
  obtain ⟨nodeRoot, le₂, nodeTree⟩ := (rebuildTree_succeeds baseNodes.tree _ _).of_returns buildNodes
  obtain ⟨edgeRoot, le₃, edgeTree⟩ :=
    (rebuildTree_succeeds (baseEdges.tree.mono le₂) _ _).of_returns buildEdges
  have to₃ := (le₁.trans le₂).trans le₃
  have nodeTable := table_rebuilt baseNodes (le₂.trans le₃) (staged.mono to₃).nodes
    (nodeTree.mono le₃)
  have edgeTable := table_rebuilt (baseEdges.mono le₂) le₃ (staged.mono to₃).edges edgeTree
  obtain ⟨nodeRows, nodesRead, -⟩ := nodeTable.rows
  obtain ⟨edgeRows, edgesRead, -⟩ := edgeTable.rows
  have indexed := newIndexes_eq_iff holds staged to₃ (baseNodes.tree.mono (le₂.trans le₃)) nodeTable
    edgeTree nodesRead edgesRead index
  have le₄ := (newIndexes_grows tx _ _ _).of_returns index
  obtain ⟨-, rfl⟩ := Exec.returns_read.mp read
  have le₅ := (rebuildSidecar_grows _ _ _).of_returns buildEmbeddings
  have le₆ := (rebuildSidecar_grows _ _ _).of_returns buildSparse
  obtain ⟨-, le₇, loads⟩ := putObject_returns put
  have from₃ := ((le₄.trans le₅).trans le₆).trans le₇
  refine ⟨_, nodeRows, edgeRows, loads, nodesRead.mono from₃, edgesRead.mono from₃, nodeRoot,
    edgeRoot, baseRoots_schema openRoots, ?_⟩
  exact Iff.trans ⟨Option.some.inj, congrArg some⟩ indexed

/-- The head of a repository that was just committed is the commit that was written. -/
theorem commitOpts_writes {opts : CommitOptions} {w w' : World H} {r : ReadonlyRepo Cid}
    (pinned : Pinned (fun _ => True) w.store tx.base g) (staged : Staged w.store tx)
    (ran : (tx.commitOpts opts : WorldM H _).Returns w r w') :
    ∃ commit nodeRows edgeRows, r.commit = some commit ∧
      ReadsRows w'.store (tx.committed H g).nodes.entries nodeRows ∧
      ReadsRows w'.store (tx.committed H g).edges.entries edgeRows ∧
      Roots H w.store tx g nodeRows edgeRows commit := by
  obtain ⟨-, -, -, cid, commit, viewCid, op, view, head, loads, -, pinned'⟩ :=
    commitOpts_loads pinned staged (fun _ => trivial) ran
  unfold commitOpts at ran
  obtain ⟨opCid, w₁, write, ran⟩ := Exec.returns_bind.mp ran
  obtain ⟨_, w₂, advance, load⟩ := Exec.returns_bind.mp ran
  obtain ⟨wrote, -⟩ := returns_onStore.mp write
  obtain rfl := publish_returns advance
  obtain ⟨loaded, -⟩ := returns_onStore.mp load
  obtain ⟨at_op, sameStore⟩ := Exec.returns_read.mp loaded
  change w₁.store = w'.store at sameStore
  unfold writeOperation at wrote
  obtain ⟨_, s₁, check, wrote⟩ := Exec.returns_bind.mp wrote
  obtain ⟨-, rfl⟩ := Exec.returns_read.mp check
  obtain ⟨commitCid, s₂, write, wrote⟩ := Exec.returns_bind.mp wrote
  obtain ⟨viewCid', s₃, putView, putOp⟩ := Exec.returns_bind.mp wrote
  obtain ⟨written, nodeRows, edgeRows, writtenLoads, nodesRead, edgesRead, roots⟩ :=
    writeCommit_roots pinned.holds staged write
  obtain ⟨-, le₂, viewLoads⟩ := putObject_returns putView
  obtain ⟨-, le₃, opLoads⟩ := putObject_returns putOp
  have le : s₂ ≤ w'.store := sameStore ▸ le₂.trans le₃
  obtain rfl : r.opId = opCid := ReadonlyRepo.opId_of_loadAt at_op
  have sameOp : r.op = newOperation tx.base.opId opts viewCid' :=
    pinned'.op.unique (sameStore ▸ opLoads)
  have sameView : r.view = tx.newView commitCid opts.time := by
    have here := pinned'.view
    rw [sameOp] at here
    exact here.unique (viewLoads.mono (sameStore ▸ le₃))
  have sameCid : cid = commitCid := by
    have heads := congrArg View.heads (view.symm.trans sameView)
    rw [newView_heads, newView_heads] at heads
    exact List.head_eq_of_cons_eq heads
  obtain rfl := sameCid
  obtain rfl := loads.unique (writtenLoads.mono le)
  exact ⟨commit, nodeRows, edgeRows, head, nodesRead.mono le, edgesRead.mono le, roots⟩

end Writes

end Transaction

/-! ## Runs -/

section Runs

variable {w w' : World H} {r r' : ReadonlyRepo Cid} {g : Graph Cid}
  {calls : List (Transaction.Call Cid)} {opts : CommitOptions}

/-- What one transaction of a run writes. -/
theorem transact_roots (pinned : Pinned (fun _ => True) w.store r g)
    (ran : (r.transact calls opts : WorldM H _).Returns w r' w') :
    ∃ g' commit nodeRows edgeRows, Pinned (fun _ => True) w'.store r' g' ∧
      r'.commit = some commit ∧ ReadsRows w'.store g'.nodes.entries nodeRows ∧
      ReadsRows w'.store g'.edges.entries edgeRows ∧
      commit.nodes = treeRoot H g'.nodes.entries ∧ commit.edges = treeRoot H g'.edges.entries ∧
      commit.schema = r.commit.elim (treeRoot H []) Commit.schema ∧
      (commit.indexes = some ((contentsOf H nodeRows edgeRows).cid H) ↔ InOrder w r calls) := by
  obtain ⟨tx, s, staging, le, rfl, staged, ran⟩ := transact_returns ran
  have later := pinned.mono le
  obtain ⟨commit, nodeRows, edgeRows, head, nodesRead, edgesRead, roots⟩ :=
    Transaction.commitOpts_writes (w := { w with store := s }) later staged ran
  have done := Transaction.commitOpts_returns (w := { w with store := s }) later staged
    (fun _ => trivial) ran
  refine ⟨_, commit, nodeRows, edgeRows, done.pinned, head, nodesRead, edgesRead, roots.nodes,
    roots.edges, roots.schema, roots.indexes.trans ?_⟩
  have atBase : tx.base.nodeCid s = g.nodes.get? := funext later.nodeCid_eq
  constructor
  · intro last tx' s' staging'
    obtain ⟨rfl, rfl⟩ := Prod.mk.inj (staging.symm.trans staging')
    rw [atBase]
    exact last
  · intro inOrder
    have last := inOrder tx s staging
    rw [atBase] at last
    exact last

/-- Every repository of a run is pinned, and its schema is the empty tree. -/
theorem History.pinned (history : History w r) : ∃ g, Pinned (fun _ => True) w.store r g ∧
    r.commit.elim (treeRoot H []) Commit.schema = treeRoot H [] := by
  induction history with
  | init ran =>
      obtain ⟨-, pinned, -⟩ := init_returns ran
      refine ⟨_, pinned, ?_⟩
      rw [(init_empty ran).2]
      rfl
  | transact _ ran ih =>
      obtain ⟨g, pinned, schema⟩ := ih
      obtain ⟨g', commit, -, -, pinned', head, -, -, -, -, kept, -⟩ := transact_roots pinned ran
      refine ⟨g', pinned', ?_⟩
      rw [head]
      exact kept.trans schema

/-- Equal contents are equal maps. -/
theorem nodes_same_iff {P : Graph Cid → Prop} {s s' : Store H} {g g' : Graph Cid}
    (pinned : Pinned P s r g) (pinned' : Pinned P s' r' g') :
    (GraphState.of s r).nodes = (GraphState.of s' r').nodes ↔ g.nodes = g'.nodes := by
  constructor
  · intro same
    ext id : 1
    rw [← GraphState.of_nodes pinned, ← GraphState.of_nodes pinned', same]
  · intro same
    funext id
    refine Option.map_injective addr_injective ((GraphState.of_nodes pinned id).trans ?_)
    rw [same]
    exact (GraphState.of_nodes pinned' id).symm

theorem edges_same_iff {P : Graph Cid → Prop} {s s' : Store H} {g g' : Graph Cid}
    (pinned : Pinned P s r g) (pinned' : Pinned P s' r' g') :
    (GraphState.of s r).edges = (GraphState.of s' r').edges ↔ g.edges = g'.edges := by
  constructor
  · intro same
    ext id : 1
    rw [← GraphState.of_edges pinned, ← GraphState.of_edges pinned', same]
  · intro same
    funext id
    refine Option.map_injective addr_injective ((GraphState.of_edges pinned id).trans ?_)
    rw [same]
    exact (GraphState.of_edges pinned' id).symm

end Runs

/-- Two runs that end with the same nodes and edges end with the same roots and schema.  If the last
transaction of the first adds in order, the index sets and the content CIDs are the same exactly
when the last transaction of the second does too. -/
theorem content_of_same_graph {w₁ w₁' w₂ w₂' : World H} {r₁ r₁' r₂ r₂' : ReadonlyRepo Cid}
    {calls₁ calls₂ : List (Transaction.Call Cid)} {opts₁ opts₂ : CommitOptions}
    (hash : ContentCidPayload Cid → Cid) (history₁ : History w₁ r₁) (history₂ : History w₂ r₂)
    (ran₁ : (r₁.transact calls₁ opts₁ : WorldM H _).Returns w₁ r₁' w₁')
    (ran₂ : (r₂.transact calls₂ opts₂ : WorldM H _).Returns w₂ r₂' w₂')
    (nodes : (GraphState.of w₁'.store r₁').nodes = (GraphState.of w₂'.store r₂').nodes)
    (edges : (GraphState.of w₁'.store r₁').edges = (GraphState.of w₂'.store r₂').edges) :
    ∃ commit₁ commit₂, r₁'.commit = some commit₁ ∧ r₂'.commit = some commit₂ ∧
      commit₁.nodes = commit₂.nodes ∧ commit₁.edges = commit₂.edges ∧
      commit₁.schema = commit₂.schema ∧
      (InOrder w₁ r₁ calls₁ →
        ((commit₁.indexes = commit₂.indexes ∧
          commit₁.contentCid hash = commit₂.contentCid hash) ↔ InOrder w₂ r₂ calls₂)) := by
  obtain ⟨g₁, pinned₁, empty₁⟩ := history₁.pinned
  obtain ⟨g₂, pinned₂, empty₂⟩ := history₂.pinned
  obtain ⟨g₁', commit₁, nodeRows, edgeRows, pinned₁', head₁, nodesRead, edgesRead, nodes₁, edges₁,
    schema₁, indexes₁⟩ := transact_roots pinned₁ ran₁
  obtain ⟨g₂', commit₂, nodeRows₂, edgeRows₂, pinned₂', head₂, nodesRead₂, edgesRead₂, nodes₂,
    edges₂, schema₂, indexes₂⟩ := transact_roots pinned₂ ran₂
  have sameNodes := (nodes_same_iff pinned₁' pinned₂').mp nodes
  have sameEdges := (edges_same_iff pinned₁' pinned₂').mp edges
  obtain rfl : nodeRows = nodeRows₂ := nodesRead.unique (sameNodes ▸ nodesRead₂)
  obtain rfl : edgeRows = edgeRows₂ := edgesRead.unique (sameEdges ▸ edgesRead₂)
  have roots : commit₁.nodes = commit₂.nodes ∧ commit₁.edges = commit₂.edges :=
    ⟨by rw [nodes₁, nodes₂, sameNodes], by rw [edges₁, edges₂, sameEdges]⟩
  have schemas : commit₁.schema = commit₂.schema := by rw [schema₁, schema₂, empty₁, empty₂]
  refine ⟨commit₁, commit₂, head₁, head₂, roots.1, roots.2, schemas, fun inOrder => ?_⟩
  rw [← indexes₂, ← indexes₁.mpr inOrder]
  constructor
  · rintro ⟨same, -⟩
    exact same.symm
  · intro same
    refine ⟨same.symm, congrArg hash ?_⟩
    unfold Commit.contentCidPayload
    rw [roots.1, roots.2, schemas, same]

/-! ## Two runs with one graph -/

/-- Whether two repositories have the same node and edge roots but other indexes. -/
def indexesDiffer (r r' : ReadonlyRepo ℕ) : Bool :=
  decide (r.commit.map Commit.nodes = r'.commit.map Commit.nodes) &&
    decide (r.commit.map Commit.edges = r'.commit.map Commit.edges) &&
      !decide (r.commit.bind Commit.indexes = r'.commit.bind Commit.indexes)

/-- Two nodes with one name: added together, and the lower id after the higher. -/
theorem named_runs : ∃ (r₁ r₁' r₂ r₂' : ReadonlyRepo ℕ) (w₁ w₁' w₂ w₂' : World shortHashing),
    History w₁ r₁ ∧ r₁.commit = none ∧ History w₂ r₂ ∧
      (r₁.transact [.addNode (named 3), .addNode (named 5)] { author := "", message := "base" } :
        WorldM shortHashing _).Returns w₁ r₁' w₁' ∧
      (r₂.transact [.addNode (named 3)] { author := "", message := "second" } :
        WorldM shortHashing _).Returns w₂ r₂' w₂' ∧ indexesDiffer r₁' r₂' = true := by
  have passed : (seeded [.addNode (named 3), .addNode (named 5)] : WorldM shortHashing _).check {}
      (fun r _ => (transactTwice [.addNode (named 5)] [.addNode (named 3)] :
        WorldM shortHashing _).check {} fun r' _ => indexesDiffer r r'.2) = true := by
    decide +kernel
  obtain ⟨r₁', w₁', ran₁, passed⟩ := Exec.exists_of_check passed
  obtain ⟨⟨r₂, r₂'⟩, w₂', ran₂, differ⟩ := Exec.exists_of_check passed
  obtain ⟨r₁, w₁, start₁, ran₁⟩ := Exec.returns_bind.mp ran₁
  obtain ⟨root, w, start₂, ran₂⟩ := Exec.returns_bind.mp ran₂
  obtain ⟨base, w₂, first, ran₂⟩ := Exec.returns_bind.mp ran₂
  obtain ⟨next, w₃, second, done⟩ := Exec.returns_bind.mp ran₂
  obtain ⟨⟨⟩, rfl⟩ := Exec.returns_pure.mp done
  exact ⟨r₁, r₁', r₂, r₂', w₁, w₁', w₂, w₃, .init start₁, (init_empty start₁).2,
    .transact (.init start₂) first, ran₁, second, differ⟩

/-- The nodes and edges are the same there. -/
theorem named_runs_same {r₁ r₁' r₂ r₂' : ReadonlyRepo ℕ} {w₁ w₁' w₂ w₂' : World shortHashing}
    {calls₁ calls₂ : List (Transaction.Call ℕ)} {opts₁ opts₂ : CommitOptions}
    (history₁ : History w₁ r₁) (history₂ : History w₂ r₂)
    (ran₁ : (r₁.transact calls₁ opts₁ : WorldM shortHashing _).Returns w₁ r₁' w₁')
    (ran₂ : (r₂.transact calls₂ opts₂ : WorldM shortHashing _).Returns w₂ r₂' w₂')
    (differ : indexesDiffer r₁' r₂' = true) :
    (GraphState.of w₁'.store r₁').nodes = (GraphState.of w₂'.store r₂').nodes ∧
      (GraphState.of w₁'.store r₁').edges = (GraphState.of w₂'.store r₂').edges ∧
      r₁'.commit.bind Commit.indexes ≠ r₂'.commit.bind Commit.indexes := by
  obtain ⟨g₁, pinned₁, -⟩ := history₁.pinned
  obtain ⟨g₂, pinned₂, -⟩ := history₂.pinned
  obtain ⟨g₁', commit₁, -, -, pinned₁', head₁, -, -, nodes₁, edges₁, -⟩ := transact_roots pinned₁ ran₁
  obtain ⟨g₂', commit₂, -, -, pinned₂', head₂, -, -, nodes₂, edges₂, -⟩ := transact_roots pinned₂ ran₂
  simp only [indexesDiffer, head₁, head₂, Option.map_some, Option.some.injEq, nodes₁, nodes₂, edges₁,
    edges₂, Bool.and_eq_true, decide_eq_true_eq, Bool.not_eq_true', decide_eq_false_iff_not] at differ
  obtain ⟨⟨sameNodes, sameEdges⟩, differ⟩ := differ
  refine ⟨(nodes_same_iff pinned₁' pinned₂').mpr (treeRoot_injective sameNodes),
    (edges_same_iff pinned₁' pinned₂').mpr (treeRoot_injective sameEdges), ?_⟩
  rw [head₁, head₂]
  exact differ

/-- The content CIDs differ though the graphs are the same. -/
theorem content_depends_on_history : ∃ (r₁ r₁' r₂ r₂' : ReadonlyRepo ℕ)
    (w₁ w₁' w₂ w₂' : World shortHashing) (commit₁ commit₂ : Commit ℕ), History w₁ r₁ ∧
      History w₂ r₂ ∧
      (r₁.transact [.addNode (named 3), .addNode (named 5)] { author := "", message := "base" } :
        WorldM shortHashing _).Returns w₁ r₁' w₁' ∧
      (r₂.transact [.addNode (named 3)] { author := "", message := "second" } :
        WorldM shortHashing _).Returns w₂ r₂' w₂' ∧
      (GraphState.of w₁'.store r₁').nodes = (GraphState.of w₂'.store r₂').nodes ∧
      (GraphState.of w₁'.store r₁').edges = (GraphState.of w₂'.store r₂').edges ∧
      r₁'.commit = some commit₁ ∧ r₂'.commit = some commit₂ ∧ commit₁.indexes ≠ commit₂.indexes ∧
      ∀ hash : ContentCidPayload ℕ → ℕ, Function.Injective hash →
        commit₁.contentCid hash ≠ commit₂.contentCid hash := by
  obtain ⟨r₁, r₁', r₂, r₂', w₁, w₁', w₂, w₂', history₁, -, history₂, ran₁, ran₂, differ⟩ := named_runs
  obtain ⟨nodes, edges, differ⟩ := named_runs_same history₁ history₂ ran₁ ran₂ differ
  obtain ⟨g₁, pinned₁, -⟩ := history₁.pinned
  obtain ⟨g₂, pinned₂, -⟩ := history₂.pinned
  obtain ⟨-, commit₁, -, -, -, head₁, -⟩ := transact_roots pinned₁ ran₁
  obtain ⟨-, commit₂, -, -, -, head₂, -⟩ := transact_roots pinned₂ ran₂
  rw [head₁, head₂] at differ
  refine ⟨r₁, r₁', r₂, r₂', w₁, w₁', w₂, w₂', commit₁, commit₂, history₁, history₂, ran₁, ran₂,
    nodes, edges, head₁, head₂, differ, fun hash injective same => ?_⟩
  exact differ (congrArg ContentCidPayload.indexes (injective same))

theorem content_of_same_graph_named : ∃ (w₁ w₂ : World shortHashing) (r₁ r₂ : ReadonlyRepo ℕ)
    (commit₁ commit₂ : Commit ℕ),
      InOrder w₁ r₁ [.addNode (named 3), .addNode (named 5)] ∧ commit₁.nodes = commit₂.nodes ∧
      ((commit₁.indexes = commit₂.indexes ∧
        commit₁.contentCid ContentCidPayload.nodes = commit₂.contentCid ContentCidPayload.nodes) ↔
          InOrder w₂ r₂ [.addNode (named 3)]) := by
  obtain ⟨r₁, r₁', r₂, r₂', w₁, w₁', w₂, w₂', history₁, empty, history₂, ran₁, ran₂, differ⟩ :=
    named_runs
  obtain ⟨nodes, edges, -⟩ := named_runs_same history₁ history₂ ran₁ ran₂ differ
  have inOrder : InOrder w₁ r₁ [.addNode (named 3), .addNode (named 5)] := by
    intro tx s _ _ _ commit baseIdx indexes head
    rw [empty] at head
    cases head
  obtain ⟨commit₁, commit₂, -, -, sameNodes, -, -, law⟩ := content_of_same_graph
    ContentCidPayload.nodes history₁ history₂ ran₁ ran₂ nodes edges
  exact ⟨w₁, w₂, r₁, r₂, commit₁, commit₂, inOrder, sameNodes, law inOrder⟩

end Repo

end Mnem
