/-
# Repo.Commit — `Transaction::commit_opts`

Committing checks the staged edges, rebuilds the node tree, the edge tree and
the two sidecars, extends or rebuilds the indexes, writes a commit, a view and
an operation, and advances the operation heads.  `writeOperation` is everything
before the heads are touched; what it leaves in the store is
`writeOperation_returns`.
-/
import Mnem.Repo.OpHeads
import Mnem.Repo.Transaction
import Mnem.Repo.Snapshot

namespace Mnem.Repo

open Theory Prolly Index

set_option autoImplicit false
set_option linter.unusedSectionVars false

variable {Cid : Type} {H : Hashing Cid} [LinearOrder Cid]

/-- Options of a commit; `now` and `fresh` are the clock and the generator they default to. -/
structure CommitOptions where
  author : String
  message : String
  linearize : Bool := false
  timeMicros : Option Nat := none
  changeId : Option ChangeId := none
  agentId : Option String := none
  taskId : Option String := none
  now : Nat := 0
  fresh : ChangeId := 0

/-- The time of the commit and of everything written with it. -/
def CommitOptions.time (opts : CommitOptions) : Nat := opts.timeMicros.getD opts.now

/-! ## Trees -/

/-- Base entries without the removed keys, then the additions over them. -/
def rebuiltEntries (base : List (ProllyKey × Cid)) (additions : OrdMap ProllyKey Cid)
    (removals : OrdSet ProllyKey) : OrdMap ProllyKey Cid :=
  (OrdMap.ofList (base.filter fun e => !removals.contains e.1)).insertAll additions.entries

def rebuildTree (baseRoot : Cid) (additions : OrdMap ProllyKey Cid)
    (removals : OrdSet ProllyKey) : StoreM H Cid := do
  let base ← Exec.read fun s => entries s baseRoot
  buildTree (rebuiltEntries base additions removals).entries

section Sidecars

variable {V : Type} [Object Cid (Bucket V)]

/-- Write the staged buckets and file each under the hash of its node's CID. -/
def putBuckets (pending : OrdMap Cid (Bucket V)) : StoreM H (OrdMap ProllyKey Cid) :=
  pending.entries.foldlM (fun additions e =>
    putObject e.2.canonical >>= fun cid => pure (additions.insert (H.cidHash e.1) cid)) OrdMap.empty

/-- The new root of a sidecar; a sidecar that never held anything stays absent. -/
def rebuildSidecar (baseRoot : Option Cid) (pending : OrdMap Cid (Bucket V))
    (removals : OrdSet ProllyKey) : StoreM H (Option Cid) :=
  if pending.entries.isEmpty && baseRoot.isNone && removals.entries.isEmpty then pure none
  else do
    let root ← baseRoot.elim (buildTree []) pure
    let additions ← putBuckets pending
    let rebuilt ← rebuildTree root additions removals
    return some rebuilt

end Sidecars

namespace Transaction

variable (tx : Transaction Cid)

/-! ## Checks and roots -/

/-- An endpoint of a staged edge must be staged, or in the base and not removed. -/
def checkEndpoint (s : Store H) (endpoint : NodeId) (role : String) : Except (Error Cid) Unit := do
  let inNew := tx.newNodes.contains endpoint && !tx.removedNodes.contains endpoint
  let inBase ← if tx.removedNodes.contains endpoint then .ok false
    else Option.isSome <$> tx.base.lookupNode s endpoint
  if !inNew && !inBase then .error (.danglingEdge endpoint role) else .ok ()

def checkEdge (s : Store H) (edgeCid : Cid) : Except (Error Cid) Unit := do
  let edge ← s.decodeFromStore (Edge Cid) edgeCid
  tx.checkEndpoint s edge.src "src"
  tx.checkEndpoint s edge.dst "dst"

/-- Every staged edge joins nodes that the commit will hold. -/
def checkEdges (s : Store H) : Except (Error Cid) Unit :=
  tx.newEdges.values.forM (tx.checkEdge s)

/-- The roots of nodes, edges and schema that the commit starts from. -/
def baseRoots : StoreM H (Cid × Cid × Cid) :=
  match tx.base.commit with
  | some commit => pure (commit.nodes, commit.edges, commit.schema)
  | none => do
      let empty ← buildTree []
      return (empty, empty, empty)

/-- Only nodes are added. -/
def isAppendOnly : Bool :=
  tx.removedNodes.entries.isEmpty && tx.removedEdges.entries.isEmpty &&
    tx.newEdges.entries.isEmpty && !tx.newNodes.entries.isEmpty

/-- Whether the base may already have a node with this id. -/
def collides (s : Store H) (baseNodes : Cid) (id : NodeId) : Bool :=
  match lookup s baseNodes id with
  | .ok none => false
  | _ => true

/-- Extend the base's index set when only fresh nodes are added, rebuild it otherwise. -/
def newIndexes (baseNodes newNodesRoot newEdgesRoot : Cid) : StoreM H Cid :=
  match tx.isAppendOnly, tx.base.commit.bind Commit.indexes with
  | true, some baseIdx => do
      let hasCollision ← Exec.read fun s => .ok (tx.newNodes.keys.any (collides s baseNodes))
      if hasCollision then buildIndexSet newNodesRoot newEdgesRoot
      else incrementalAppendIndexes baseIdx tx.newNodes
  | _, _ => buildIndexSet newNodesRoot newEdgesRoot

/-- The sidecar keys of the removed nodes that the base holds. -/
def sidecarRemovals (s : Store H) (baseNodes : Cid) : OrdSet ProllyKey :=
  tx.removedNodes.keys.foldl (fun keys id =>
    match lookup s baseNodes id with
    | .ok (some nodeCid) => OrdSet.add keys (H.cidHash nodeCid)
    | _ => keys) OrdMap.empty

/-! ## The commit -/

/-- Rebuild everything and write the commit. -/
def writeCommit (opts : CommitOptions) : StoreM H Cid := do
  let roots ← tx.baseRoots
  let nodes ← rebuildTree roots.1 tx.newNodes tx.removedNodes
  let edges ← rebuildTree roots.2.1 tx.newEdges tx.removedEdges
  let indexes ← tx.newIndexes roots.1 nodes edges
  let removals ← Exec.read fun s => .ok (tx.sidecarRemovals s roots.1)
  let embeddings ← rebuildSidecar (tx.base.commit.bind Commit.embeddings) tx.pendingEmbeddings
    removals
  let sparse ← rebuildSidecar (tx.base.commit.bind Commit.sparse) tx.pendingSparse removals
  putObject ({
    changeId := opts.changeId.getD opts.fresh
    parents := tx.base.view.heads.head?.toList
    nodes := nodes
    edges := edges
    schema := roots.2.2
    indexes := some indexes
    embeddings := embeddings
    sparse := sparse
    author := opts.author
    time := opts.time
    message := opts.message } : Commit Cid)

/-- The same, with another way to build the indexes. -/
def writeCommitBy (index : Cid → Cid → Cid → StoreM H Cid) (opts : CommitOptions) : StoreM H Cid := do
  let roots ← tx.baseRoots
  let nodes ← rebuildTree roots.1 tx.newNodes tx.removedNodes
  let edges ← rebuildTree roots.2.1 tx.newEdges tx.removedEdges
  let indexes ← index roots.1 nodes edges
  let removals ← Exec.read fun s => .ok (tx.sidecarRemovals s roots.1)
  let embeddings ← rebuildSidecar (tx.base.commit.bind Commit.embeddings) tx.pendingEmbeddings
    removals
  let sparse ← rebuildSidecar (tx.base.commit.bind Commit.sparse) tx.pendingSparse removals
  putObject ({
    changeId := opts.changeId.getD opts.fresh
    parents := tx.base.view.heads.head?.toList
    nodes := nodes
    edges := edges
    schema := roots.2.2
    indexes := some indexes
    embeddings := embeddings
    sparse := sparse
    author := opts.author
    time := opts.time
    message := opts.message } : Commit Cid)

/-! ## The view -/

/-- `View::active_branch`. -/
def activeBranch (view : View Cid) : Option String :=
  match view.extra.get? "active_branch" with
  | some (.string branch) => some branch
  | _ => none

/-- The explicit override, or the branch inherited from the base view. -/
def effectiveActiveBranch : Option String :=
  tx.activeBranchOverride.or (activeBranch tx.base.view)

def applyRefUpdates (refs : OrdMap String (RefTarget Cid)) : OrdMap String (RefTarget Cid) :=
  tx.refUpdates.entries.foldl (fun refs update =>
    match update.2 with
    | some target => refs.insert update.1 target
    | none => refs.erase update.1) refs

/-- On the first commit, `refs/heads/main` is created and becomes the active branch. -/
def withFirstBranch (commitCid : Cid) (view : View Cid) : View Cid :=
  let isFirstCommit := tx.base.view.heads.isEmpty && tx.base.view.refs.entries.isEmpty
  if isFirstCommit && !view.refs.contains "refs/heads/main" then
    { view with
      refs := view.refs.insert "refs/heads/main" (.normal commitCid)
      extra := if tx.effectiveActiveBranch.isNone then
          view.extra.insert "active_branch" (.string "refs/heads/main")
        else view.extra }
  else view

/-- Stamp and add the staged tombstones, then drop the removed ones. -/
def withTombstones (now : Nat) (view : View Cid) : View Cid :=
  let added := tx.newTombstones.entries.foldl (fun tombstones t =>
    tombstones.insert t.1 { t.2 with tombstonedAt := now }) view.tombstones
  { view with tombstones := added.filterKeys fun id => !tx.removedTombstones.contains id }

/-- Record the active branch, and advance it unless it was updated explicitly. -/
def withActiveBranch (commitCid : Cid) (view : View Cid) : View Cid :=
  match tx.effectiveActiveBranch with
  | none => view
  | some branch =>
      { view with
        extra := view.extra.insert "active_branch" (.string branch)
        refs := if tx.refUpdates.contains branch then view.refs
          else view.refs.insert branch (.normal commitCid) }

def newView (commitCid : Cid) (now : Nat) : View Cid :=
  let view : View Cid := { tx.base.view with
    heads := [commitCid]
    refs := tx.applyRefUpdates tx.base.view.refs }
  tx.withActiveBranch commitCid (tx.withTombstones now (tx.withFirstBranch commitCid view))

/-! ## The operation -/

/-- The operation that a commit on `base` writes. -/
def newOperation (base : Cid) (opts : CommitOptions) (view : Cid) : Operation Cid where
  parents := [base]
  view := view
  author := opts.author
  agentId := opts.agentId
  taskId := opts.taskId
  time := opts.time
  description := "commit: " ++ opts.message

/-- Everything up to the write of the operation. -/
def writeOperation (opts : CommitOptions) : StoreM H Cid := do
  Exec.read fun s => tx.checkEdges s
  let commitCid ← tx.writeCommit opts
  let viewCid ← putObject (tx.newView commitCid opts.time)
  putObject (newOperation tx.base.opId opts viewCid)

def writeOperationBy (index : Cid → Cid → Cid → StoreM H Cid) (opts : CommitOptions) :
    StoreM H Cid := do
  Exec.read fun s => tx.checkEdges s
  let commitCid ← tx.writeCommitBy index opts
  let viewCid ← putObject (tx.newView commitCid opts.time)
  putObject (newOperation tx.base.opId opts viewCid)

/-- Finalize the transaction. -/
def commitOpts (opts : CommitOptions) : WorldM H (ReadonlyRepo Cid) := do
  let opCid ← onStore (tx.writeOperation opts)
  publish opts.linearize tx.base.opId opCid
  onStore (Exec.read fun s => ReadonlyRepo.loadAt s opCid)

/-- `commit_opts` with another way to build the indexes. -/
def commitBy (index : Cid → Cid → Cid → StoreM H Cid) (opts : CommitOptions) :
    WorldM H (ReadonlyRepo Cid) := do
  let opCid ← onStore (tx.writeOperationBy index opts)
  publish opts.linearize tx.base.opId opCid
  onStore (Exec.read fun s => ReadonlyRepo.loadAt s opCid)

/-- A lookup of the collision check that fails counts as a collision: the indexes are rebuilt. -/
def commitUnchecked (opts : CommitOptions) : WorldM H (ReadonlyRepo Cid) :=
  tx.commitBy (fun _ => buildIndexSet) opts

end Transaction

/-! ## What rebuilding a tree gives -/

theorem get?_rebuiltEntries (m additions : OrdMap ProllyKey Cid) (removals : OrdSet ProllyKey)
    (k : ProllyKey) :
    (rebuiltEntries m.entries additions removals).get? k =
      (additions.get? k).or (if k ∈ removals then none else m.get? k) := by
  have kept : OrdMap.ofList (m.entries.filter fun e => !removals.contains e.1) =
      m.filterKeys fun j => !removals.contains j :=
    OrdMap.ofList_entries (m.filterKeys fun j => !removals.contains j)
  rw [rebuiltEntries, kept, OrdMap.get?_insertAll_entries, OrdMap.get?_filterKeys]
  simp only [OrdSet.not_contains_iff, ite_not]

theorem rebuildTree_succeeds {s : Store H} {root : Cid} {m : OrdMap ProllyKey Cid}
    (tree : IsTree s root m) (additions : OrdMap ProllyKey Cid) (removals : OrdSet ProllyKey) :
    (rebuildTree root additions removals : StoreM H Cid).Succeeds s fun root' s' =>
      root' = treeRoot H (rebuiltEntries m.entries additions removals).entries ∧ s ≤ s' ∧
        IsTree s' root' (rebuiltEntries m.entries additions removals) :=
  Exec.succeeds_read_bind (entries_of_isTree tree) (buildTree_succeeds _ s)

/-- Additions and entries that stay are filed under their ids. -/
theorem table_rebuilt {α : Type} [Object Cid α] {idOf : α → ProllyKey} {s s' : Store H}
    {root root' : Cid} {m additions : OrdMap ProllyKey Cid} {removals : OrdSet ProllyKey}
    (table : Table idOf s root m) (le : s ≤ s')
    (filed : ∀ k cid, additions.get? k = some cid → ∃ a : α, s'.Loads cid a ∧ idOf a = k)
    (tree : IsTree s' root' (rebuiltEntries m.entries additions removals)) :
    Table idOf s' root' (rebuiltEntries m.entries additions removals) := by
  refine ⟨tree, fun k cid at_k => ?_⟩
  rw [get?_rebuiltEntries, Option.or_eq_some_iff] at at_k
  rcases at_k with added | ⟨-, stays⟩
  · exact filed k cid added
  · split at stays
    · cases stays
    · obtain ⟨a, loads, at_id⟩ := table.filed k cid stays
      exact ⟨a, loads.mono le, at_id⟩

/-! ## What rebuilding a sidecar gives -/

section Sidecars

variable {V : Type} [Object Cid (Bucket V)]

/-- The staged buckets, by sidecar key. -/
def stagedBuckets (H : Hashing Cid) (pending : OrdMap Cid (Bucket V)) :
    OrdMap ProllyKey (Bucket V) :=
  pending.entries.foldl (fun m e => m.insert (H.cidHash e.1) e.2.canonical) OrdMap.empty

/-- The buckets of a sidecar after a commit. -/
def rebuiltBuckets (base staged : OrdMap ProllyKey (Bucket V)) (removals : OrdSet ProllyKey) :
    OrdMap ProllyKey (Bucket V) :=
  (base.filterKeys fun k => !removals.contains k).insertAll staged.entries

theorem get?_rebuiltBuckets (base staged : OrdMap ProllyKey (Bucket V))
    (removals : OrdSet ProllyKey) (k : ProllyKey) :
    (rebuiltBuckets base staged removals).get? k =
      (staged.get? k).or (if k ∈ removals then none else base.get? k) := by
  rw [rebuiltBuckets, OrdMap.get?_insertAll_entries, OrdMap.get?_filterKeys]
  simp only [OrdSet.not_contains_iff, ite_not]

theorem bucketCids_insert (m : OrdMap ProllyKey (Bucket V)) (k : ProllyKey) (b : Bucket V) :
    bucketCids H (m.insert k b) = (bucketCids H m).insert k (H.cidOf (Object.toBlock b)) := by
  ext j : 1
  rw [get?_bucketCids, OrdMap.get?_insert, OrdMap.get?_insert, get?_bucketCids]
  split <;> rfl

/-- Writing buckets files exactly the staged ones. -/
theorem putBuckets_returns {pending : OrdMap Cid (Bucket V)} {s s' : Store H}
    {additions : OrdMap ProllyKey Cid}
    (ran : (putBuckets pending : StoreM H _).Returns s additions s') :
    additions = bucketCids H (stagedBuckets H pending) ∧ s ≤ s' ∧
      ∀ k b, (stagedBuckets H pending).get? k = some b →
        s'.Loads (H.cidOf (Object.toBlock b)) b := by
  refine Exec.returns_foldlM (fun before additions s₁ =>
    let m : OrdMap ProllyKey (Bucket V) :=
      before.foldl (fun m e => m.insert (H.cidHash e.1) e.2.canonical) OrdMap.empty
    additions = bucketCids H m ∧ s ≤ s₁ ∧
      ∀ k b, m.get? k = some b → s₁.Loads (H.cidOf (Object.toBlock b)) b)
    pending.entries ?_ ⟨rfl, le_refl s, fun _ _ h => by cases h⟩ ran
  rintro before e additions s₁ additions' s₂ - ⟨rfl, le, stored⟩ one
  obtain ⟨cid, s₃, put, done⟩ := Exec.returns_bind.mp one
  obtain ⟨rfl, rfl⟩ := Exec.returns_pure.mp done
  obtain ⟨rfl, le', loads⟩ := putObject_returns put
  simp only [List.foldl_append, List.foldl_cons, List.foldl_nil]
  refine ⟨(bucketCids_insert _ _ _).symm, le.trans le', fun k b found => ?_⟩
  rw [OrdMap.get?_insert] at found
  split at found
  · cases found
    exact loads
  · exact (stored k b found).mono le'

/-- A rebuilt sidecar holds the base's buckets under the staged ones. -/
theorem rebuildSidecar_returns {s s' : Store H} {root root' : Option Cid}
    {base : OrdMap ProllyKey (Bucket V)} {pending : OrdMap Cid (Bucket V)}
    {removals : OrdSet ProllyKey} (sidecar : Sidecar s root base)
    (ran : (rebuildSidecar root pending removals : StoreM H _).Returns s root' s') :
    s ≤ s' ∧ Sidecar s' root' (rebuiltBuckets base (stagedBuckets H pending) removals) := by
  unfold rebuildSidecar at ran
  split at ran
  · rename_i nothing
    simp only [Bool.and_eq_true, List.isEmpty_iff, Option.isNone_iff_eq_none] at nothing
    obtain ⟨rfl, rfl⟩ := Exec.returns_pure.mp ran
    have unchanged : rebuiltBuckets base (stagedBuckets H pending) removals = OrdMap.empty := by
      rw [sidecar.absent nothing.1.2, stagedBuckets, nothing.1.1]
      rfl
    rw [unchanged]
    exact ⟨le_refl s, sidecar_none s⟩
  · obtain ⟨root₁, s₁, first, ran⟩ := Exec.returns_bind.mp ran
    obtain ⟨additions, s₂, put, ran⟩ := Exec.returns_bind.mp ran
    obtain ⟨rebuilt, s₃, build, done⟩ := Exec.returns_bind.mp ran
    obtain ⟨rfl, rfl⟩ := Exec.returns_pure.mp done
    have opened : s ≤ s₁ ∧ IsTree s₁ root₁ (bucketCids H base) := by
      cases root with
      | some r =>
          obtain ⟨rfl, rfl⟩ := Exec.returns_pure.mp first
          exact ⟨le_refl s, sidecar.tree r rfl⟩
      | none =>
          rw [sidecar.absent rfl]
          exact ((buildTree_succeeds OrdMap.empty s).of_returns first).2
    obtain ⟨le₁, tree⟩ := opened
    obtain ⟨rfl, le₂, stored⟩ := putBuckets_returns put
    obtain ⟨-, le₃, tree'⟩ := (rebuildTree_succeeds (tree.mono le₂) _ removals).of_returns build
    have same : rebuiltEntries (bucketCids H base).entries
        (bucketCids H (stagedBuckets H pending)) removals =
        bucketCids H (rebuiltBuckets base (stagedBuckets H pending) removals) := by
      ext k : 1
      rw [get?_rebuiltEntries, get?_bucketCids, get?_bucketCids, get?_bucketCids,
        get?_rebuiltBuckets]
      cases (stagedBuckets H pending).get? k with
      | some b => rfl
      | none =>
          change (if k ∈ removals then none else _) =
            Option.map _ (if k ∈ removals then none else base.get? k)
          split <;> rfl
    rw [same] at tree'
    have le := (le₁.trans le₂).trans le₃
    refine ⟨le, fun r at_root => Option.some.inj at_root ▸ tree', nofun, fun k b found => ?_⟩
    rw [get?_rebuiltBuckets, Option.or_eq_some_iff] at found
    rcases found with staged | ⟨-, stays⟩
    · exact (stored k b staged).mono le₃
    · split at stays
      · cases stays
      · exact (sidecar.stored k b stays).mono le

end Sidecars

/-! ## Writing only adds -/

theorem rebuildTree_grows (root : Cid) (additions : OrdMap ProllyKey Cid)
    (removals : OrdSet ProllyKey) :
    Exec.Grows (rebuildTree root additions removals : StoreM H Cid) :=
  Exec.grows_bind (Exec.grows_read _) fun _ => buildTree_grows _

theorem rebuildSidecar_grows {V : Type} [Object Cid (Bucket V)] (root : Option Cid)
    (pending : OrdMap Cid (Bucket V)) (removals : OrdSet ProllyKey) :
    Exec.Grows (rebuildSidecar root pending removals : StoreM H _) := by
  unfold rebuildSidecar
  split
  · exact Exec.grows_pure _
  · refine Exec.grows_bind ?_ fun root => Exec.grows_bind ?_ fun additions =>
      Exec.grows_bind (rebuildTree_grows _ _ _) fun _ => Exec.grows_pure _
    · cases root with
      | none => exact buildTree_grows []
      | some r => exact Exec.grows_pure r
    · exact Exec.grows_foldlM (fun _ _ =>
        Exec.grows_bind (putObject_grows _) fun _ => Exec.grows_pure _) _ _

namespace Transaction

theorem newIndexes_grows (tx : Transaction Cid) (baseNodes nodes edges : Cid) :
    Exec.Grows (tx.newIndexes baseNodes nodes edges : StoreM H Cid) := by
  unfold newIndexes
  split
  · refine Exec.grows_bind (Exec.grows_read _) fun hasCollision => ?_
    split
    · exact buildIndexSet_grows _ _
    · exact incrementalAppendIndexes_grows _ _
  · exact buildIndexSet_grows _ _

theorem writeCommitBy_grows (tx : Transaction Cid) {index : Cid → Cid → Cid → StoreM H Cid}
    (grows : ∀ baseNodes nodes edges, Exec.Grows (index baseNodes nodes edges))
    (opts : CommitOptions) : Exec.Grows (tx.writeCommitBy index opts) := by
  refine Exec.grows_bind ?_ fun roots => Exec.grows_bind (rebuildTree_grows _ _ _) fun nodes =>
    Exec.grows_bind (rebuildTree_grows _ _ _) fun edges =>
    Exec.grows_bind (grows _ _ _) fun indexes =>
    Exec.grows_bind (Exec.grows_read _) fun removals =>
    Exec.grows_bind (rebuildSidecar_grows _ _ _) fun embeddings =>
    Exec.grows_bind (rebuildSidecar_grows _ _ _) fun sparse => putObject_grows _
  unfold baseRoots
  split
  · exact Exec.grows_pure _
  · exact Exec.grows_bind (buildTree_grows _) fun _ => Exec.grows_pure _

theorem writeOperationBy_grows (tx : Transaction Cid) {index : Cid → Cid → Cid → StoreM H Cid}
    (grows : ∀ baseNodes nodes edges, Exec.Grows (index baseNodes nodes edges))
    (opts : CommitOptions) : Exec.Grows (tx.writeOperationBy index opts) :=
  Exec.grows_bind (Exec.grows_read _) fun _ =>
    Exec.grows_bind (writeCommitBy_grows tx grows opts) fun _ =>
    Exec.grows_bind (putObject_grows _) fun _ => putObject_grows _

theorem writeCommit_grows (tx : Transaction Cid) (opts : CommitOptions) :
    Exec.Grows (tx.writeCommit opts : StoreM H Cid) :=
  writeCommitBy_grows tx (newIndexes_grows tx) opts

theorem writeOperation_grows (tx : Transaction Cid) (opts : CommitOptions) :
    Exec.Grows (tx.writeOperation opts : StoreM H Cid) :=
  writeOperationBy_grows tx (newIndexes_grows tx) opts

/-- The commit that is written stands on the first head of the base. -/
theorem writeCommit_loads {tx : Transaction Cid} {opts : CommitOptions} {s s' : Store H} {cid : Cid}
    (ran : (tx.writeCommit opts : StoreM H _).Returns s cid s') :
    ∃ commit : Commit Cid, s'.Loads cid commit ∧ commit.parents = tx.base.view.heads.head?.toList := by
  unfold writeCommit at ran
  obtain ⟨roots, s₁, -, ran⟩ := Exec.returns_bind.mp ran
  obtain ⟨nodes, s₂, -, ran⟩ := Exec.returns_bind.mp ran
  obtain ⟨edges, s₃, -, ran⟩ := Exec.returns_bind.mp ran
  obtain ⟨idx, s₄, -, ran⟩ := Exec.returns_bind.mp ran
  obtain ⟨removals, s₅, -, ran⟩ := Exec.returns_bind.mp ran
  obtain ⟨embeddings, s₆, -, ran⟩ := Exec.returns_bind.mp ran
  obtain ⟨sparse, s₇, -, put⟩ := Exec.returns_bind.mp ran
  obtain ⟨-, -, loads⟩ := putObject_returns put
  exact ⟨_, loads, rfl⟩

end Transaction

namespace Transaction

/-! ## What a commit writes -/

/-- The sidecar keys of the removed nodes that a node map holds. -/
def removedKeys (H : Hashing Cid) (tx : Transaction Cid) (nodes : OrdMap ProllyKey Cid) :
    OrdSet ProllyKey :=
  tx.removedNodes.keys.foldl (fun keys id =>
    (nodes.get? id).elim keys fun cid => OrdSet.add keys (H.cidHash cid)) OrdMap.empty

/-- The graph that a commit onto `g` holds. -/
def committed (H : Hashing Cid) (tx : Transaction Cid) (g : Graph Cid) : Graph Cid where
  nodes := rebuiltEntries g.nodes.entries tx.newNodes tx.removedNodes
  edges := rebuiltEntries g.edges.entries tx.newEdges tx.removedEdges
  embeddings := rebuiltBuckets g.embeddings (stagedBuckets H tx.pendingEmbeddings)
    (tx.removedKeys H g.nodes)
  sparse := rebuiltBuckets g.sparse (stagedBuckets H tx.pendingSparse) (tx.removedKeys H g.nodes)

variable {tx : Transaction Cid} {s s' : Store H} {g : Graph Cid}

theorem mem_removedKeys {nodes : OrdMap ProllyKey Cid} {k : ProllyKey} :
    k ∈ tx.removedKeys H nodes ↔
      ∃ id ∈ tx.removedNodes, ∃ cid, nodes.get? id = some cid ∧ H.cidHash cid = k := by
  have loop : ∀ (ids : List NodeId) (keys : OrdSet ProllyKey),
      k ∈ ids.foldl (fun keys id =>
        (nodes.get? id).elim keys fun cid => OrdSet.add keys (H.cidHash cid)) keys ↔
        k ∈ keys ∨ ∃ id ∈ ids, ∃ cid, nodes.get? id = some cid ∧ H.cidHash cid = k := by
    intro ids
    induction ids with
    | nil => simp
    | cons id ids ih =>
        intro keys
        rw [List.foldl_cons, ih]
        cases at_id : nodes.get? id with
        | none => simp [at_id]
        | some cid => simp [at_id, or_assoc, eq_comm, or_comm]
  rw [removedKeys, loop]
  simp [OrdSet.mem_keys]

theorem sidecarRemovals_of_isTree {root : Cid} {nodes : OrdMap ProllyKey Cid}
    (tree : IsTree s root nodes) : tx.sidecarRemovals s root = tx.removedKeys H nodes := by
  unfold sidecarRemovals removedKeys
  congr 1
  funext keys id
  rw [lookup_of_isTree tree]
  cases nodes.get? id <;> rfl

theorem baseRoots_returns {roots : Cid × Cid × Cid} (holds : HeadHolds s tx.base.commit g)
    (ran : (tx.baseRoots : StoreM H _).Returns s roots s') :
    s ≤ s' ∧ NodeTable s' roots.1 g.nodes ∧ EdgeTable s' roots.2.1 g.edges := by
  unfold baseRoots at ran
  cases at_head : tx.base.commit with
  | some commit =>
      rw [at_head] at ran holds
      obtain ⟨rfl, rfl⟩ := Exec.returns_pure.mp ran
      exact ⟨le_refl s, Stands.nodes holds, Stands.edges holds⟩
  | none =>
      rw [at_head] at ran holds
      obtain rfl : g = {} := holds
      obtain ⟨root, s₁, build, done⟩ := Exec.returns_bind.mp ran
      obtain ⟨rfl, rfl⟩ := Exec.returns_pure.mp done
      obtain ⟨-, le, tree⟩ := (buildTree_succeeds OrdMap.empty s).of_returns build
      exact ⟨le, ⟨tree, nofun⟩, ⟨tree, nofun⟩⟩

/-- Without removals and without new edges a commit writes the added nodes over the base's and
keeps the edges. -/
theorem committed_of_onlyAdds (noNodesRemoved : tx.removedNodes.entries = [])
    (noEdgesRemoved : tx.removedEdges.entries = []) (noEdges : tx.newEdges.entries = [])
    (g : Graph Cid) : (tx.committed H g).nodes = g.nodes.insertAll tx.newNodes.entries ∧
      (tx.committed H g).edges = g.edges := by
  have kept : ∀ {removals : OrdSet ProllyKey} (k : ProllyKey), removals.entries = [] →
      k ∉ removals := by
    intro removals k empty
    rw [OrdSet.mem_iff_get?, OrdMap.get?, empty]
    exact Option.some_ne_none () ∘ Eq.symm
  constructor
  · ext k : 1
    change (rebuiltEntries g.nodes.entries tx.newNodes tx.removedNodes).get? k = _
    rw [get?_rebuiltEntries, OrdMap.get?_insertAll_entries, if_neg (kept k noNodesRemoved)]
  · ext k : 1
    change (rebuiltEntries g.edges.entries tx.newEdges tx.removedEdges).get? k = _
    rw [get?_rebuiltEntries, OrdMap.get?, noEdges, if_neg (kept k noEdgesRemoved)]
    rfl

/-- A commit that only adds nodes writes them over the base's and keeps the edges. -/
theorem committed_of_appendOnly (appendOnly : tx.isAppendOnly = true) (g : Graph Cid) :
    (tx.committed H g).nodes = g.nodes.insertAll tx.newNodes.entries ∧
      (tx.committed H g).edges = g.edges := by
  simp only [isAppendOnly, Bool.and_eq_true, List.isEmpty_iff] at appendOnly
  obtain ⟨⟨⟨noNodesRemoved, noEdgesRemoved⟩, noEdges⟩, -⟩ := appendOnly
  exact committed_of_onlyAdds noNodesRemoved noEdgesRemoved noEdges g

/-- Without collisions the added ids are new. -/
theorem fresh_of_not_collides {baseNodes : Cid} (tree : IsTree s baseNodes g.nodes)
    (fresh : tx.newNodes.keys.any (collides s baseNodes) = false) (k : NodeId)
    (added : (tx.newNodes.get? k).isSome) : g.nodes.get? k = none := by
  have here := List.any_eq_false.mp fresh k (tx.newNodes.mem_keys_iff.mpr added)
  unfold collides at here
  rw [lookup_of_isTree tree] at here
  cases at_k : g.nodes.get? k with
  | none => rfl
  | some cid => simp [at_k] at here

/-- The rows of the added nodes. -/
theorem Staged.exists_rows (staged : Staged s tx) :
    ∃ rows : List (Row Cid (Node Cid)), ReadsRows s tx.newNodes.entries rows := by
  refine Index.exists_rows fun e m => ?_
  obtain ⟨n, loads, -⟩ := staged.nodes e.1 e.2 (tx.newNodes.get?_eq_some_iff.mpr m)
  exact ⟨n, loads⟩

/-- A way to build the indexes of what a transaction commits. -/
def BuildsIndexes (tx : Transaction Cid) (g : Graph Cid) (index : Cid → Cid → Cid → StoreM H Cid) :
    Prop :=
  ∀ {s s' : Store H} {baseNodes newNodesRoot newEdgesRoot idx : Cid},
    HeadHolds s tx.base.commit g → Staged s tx → NodeTable s baseNodes g.nodes →
    NodeTable s newNodesRoot (tx.committed H g).nodes →
    EdgeTable s newEdgesRoot (tx.committed H g).edges →
    (index baseNodes newNodesRoot newEdgesRoot).Returns s idx s' →
    s ≤ s' ∧ ∀ commit : Commit Cid, commit.indexes = some idx →
      IsIndexed s' commit (tx.committed H g)

theorem builds_buildIndexSet (tx : Transaction Cid) (g : Graph Cid) :
    tx.BuildsIndexes (H := H) g fun _ => buildIndexSet := by
  intro s s' _ newNodesRoot newEdgesRoot idx _ _ _ nodes edges built
  obtain ⟨nodeRows, nodesRead, -⟩ := nodes.rows
  obtain ⟨edgeRows, edgesRead, -⟩ := edges.rows
  obtain ⟨rfl, le, stored⟩ :=
    (buildIndexSet_succeeds nodes.tree edges.tree nodesRead edgesRead).of_returns built
  exact ⟨le, fun commit root => ⟨nodeRows, edgeRows, _, nodesRead.mono le, edgesRead.mono le,
    root, stored, covers_contentsOf edgeRows nodesRead.ascending⟩⟩

/-- Whichever path is taken, the index set covers the new trees. -/
theorem newIndexes_returns {baseNodes newNodesRoot newEdgesRoot idx : Cid}
    (holds : HeadHolds s tx.base.commit g) (staged : Staged s tx)
    (baseTable : NodeTable s baseNodes g.nodes)
    (nodes : NodeTable s newNodesRoot (tx.committed H g).nodes)
    (edges : EdgeTable s newEdgesRoot (tx.committed H g).edges)
    (ran : (tx.newIndexes baseNodes newNodesRoot newEdgesRoot : StoreM H _).Returns s idx s') :
    s ≤ s' ∧ ∀ commit : Commit Cid, commit.indexes = some idx →
      IsIndexed s' commit (tx.committed H g) := by
  obtain ⟨nodeRows, nodesRead, -⟩ := nodes.rows
  have rebuilt : (buildIndexSet newNodesRoot newEdgesRoot : StoreM H _).Returns s idx s' → _ :=
    builds_buildIndexSet tx g holds staged baseTable nodes edges
  unfold newIndexes at ran
  split at ran
  · rename_i _ _ baseIdx appendOnly indexed
    obtain ⟨hasCollision, s₁, read, ran⟩ := Exec.returns_bind.mp ran
    obtain ⟨collided, rfl⟩ := Exec.returns_read.mp read
    split at ran
    · exact rebuilt ran
    · rename_i noCollision
      obtain ⟨onlyAdded, sameEdges⟩ := committed_of_appendOnly (H := H) appendOnly g
      obtain ⟨commit, head, root⟩ := Option.bind_eq_some_iff.mp indexed
      rw [head] at holds
      obtain ⟨baseRows, baseEdges, c, baseRead, baseEdgesRead, root', stored, covers⟩ :=
        Stands.indexed holds
      obtain rfl : baseIdx = c.cid H := Option.some.inj (root.symm.trans root')
      obtain ⟨addedRows, addedRead⟩ := staged.exists_rows
      have fresh := fresh_of_not_collides baseTable.tree
        ((Except.ok.inj collided).trans (by simpa using noCollision))
      have appended := appended_of_reads fresh baseRead addedRead (onlyAdded ▸ nodesRead)
      obtain ⟨rfl, le, stored'⟩ :=
        (incrementalAppendIndexes_succeeds stored addedRead).of_returns ran
      exact ⟨le, fun commit root => ⟨nodeRows, baseEdges, _, nodesRead.mono le,
        sameEdges ▸ baseEdgesRead.mono le, root, stored', covers.append appended⟩⟩
  · exact rebuilt ran

/-- What a written commit is, and that it holds the staged changes. -/
theorem writeCommitBy_returns {index : Cid → Cid → Cid → StoreM H Cid} {opts : CommitOptions}
    {cid : Cid} (builds : tx.BuildsIndexes g index) (holds : HeadHolds s tx.base.commit g)
    (staged : Staged s tx) (ran : (tx.writeCommitBy index opts).Returns s cid s') :
    s ≤ s' ∧ ∃ commit : Commit Cid, s'.Loads cid commit ∧ Stands s' commit (tx.committed H g) ∧
      commit.parents = tx.base.view.heads.head?.toList := by
  unfold writeCommitBy at ran
  obtain ⟨roots, s₁, openRoots, ran⟩ := Exec.returns_bind.mp ran
  obtain ⟨nodes, s₂, buildNodes, ran⟩ := Exec.returns_bind.mp ran
  obtain ⟨edges, s₃, buildEdges, ran⟩ := Exec.returns_bind.mp ran
  obtain ⟨idx, s₄, indexing, ran⟩ := Exec.returns_bind.mp ran
  obtain ⟨removals, s₅, read, ran⟩ := Exec.returns_bind.mp ran
  obtain ⟨embeddings, s₆, buildEmbeddings, ran⟩ := Exec.returns_bind.mp ran
  obtain ⟨sparse, s₇, buildSparse, put⟩ := Exec.returns_bind.mp ran
  obtain ⟨le₁, baseNodes, baseEdges⟩ := baseRoots_returns holds openRoots
  obtain ⟨-, le₂, nodeTree⟩ := (rebuildTree_succeeds baseNodes.tree _ _).of_returns buildNodes
  obtain ⟨-, le₃, edgeTree⟩ :=
    (rebuildTree_succeeds (baseEdges.tree.mono le₂) _ _).of_returns buildEdges
  have to₃ := (le₁.trans le₂).trans le₃
  have nodeTable := table_rebuilt baseNodes (le₂.trans le₃) (staged.mono to₃).nodes
    (nodeTree.mono le₃)
  have edgeTable := table_rebuilt (baseEdges.mono le₂) le₃ (staged.mono to₃).edges edgeTree
  obtain ⟨le₄, indexed⟩ := builds (holds.mono to₃) (staged.mono to₃)
    (baseNodes.mono (le₂.trans le₃)) nodeTable edgeTable indexing
  obtain ⟨keys, rfl⟩ := Exec.returns_read.mp read
  have sidecarKeys : removals = tx.removedKeys H g.nodes := by
    rw [← sidecarRemovals_of_isTree (baseNodes.tree.mono ((le₂.trans le₃).trans le₄))]
    exact (Except.ok.inj keys).symm
  subst sidecarKeys
  have sidecars := (holds.mono (to₃.trans le₄)).sidecars
  obtain ⟨le₅, embeddingsHeld⟩ := rebuildSidecar_returns sidecars.1 buildEmbeddings
  obtain ⟨le₆, sparseHeld⟩ := rebuildSidecar_returns (sidecars.2.mono le₅) buildSparse
  obtain ⟨-, le₇, loads⟩ := putObject_returns put
  have from₃ := ((le₄.trans le₅).trans le₆).trans le₇
  exact ⟨to₃.trans from₃, _, loads, ⟨nodeTable.mono from₃, edgeTable.mono from₃,
    (indexed _ rfl).mono ((le₅.trans le₆).trans le₇), embeddingsHeld.mono (le₆.trans le₇),
    sparseHeld.mono le₇⟩, rfl⟩

theorem writeCommit_returns {opts : CommitOptions} {cid : Cid}
    (holds : HeadHolds s tx.base.commit g) (staged : Staged s tx)
    (ran : (tx.writeCommit opts : StoreM H _).Returns s cid s') :
    s ≤ s' ∧ ∃ commit : Commit Cid, s'.Loads cid commit ∧ Stands s' commit (tx.committed H g) ∧
      commit.parents = tx.base.view.heads.head?.toList :=
  writeCommitBy_returns newIndexes_returns holds staged ran

theorem newView_heads (commitCid : Cid) (now : Nat) :
    (tx.newView commitCid now).heads = [commitCid] := by
  unfold newView withActiveBranch withTombstones withFirstBranch
  split <;> dsimp only <;> split <;> rfl

/-- The operation of a commit is good, and its view has the commit as its only head. -/
theorem writeOperationBy_returns {index : Cid → Cid → Cid → StoreM H Cid} {P : Graph Cid → Prop}
    {opts : CommitOptions} {opCid : Cid} (builds : tx.BuildsIndexes g index)
    (pinned : Pinned P s tx.base g) (staged : Staged s tx)
    (kept : tx.checkEdges s = .ok () → P (tx.committed H g))
    (ran : (tx.writeOperationBy index opts).Returns s opCid s') :
    s ≤ s' ∧ tx.checkEdges s = .ok () ∧ ∃ commitCid, ∃ commit : Commit Cid, ∃ viewCid,
      s'.Loads commitCid commit ∧ Stands s' commit (tx.committed H g) ∧
      commit.parents = tx.base.view.heads.head?.toList ∧
      s'.Loads viewCid (tx.newView commitCid opts.time) ∧
      s'.Loads opCid (newOperation tx.base.opId opts viewCid) ∧ GoodOp P s' opCid := by
  unfold writeOperationBy at ran
  obtain ⟨_, s₁, check, ran⟩ := Exec.returns_bind.mp ran
  obtain ⟨checked, rfl⟩ := Exec.returns_read.mp check
  obtain ⟨commitCid, s₂, write, ran⟩ := Exec.returns_bind.mp ran
  obtain ⟨viewCid, s₃, putView, putOp⟩ := Exec.returns_bind.mp ran
  obtain ⟨le₁, commit, loads, stands, parents⟩ :=
    writeCommitBy_returns builds pinned.holds staged write
  obtain ⟨-, le₂, viewLoads⟩ := putObject_returns putView
  obtain ⟨-, le₃, opLoads⟩ := putObject_returns putOp
  have le := (le₁.trans le₂).trans le₃
  have after := le₂.trans le₃
  refine ⟨le, checked, commitCid, commit, viewCid, loads.mono after, stands.mono after, parents,
    viewLoads.mono le₃, opLoads,
    .intro _ _ opLoads (viewLoads.mono le₃) (fun h m => ?_) fun p m => ?_⟩
  · rw [newView_heads, List.mem_singleton] at m
    exact m ▸ ⟨commit, _, loads.mono after, stands.mono after, kept checked⟩
  · rw [newOperation, List.mem_singleton] at m
    exact m ▸ pinned.good.mono le

theorem writeOperation_returns {P : Graph Cid → Prop} {opts : CommitOptions} {opCid : Cid}
    (pinned : Pinned P s tx.base g) (staged : Staged s tx)
    (kept : tx.checkEdges s = .ok () → P (tx.committed H g))
    (ran : (tx.writeOperation opts : StoreM H _).Returns s opCid s') :
    s ≤ s' ∧ tx.checkEdges s = .ok () ∧ ∃ commitCid, ∃ commit : Commit Cid, ∃ viewCid,
      s'.Loads commitCid commit ∧ Stands s' commit (tx.committed H g) ∧
      commit.parents = tx.base.view.heads.head?.toList ∧
      s'.Loads viewCid (tx.newView commitCid opts.time) ∧
      s'.Loads opCid (newOperation tx.base.opId opts viewCid) ∧ GoodOp P s' opCid :=
  writeOperationBy_returns newIndexes_returns pinned staged kept ran

/-! ## The commit call -/

/-- What a commit that returns has done. -/
structure Committed (P : Graph Cid → Prop) (w : World H) (tx : Transaction Cid) (g : Graph Cid)
    (r : ReadonlyRepo Cid) (w' : World H) : Prop where
  grows : w ≤ w'
  checked : tx.checkEdges w.store = .ok ()
  pinned : Pinned P w'.store r (tx.committed H g)
  parents : r.op.parents = [tx.base.opId]
  heads : w'.opHeads = OpHeads.update w.opHeads r.opId [tx.base.opId]
  commit : ∃ commit, r.commit = some commit ∧
    commit.parents = tx.base.view.heads.head?.toList

/-- The repository that a commit returns, read from what it wrote. -/
theorem commitBy_loads {index : Cid → Cid → Cid → StoreM H Cid} {P : Graph Cid → Prop}
    {opts : CommitOptions} {w w' : World H} {r : ReadonlyRepo Cid}
    (builds : tx.BuildsIndexes g index) (pinned : Pinned P w.store tx.base g)
    (staged : Staged w.store tx) (kept : tx.checkEdges w.store = .ok () → P (tx.committed H g))
    (ran : (tx.commitBy index opts).Returns w r w') :
    w ≤ w' ∧ tx.checkEdges w.store = .ok () ∧
      w'.opHeads = OpHeads.update w.opHeads r.opId [tx.base.opId] ∧
      ∃ commitCid commit viewCid, r.op = newOperation tx.base.opId opts viewCid ∧
        r.view = tx.newView commitCid opts.time ∧ r.commit = some commit ∧
        w'.store.Loads commitCid commit ∧ commit.parents = tx.base.view.heads.head?.toList ∧
        Pinned P w'.store r (tx.committed H g) := by
  unfold commitBy at ran
  obtain ⟨opCid, w₁, write, ran⟩ := Exec.returns_bind.mp ran
  obtain ⟨_, w₂, advance, load⟩ := Exec.returns_bind.mp ran
  obtain ⟨wrote, sameHeads⟩ := returns_onStore.mp write
  obtain ⟨le, checked, commitCid, commit, viewCid, loads, stands, parents, viewLoads, opLoads,
    good⟩ := writeOperationBy_returns builds pinned staged kept wrote
  obtain rfl := publish_returns advance
  obtain ⟨loaded, sameHeads'⟩ := returns_onStore.mp load
  obtain ⟨at_op, sameStore⟩ := Exec.returns_read.mp loaded
  obtain ⟨rfl, g', pinned'⟩ := pinned_of_loadAt good at_op
  have sameOp : r.op = newOperation tx.base.opId opts viewCid := pinned'.op.unique opLoads
  have sameView : r.view = tx.newView commitCid opts.time :=
    (sameOp ▸ pinned'.view).unique viewLoads
  have head : r.commit = some commit := by
    have byHead := pinned'.commit
    rw [sameView, newView_heads] at byHead
    obtain ⟨commit', here, loads'⟩ := byHead
    rw [here, loads.unique loads']
  change w₁.store = w'.store at sameStore
  refine ⟨show w.store ≤ w'.store from sameStore ▸ le, checked, by rw [sameHeads', sameHeads],
    commitCid, commit, viewCid, sameOp, sameView, head, sameStore ▸ loads, parents, ?_⟩
  rw [← sameStore]
  exact ⟨good, pinned'.op, pinned'.view, pinned'.commit, by rw [head]; exact stands⟩

theorem commitOpts_loads {P : Graph Cid → Prop} {opts : CommitOptions} {w w' : World H}
    {r : ReadonlyRepo Cid} (pinned : Pinned P w.store tx.base g) (staged : Staged w.store tx)
    (kept : tx.checkEdges w.store = .ok () → P (tx.committed H g))
    (ran : (tx.commitOpts opts : WorldM H _).Returns w r w') :
    w ≤ w' ∧ tx.checkEdges w.store = .ok () ∧
      w'.opHeads = OpHeads.update w.opHeads r.opId [tx.base.opId] ∧
      ∃ commitCid commit viewCid, r.op = newOperation tx.base.opId opts viewCid ∧
        r.view = tx.newView commitCid opts.time ∧ r.commit = some commit ∧
        w'.store.Loads commitCid commit ∧ commit.parents = tx.base.view.heads.head?.toList ∧
        Pinned P w'.store r (tx.committed H g) :=
  commitBy_loads newIndexes_returns pinned staged kept ran

theorem commitOpts_returns {P : Graph Cid → Prop} {opts : CommitOptions} {w w' : World H}
    {r : ReadonlyRepo Cid} (pinned : Pinned P w.store tx.base g) (staged : Staged w.store tx)
    (kept : tx.checkEdges w.store = .ok () → P (tx.committed H g))
    (ran : (tx.commitOpts opts : WorldM H _).Returns w r w') : Committed P w tx g r w' := by
  obtain ⟨grows, checked, heads, commitCid, commit, viewCid, op, -, head, -, parents, pinned'⟩ :=
    commitOpts_loads pinned staged kept ran
  exact ⟨grows, checked, pinned', by rw [op, newOperation], heads, commit, head, parents⟩

theorem withTombstones_get? (view : View Cid) (now : Nat) (id : NodeId) :
    ((tx.withTombstones now view).tombstones.get? id).isSome ↔
      id ∉ tx.removedTombstones ∧
        ((tx.newTombstones.get? id).isSome ∨ (view.tombstones.get? id).isSome) := by
  have added : ∀ (new : List (NodeId × Tombstone)) (m : OrdMap NodeId Tombstone),
      ((new.foldl (fun m t => m.insert t.1 { t.2 with tombstonedAt := now }) m).get? id).isSome ↔
        id ∈ new.map Prod.fst ∨ (m.get? id).isSome := by
    intro new
    induction new with
    | nil => simp
    | cons t new ih =>
        intro m
        rw [List.foldl_cons, ih, OrdMap.get?_insert, List.map_cons, List.mem_cons]
        by_cases here : t.1 = id
        · simp [here]
        · simp [here, Ne.symm here]
  unfold withTombstones
  rw [OrdMap.get?_filterKeys]
  by_cases removed : id ∈ tx.removedTombstones
  · have cut : ¬ (!tx.removedTombstones.contains id) = true :=
      fun h => OrdSet.not_contains_iff.mp h removed
    rw [if_neg cut]
    exact iff_of_false Bool.noConfusion fun h => h.1 removed
  · rw [if_pos (OrdSet.not_contains_iff.mpr removed), and_iff_right removed]
    refine (added tx.newTombstones.entries view.tombstones).trans (or_congr_left ?_)
    exact tx.newTombstones.mem_keys_iff

/-- What a commit leaves tombstoned. -/
theorem newView_tombstones (commitCid : Cid) (now : Nat) (id : NodeId) :
    (tx.newView commitCid now).tombstones.contains id ↔
      id ∉ tx.removedTombstones ∧
        (tx.newTombstones.contains id ∨ tx.base.view.tombstones.contains id) := by
  have same : (tx.newView commitCid now).tombstones = (tx.withTombstones now (tx.withFirstBranch
      commitCid { tx.base.view with
        heads := [commitCid], refs := tx.applyRefUpdates tx.base.view.refs })).tombstones := by
    unfold newView withActiveBranch
    split <;> rfl
  have first : (tx.withFirstBranch commitCid { tx.base.view with
      heads := [commitCid], refs := tx.applyRefUpdates tx.base.view.refs }).tombstones =
      tx.base.view.tombstones := by
    unfold withFirstBranch
    dsimp only
    split <;> rfl
  have here := tx.withTombstones_get? (tx.withFirstBranch commitCid { tx.base.view with
    heads := [commitCid], refs := tx.applyRefUpdates tx.base.view.refs }) now id
  rw [first] at here
  rw [same]
  exact here

end Transaction

end Mnem.Repo
