/-
# Http.BulkNodes — `POST /v1/nodes/bulk`

The nodes of a batch are built first; then the handler commits them in groups,
one for each run of consecutive nodes with one effective author, each on top of
the repository that the last one left.  A group is published before the next
one starts, so after an error the repository has the groups that came before
it, and after a success its head has the last node of the batch for each id
(`postNodesBulk_groups`).

One access of the commit loop to the store may fail.  `StoreFailure` says where
in a group: before the operation heads are advanced, in the collision check,
which takes a failure for a collision, or at reading the new operation back.
-/
import Mnem.Http.NodeIdentity
import Mnem.Repo.CommitReturns
import Mathlib.Data.List.SplitBy

namespace Mnem.Http.BulkNodes

open Theory Theory.Utf8 Prolly Index Repo NodeIdentity Codec

set_option autoImplicit false
set_option linter.unusedSectionVars false

variable {Cid : Type} {H : Hashing Cid} [LinearOrder Cid]

/-! ## The request -/

structure BulkNode extends PostNodeBody where
  noEmbed : Bool := false
  canonical : Option String := none

structure BulkNodeBody where
  nodes : List BulkNode
  author : String
  message : Option String := none
  autoEmbed : Bool := true

inductive BulkError (Cid : Type) where
  | request (e : PostError)
  | internal (message : String)
  | repo (e : Error Cid)
  | storeFailed

/-- A dense provider; `embed` has the vector of a text, unless it fails. -/
structure Embedder where
  model : String
  embed : String → Option Embedding

structure SparseEncoder where
  vocabId : String
  encode : String → Option SparseEmbed

/-- What the handler reads of the server; a configured provider opens, or says why not. -/
structure Server where
  allowLabels : Bool := false
  parseUuid : String → Except String NodeId
  embedder : Option (Except String Embedder) := none
  sparser : Option (Except String SparseEncoder) := none

/-- What the handler draws from the generators and the clock. -/
structure Supplies where
  id : Nat → NodeId
  now : Nat → Nat := fun _ => 0
  change : Nat → ChangeId := fun _ => 0

def maxBulkNodes : Nat := 10000

def trimmed (s : String) : String := String.ofList (trim s.toList)

def validateAuthor (author : String) : Except PostError Unit := do
  refuseIf (trimmed author = "") (.badRequest "author is required")
  refuseIf (decide (maxAuthorLen < author.utf8ByteSize))
    (.badRequest "author exceeds maximum length of 255 bytes")

/-- The refusal of the node at a position. -/
def atNode (i : Nat) (refusal : String) : String := "nodes[" ++ toString i ++ "]: " ++ refusal

def checkNode (nb : BulkNode) (i : Nat) : Except PostError Unit := do
  refuseIf nb.canonical.isSome
    (.badRequest (atNode i "`canonical` is not supported in bulk mode; use POST /v1/nodes"))
  refuseIf nb.deterministic
    (.badRequest (atNode i "`deterministic` is not supported in bulk mode; use POST /v1/nodes"))
  within maxSummaryLen (atNode i "summary exceeds maximum length of 8192 bytes") nb.summary
  within maxContentLen (atNode i "content exceeds maximum length of 1048576 bytes") nb.content
  refuseIf (nb.author.any fun a => trimmed a = "")
    (.badRequest (atNode i "per-node `author` must not be blank when supplied"))
  refuseIf (nb.author.any fun a => decide (maxAuthorLen < (trimmed a).utf8ByteSize))
    (.badRequest (atNode i "per-node `author` exceeds maximum length of 255 bytes"))
  within maxMessageLen (atNode i "per-node `message` exceeds maximum length of 2000 bytes") nb.message

def checkBody (body : BulkNodeBody) : Except PostError Unit := do
  validateAuthor body.author
  validateMessage body.message
  refuseIf body.nodes.isEmpty (.badRequest "nodes must not be empty")
  refuseIf (decide (maxBulkNodes < body.nodes.length))
    (.badRequest ("nodes length " ++ toString body.nodes.length ++
      " exceeds maximum of 10000; split into smaller batches"))
  body.nodes.zipIdx.forM fun p => checkNode p.1 p.2

/-- Open a configured provider, or abort. -/
def openProvider {P : Type} (kind without : String) :
    Option (Except String P) → Except (BulkError Cid) (Option P)
  | none => .ok none
  | some (.ok p) => .ok (some p)
  | some (.error e) => .error (.internal (kind ++ " provider configured but open failed: " ++ e ++
      "; bulk aborted to avoid silent " ++ without ++ " commit"))

/-! ## Building -/

/-- A node to be committed, with the vectors to stage for it. -/
structure Built (Cid : Type) where
  effectiveAuthor : String
  node : Node Cid
  pendingDense : Option (String × Embedding) := none
  pendingSparseItem : Option (String × SparseEmbed) := none
  skippedEmbed : Bool := false

/-- What a node is told of the providers. -/
structure Providers where
  embedder : Option Embedder
  sparser : Option SparseEncoder

/-- The vectors of a text, and whether the dense provider failed. -/
def Providers.stage (ps : Providers) (b : Built Cid) : Option String → Built Cid
  | none => b
  | some text =>
      { b with
        pendingDense := ps.embedder.bind fun e => (e.embed text).map fun v => (e.model, v)
        pendingSparseItem := ps.sparser.bind fun e => (e.encode text).map fun v => (e.vocabId, v)
        skippedEmbed := ps.embedder.any fun e => (e.embed text).isNone }

def buildNode (server : Server) (ps : Providers) (author : String) (nb : BulkNode)
    (fresh : NodeId) : Except PostError (Built Cid) := do
  let label := postNodeLabel server.allowLabels nb.label
  let nodeId ← match nb.id with
    | some s => (server.parseUuid s).mapError .invalidId
    | none => .ok fresh
  let node ← storeJson
    { id := nodeId, ntype := label, summary := nb.summary, contextSentence := nb.contextSentence }
    (nb.props.getD [])
  let built : Built Cid :=
    { effectiveAuthor := ((nb.author.map trimmed).filter fun a => a ≠ "").getD author
      node := { node with content := nb.content.map utf8 } }
  return if nb.noEmbed then built
    else ps.stage built (node.summary.filter fun text => trimmed text ≠ "")

/-- Everything before the repository is locked. -/
def buildBulk (server : Server) (supplies : Supplies) (body : BulkNodeBody) :
    Except (BulkError Cid) (List (Built Cid)) := do
  (checkBody body).mapError .request
  let embedder ← openProvider "embed" "no-embed" (if body.autoEmbed then server.embedder else none)
  let sparser ← openProvider "sparse" "no-sparse" (if body.autoEmbed then server.sparser else none)
  (body.nodes.zipIdx.mapM fun p =>
    buildNode server ⟨embedder, sparser⟩ (trimmed body.author) p.1 (supplies.id p.2)).mapError .request

/-! ## The response -/

/-- One entry of the response; without an encoding a node has no CID. -/
structure BulkNodeEntry (Cid : Type) where
  id : NodeId
  cid : Option Cid
  label : String
  summary : Option String
  contextSentence : Option String
  contentBytes : Nat
  props : Props Cid
  hasEmbedding : Bool
  tombstoned : Bool

def entryOf (H : Hashing Cid) (b : Built Cid) : BulkNodeEntry Cid where
  id := b.node.id
  cid := if H.encodes (Object.toBlock b.node) then some (H.cidOf (Object.toBlock b.node)) else none
  label := b.node.ntype
  summary := b.node.summary
  contextSentence := b.node.contextSentence
  contentBytes := (b.node.content.map List.length).getD 0
  props := b.node.props
  hasEmbedding := b.pendingDense.isSome
  tombstoned := false

structure BulkNodeResp (Cid : Type) where
  opId : Cid
  results : List (BulkNodeEntry Cid)
  embedded : Nat
  skippedEmbed : Nat

/-! ## The commit loop -/

/-- The runs of consecutive nodes with one effective author. -/
def groups (built : List (Built Cid)) : List (List (Built Cid)) :=
  built.splitBy fun a b => a.effectiveAuthor == b.effectiveAuthor

def groupAuthor (group : List (Built Cid)) : String :=
  (group.head?.map Built.effectiveAuthor).getD ""

def stageBuilt (tx : Transaction Cid) (b : Built Cid) : StoreM H (Transaction Cid) := do
  let added ← tx.addNode b.node
  let tx ← Exec.read fun _ => b.pendingDense.elim (.ok added.2) fun p =>
    added.2.setEmbedding added.1 p.1 p.2
  Exec.read fun _ => b.pendingSparseItem.elim (.ok tx) fun p =>
    tx.setSparseEmbedding added.1 p.1 p.2

/-- A transaction with the nodes of a group, committed. -/
def commitGroup (commit : Transaction Cid → CommitOptions → WorldM H (ReadonlyRepo Cid))
    (r : ReadonlyRepo Cid) (opts : CommitOptions) (group : List (Built Cid)) :
    WorldM H (ReadonlyRepo Cid) := do
  let tx ← onStore (group.foldlM stageBuilt (Transaction.new r))
  commit tx opts

/-- Where an access to the store fails in a group: before the operation heads are advanced, with
these blocks written since the group began; in the collision check; or at reading the operation
back. -/
inductive StoreFailure (Cid : Type) where
  | beforeAdvance (written : List (Block Cid))
  | collisionCheck
  | readBack

/-- The repository behind its mutex, and the stores. -/
structure AppState (H : Hashing Cid) where
  world : World H
  repo : ReadonlyRepo Cid

abbrev HandlerM (H : Hashing Cid) (α : Type) := Exec (AppState H) (BulkError Cid) α

def onWorld {α : Type} (p : WorldM H α) : HandlerM H α :=
  ExceptT.mk fun st =>
    ((p.outcome st.world).1.mapError .repo, { st with world := (p.outcome st.world).2 })

/-- Blocks that were written, those that have an encoding. -/
def writeBlocks (s : Store H) (written : List (Block Cid)) : Store H :=
  written.foldl (fun s b => if ok : H.encodes b = true then s.insert b ok else s) s

/-- Commit a group and make it the repository. -/
def advance (commit : Transaction Cid → CommitOptions → WorldM H (ReadonlyRepo Cid))
    (opts : CommitOptions) (group : List (Built Cid)) : HandlerM H Unit := do
  let r ← Exec.read fun st => .ok st.repo
  let next ← onWorld (commitGroup commit r opts group)
  Exec.update fun st => ((), { st with repo := next })

/-- One turn of the commit loop. -/
def postGroup (failure : Option (StoreFailure Cid)) (opts : CommitOptions)
    (group : List (Built Cid)) : HandlerM H Unit :=
  match failure with
  | none => advance Transaction.commitOpts opts group
  | some .collisionCheck => advance Transaction.commitUnchecked opts group
  | some (.beforeAdvance written) => do
      Exec.update fun st =>
        ((), { st with world := { st.world with store := writeBlocks st.world.store written } })
      throw .storeFailed
  | some .readBack => do
      let r ← Exec.read fun st => .ok st.repo
      let _ ← onWorld (commitGroup Transaction.commitOpts r opts group)
      throw .storeFailed

def postGroups (failure : Nat → Option (StoreFailure Cid)) (opts : Nat → String → CommitOptions) :
    Nat → List (List (Built Cid)) → HandlerM H Unit
  | _, [] => pure ()
  | i, group :: rest => do
      postGroup (failure i) (opts i (groupAuthor group)) group
      postGroups failure opts (i + 1) rest

/-- The single failure, at the group it hits. -/
def failureAt (hit : Option (Nat × StoreFailure Cid)) (i : Nat) : Option (StoreFailure Cid) :=
  (hit.filter fun h => h.1 = i).map Prod.snd

def optionsOf (supplies : Supplies) (body : BulkNodeBody) (i : Nat) (author : String) :
    CommitOptions where
  author := author
  message := body.message.getD "mnem http bulk add"
  now := supplies.now i
  fresh := supplies.change i

/-- `post_nodes_bulk`. -/
def postNodesBulk (server : Server) (supplies : Supplies) (hit : Option (Nat × StoreFailure Cid))
    (body : BulkNodeBody) : HandlerM H (BulkNodeResp Cid) := do
  let built ← Exec.read fun _ => buildBulk server supplies body
  postGroups (failureAt hit) (optionsOf supplies body) 0 (groups built)
  let r ← Exec.read fun st => .ok st.repo
  return { opId := r.opId, results := built.map (entryOf H),
           embedded := built.countP fun b => b.pendingDense.isSome,
           skippedEmbed := built.countP Built.skippedEmbed }

/-! ## What a group publishes -/

/-- The ids and CIDs of a group, in order. -/
def entriesOf (H : Hashing Cid) (group : List (Built Cid)) : List (NodeId × Cid) :=
  group.map fun b => (b.node.id, H.cidOf (Object.toBlock b.node))

/-- A repository, what its head holds, and the operation heads. -/
structure Point (Cid : Type) [LinearOrder Cid] where
  repo : ReadonlyRepo Cid
  graph : Graph Cid
  heads : OrdSet Cid

/-- The server is at the point. -/
structure AppState.At (st : AppState H) (p : Point Cid) : Prop where
  repo : st.repo = p.repo
  heads : st.world.opHeads = p.heads
  pinned : Pinned (fun _ => True) st.world.store p.repo p.graph

/-- One commit on top of a point adds the group, the later of two nodes with one id. -/
structure OnTop (s : Store H) (opts : CommitOptions) (p : Point Cid) (group : List (Built Cid))
    (p' : Point Cid) : Prop where
  pinned : Pinned (fun _ => True) s p'.repo p'.graph
  op : ∃ view, p'.repo.op = Transaction.newOperation p.repo.opId opts view
  parents : ∃ commit, p'.repo.commit = some commit ∧
    commit.parents = p.repo.view.heads.head?.toList
  nodes : p'.graph.nodes = p.graph.nodes.insertAll (entriesOf H group)
  edges : p'.graph.edges = p.graph.edges
  heads : p'.heads = OpHeads.update p.heads p'.repo.opId [p.repo.opId]

theorem OnTop.mono {s s' : Store H} {opts : CommitOptions} {p p' : Point Cid}
    {group : List (Built Cid)} (onTop : OnTop s opts p group p') (le : s ≤ s') :
    OnTop s' opts p group p' :=
  { onTop with pinned := onTop.pinned.mono le }

/-- What staging has done after some nodes. -/
structure Collected (s₀ : Store H) (r : ReadonlyRepo Cid) (before : List (Built Cid))
    (tx : Transaction Cid) (s : Store H) : Prop where
  grows : s₀ ≤ s
  base : tx.base = r
  staged : Transaction.Staged s tx
  newNodes : tx.newNodes = OrdMap.empty.insertAll (entriesOf H before)
  removedNodes : tx.removedNodes = OrdMap.empty
  newEdges : tx.newEdges = OrdMap.empty
  removedEdges : tx.removedEdges = OrdMap.empty
  encodes : ∀ b ∈ before, H.encodes (Object.toBlock b.node) = true

/-- The transactions differ in the staged vectors only. -/
def Beside (tx tx' : Transaction Cid) : Prop :=
  ∃ dense sparse, tx' = { tx with pendingEmbeddings := dense, pendingSparse := sparse }

theorem setEmbedding_beside {tx tx' : Transaction Cid} {c : Cid} {model : String} {v : Embedding}
    (set : tx.setEmbedding c model v = .ok tx') : Beside tx tx' := by
  obtain ⟨pending, -, rfl⟩ := Exec.map_eq_ok.mp set
  exact ⟨pending, tx.pendingSparse, rfl⟩

theorem setSparseEmbedding_beside {tx tx' : Transaction Cid} {c : Cid} {vocabId : String}
    {v : SparseEmbed} (set : tx.setSparseEmbedding c vocabId v = .ok tx') : Beside tx tx' := by
  obtain ⟨pending, -, rfl⟩ := Exec.map_eq_ok.mp set
  exact ⟨tx.pendingEmbeddings, pending, rfl⟩

/-- A vector that is staged when there is one. -/
theorem beside_of_elim {α : Type} {pending : Option α} {tx tx' : Transaction Cid}
    {set : α → Except (Error Cid) (Transaction Cid)}
    (one : ∀ a tx', set a = .ok tx' → Beside tx tx')
    (ran : pending.elim (.ok tx) set = .ok tx') : Beside tx tx' := by
  cases pending with
  | none =>
      cases ran
      exact ⟨tx.pendingEmbeddings, tx.pendingSparse, rfl⟩
  | some a => exact one a tx' ran

theorem Collected.congr {s₀ s : Store H} {r : ReadonlyRepo Cid} {before : List (Built Cid)}
    {tx tx' : Transaction Cid} (collected : Collected s₀ r before tx s) (same : Beside tx tx') :
    Collected s₀ r before tx' s := by
  obtain ⟨dense, sparse, rfl⟩ := same
  exact { collected with staged := collected.staged.congr rfl rfl rfl rfl }

/-- One more node. -/
theorem Collected.stageBuilt {s₀ s s' : Store H} {r : ReadonlyRepo Cid} {before : List (Built Cid)}
    {tx tx' : Transaction Cid} {b : Built Cid} (collected : Collected s₀ r before tx s)
    (ran : (stageBuilt tx b : StoreM H _).Returns s tx' s') :
    Collected s₀ r (before ++ [b]) tx' s' := by
  unfold BulkNodes.stageBuilt at ran
  obtain ⟨added, s₁, add, ran⟩ := Exec.returns_bind.mp ran
  obtain ⟨tx₁, s₂, first, second⟩ := Exec.returns_bind.mp ran
  obtain ⟨dense, rfl⟩ := Exec.returns_read.mp first
  obtain ⟨sparse, rfl⟩ := Exec.returns_read.mp second
  obtain ⟨le, loads, staged⟩ := Transaction.addNode_returns add
  have here : Collected s₀ r (before ++ [b]) added.2 s₁ := by
    rw [staged]
    refine ⟨collected.grows.trans le, collected.base,
      (collected.staged.mono le).stageNode loads, ?_, ?_, collected.newEdges,
      collected.removedEdges, ?_⟩
    · change tx.newNodes.insert b.node.id added.1 = _
      rw [collected.newNodes, ← loads.cidOf]
      unfold entriesOf OrdMap.insertAll
      rw [List.map_append, List.foldl_append]
      rfl
    · change tx.removedNodes.remove b.node.id = _
      rw [collected.removedNodes]
      rfl
    · rw [List.forall_mem_append, List.forall_mem_singleton]
      exact ⟨collected.encodes, Store.encodes_of_get (Store.loads_iff.mp loads)⟩
  have withDense := here.congr (beside_of_elim (fun _ _ => setEmbedding_beside) dense)
  exact withDense.congr (beside_of_elim (fun _ _ => setSparseEmbedding_beside) sparse)

theorem collected_of_stages {s s' : Store H} {r : ReadonlyRepo Cid} {group : List (Built Cid)}
    {tx : Transaction Cid}
    (ran : (group.foldlM BulkNodes.stageBuilt (Transaction.new r) : StoreM H _).Returns s tx s') :
    Collected s r group tx s' := by
  refine Exec.returns_foldlM (fun before tx s₁ => Collected s r before tx s₁) group ?_ ?_ ran
  · intro before b tx s₁ tx' s₂ _ collected one
    exact collected.stageBuilt one
  · exact ⟨le_refl s, rfl, Transaction.staged_new s r, rfl, rfl, rfl, rfl, List.forall_mem_nil _⟩

theorem stageBuilt_grows (tx : Transaction Cid) (b : Built Cid) :
    Exec.Grows (stageBuilt tx b : StoreM H _) :=
  Exec.grows_bind (Transaction.addNode_grows tx b.node) fun _ =>
    Exec.grows_bind (Exec.grows_read _) fun _ => Exec.grows_read _

section Group

variable {index : Transaction Cid → Cid → Cid → Cid → StoreM H Cid}

/-- A group that goes through. -/
theorem commitGroup_returns (builds : ∀ tx g, Transaction.BuildsIndexes (H := H) tx g (index tx))
    {p : Point Cid} {w w' : World H} {opts : CommitOptions} {group : List (Built Cid)}
    {r' : ReadonlyRepo Cid} (pinned : Pinned (fun _ => True) w.store p.repo p.graph)
    (ran : (commitGroup (fun tx => tx.commitBy (index tx)) p.repo opts group).Returns w r' w') :
    w ≤ w' ∧ (∀ b ∈ group, H.encodes (Object.toBlock b.node) = true) ∧
      w'.opHeads = OpHeads.update w.opHeads r'.opId [p.repo.opId] ∧
      ∃ p', p'.repo = r' ∧ OnTop w'.store opts p group p' := by
  obtain ⟨r, g, before⟩ := p
  obtain ⟨tx, w₁, staging, commit⟩ := Exec.returns_bind.mp ran
  obtain ⟨stages, sameHeads⟩ := returns_onStore.mp staging
  have collected := collected_of_stages stages
  obtain rfl : tx.base = r := collected.base
  obtain ⟨grows, -, heads, commitCid, head, viewCid, op, -, atHead, -, parents, pinned'⟩ :=
    Transaction.commitBy_loads (builds tx g) (pinned.mono collected.grows) collected.staged
      (fun _ => trivial) commit
  have noNodesRemoved : tx.removedNodes.entries = [] := by rw [collected.removedNodes]; rfl
  have noEdgesRemoved : tx.removedEdges.entries = [] := by rw [collected.removedEdges]; rfl
  have noEdges : tx.newEdges.entries = [] := by rw [collected.newEdges]; rfl
  obtain ⟨nodes, edges⟩ :=
    Transaction.committed_of_onlyAdds (H := H) noNodesRemoved noEdgesRemoved noEdges g
  rw [sameHeads] at heads
  refine ⟨le_trans (show w ≤ w₁ from collected.grows) grows, collected.encodes, heads,
    ⟨r', tx.committed H g, OpHeads.update before r'.opId [tx.base.opId]⟩, rfl,
    ⟨pinned', ⟨viewCid, op⟩, ⟨head, atHead, parents⟩, ?_, edges, rfl⟩⟩
  rw [nodes, collected.newNodes]
  ext k : 1
  rw [OrdMap.get?_insertAll_entries, OrdMap.get?_insertAll, OrdMap.get?_insertAll,
    OrdMap.get?_empty, Option.or_none]

/-- A group that is refused has left the heads alone. -/
theorem commitGroup_fails (builds : ∀ tx g, Transaction.BuildsIndexes (H := H) tx g (index tx))
    (grows : ∀ tx baseNodes nodes edges, Exec.Grows (index tx baseNodes nodes edges))
    {p : Point Cid} {w w' : World H} {opts : CommitOptions} {group : List (Built Cid)}
    {e : Error Cid} (default : opts.linearize = false)
    (pinned : Pinned (fun _ => True) w.store p.repo p.graph)
    (fails : (commitGroup (fun tx => tx.commitBy (index tx)) p.repo opts group).Fails w e w') :
    w ≤ w' ∧ w'.opHeads = w.opHeads := by
  obtain ⟨r, g, before⟩ := p
  rcases Exec.fails_bind.mp fails with unstaged | ⟨tx, w₁, staging, commit⟩
  · obtain ⟨s', stopped, rfl⟩ := Exec.fails_zoom.mp unstaged
    exact ⟨(Exec.grows_foldlM stageBuilt_grows group _).of_fails stopped, rfl⟩
  · obtain ⟨stages, sameHeads⟩ := returns_onStore.mp staging
    have collected := collected_of_stages stages
    obtain rfl : tx.base = r := collected.base
    obtain ⟨le, heads⟩ := Transaction.commitBy_fails default (builds tx g) (grows tx)
      (pinned.mono collected.grows) collected.staged (fun _ => trivial) commit
    exact ⟨le_trans (show w ≤ w₁ from collected.grows) le, heads.trans sameHeads⟩

end Group

/-! ## One turn of the loop -/

theorem returns_onWorld {α : Type} {p : WorldM H α} {a : α} {st st' : AppState H} :
    (onWorld p).Returns st a st' ↔ p.Returns st.world a st'.world ∧ st'.repo = st.repo := by
  have shape : (onWorld p).outcome st =
      ((p.outcome st.world).1.mapError .repo, { st with world := (p.outcome st.world).2 }) := rfl
  unfold Exec.Returns
  rw [shape]
  rcases p.outcome st.world with ⟨e | b, w⟩
  · constructor
    · intro ran
      cases ran
    · rintro ⟨ran, -⟩
      cases ran
  · constructor
    · intro ran
      cases ran
      exact ⟨rfl, rfl⟩
    · rintro ⟨ran, same⟩
      cases ran
      exact Prod.ext rfl (by rw [← same])

theorem fails_onWorld {α : Type} {p : WorldM H α} {e : BulkError Cid} {st st' : AppState H}
    (fails : (onWorld p).Fails st e st') :
    st'.repo = st.repo ∧ ∃ cause, p.Fails st.world cause st'.world := by
  have shape : (onWorld p).outcome st =
      ((p.outcome st.world).1.mapError .repo, { st with world := (p.outcome st.world).2 }) := rfl
  unfold Exec.Fails at fails ⊢
  rw [shape] at fails
  rcases ended : p.outcome st.world with ⟨cause | b, w⟩
  · rw [ended] at fails
    cases fails
    exact ⟨rfl, cause, rfl⟩
  · rw [ended] at fails
    cases fails

theorem le_writeBlocks (s : Store H) (written : List (Block Cid)) : s ≤ writeBlocks s written := by
  induction written generalizing s with
  | nil => exact le_refl s
  | cons b written ih =>
      refine le_trans ?_ (ih _)
      dsimp only
      split
      · exact s.le_insert b _
      · exact le_refl s

theorem AppState.At.mono {st st' : AppState H} {p : Point Cid} (at_p : st.At p)
    (le : st.world ≤ st'.world) (repo : st'.repo = st.repo)
    (heads : st'.world.opHeads = st.world.opHeads) : st'.At p where
  repo := repo.trans at_p.repo
  heads := heads.trans at_p.heads
  pinned := at_p.pinned.mono le

/-- The turn published the group. -/
def Publishes (opts : CommitOptions) (group : List (Built Cid)) (p : Point Cid) (st st' : AppState H)
    (p' : Point Cid) : Prop :=
  st.world ≤ st'.world ∧ (∀ b ∈ group, H.encodes (Object.toBlock b.node) = true) ∧
    OnTop st'.world.store opts p group p' ∧ st'.world.opHeads = p'.heads

section Advance

variable (index : Transaction Cid → Cid → Cid → Cid → StoreM H Cid) {p : Point Cid}
  {st st' : AppState H} {opts : CommitOptions} {group : List (Built Cid)}

/-- A group committed on the repository of the server. -/
theorem onWorld_returns (builds : ∀ tx g, Transaction.BuildsIndexes (H := H) tx g (index tx))
    {r' : ReadonlyRepo Cid} (at_p : st.At p)
    (ran : (onWorld (commitGroup (fun tx => tx.commitBy (index tx)) st.repo opts group)).Returns
      st r' st') : ∃ p', p'.repo = r' ∧ st'.repo = p.repo ∧ Publishes opts group p st st' p' := by
  rw [at_p.repo] at ran
  obtain ⟨commit, repo⟩ := returns_onWorld.mp ran
  obtain ⟨le, encodes, heads, p', rfl, onTop⟩ := commitGroup_returns builds at_p.pinned commit
  exact ⟨p', rfl, repo.trans at_p.repo, le, encodes, onTop,
    by rw [heads, onTop.heads, at_p.heads]⟩

theorem onWorld_fails (builds : ∀ tx g, Transaction.BuildsIndexes (H := H) tx g (index tx))
    (grows : ∀ tx baseNodes nodes edges, Exec.Grows (index tx baseNodes nodes edges))
    (default : opts.linearize = false) {e : BulkError Cid} (at_p : st.At p)
    (fails : (onWorld (commitGroup (fun tx => tx.commitBy (index tx)) st.repo opts group)).Fails
      st e st') : st.world ≤ st'.world ∧ st'.At p := by
  rw [at_p.repo] at fails
  obtain ⟨repo, cause, stopped⟩ := fails_onWorld fails
  obtain ⟨le, heads⟩ := commitGroup_fails builds grows default at_p.pinned stopped
  exact ⟨le, at_p.mono le repo heads⟩

theorem advance_returns (builds : ∀ tx g, Transaction.BuildsIndexes (H := H) tx g (index tx))
    (at_p : st.At p)
    (ran : (advance (fun tx => tx.commitBy (index tx)) opts group).Returns st () st') :
    ∃ p', Publishes opts group p st st' p' ∧ st'.At p' := by
  obtain ⟨r, st₁, read, ran⟩ := Exec.returns_bind.mp ran
  obtain ⟨same, rfl⟩ := Exec.returns_read.mp read
  obtain rfl := Except.ok.inj same
  obtain ⟨next, st₂, commit, done⟩ := Exec.returns_bind.mp ran
  obtain ⟨p', rfl, -, publishes⟩ := onWorld_returns index builds at_p commit
  have moved := Exec.returns_update.mp done
  cases moved
  exact ⟨p', publishes, rfl, publishes.2.2.2, publishes.2.2.1.pinned⟩

theorem advance_fails (builds : ∀ tx g, Transaction.BuildsIndexes (H := H) tx g (index tx))
    (grows : ∀ tx baseNodes nodes edges, Exec.Grows (index tx baseNodes nodes edges))
    (default : opts.linearize = false) {e : BulkError Cid} (at_p : st.At p)
    (fails : (advance (fun tx => tx.commitBy (index tx)) opts group).Fails st e st') :
    st.world ≤ st'.world ∧ st'.At p := by
  rcases Exec.fails_bind.mp fails with stopped | ⟨r, st₁, read, fails⟩
  · cases (Exec.fails_read.mp stopped).1
  · obtain ⟨same, rfl⟩ := Exec.returns_read.mp read
    obtain rfl := Except.ok.inj same
    rcases Exec.fails_bind.mp fails with stopped | ⟨next, st₂, -, fails⟩
    · exact onWorld_fails index builds grows default at_p stopped
    · exact absurd fails Exec.not_fails_update

end Advance

/-! ## A turn with a failure -/

section Turn

variable {p : Point Cid} {st st' : AppState H} {opts : CommitOptions} {group : List (Built Cid)}
  {failure : Option (StoreFailure Cid)}

/-- A turn that goes on has published its group, and made it the repository. -/
theorem postGroup_returns (at_p : st.At p) (ran : (postGroup failure opts group).Returns st () st') :
    ∃ p', Publishes opts group p st st' p' ∧ st'.At p' := by
  rcases failure with _ | (written | _ | _)
  · exact advance_returns (fun tx => tx.newIndexes)
      (fun _ _ => Transaction.newIndexes_returns) at_p ran
  · obtain ⟨_, st₁, -, thrown⟩ := Exec.returns_bind.mp ran
    exact absurd thrown Exec.returns_throw
  · exact advance_returns (fun _ _ => buildIndexSet)
      (fun tx g => Transaction.builds_buildIndexSet tx g) at_p ran
  · obtain ⟨_, st₁, -, ran⟩ := Exec.returns_bind.mp ran
    obtain ⟨_, st₂, -, thrown⟩ := Exec.returns_bind.mp ran
    exact absurd thrown Exec.returns_throw

/-- A turn that stops has left the server where it was, or has published its group and could not
read it back. -/
theorem postGroup_fails (default : opts.linearize = false) {e : BulkError Cid} (at_p : st.At p)
    (fails : (postGroup failure opts group).Fails st e st') :
    st.world ≤ st'.world ∧ st'.At p ∨
      failure = some .readBack ∧ st'.repo = p.repo ∧ ∃ p', Publishes opts group p st st' p' := by
  rcases failure with _ | (written | _ | _)
  · exact .inl (advance_fails (fun tx => tx.newIndexes)
      (fun _ _ => Transaction.newIndexes_returns) Transaction.newIndexes_grows default at_p fails)
  · left
    rcases Exec.fails_bind.mp fails with stopped | ⟨_, st₁, wrote, thrown⟩
    · exact absurd stopped Exec.not_fails_update
    · have moved := Exec.returns_update.mp wrote
      obtain ⟨-, rfl⟩ := Exec.fails_throw.mp thrown
      cases moved
      have le := le_writeBlocks st.world.store written
      exact ⟨le, at_p.mono le rfl rfl⟩
  · exact .inl (advance_fails (fun _ _ => buildIndexSet)
      (fun tx g => Transaction.builds_buildIndexSet tx g)
      (fun _ _ nodes edges => buildIndexSet_grows nodes edges) default at_p fails)
  · rcases Exec.fails_bind.mp fails with stopped | ⟨r, st₁, read, fails⟩
    · cases (Exec.fails_read.mp stopped).1
    · obtain ⟨same, rfl⟩ := Exec.returns_read.mp read
      obtain rfl := Except.ok.inj same
      rcases Exec.fails_bind.mp fails with stopped | ⟨_, st₂, commit, thrown⟩
      · exact .inl (onWorld_fails (fun tx => tx.newIndexes)
          (fun _ _ => Transaction.newIndexes_returns) Transaction.newIndexes_grows default at_p
          stopped)
      · obtain ⟨-, rfl⟩ := Exec.fails_throw.mp thrown
        obtain ⟨p', -, repo, publishes⟩ := onWorld_returns (fun tx => tx.newIndexes)
          (fun _ _ => Transaction.newIndexes_returns) at_p commit
        exact .inr ⟨rfl, repo, p', publishes⟩

end Turn

/-! ## The loop -/

/-- The groups are committed in order, each on top of what the last one left. -/
inductive Published (s : Store H) (opts : Nat → String → CommitOptions) :
    Nat → Point Cid → List (List (Built Cid)) → Point Cid → Prop where
  | nil (i : Nat) (p : Point Cid) : Published s opts i p [] p
  | cons {i : Nat} {p p₁ p' : Point Cid} {group : List (Built Cid)} {rest : List (List (Built Cid))}
      (here : OnTop s (opts i (groupAuthor group)) p group p₁)
      (later : Published s opts (i + 1) p₁ rest p') : Published s opts i p (group :: rest) p'

/-- What an error leaves: the operation heads are those after some of the groups, and the
repository of the server is the one they made, or the one before the last of them, which could
not be read back. -/
def Stopped (failure : Nat → Option (StoreFailure Cid)) (opts : Nat → String → CommitOptions)
    (i : Nat) (p : Point Cid) (groups : List (List (Built Cid))) (st' : AppState H) : Prop :=
  ∃ published rest p', groups = published ++ rest ∧
    Published st'.world.store opts i p published p' ∧ st'.world.opHeads = p'.heads ∧
    (rest ≠ [] ∧ st'.repo = p'.repo ∨
      ∃ before last p₁, published = before ++ [last] ∧
        Published st'.world.store opts i p before p₁ ∧ st'.repo = p₁.repo ∧
        failure (i + before.length) = some .readBack)

section Loop

variable {failure : Nat → Option (StoreFailure Cid)} {opts : Nat → String → CommitOptions}

theorem postGroups_returns {i : Nat} {groups : List (List (Built Cid))} {p : Point Cid}
    {st st' : AppState H} (at_p : st.At p)
    (ran : (postGroups failure opts i groups).Returns st () st') :
    st.world ≤ st'.world ∧ (∀ b ∈ groups.flatten, H.encodes (Object.toBlock b.node) = true) ∧
      ∃ p', Published st'.world.store opts i p groups p' ∧ st'.At p' := by
  induction groups generalizing i p st with
  | nil =>
      obtain ⟨-, rfl⟩ := Exec.returns_pure.mp ran
      exact ⟨le_refl _, List.forall_mem_nil _, p, .nil i p, at_p⟩
  | cons group rest ih =>
      obtain ⟨_, st₁, turn, others⟩ := Exec.returns_bind.mp ran
      obtain ⟨p₁, ⟨le₁, encodes₁, onTop, -⟩, at_p₁⟩ := postGroup_returns at_p turn
      obtain ⟨le₂, encodes₂, p', published, at_p'⟩ := ih at_p₁ others
      refine ⟨le_trans le₁ le₂, ?_, p', .cons (onTop.mono le₂) published, at_p'⟩
      rw [List.flatten_cons, List.forall_mem_append]
      exact ⟨encodes₁, encodes₂⟩

/-- A group before the loop was published. -/
theorem Stopped.cons {i : Nat} {p p₁ : Point Cid} {group : List (Built Cid)}
    {rest : List (List (Built Cid))} {st' : AppState H}
    (onTop : OnTop st'.world.store (opts i (groupAuthor group)) p group p₁)
    (stopped : Stopped failure opts (i + 1) p₁ rest st') :
    Stopped failure opts i p (group :: rest) st' := by
  obtain ⟨published, left, p', rfl, commits, heads, ends⟩ := stopped
  refine ⟨group :: published, left, p', rfl, .cons onTop commits, heads, ends.imp_right ?_⟩
  rintro ⟨before, last, p₂, rfl, earlier, repo, unread⟩
  refine ⟨group :: before, last, p₂, rfl, .cons onTop earlier, repo, ?_⟩
  rw [List.length_cons, ← unread]
  congr 1
  omega

theorem postGroups_fails (default : ∀ i author, (opts i author).linearize = false) {i : Nat}
    {groups : List (List (Built Cid))} {p : Point Cid} {st st' : AppState H} {e : BulkError Cid}
    (at_p : st.At p) (fails : (postGroups failure opts i groups).Fails st e st') :
    st.world ≤ st'.world ∧ Stopped failure opts i p groups st' := by
  induction groups generalizing i p st with
  | nil => exact absurd fails Exec.not_fails_pure
  | cons group rest ih =>
      rcases Exec.fails_bind.mp fails with stops | ⟨_, st₁, turn, later⟩
      · rcases postGroup_fails (default _ _) at_p stops with
          ⟨le, refused⟩ | ⟨unread, repo, p', le, -, onTop, heads⟩
        · exact ⟨le, [], group :: rest, p, rfl, .nil i p, refused.heads,
            .inl ⟨List.cons_ne_nil _ _, refused.repo⟩⟩
        · exact ⟨le, [group], rest, p', rfl, .cons onTop (.nil _ _), heads,
            .inr ⟨[], group, p, rfl, .nil i p, repo, unread⟩⟩
      · obtain ⟨p₁, ⟨le₁, -, onTop, -⟩, at_p₁⟩ := postGroup_returns at_p turn
        obtain ⟨le₂, stopped⟩ := ih at_p₁ later
        exact ⟨le_trans le₁ le₂, stopped.cons (onTop.mono le₂)⟩

/-- The nodes after the groups: the base's under those of the batch. -/
theorem Published.nodes {s : Store H} {i : Nat} {groups : List (List (Built Cid))} {p p' : Point Cid}
    (published : Published s opts i p groups p') :
    p'.graph.nodes = p.graph.nodes.insertAll (entriesOf H groups.flatten) := by
  induction published with
  | nil i p => rfl
  | @cons i p p₁ p' group rest here _ ih =>
      unfold entriesOf OrdMap.insertAll at ih ⊢
      rw [ih, here.nodes, List.flatten_cons, List.map_append, List.foldl_append]
      rfl

end Loop

/-! ## The groups of a batch -/

section Groups

variable {built : List (Built Cid)}

/-- A group has one author. -/
theorem author_of_mem_groups {group : List (Built Cid)} (m : group ∈ groups built) {b : Built Cid}
    (inGroup : b ∈ group) : b.effectiveAuthor = groupAuthor group := by
  have chain : group.IsChain fun a b => a.effectiveAuthor = b.effectiveAuthor :=
    (List.isChain_of_mem_splitBy m).imp fun _ _ same => beq_iff_eq.mp same
  cases group with
  | nil => cases inGroup
  | cons first rest =>
      rcases List.mem_cons.mp inGroup with rfl | later
      · rfl
      · have trans : IsTrans (Built Cid) fun a b => a.effectiveAuthor = b.effectiveAuthor :=
          ⟨fun _ _ _ => Eq.trans⟩
        exact ((List.pairwise_cons.mp chain.pairwise).1 b later).symm

/-- Neighbouring groups have different authors. -/
theorem groups_apart (built : List (Built Cid)) :
    (groups built).IsChain fun a b => groupAuthor a ≠ groupAuthor b := by
  have chain := List.isChain_getLast_head_splitBy
    (fun a b : Built Cid => a.effectiveAuthor == b.effectiveAuthor) built
  refine List.IsChain.imp_of_mem_imp ?_ chain
  rintro a b inGroups inGroups' ⟨ha, hb, apart⟩ same
  rw [← author_of_mem_groups inGroups (List.getLast_mem ha),
    ← author_of_mem_groups inGroups' (List.head_mem hb)] at same
  rw [beq_eq_false_iff_ne] at apart
  exact apart same

end Groups

/-- The maximal runs of consecutive nodes with one author. -/
structure AuthorRuns (built : List (Built Cid)) (runs : List (List (Built Cid))) : Prop where
  flatten : runs.flatten = built
  nonempty : ∀ run ∈ runs, run ≠ []
  author : ∀ run ∈ runs, ∀ b ∈ run, b.effectiveAuthor = groupAuthor run
  apart : runs.IsChain fun a b => groupAuthor a ≠ groupAuthor b

theorem authorRuns_groups (built : List (Built Cid)) : AuthorRuns built (groups built) where
  flatten := List.flatten_splitBy _ built
  nonempty _ m := List.ne_nil_of_mem_splitBy m
  author _ m _ inGroup := author_of_mem_groups m inGroup
  apart := groups_apart built

/-! ## What the head has -/

section Last

variable (m : OrdMap NodeId Cid)

theorem get?_insertAll_last {es before after : List (NodeId × Cid)} {e : NodeId × Cid}
    (split : es = before ++ e :: after) (last : ∀ f ∈ after, f.1 ≠ e.1) :
    (m.insertAll es).get? e.1 = some e.2 := by
  rw [OrdMap.get?_insertAll, Entries.get?_reverse_eq_some_iff.mpr ⟨before, after, split, last⟩]
  rfl

/-- Each entry is there exactly where none is overwritten with another CID. -/
theorem insertAll_keeps_iff (es : List (NodeId × Cid)) :
    (∀ e ∈ es, (m.insertAll es).get? e.1 = some e.2) ↔
      ∀ e ∈ es, ∀ f ∈ es, e.1 = f.1 → e.2 = f.2 := by
  constructor
  · intro kept e inE f inF same
    have first := kept e inE
    rw [same, kept f inF] at first
    exact (Option.some.inj first).symm
  · intro agree e inE
    cases found : Entries.get? e.1 es.reverse with
    | none => exact absurd rfl (Entries.get?_eq_none_iff.mp found e (List.mem_reverse.mpr inE))
    | some c =>
        have last : (e.1, c) ∈ es := List.mem_reverse.mp (Entries.mem_of_get? found)
        rw [OrdMap.get?_insertAll, found, agree e inE (e.1, c) last rfl]
        rfl

end Last

/-- The head commit of the server's repository has the id of the entry with its CID. -/
def HoldsEntry (st : AppState H) (entry : BulkNodeEntry Cid) : Prop :=
  ∃ c, entry.cid = some c ∧ st.repo.nodeCid st.world.store entry.id = some c

theorem holdsEntry_iff {st : AppState H} {p : Point Cid} (at_p : st.At p) {b : Built Cid}
    (encodes : H.encodes (Object.toBlock b.node) = true) :
    HoldsEntry st (entryOf H b) ↔
      p.graph.nodes.get? b.node.id = some (H.cidOf (Object.toBlock b.node)) := by
  unfold HoldsEntry
  rw [at_p.repo, at_p.pinned.nodeCid_eq, entryOf, if_pos encodes]
  constructor
  · rintro ⟨c, same, found⟩
    rw [Option.some.inj same]
    exact found
  · exact fun found => ⟨_, rfl, found⟩

section Success

variable {st : AppState H} {p : Point Cid} {built : List (Built Cid)} {m : OrdMap NodeId Cid}

/-- The head has the last entry for each id. -/
theorem holdsEntry_of_last (at_p : st.At p)
    (nodes : p.graph.nodes = m.insertAll (entriesOf H built))
    (encodes : ∀ b ∈ built, H.encodes (Object.toBlock b.node) = true)
    {before after : List (BulkNodeEntry Cid)} {entry : BulkNodeEntry Cid}
    (split : built.map (entryOf H) = before ++ entry :: after)
    (last : ∀ later ∈ after, later.id ≠ entry.id) : HoldsEntry st entry := by
  obtain ⟨first, others, rfl, rfl, more⟩ := List.map_eq_append_iff.mp split
  obtain ⟨b, rest, rfl, rfl, rfl⟩ := List.map_eq_cons_iff.mp more
  have inBatch : b ∈ first ++ b :: rest := List.mem_append_right _ List.mem_cons_self
  have split' : entriesOf H (first ++ b :: rest) = entriesOf H first ++
      (b.node.id, H.cidOf (Object.toBlock b.node)) :: entriesOf H rest := List.map_append ..
  rw [holdsEntry_iff at_p (encodes b inBatch), nodes]
  refine get?_insertAll_last m split' ?_
  exact List.forall_mem_map.mpr fun c inRest => last _ (List.mem_map_of_mem inRest)

/-- It has every entry exactly where a repeated id comes with one CID. -/
theorem holdsAll_iff (at_p : st.At p) (nodes : p.graph.nodes = m.insertAll (entriesOf H built))
    (encodes : ∀ b ∈ built, H.encodes (Object.toBlock b.node) = true) :
    (∀ entry ∈ built.map (entryOf H), HoldsEntry st entry) ↔
      ∀ e ∈ built.map (entryOf H), ∀ f ∈ built.map (entryOf H), e.id = f.id → e.cid = f.cid := by
  have held : ∀ b ∈ built, HoldsEntry st (entryOf H b) ↔
      (m.insertAll (entriesOf H built)).get? b.node.id =
        some (H.cidOf (Object.toBlock b.node)) := by
    intro b inBatch
    rw [holdsEntry_iff at_p (encodes b inBatch), nodes]
  have cids : ∀ b ∈ built, (entryOf H b).cid = some (H.cidOf (Object.toBlock b.node)) :=
    fun b inBatch => if_pos (encodes b inBatch)
  have keeps := insertAll_keeps_iff m (entriesOf H built)
  simp only [entriesOf, List.forall_mem_map] at keeps held ⊢
  refine (forall₂_congr held).trans (keeps.trans ?_)
  refine forall₂_congr fun b inBatch => forall₂_congr fun c inBatch' => ?_
  rw [cids b inBatch, cids c inBatch', Option.some.injEq]
  rfl

end Success

/-- **A bulk post publishes its batch author by author.** -/
theorem postNodesBulk_groups (server : Server) (supplies : Supplies)
    (hit : Option (Nat × StoreFailure Cid)) (body : BulkNodeBody) (st : AppState H) (g : Graph Cid)
    (pinned : Pinned (fun _ => True) st.world.store st.repo g) :
    (∀ resp st', (postNodesBulk server supplies hit body).Returns st resp st' →
      ∃ built p', buildBulk server supplies body = .ok built ∧
        resp.results = built.map (entryOf H) ∧ resp.opId = p'.repo.opId ∧
        AuthorRuns built (groups built) ∧
        Published st'.world.store (optionsOf supplies body) 0 ⟨st.repo, g, st.world.opHeads⟩
          (groups built) p' ∧ st'.At p' ∧
        (∀ before entry after, resp.results = before ++ entry :: after →
          (∀ later ∈ after, later.id ≠ entry.id) → HoldsEntry st' entry) ∧
        ((∀ entry ∈ resp.results, HoldsEntry st' entry) ↔
          ∀ e ∈ resp.results, ∀ f ∈ resp.results, e.id = f.id → e.cid = f.cid)) ∧
    ∀ e st', (postNodesBulk server supplies hit body).Fails st e st' →
      (∃ cause, buildBulk server supplies body = (.error cause : Except (BulkError Cid) _) ∧
        st' = st) ∨
      ∃ built, buildBulk server supplies body = .ok built ∧ AuthorRuns built (groups built) ∧
        st.world ≤ st'.world ∧ Stopped (failureAt hit) (optionsOf supplies body) 0
          ⟨st.repo, g, st.world.opHeads⟩ (groups built) st' := by
  have start : st.At ⟨st.repo, g, st.world.opHeads⟩ := ⟨rfl, rfl, pinned⟩
  constructor
  · intro resp st' ran
    obtain ⟨built, st₁, read, ran⟩ := Exec.returns_bind.mp ran
    obtain ⟨builds, rfl⟩ := Exec.returns_read.mp read
    obtain ⟨_, st₂, loop, ran⟩ := Exec.returns_bind.mp ran
    obtain ⟨r, st₃, read, done⟩ := Exec.returns_bind.mp ran
    obtain ⟨same, rfl⟩ := Exec.returns_read.mp read
    obtain ⟨rfl, rfl⟩ := Exec.returns_pure.mp done
    obtain rfl := Except.ok.inj same
    obtain ⟨-, encodes, p', published, at_p'⟩ := postGroups_returns start loop
    have runs := authorRuns_groups built
    have nodes := published.nodes
    rw [runs.flatten] at encodes nodes
    exact ⟨built, p', builds, rfl, congrArg ReadonlyRepo.opId at_p'.repo, runs, published, at_p',
      fun _ _ _ split last => holdsEntry_of_last at_p' nodes encodes split last,
      holdsAll_iff at_p' nodes encodes⟩
  · intro e st' fails
    rcases Exec.fails_bind.mp fails with refused | ⟨built, st₁, read, fails⟩
    · obtain ⟨error, rfl⟩ := Exec.fails_read.mp refused
      exact .inl ⟨e, error, rfl⟩
    · obtain ⟨builds, rfl⟩ := Exec.returns_read.mp read
      rcases Exec.fails_bind.mp fails with stops | ⟨_, st₂, -, fails⟩
      · obtain ⟨le, stopped⟩ := postGroups_fails (fun _ _ => rfl) start stops
        exact .inr ⟨built, builds, authorRuns_groups built, le, stopped⟩
      · rcases Exec.fails_bind.mp fails with stopped | ⟨_, _, -, fails⟩
        · cases (Exec.fails_read.mp stopped).1
        · exact absurd fails Exec.not_fails_pure

/-! ## Two batches -/

/-- A server on a new repository. -/
def freshServer : WorldM shortHashing (AppState shortHashing) := do
  let root ← init 0
  onStore (Exec.read fun s => .ok ⟨⟨s, OpHeads.update OrdMap.empty root.opId []⟩, root⟩)

theorem freshServer_returns {st : AppState shortHashing} {w' : World shortHashing}
    (ran : freshServer.Returns {} st w') :
    Pinned (fun _ => True) st.world.store st.repo {} := by
  obtain ⟨root, w₁, start, ran⟩ := Exec.returns_bind.mp ran
  obtain ⟨-, pinned, -, -⟩ := init_returns start
  obtain ⟨read, -⟩ := returns_onStore.mp ran
  obtain ⟨same, -⟩ := Exec.returns_read.mp read
  obtain rfl := Except.ok.inj same
  exact pinned

/-- The server reads one UUID. -/
def oneUuid : Server where
  parseUuid s := if s = "00000000-0000-0000-0000-000000000001" then .ok 1 else .error "invalid UUID"

def numbered : Supplies where
  id i := if i = 0 then 2 else 3

/-- Two nodes of two authors. -/
def twoAuthors : BulkNodeBody where
  nodes := [{ author := some "ada" }, { author := some "bob" }]
  author := "ada"

/-- One id, with two summaries. -/
def oneIdTwice : BulkNodeBody where
  nodes := [{ id := some "00000000-0000-0000-0000-000000000001", summary := some "first" },
    { id := some "00000000-0000-0000-0000-000000000001", summary := some "second" }]
  author := "ada"

/-- The commit of the second author fails: the first one's stays. -/
def tornRun (st : AppState shortHashing) : Bool :=
  (postNodesBulk oneUuid numbered (some (1, .beforeAdvance [])) twoAuthors).checkError st fun st' =>
    st.repo.view.heads.isEmpty && !st'.repo.view.heads.isEmpty &&
      decide (OpHeads.current st'.world.opHeads = [st'.repo.opId])

/-- The entry of the node that was overwritten. -/
def lossyRun (st : AppState shortHashing) : Bool :=
  (postNodesBulk oneUuid numbered none oneIdTwice).check st fun resp st' =>
    resp.results.any fun entry =>
      decide (st'.repo.nodeCid st'.world.store entry.id ≠ entry.cid)

theorem freshServer_runs : freshServer.check {} (fun st _ => tornRun st && lossyRun st) = true := by
  delta freshServer tornRun lossyRun
  rw [shortHashing_eq_quickHashing]
  decide +kernel

/-- A post of two authors that fails leaves the view of its first group; a post that succeeds has
lost the first of two nodes with one id. -/
theorem bulk_post_tears : ∃ st : AppState shortHashing,
    Pinned (fun _ => True) st.world.store st.repo {} ∧
    (∃ e st', (postNodesBulk oneUuid numbered (some (1, .beforeAdvance [])) twoAuthors).Fails
        st e st' ∧ OpHeads.current st'.world.opHeads = [st'.repo.opId] ∧
      st'.repo.view ≠ st.repo.view) ∧
    ∃ resp st', (postNodesBulk oneUuid numbered none oneIdTwice).Returns st resp st' ∧
      ∃ entry ∈ resp.results, ¬ HoldsEntry st' entry := by
  obtain ⟨st, w, ran, passed⟩ := Exec.exists_of_check freshServer_runs
  obtain ⟨torn, lossy⟩ := Bool.and_eq_true_iff.mp passed
  refine ⟨st, freshServer_returns ran, ?_, ?_⟩
  · obtain ⟨e, st', fails, test⟩ := Exec.exists_of_checkError torn
    simp only [Bool.and_eq_true, Bool.not_eq_true', decide_eq_true_eq] at test
    obtain ⟨⟨empty, nonempty⟩, alone⟩ := test
    refine ⟨e, st', fails, alone, fun same => ?_⟩
    rw [same, empty] at nonempty
    cases nonempty
  · obtain ⟨resp, st', returns, test⟩ := Exec.exists_of_check lossy
    obtain ⟨entry, member, lost⟩ := List.any_eq_true.mp test
    refine ⟨resp, st', returns, entry, member, ?_⟩
    rintro ⟨c, has, found⟩
    exact of_decide_eq_true lost (found.trans has.symm)

/-- There the id that is repeated has two CIDs. -/
theorem postNodesBulk_groups_twice : ∃ (st st' : AppState shortHashing) (resp : BulkNodeResp ℕ),
    (postNodesBulk oneUuid numbered none oneIdTwice).Returns st resp st' ∧
      ¬ ∀ e ∈ resp.results, ∀ f ∈ resp.results, e.id = f.id → e.cid = f.cid := by
  obtain ⟨st, w, ran, passed⟩ := Exec.exists_of_check freshServer_runs
  obtain ⟨-, lossy⟩ := Bool.and_eq_true_iff.mp passed
  obtain ⟨resp, st', returns, test⟩ := Exec.exists_of_check lossy
  obtain ⟨entry, member, lost⟩ := List.any_eq_true.mp test
  obtain ⟨built, p', -, -, -, -, -, -, -, all⟩ := (postNodesBulk_groups oneUuid numbered none
    oneIdTwice st {} (freshServer_returns ran)).1 resp st' returns
  refine ⟨st, st', resp, returns, fun agree => ?_⟩
  obtain ⟨c, has, found⟩ := all.mpr agree entry member
  exact of_decide_eq_true lost (found.trans has.symm)

end Mnem.Http.BulkNodes
