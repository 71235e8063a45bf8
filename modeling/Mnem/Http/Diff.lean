/-
# Http.Diff — what `compute_diff` reports

The endpoint resolves two CIDs to commits, diffs their trees, and lists the
differences twice: in one bucket for each kind, up to a limit for each, and in a
flat array as the command line does.  The buckets of nodes and their array are
cut alike.  Of the edges the bucket of the changed ones stays empty, and the
array has all of them.  So the two reports are exact when the trees are aligned
and no edge has changed (`reports_exact_iff`).
-/
import Mnem.Cli.Diff
import Mnem.Repo.Session
import Mnem.Theory.Quota

namespace Mnem.Http.Diff

open Theory Prolly Repo Cli.Diff

set_option autoImplicit false
set_option linter.unusedSectionVars false

variable {Cid : Type} {H : Hashing Cid} [LinearOrder Cid]

/-! ## The response -/

/-- The failures, with the status that the response has. -/
inductive DiffError (Cid : Type) where
  /-- 400: `limit must be >= 1` -/
  | zeroLimit
  /-- 404: the block of the input is not there. -/
  | blockNotFound (cid : Cid)
  /-- 500: the view of an operation is not there, or does not decode. -/
  | viewMissing (cid : Cid)
  | decodeView (cid : Cid)
  /-- 400: the operation has no head commits. -/
  | noHeadCommits (cid : Cid)
  /-- 404: the head commit of an operation is not there. -/
  | commitNotFound (commit op : Cid)
  /-- 500: the head commit does not decode. -/
  | decodeCommit (cid : Cid)
  /-- 400: the input is neither an operation nor a commit. -/
  | undecodable (cid : Cid)
  /-- 500 -/
  | nodeDiffFailed (e : Error Cid)
  | edgeDiffFailed (e : Error Cid)

structure NodeInfo where
  id : NodeId
  ntype : String
  summary : Option String
  deriving DecidableEq

structure EdgeInfo where
  id : EdgeId
  etype : String
  src : NodeId
  dst : NodeId
  deriving DecidableEq

/-- An object that changed, as it was and as it is. -/
structure Change (I : Type) where
  id : ProllyKey
  before : Option I
  after : I
  deriving DecidableEq

/-- The nested buckets of nodes or of edges, and the flat array. -/
structure Buckets (I D : Type) where
  added : List I := []
  removed : List I := []
  changed : List (Change I) := []
  deltas : List D := []

abbrev NodeBuckets := Buckets NodeInfo NodeDelta
abbrev EdgeBuckets := Buckets EdgeInfo EdgeDelta

structure DiffResponse (Cid : Type) where
  opA : Cid
  opB : Cid
  commitA : Cid
  commitB : Cid
  refDeltas : RefDeltas
  nodes : NodeBuckets
  edges : EdgeBuckets

section Compute

variable (s : Store H)

/-- The commit of an operation or a commit, with the refs of the operation's view. -/
def resolveToCommitAndRefs (cid : Cid) :
    Except (DiffError Cid) (Cid × Cid × Commit Cid × OrdMap String (RefTarget Cid)) :=
  if (s.get cid).isNone then .error (.blockNotFound cid)
  else
    match s.decodeFromStore (Operation Cid) cid with
    | .ok op =>
        if (s.get op.view).isNone then .error (.viewMissing op.view)
        else
          match s.decodeFromStore (View Cid) op.view with
          | .error _ => .error (.decodeView op.view)
          | .ok view =>
              match view.heads.head? with
              | none => .error (.noHeadCommits cid)
              | some commitCid =>
                  if (s.get commitCid).isNone then .error (.commitNotFound commitCid cid)
                  else
                    match s.decodeFromStore (Commit Cid) commitCid with
                    | .error _ => .error (.decodeCommit commitCid)
                    | .ok commit => .ok (cid, commitCid, commit, view.refs)
    | .error _ =>
        match s.decodeFromStore (Commit Cid) cid with
        | .ok commit => .ok (cid, cid, commit, .empty)
        | .error _ => .error (.undecodable cid)

/-- An entry of the added or of the removed objects, up to the limit, as in both loops. -/
def fill {α I D : Type} (limit : Nat) (read : Cid → Option α) (info : α → I)
    (delta : DeltaType → α → D) (onChanged : Buckets I D → Cid → Cid → Buckets I D)
    (b : Buckets I D) : DiffEntry Cid → Buckets I D
  | .added _ value =>
      if b.added.length < limit then
        match read value with
        | some x => { b with added := b.added ++ [info x], deltas := b.deltas ++ [delta .added x] }
        | none => b
      else b
  | .removed _ value =>
      if b.removed.length < limit then
        match read value with
        | some x =>
            { b with removed := b.removed ++ [info x], deltas := b.deltas ++ [delta .removed x] }
        | none => b
      else b
  | .changed _ before after => onChanged b before after

def nodeInfo (n : Node Cid) : NodeInfo := ⟨n.id, n.ntype, n.summary⟩

def edgeInfo (e : Edge Cid) : EdgeInfo := ⟨e.id, e.etype, e.src, e.dst⟩

def nodeDelta (t : DeltaType) (n : Node Cid) : NodeDelta := ⟨t, n.id, n.ntype, n.summary, none⟩

def edgeDelta (t : DeltaType) (e : Edge Cid) : EdgeDelta := ⟨t, e.etype, e.src, e.dst, none⟩

/-- A changed node, up to the limit. -/
def changedNode (limit : Nat) (b : NodeBuckets) (before after : Cid) : NodeBuckets :=
  if b.changed.length < limit then
    match nodeFromBlockstore s after with
    | some n =>
        let old := nodeFromBlockstore s before
        { b with
          changed := b.changed ++ [⟨n.id, old.map nodeInfo, nodeInfo n⟩]
          deltas := b.deltas ++
            [{ nodeDelta .changed n with before := old.map fun o => ⟨o.ntype, o.summary⟩ }] }
    | none => b
  else b

/-- A changed edge goes to the flat array only, whatever its length. -/
def changedEdge (b : EdgeBuckets) (before after : Cid) : EdgeBuckets :=
  match edgeFromBlockstore s after with
  | some e =>
      let old := edgeFromBlockstore s before
      { b with
        deltas := b.deltas ++
          [{ edgeDelta .changed e with before := old.map fun o => ⟨o.etype, o.src, o.dst⟩ }] }
  | none => b

def nodeEntry (limit : Nat) : NodeBuckets → DiffEntry Cid → NodeBuckets :=
  fill limit (nodeFromBlockstore s) nodeInfo nodeDelta (changedNode s limit)

def edgeEntry (limit : Nat) : EdgeBuckets → DiffEntry Cid → EdgeBuckets :=
  fill limit (edgeFromBlockstore s) edgeInfo edgeDelta (changedEdge s)

def computeDiff (fromCid toCid : Cid) (limit : Nat) : Except (DiffError Cid) (DiffResponse Cid) := do
  let (fromOpCid, fromCommitCid, fromCommit, fromRefs) ← resolveToCommitAndRefs s fromCid
  let (toOpCid, toCommitCid, toCommit, toRefs) ← resolveToCommitAndRefs s toCid
  let nodeChanges ← (diff s fromCommit.nodes toCommit.nodes).mapError .nodeDiffFailed
  let edgeChanges ← (diff s fromCommit.edges toCommit.edges).mapError .edgeDiffFailed
  return {
    opA := fromOpCid
    opB := toOpCid
    commitA := fromCommitCid
    commitB := toCommitCid
    refDeltas := refDeltas H fromRefs toRefs
    nodes := nodeChanges.foldl (nodeEntry s limit) {}
    edges := edgeChanges.foldl (edgeEntry s limit) {} }

/-- `DIFF_DEFAULT_LIMIT` and `DIFF_MAX_LIMIT`. -/
def diffDefaultLimit : Nat := 500
def diffMaxLimit : Nat := 2000

/-- The limit that a request asks for. -/
def requestLimit (limit : Option Nat) : Except (DiffError Cid) Nat :=
  let limit := min (limit.getD diffDefaultLimit) diffMaxLimit
  if limit = 0 then .error .zeroLimit else .ok limit

end Compute

/-- A request is answered up to a positive limit. -/
theorem requestLimit_pos {asked : Option Nat} {limit : Nat}
    (accepted : (requestLimit asked : Except (DiffError Cid) Nat) = .ok limit) :
    0 < limit ∧ limit ≤ diffMaxLimit := by
  unfold requestLimit at accepted
  dsimp only at accepted
  split at accepted
  · cases accepted
  · cases accepted
    omega

/-! ## What it should list -/

section Listing

variable {I D : Type}

/-- An object is listed with its id and what it holds. -/
def ShowsInfo {α : Type} [Object Cid α] (idOf : α → ProllyKey) (info : α → I) (s : Store H)
    (e : DiffEntry Cid) (i : I) : Prop :=
  ∃ x : α, s.Loads (shown e) x ∧ idOf x = e.key ∧ i = info x

/-- A change is listed under the id, with what there is now. -/
def ShowsChange (showsInfo : DiffEntry Cid → I → Prop) (e : DiffEntry Cid) (c : Change I) : Prop :=
  c.id = e.key ∧ showsInfo e c.after

/-- The buckets list the differences `es` up to the limit, and the array those of every bucket. -/
structure ListsFirst (limit : Nat) (showsInfo : DiffEntry Cid → I → Prop)
    (showsDelta : DiffEntry Cid → D → Prop) (es : List (DiffEntry Cid)) (b : Buckets I D) : Prop where
  added : List.Forall₂ showsInfo ((ofKind deltaType .added es).take limit) b.added
  removed : List.Forall₂ showsInfo ((ofKind deltaType .removed es).take limit) b.removed
  changed : List.Forall₂ (ShowsChange showsInfo) ((ofKind deltaType .changed es).take limit) b.changed
  deltas : ∃ cut, CutTo deltaType limit es cut ∧ List.Forall₂ showsDelta cut b.deltas

theorem forall₂_concat {α β : Type} {R : α → β → Prop} {xs : List α} {ys : List β} {x : α} {y : β}
    (all : List.Forall₂ R xs ys) (last : R x y) : List.Forall₂ R (xs ++ [x]) (ys ++ [y]) :=
  List.rel_append all (.cons last .nil)

/-- Whether a bucket has room is whether its kind has. -/
theorem room_iff {β : Type} {R : DiffEntry Cid → β → Prop} {limit : Nat} {xs : List (DiffEntry Cid)}
    {ys : List β} (all : List.Forall₂ R (xs.take limit) ys) : ys.length < limit ↔ xs.length < limit := by
  have length := all.length_eq
  rw [List.length_take] at length
  omega

/-- A bucket and the kind it lists, after one more difference of that kind. -/
theorem forall₂_take_concat {β : Type} {R : DiffEntry Cid → β → Prop} {limit : Nat}
    {xs : List (DiffEntry Cid)} {ys : List β} {x : DiffEntry Cid} {y : β}
    (all : List.Forall₂ R (xs.take limit) ys) (last : R x y) (room : xs.length < limit) :
    List.Forall₂ R ((xs ++ [x]).take limit) (ys ++ [y]) := by
  rw [take_concat_of_room x room]
  exact forall₂_concat all last

variable {limit : Nat} {showsInfo : DiffEntry Cid → I → Prop} {showsDelta : DiffEntry Cid → D → Prop}
  {es : List (DiffEntry Cid)} {b : Buckets I D} {e : DiffEntry Cid}

theorem ListsFirst.nil (limit : Nat) (showsInfo : DiffEntry Cid → I → Prop)
    (showsDelta : DiffEntry Cid → D → Prop) : ListsFirst limit showsInfo showsDelta [] {} :=
  ⟨by simp, by simp, by simp, [], .nil _ limit, .nil⟩

/-- A difference for which its kind has no room left changes nothing. -/
theorem ListsFirst.full (lists : ListsFirst limit showsInfo showsDelta es b)
    (full : limit ≤ (ofKind deltaType (deltaType e) es).length) :
    ListsFirst limit showsInfo showsDelta (es ++ [e]) b := by
  have same : ∀ k, (ofKind deltaType k (es ++ [e])).take limit = (ofKind deltaType k es).take limit := by
    intro k
    by_cases own : deltaType e = k
    · subst own
      rw [ofKind_concat_own, take_concat_of_full e full]
    · rw [ofKind_concat_other deltaType es own]
  obtain ⟨cut, cutTo, deltas⟩ := lists.deltas
  exact ⟨same .added ▸ lists.added, same .removed ▸ lists.removed, same .changed ▸ lists.changed,
    cut, cutTo.concat_full full, deltas⟩

/-- A difference for which its kind has room is listed in its bucket and in the array. -/
theorem ListsFirst.room (lists : ListsFirst limit showsInfo showsDelta es b)
    (room : (ofKind deltaType (deltaType e) es).length < limit) {b' : Buckets I D} {d : D}
    (deltaShows : showsDelta e d) (deltas : b'.deltas = b.deltas ++ [d])
    (added : if deltaType e = .added then ∃ i, showsInfo e i ∧ b'.added = b.added ++ [i]
      else b'.added = b.added)
    (removed : if deltaType e = .removed then ∃ i, showsInfo e i ∧ b'.removed = b.removed ++ [i]
      else b'.removed = b.removed)
    (changed : if deltaType e = .changed then
        ∃ c, ShowsChange showsInfo e c ∧ b'.changed = b.changed ++ [c]
      else b'.changed = b.changed) :
    ListsFirst limit showsInfo showsDelta (es ++ [e]) b' := by
  have bucket : ∀ {β : Type} {R : DiffEntry Cid → β → Prop} {k : DeltaType} {ys ys' : List β},
      List.Forall₂ R ((ofKind deltaType k es).take limit) ys →
      (if deltaType e = k then ∃ y, R e y ∧ ys' = ys ++ [y] else ys' = ys) →
      List.Forall₂ R ((ofKind deltaType k (es ++ [e])).take limit) ys' := by
    intro β R k ys ys' all step
    by_cases own : deltaType e = k
    · rw [if_pos own] at step
      obtain ⟨y, shows, rfl⟩ := step
      subst own
      rw [ofKind_concat_own]
      exact forall₂_take_concat all shows room
    · rw [if_neg own] at step
      rw [ofKind_concat_other deltaType es own, step]
      exact all
  obtain ⟨cut, cutTo, all⟩ := lists.deltas
  refine ⟨bucket lists.added added, bucket lists.removed removed, bucket lists.changed changed,
    cut ++ [e], cutTo.concat_room room, ?_⟩
  rw [deltas]
  exact forall₂_concat all deltaShows

/-- An object that was added or removed is listed as it should be. -/
theorem ListsFirst.fill (lists : ListsFirst limit showsInfo showsDelta es b) {α : Type}
    {read : Cid → Option α} {info : α → I} {delta : DeltaType → α → D}
    {onChanged : Buckets I D → Cid → Cid → Buckets I D} {x : α}
    (unchanged : deltaType e ≠ .changed) (reads : read (shown e) = some x)
    (infoShows : showsInfo e (info x)) (deltaShows : showsDelta e (delta (deltaType e) x)) :
    ListsFirst limit showsInfo showsDelta (es ++ [e])
      (Diff.fill limit read info delta onChanged b e) := by
  cases e with
  | added k value =>
      have reads' : read value = some x := reads
      have full_iff := room_iff lists.added
      unfold Diff.fill
      dsimp only
      by_cases room : b.added.length < limit
      · rw [if_pos room, reads']
        exact lists.room (e := .added k value) (full_iff.mp room) deltaShows rfl ⟨_, infoShows, rfl⟩ rfl rfl
      · rw [if_neg room]
        exact lists.full (not_lt.mp fun less => room (full_iff.mpr less))
  | removed k value =>
      have reads' : read value = some x := reads
      have full_iff := room_iff lists.removed
      unfold Diff.fill
      dsimp only
      by_cases room : b.removed.length < limit
      · rw [if_pos room, reads']
        exact lists.room (e := .removed k value) (full_iff.mp room) deltaShows rfl rfl ⟨_, infoShows, rfl⟩ rfl
      · rw [if_neg room]
        exact lists.full (not_lt.mp fun less => room (full_iff.mpr less))
  | changed k before after => exact absurd rfl unchanged

/-- A loop that lists each difference as it should lists all of them. -/
theorem listsFirst_foldl {entry : Buckets I D → DiffEntry Cid → Buckets I D}
    (all : List (DiffEntry Cid))
    (step : ∀ e ∈ all, ∀ es b, ListsFirst limit showsInfo showsDelta es b →
      ListsFirst limit showsInfo showsDelta (es ++ [e]) (entry b e)) :
    ListsFirst limit showsInfo showsDelta all (all.foldl entry {}) := by
  suffices ∀ rest es b, (∀ e ∈ rest, e ∈ all) → ListsFirst limit showsInfo showsDelta es b →
      ListsFirst limit showsInfo showsDelta (es ++ rest) (rest.foldl entry b) from
    this all [] {} (fun _ m => m) (.nil limit showsInfo showsDelta)
  intro rest
  induction rest with
  | nil =>
      intro es b _ lists
      rwa [List.append_nil]
  | cons e rest ih =>
      intro es b inAll lists
      have one := step e (inAll e List.mem_cons_self) es b lists
      have others := ih (es ++ [e]) (entry b e) (fun e' m => inAll e' (List.mem_cons_of_mem _ m)) one
      rwa [List.append_assoc] at others

end Listing

section Entries

variable {s : Store H} {limit : Nat} {es : List (DiffEntry Cid)} {e : DiffEntry Cid}

/-- What the response should list of nodes, and of edges. -/
abbrev ListsNodes (s : Store H) (limit : Nat) : List (DiffEntry Cid) → NodeBuckets → Prop :=
  ListsFirst limit (ShowsInfo (Node.id : Node Cid → ProllyKey) nodeInfo s) (ShowsNode s)

abbrev ListsEdges (s : Store H) (limit : Nat) : List (DiffEntry Cid) → EdgeBuckets → Prop :=
  ListsFirst limit (ShowsInfo (Edge.id : Edge Cid → ProllyKey) edgeInfo s) (ShowsEdge s)

theorem listsNodes_nodeEntry {b : NodeBuckets} (lists : ListsNodes s limit es b) {node : Node Cid}
    (loads : s.Loads (shown e) node) (filed : node.id = e.key) :
    ListsNodes s limit (es ++ [e]) (nodeEntry s limit b e) := by
  have infoShows : ShowsInfo Node.id nodeInfo s e (nodeInfo node) := ⟨node, loads, filed, rfl⟩
  have reads := nodeFromBlockstore_of_loads loads
  by_cases changed : deltaType e = .changed
  · cases e with
    | added k value => cases changed
    | removed k value => cases changed
    | changed k before after =>
        have reads' : nodeFromBlockstore s after = some node := reads
        have full_iff := room_iff lists.changed
        change ListsNodes s limit _ (changedNode s limit b before after)
        unfold changedNode
        by_cases room : b.changed.length < limit
        · rw [if_pos room, reads']
          exact lists.room (e := .changed k before after) (full_iff.mp room)
            ⟨rfl, filed, node, loads, filed, rfl, rfl⟩ rfl rfl rfl ⟨_, ⟨filed, infoShows⟩, rfl⟩
        · rw [if_neg room]
          exact lists.full (not_lt.mp fun less => room (full_iff.mpr less))
  · exact lists.fill changed reads infoShows ⟨rfl, filed, node, loads, filed, rfl, rfl⟩

theorem listsEdges_edgeEntry {b : EdgeBuckets} (lists : ListsEdges s limit es b) {edge : Edge Cid}
    (unchanged : deltaType e ≠ .changed) (loads : s.Loads (shown e) edge) (filed : edge.id = e.key) :
    ListsEdges s limit (es ++ [e]) (edgeEntry s limit b e) :=
  lists.fill unchanged (edgeFromBlockstore_of_loads loads) ⟨edge, loads, filed, rfl⟩
    ⟨rfl, edge, loads, filed, rfl, rfl, rfl⟩

theorem changed_edgeEntry (b : EdgeBuckets) (e : DiffEntry Cid) :
    (edgeEntry s limit b e).changed = b.changed := by
  cases e with
  | added k value =>
      simp only [edgeEntry, fill]
      split
      · split <;> rfl
      · rfl
  | removed k value =>
      simp only [edgeEntry, fill]
      split
      · split <;> rfl
      · rfl
  | changed k before after =>
      simp only [edgeEntry, fill, changedEdge]
      split <;> rfl

/-- No edge is ever listed as changed. -/
theorem changed_foldl_edgeEntry (all : List (DiffEntry Cid)) (b : EdgeBuckets) :
    (all.foldl (edgeEntry s limit) b).changed = b.changed := by
  induction all generalizing b with
  | nil => rfl
  | cons e all ih =>
      rw [List.foldl_cons, ih, changed_edgeEntry]

end Entries

/-! ## When it does -/

section Exactness

variable {P : Graph Cid → Prop} {s : Store H} {ra rb : ReadonlyRepo Cid} {ga gb : Graph Cid}
  {limit : Nat}

/-- The response lists the differences between two graphs, in the order of their keys. -/
structure ResponseExact (s : Store H) (ga gb : Graph Cid) (limit : Nat) (resp : DiffResponse Cid) :
    Prop where
  nodes : ∃ es, ExactDiff ga.nodes.entries gb.nodes.entries es ∧ ListsNodes s limit es resp.nodes
  edges : ∃ es, ExactDiff ga.edges.entries gb.edges.entries es ∧ ListsEdges s limit es resp.edges

/-- No edge of the one graph is another in the other. -/
def NoEdgeChanged (ga gb : Graph Cid) : Prop :=
  ∀ k x y, ga.edges.get? k = some x → gb.edges.get? k = some y → x = y

theorem resolve_of_pinned {r : ReadonlyRepo Cid} {g : Graph Cid} (pinned : Pinned P s r g)
    {commit : Commit Cid} (head : r.commit = some commit) :
    ∃ cid, resolveToCommitAndRefs s r.opId = .ok (r.opId, cid, commit, r.view.refs) := by
  obtain ⟨cid, first, loads⟩ := head?_of_commit pinned head
  have present : ∀ {α : Type} [Object Cid α] {c : Cid} {a : α}, s.Loads c a → (s.get c).isNone = false := by
    intro α _ c a loads
    rw [Store.loads_iff.mp loads]
    rfl
  have op : s.decodeFromStore (Operation Cid) r.opId = .ok r.op := pinned.op
  have view : s.decodeFromStore (View Cid) r.op.view = .ok r.view := pinned.view
  have decoded : s.decodeFromStore (Commit Cid) cid = .ok commit := loads
  refine ⟨cid, ?_⟩
  unfold resolveToCommitAndRefs
  simp only [present pinned.op, present pinned.view, present loads, op, view, first, decoded]
  rfl

/-- The endpoint returns what the loops list. -/
theorem computeDiff_eq (pinnedA : Pinned P s ra ga) (pinnedB : Pinned P s rb gb) {ca cb : Commit Cid}
    (headA : ra.commit = some ca) (headB : rb.commit = some cb)
    {nodeChanges edgeChanges : List (DiffEntry Cid)} (nodes : diff s ca.nodes cb.nodes = .ok nodeChanges)
    (edges : diff s ca.edges cb.edges = .ok edgeChanges) (limit : Nat) :
    ∃ resp, computeDiff s ra.opId rb.opId limit = .ok resp ∧
      resp.nodes = nodeChanges.foldl (nodeEntry s limit) {} ∧
      resp.edges = edgeChanges.foldl (edgeEntry s limit) {} := by
  obtain ⟨cidA, resolvedA⟩ := resolve_of_pinned pinnedA headA
  obtain ⟨cidB, resolvedB⟩ := resolve_of_pinned pinnedB headB
  unfold computeDiff
  rw [resolvedA, resolvedB]
  change ∃ resp, ((diff s ca.nodes cb.nodes).mapError _ >>= _) = _ ∧ _
  rw [nodes]
  change ∃ resp, ((diff s ca.edges cb.edges).mapError _ >>= _) = _ ∧ _
  rw [edges]
  exact ⟨_, rfl, rfl, rfl⟩

/-- The response between two aligned commits is exact when no edge changed. -/
theorem computeDiff_exact (pinnedA : Pinned P s ra ga) (pinnedB : Pinned P s rb gb)
    {ca cb : Commit Cid} (headA : ra.commit = some ca) (headB : rb.commit = some cb)
    (nodes : Aligned s ca.nodes cb.nodes) (edges : Aligned s ca.edges cb.edges)
    (unchanged : NoEdgeChanged ga gb) (limit : Nat) :
    ∃ resp, computeDiff s ra.opId rb.opId limit = .ok resp ∧ ResponseExact s ga gb limit resp := by
  have standsA := stands_of_commit pinnedA headA
  have standsB := stands_of_commit pinnedB headB
  obtain ⟨nodeChanges, nodesRan, nodesWalk⟩ := diff_walk standsA.nodes.tree standsB.nodes.tree
  obtain ⟨edgeChanges, edgesRan, edgesWalk⟩ := diff_walk standsA.edges.tree standsB.edges.tree
  obtain ⟨resp, ran, nodesListed, edgesListed⟩ :=
    computeDiff_eq pinnedA pinnedB headA headB nodesRan edgesRan limit
  refine ⟨resp, ran, ⟨nodeChanges, nodesWalk.exact_of nodes, ?_⟩,
    ⟨edgeChanges, edgesWalk.exact_of edges, ?_⟩⟩
  · rw [nodesListed]
    refine listsFirst_foldl nodeChanges fun e m es b lists => ?_
    obtain ⟨node, loads, filed⟩ := exists_shown standsA.nodes standsB.nodes (nodesWalk.values e m)
    exact listsNodes_nodeEntry lists loads filed
  · rw [edgesListed]
    refine listsFirst_foldl edgeChanges fun e m es b lists => ?_
    obtain ⟨edge, loads, filed⟩ := exists_shown standsA.edges standsB.edges (edgesWalk.values e m)
    refine listsEdges_edgeEntry lists (fun changed => ?_) loads filed
    cases e with
    | added k v => cases changed
    | removed k v => cases changed
    | changed k x y =>
        obtain ⟨inA, inB, differ⟩ := ((edgesWalk.exact_of edges).2 _).mp m
        exact differ (unchanged k x y inA inB)

/-- A response is not exact when an edge changed. -/
theorem noEdgeChanged_of_exact (pinnedA : Pinned P s ra ga) (pinnedB : Pinned P s rb gb)
    {ca cb : Commit Cid} (headA : ra.commit = some ca) (headB : rb.commit = some cb)
    (pos : 0 < limit) {resp : DiffResponse Cid}
    (ran : computeDiff s ra.opId rb.opId limit = .ok resp)
    (exact' : ResponseExact s ga gb limit resp) : NoEdgeChanged ga gb := by
  have standsA := stands_of_commit pinnedA headA
  have standsB := stands_of_commit pinnedB headB
  obtain ⟨nodeChanges, nodesRan, -⟩ := diff_walk standsA.nodes.tree standsB.nodes.tree
  obtain ⟨edgeChanges, edgesRan, -⟩ := diff_walk standsA.edges.tree standsB.edges.tree
  obtain ⟨resp', ran', -, edgesListed⟩ :=
    computeDiff_eq pinnedA pinnedB headA headB nodesRan edgesRan limit
  cases ran.symm.trans ran'
  obtain ⟨es, difference, lists⟩ := exact'.edges
  have nothing : resp.edges.changed = [] := by
    rw [edgesListed, changed_foldl_edgeEntry]
  have none_listed := lists.changed
  rw [nothing, List.forall₂_nil_right_iff, List.take_eq_nil_iff] at none_listed
  have none_changed := none_listed.resolve_left pos.ne'
  intro k x y inA inB
  by_contra differ
  have inEs := (difference.2 (.changed k x y)).mpr ⟨inA, inB, differ⟩
  have inKind : DiffEntry.changed k x y ∈ ofKind deltaType .changed es :=
    List.mem_filter.mpr ⟨inEs, rfl⟩
  rw [none_changed] at inKind
  cases inKind

/-- **Both reports.**  The command line reports the exact difference between two operations, and
the endpoint lists it up to the limit, if and only if the trees of the two head commits are aligned
and no edge of the one is another in the other; and if a head commit is missing, the other one has
neither nodes nor edges. -/
theorem reports_exact_iff (pinnedA : Pinned P s ra ga) (pinnedB : Pinned P s rb gb)
    (pos : 0 < limit) :
    ((∃ out, Cli.Diff.run s ra.opId rb.opId = .ok out ∧
        Exact s ga gb out.nodeDeltas out.edgeDeltas) ∧
      ∀ ca cb, ra.commit = some ca → rb.commit = some cb →
        ∃ resp, computeDiff s ra.opId rb.opId limit = .ok resp ∧ ResponseExact s ga gb limit resp) ↔
    (∀ ca cb, ra.commit = some ca → rb.commit = some cb →
        Aligned s ca.nodes cb.nodes ∧ Aligned s ca.edges cb.edges ∧ NoEdgeChanged ga gb) ∧
      (ra.commit = none ∨ rb.commit = none → ga.nodes = gb.nodes ∧ ga.edges = gb.edges) := by
  obtain ⟨out, ran, headed, headless⟩ := run_exact_iff pinnedA pinnedB
  constructor
  · rintro ⟨⟨out', ran', exact'⟩, endpoint⟩
    cases ran.symm.trans ran'
    refine ⟨fun ca cb headA headB => ?_, fun missing => (headless missing).mp exact'⟩
    obtain ⟨nodes, edges⟩ := (headed ca cb headA headB).mp exact'
    obtain ⟨resp, ranHttp, exactHttp⟩ := endpoint ca cb headA headB
    exact ⟨nodes, edges, noEdgeChanged_of_exact pinnedA pinnedB headA headB pos ranHttp exactHttp⟩
  · rintro ⟨aligned, empty⟩
    refine ⟨⟨out, ran, ?_⟩, fun ca cb headA headB => ?_⟩
    · by_cases missing : ra.commit = none ∨ rb.commit = none
      · exact (headless missing).mpr (empty missing)
      · obtain ⟨bornA, bornB⟩ := not_or.mp missing
        obtain ⟨ca, headA⟩ := Option.ne_none_iff_exists'.mp bornA
        obtain ⟨cb, headB⟩ := Option.ne_none_iff_exists'.mp bornB
        obtain ⟨nodes, edges, -⟩ := aligned ca cb headA headB
        exact (headed ca cb headA headB).mpr ⟨nodes, edges⟩
    · obtain ⟨nodes, edges, unchanged⟩ := aligned ca cb headA headB
      exact computeDiff_exact pinnedA pinnedB headA headB nodes edges unchanged limit

end Exactness

/-! ### Two commits -/

/-- Two transactions, and both repositories. -/
theorem transactTwice_pinned {first second : List (Transaction.Call Cid)} {base next : ReadonlyRepo Cid}
    {w : World H} (ran : (transactTwice first second : WorldM H _).Returns {} (base, next) w) :
    ∃ ga gb, Pinned (fun _ => True) w.store base ga ∧ Pinned (fun _ => True) w.store next gb := by
  obtain ⟨w₁, ga, pinned, le, second⟩ := transactTwice_returns ran
  obtain ⟨-, gb, pinned', -⟩ := transact_atCommit pinned second
  exact ⟨ga, gb, pinned.mono le, pinned'⟩

/-- An edge that is relabelled. -/
def relabelled : WorldM shortHashing (ReadonlyRepo ℕ × ReadonlyRepo ℕ) :=
  transactTwice [.addNode { id := 1, ntype := "Person" }, .addNode { id := 2, ntype := "Person" },
      .addEdge { id := 3, etype := "knows", src := 1, dst := 2 }]
    [.addEdge { id := 3, etype := "likes", src := 1, dst := 2 }]

/-- Whether the head's edge tree has another object at an id than the base's. -/
def changesAt (s : Store shortHashing) (base next : ReadonlyRepo ℕ) (id : EdgeId) : Bool :=
  base.commit.any fun ca => next.commit.any fun cb =>
    Exec.okAnd (lookup s ca.edges id) fun before => Exec.okAnd (lookup s cb.edges id) fun after =>
      before.isSome && after.isSome && decide (before ≠ after)

theorem relabelled_checked : ∃ base next w, relabelled.Returns {} (base, next) w ∧
    changesAt w.store base next 3 = true := by
  have passed : relabelled.check {} (fun out w => changesAt w.store out.1 out.2 3) = true := by
    decide +kernel
  obtain ⟨⟨base, next⟩, w, ran, passed⟩ := Exec.exists_of_check passed
  exact ⟨base, next, w, ran, passed⟩

theorem edgeChanged_of_changesAt {P : Graph ℕ → Prop} {s : Store shortHashing}
    {base next : ReadonlyRepo ℕ} {ga gb : Graph ℕ} (pinnedA : Pinned P s base ga)
    (pinnedB : Pinned P s next gb) {id : EdgeId} (passed : changesAt s base next id = true) :
    ∃ ca cb, base.commit = some ca ∧ next.commit = some cb ∧ ¬ NoEdgeChanged ga gb := by
  obtain ⟨ca, headA, passed⟩ := (Option.any_eq_true _ _).mp passed
  obtain ⟨cb, headB, passed⟩ := (Option.any_eq_true _ _).mp passed
  obtain ⟨before, readA, passed⟩ := Exec.exists_of_okAnd passed
  obtain ⟨after, readB, passed⟩ := Exec.exists_of_okAnd passed
  rw [lookup_of_isTree (stands_of_commit pinnedA headA).edges.tree] at readA
  rw [lookup_of_isTree (stands_of_commit pinnedB headB).edges.tree] at readB
  obtain ⟨both, differ⟩ := Bool.and_eq_true_iff.mp passed
  obtain ⟨isBefore, isAfter⟩ := Bool.and_eq_true_iff.mp both
  obtain ⟨x, rfl⟩ := Option.isSome_iff_exists.mp isBefore
  obtain ⟨y, rfl⟩ := Option.isSome_iff_exists.mp isAfter
  refine ⟨ca, cb, headA, headB, fun unchanged => of_decide_eq_true differ ?_⟩
  rw [unchanged id x y (Except.ok.inj readA) (Except.ok.inj readB)]

/-- The endpoint does not list a changed edge in its bucket. -/
theorem relabelled_not_listed : ∃ (w : World shortHashing) (base next : ReadonlyRepo ℕ)
    (ga gb : Graph ℕ) (ca cb : Commit ℕ), Pinned (fun _ => True) w.store base ga ∧
      Pinned (fun _ => True) w.store next gb ∧ base.commit = some ca ∧ next.commit = some cb ∧
      ¬ ∃ resp, computeDiff w.store base.opId next.opId diffDefaultLimit = .ok resp ∧
        ResponseExact w.store ga gb diffDefaultLimit resp := by
  obtain ⟨base, next, w, ran, passed⟩ := relabelled_checked
  obtain ⟨ga, gb, pinnedA, pinnedB⟩ := transactTwice_pinned ran
  obtain ⟨ca, cb, headA, headB, changed⟩ := edgeChanged_of_changesAt pinnedA pinnedB passed
  refine ⟨w, base, next, ga, gb, ca, cb, pinnedA, pinnedB, headA, headB, ?_⟩
  rintro ⟨resp, ranHttp, exactHttp⟩
  exact changed (noEdgeChanged_of_exact pinnedA pinnedB headA headB (by decide) ranHttp exactHttp)

/-- A node that is added. -/
def grown : WorldM shortHashing (ReadonlyRepo ℕ × ReadonlyRepo ℕ) :=
  transactTwice [.addNode { id := 1, ntype := "Person" }] [.addNode { id := 2, ntype := "Person" }]

/-- Whether a tree is a leaf whose entries pass a test. -/
def leafPasses (s : Store shortHashing) (root : ℕ) (test : List (ProllyKey × ℕ) → Bool) : Bool :=
  match loadTreeChunk s root with
  | .ok (.leaf es) => test es
  | _ => false

theorem exists_leaf {s : Store shortHashing} {root : ℕ} {test : List (ProllyKey × ℕ) → Bool}
    (passed : leafPasses s root test = true) :
    ∃ es, loadTreeChunk s root = .ok (.leaf es) ∧ test es = true := by
  unfold leafPasses at passed
  split at passed
  · exact ⟨_, ‹_›, passed⟩
  · cases passed

/-- Whether the head's trees are leaves, the one of the edges without entries. -/
def smallTrees (s : Store shortHashing) (r : ReadonlyRepo ℕ) : Bool :=
  r.commit.any fun c =>
    leafPasses s c.nodes (fun _ => true) && leafPasses s c.edges List.isEmpty

theorem grown_checked : ∃ base next w, grown.Returns {} (base, next) w ∧
    smallTrees w.store base = true ∧ next.commit.isSome = true := by
  have passed : grown.check {} (fun out w => smallTrees w.store out.1 && out.2.commit.isSome) = true := by
    decide +kernel
  obtain ⟨⟨base, next⟩, w, ran, passed⟩ := Exec.exists_of_check passed
  obtain ⟨small, born⟩ := Bool.and_eq_true_iff.mp passed
  exact ⟨base, next, w, ran, small, born⟩

/-- Trees of one leaf are aligned with any, and no edge changes where there is none. -/
theorem aligned_of_smallTrees {P : Graph ℕ → Prop} {s : Store shortHashing} {r : ReadonlyRepo ℕ}
    {ga : Graph ℕ} (pinned : Pinned P s r ga) (small : smallTrees s r = true) (gb : Graph ℕ) :
    ∃ ca, r.commit = some ca ∧ (∀ root, Aligned s ca.nodes root) ∧ (∀ root, Aligned s ca.edges root) ∧
      NoEdgeChanged ga gb := by
  obtain ⟨ca, head, passed⟩ := (Option.any_eq_true _ _).mp small
  obtain ⟨nodes, edges⟩ := Bool.and_eq_true_iff.mp passed
  obtain ⟨es, nodeLeaf, -⟩ := exists_leaf nodes
  obtain ⟨_, leaf, isEmpty⟩ := exists_leaf edges
  obtain rfl := List.isEmpty_iff.mp isEmpty
  refine ⟨ca, head, fun root => .leafLeft nodeLeaf, fun root => .leafLeft leaf, ?_⟩
  obtain ⟨h, holds⟩ := (stands_of_commit pinned head).edges.tree
  have empty : ga.edges.entries = [] := by
    cases h with
    | zero => exact (TreeChunk.leaf.inj (Except.ok.inj (leaf.symm.trans (loadTreeChunk_leaf holds)))).symm
    | succ h =>
        obtain ⟨run, parts, loads, occupied, -, -⟩ := holds_succ.mp holds
        cases leaf.symm.trans (loadTreeChunk_internal loads occupied)
  intro k x y inA
  have member := ga.edges.get?_eq_some_iff.mp inA
  rw [empty] at member
  cases member

/-- Both reports of an added node. -/
theorem reports_exact_iff_grown : ∃ (w : World shortHashing) (base next : ReadonlyRepo ℕ)
    (ga gb : Graph ℕ) (ca cb : Commit ℕ), base.commit = some ca ∧ next.commit = some cb ∧
      (∃ out, Cli.Diff.run w.store base.opId next.opId = .ok out ∧
        Exact w.store ga gb out.nodeDeltas out.edgeDeltas) ∧
      ∃ resp, computeDiff w.store base.opId next.opId diffDefaultLimit = .ok resp ∧
        ResponseExact w.store ga gb diffDefaultLimit resp := by
  obtain ⟨base, next, w, ran, small, born⟩ := grown_checked
  obtain ⟨ga, gb, pinnedA, pinnedB⟩ := transactTwice_pinned ran
  obtain ⟨ca, headA, nodes, edges, unchanged⟩ := aligned_of_smallTrees pinnedA small gb
  obtain ⟨cb, headB⟩ := Option.isSome_iff_exists.mp born
  obtain ⟨command, endpoint⟩ := (reports_exact_iff pinnedA pinnedB 
    (show 0 < diffDefaultLimit by decide)).mpr ⟨fun ca' cb' headA' headB' => by
      cases headA.symm.trans headA'
      exact ⟨nodes _, edges _, unchanged⟩, fun missing => by
      rcases missing with unborn | unborn
      · cases unborn.symm.trans headA
      · cases unborn.symm.trans headB⟩
  exact ⟨w, base, next, ga, gb, ca, cb, headA, headB, command, endpoint ca cb headA headB⟩

end Mnem.Http.Diff
