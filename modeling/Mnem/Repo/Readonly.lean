/-
# Repo.Readonly — a repository pinned to an operation

What `ReadonlyRepo` reads: nodes and edges by id, the vector sidecars, and the
adjacency of the head commit.  A `Table` is a tree that files objects under
their own ids; it is what the node tree and the edge tree of every commit are.
Over tables and stored indexes each read has one equation.
-/
import Mnem.Index.Append

namespace Mnem.Repo

open Theory Theory.Groups Prolly Index

set_option autoImplicit false
set_option linter.unusedSectionVars false

variable {Cid : Type} {H : Hashing Cid} [LinearOrder Cid]

/-- A repository view pinned to one operation. -/
structure ReadonlyRepo (Cid : Type) where
  opId : Cid
  op : Operation Cid
  view : View Cid
  commit : Option (Commit Cid)

/-- The only head of `r`, put to a test. -/
def ReadonlyRepo.onlyHead (r : ReadonlyRepo Cid) (test : Cid → Bool) : Bool :=
  match r.view.heads with
  | [c] => test c
  | _ => false

theorem ReadonlyRepo.exists_of_onlyHead {r : ReadonlyRepo Cid} {test : Cid → Bool}
    (passed : r.onlyHead test = true) : ∃ c, r.view.heads = [c] ∧ test c = true := by
  unfold onlyHead at passed
  split at passed
  · exact ⟨_, ‹_›, passed⟩
  · cases passed

/-! ## Reads -/

/-- The bucket filed under `key` in a tree that may be missing. -/
def bucketAt (β : Type) [Object Cid β] (s : Store H) (root : Option Cid) (key : ProllyKey) :
    Except (Error Cid) (Option β) :=
  match root with
  | none => .ok none
  | some root =>
      match lookup s root key with
      | .error e => .error e
      | .ok none => .ok none
      | .ok (some cid) => some <$> s.decodeFromStore β cid

def decodeEdges (s : Store H) (cids : List Cid) : Except (Error Cid) (List (Edge Cid)) :=
  cids.mapM (s.decodeFromStore (Edge Cid))

/-- The index set of a commit, if it has one. -/
def indexesOf (s : Store H) (commit : Commit Cid) : Except (Error Cid) (Option (IndexSet Cid)) :=
  match commit.indexes with
  | none => .ok none
  | some cid => some <$> s.decodeFromStore (IndexSet Cid) cid

/-- Whether a filter on edge labels lets one through; no filter lets all through. -/
def wanted (etypeFilter : Option (List String)) (label : String) : Bool :=
  etypeFilter.all fun want => want.contains label

/-- `Query::DEFAULT_ADJACENCY_CAP`. -/
def defaultAdjacencyCap : Nat := 10000

namespace ReadonlyRepo

variable (s : Store H) (r : ReadonlyRepo Cid)

/-- Load the view of an operation, and its first head commit. -/
def loadAt (opId : Cid) : Except (Error Cid) (ReadonlyRepo Cid) := do
  let op ← s.decodeFromStore (Operation Cid) opId
  let view ← s.decodeFromStore (View Cid) op.view
  match view.heads.head? with
  | some head => do
      let commit ← s.decodeFromStore (Commit Cid) head
      return ⟨opId, op, view, some commit⟩
  | none => return ⟨opId, op, view, none⟩

def lookupNode (id : NodeId) : Except (Error Cid) (Option (Node Cid)) :=
  bucketAt (Node Cid) s (r.commit.map Commit.nodes) id

def lookupEdge (id : EdgeId) : Except (Error Cid) (Option (Edge Cid)) :=
  bucketAt (Edge Cid) s (r.commit.map Commit.edges) id

def embeddingFor (nodeCid : Cid) (model : String) : Except (Error Cid) (Option Embedding) :=
  (fun bucket => bucket.bind fun b => b.get model) <$>
    bucketAt EmbeddingBucket s (r.commit.bind Commit.embeddings) (H.cidHash nodeCid)

def sparseFor (nodeCid : Cid) (vocabId : String) : Except (Error Cid) (Option SparseEmbed) :=
  (fun bucket => bucket.bind fun b => b.get vocabId) <$>
    bucketAt SparseBucket s (r.commit.bind Commit.sparse) (H.cidHash nodeCid)

/-- All outgoing edges of `src`, of the wanted labels. -/
def outgoingEdges (src : NodeId) (etypeFilter : Option (List String)) :
    Except (Error Cid) (List (Edge Cid)) :=
  match r.commit with
  | none => .ok []
  | some commit => do
      let indexes ← indexesOf s commit
      let bucket ← bucketAt (AdjacencyBucket Cid) s (indexes.bind IndexSet.outgoing) src
      let entries := (bucket.map AdjacencyBucket.edges).getD []
      decodeEdges s ((entries.filter fun e => wanted etypeFilter e.label).map AdjacencyEntry.edge)

/-- The first `cap` incoming edges of `dst`, of the wanted labels. -/
def incomingEdgesCapped (dst : NodeId) (etypeFilter : Option (List String)) (cap : Nat) :
    Except (Error Cid) (List (Edge Cid)) :=
  match r.commit with
  | none => .ok []
  | some commit => do
      let indexes ← indexesOf s commit
      let bucket ← bucketAt (IncomingAdjacencyBucket Cid) s (indexes.bind IndexSet.incoming) dst
      let entries := (bucket.map IncomingAdjacencyBucket.edges).getD []
      decodeEdges s (((entries.filter fun e => wanted etypeFilter e.label).take cap).map
        IncomingAdjacencyEntry.edge)

def incomingEdges (dst : NodeId) (etypeFilter : Option (List String)) :
    Except (Error Cid) (List (Edge Cid)) :=
  incomingEdgesCapped s r dst etypeFilter defaultAdjacencyCap

def isTombstoned (id : NodeId) : Bool := r.view.tombstones.contains id

variable {s} in
/-- What `load_at` returns is at the operation it was asked for. -/
theorem opId_of_loadAt {opId : Cid} {r : ReadonlyRepo Cid} (ran : loadAt s opId = .ok r) :
    r.opId = opId := by
  unfold loadAt at ran
  obtain ⟨op, -, ran⟩ := Exec.bind_eq_ok.mp ran
  obtain ⟨view, -, ran⟩ := Exec.bind_eq_ok.mp ran
  split at ran
  · obtain ⟨commit, -, done⟩ := Exec.bind_eq_ok.mp ran
    cases done
    rfl
  · cases ran
    rfl

end ReadonlyRepo

/-! ## Tables -/

/-- The tree at `root` holds `m`, and `m` files objects under their own ids. -/
structure Table {α : Type} [Object Cid α] (idOf : α → ProllyKey) (s : Store H) (root : Cid)
    (m : OrdMap ProllyKey Cid) : Prop where
  tree : IsTree s root m
  filed : ∀ k cid, m.get? k = some cid → ∃ a : α, s.Loads cid a ∧ idOf a = k

/-- A node tree, and an edge tree. -/
abbrev NodeTable (s : Store H) (root : Cid) (m : OrdMap ProllyKey Cid) : Prop :=
  Table (Node.id : Node Cid → ProllyKey) s root m

abbrev EdgeTable (s : Store H) (root : Cid) (m : OrdMap ProllyKey Cid) : Prop :=
  Table (Edge.id : Edge Cid → ProllyKey) s root m

section Table

variable {α : Type} [Object Cid α] {idOf : α → ProllyKey} {s s' : Store H} {root : Cid}
  {m : OrdMap ProllyKey Cid}

theorem Table.mono (table : Table idOf s root m) (le : s ≤ s') : Table idOf s' root m := by
  refine ⟨table.tree.mono le, fun k cid found => ?_⟩
  obtain ⟨a, loads, at_k⟩ := table.filed k cid found
  exact ⟨a, loads.mono le, at_k⟩

/-- The rows of a table, each filed under its id. -/
theorem Table.rows (table : Table idOf s root m) :
    ∃ rows : List (Row Cid α), ReadsRows s m.entries rows ∧
      ∀ r ∈ rows, r.key = idOf r.object := by
  have decodes : ∀ e ∈ m.entries, ∃ a : α, s.Loads e.2 a := by
    intro e member
    obtain ⟨a, loads, -⟩ := table.filed e.1 e.2 (m.get?_eq_some_iff.mpr member)
    exact ⟨a, loads⟩
  obtain ⟨rows, reads⟩ := exists_rows decodes
  refine ⟨rows, reads, fun r member => ?_⟩
  obtain ⟨inTree, loads⟩ := reads.mem_iff.mp member
  obtain ⟨a, loads', at_k⟩ := table.filed _ _ (m.get?_eq_some_iff.mpr inTree)
  rw [← at_k, loads.unique loads']

/-- Reading a bucket of a good tree. -/
theorem bucketAt_of_isTree {β : Type} [Object Cid β] (tree : IsTree s root m) (key : ProllyKey) :
    bucketAt β s (some root) key = match m.get? key with
      | none => .ok none
      | some cid => some <$> s.decodeFromStore β cid := by
  unfold bucketAt
  simp only [lookup_of_isTree tree key]
  cases m.get? key <;> rfl

theorem bucketAt_table (table : Table idOf s root m) (key : ProllyKey) :
    ∃ found : Option α, bucketAt α s (some root) key = .ok found ∧
      (found.isSome ↔ (m.get? key).isSome) := by
  rw [bucketAt_of_isTree table.tree]
  cases at_key : m.get? key with
  | none => exact ⟨none, rfl, Iff.rfl⟩
  | some cid =>
      obtain ⟨a, loads, -⟩ := table.filed key cid at_key
      have decoded : s.decodeFromStore α cid = .ok a := loads
      refine ⟨some a, ?_, by simp⟩
      simp only [decoded]
      rfl

end Table

/-! ## Adjacency -/

section Adjacency

variable {s : Store H}

/-- Reading the bucket of a node in a stored adjacency. -/
theorem bucketAt_adjacency {α β : Type} [Object Cid β] {bucket : List α → β}
    {groups : OrdMap NodeId (List α)} (stored : AdjacencyStored s bucket groups) (id : NodeId) :
    bucketAt β s (adjacencyRoot H bucket groups) id = .ok ((groups.get? id).map bucket) := by
  unfold adjacencyRoot
  by_cases empty : groups.entries.isEmpty = true
  · have nothing : groups.entries = [] := List.isEmpty_iff.mp empty
    rw [if_pos empty, OrdMap.get?, nothing]
    rfl
  · rw [if_neg empty, bucketAt_of_isTree (stored.tree (by simpa using empty)), bucketMap,
      OrdMap.get?_mapValues]
    cases found : groups.get? id with
    | none => rfl
    | some es =>
        have decoded : s.decodeFromStore β (H.cidOf (Object.toBlock (bucket es))) =
            .ok (bucket es) := stored.buckets (id, es) (groups.get?_eq_some_iff.mp found)
        simp only [Option.map_some, decoded]
        rfl

theorem decodeEdges_of_loads {cids : List Cid} (loads : ∀ c ∈ cids, ∃ e : Edge Cid, s.Loads c e) :
    ∃ es, decodeEdges s cids = .ok es ∧ List.Forall₂ s.Loads cids es := by
  refine Exec.exists_mapM fun c m => ?_
  obtain ⟨e, here⟩ := loads c m
  exact ⟨e, here, here⟩

variable {edges : List (Row Cid (Edge Cid))}

/-- The entries of a node's bucket, none when there is no bucket. -/
def outgoingEntries (edges : List (Row Cid (Edge Cid))) (src : NodeId) :
    List (AdjacencyEntry Cid) :=
  ((((pushAll OrdMap.empty (outgoingRows edges)).get? src).map outgoingBucket).map
    AdjacencyBucket.edges).getD []

def incomingEntries (edges : List (Row Cid (Edge Cid))) (dst : NodeId) :
    List (IncomingAdjacencyEntry Cid) :=
  ((((pushAll OrdMap.empty (incomingRows edges)).get? dst).map incomingBucket).map
    IncomingAdjacencyBucket.edges).getD []

theorem mem_outgoingEntries {src : NodeId} {ae : AdjacencyEntry Cid} :
    ae ∈ outgoingEntries edges src ↔
      ∃ r ∈ edges, r.object.src = src ∧ (⟨r.object.etype, r.cid⟩ : AdjacencyEntry Cid) = ae := by
  have inRows : ae ∈ rowsAt (outgoingRows edges) src ↔
      ∃ r ∈ edges, r.object.src = src ∧ (⟨r.object.etype, r.cid⟩ : AdjacencyEntry Cid) = ae := by
    rw [mem_rowsAt]
    simp [outgoingRows]
  rw [outgoingEntries, get?_pushAll_empty, ← inRows]
  by_cases nothing : rowsAt (outgoingRows edges) src = []
  · simp [nothing]
  · rw [if_neg nothing]
    exact List.mem_insertionSort _

theorem mem_incomingEntries {dst : NodeId} {ae : IncomingAdjacencyEntry Cid} :
    ae ∈ incomingEntries edges dst ↔ ∃ r ∈ edges, r.object.dst = dst ∧
      (⟨r.object.etype, r.object.src, r.cid⟩ : IncomingAdjacencyEntry Cid) = ae := by
  have inRows : ae ∈ rowsAt (incomingRows edges) dst ↔ ∃ r ∈ edges, r.object.dst = dst ∧
      (⟨r.object.etype, r.object.src, r.cid⟩ : IncomingAdjacencyEntry Cid) = ae := by
    rw [mem_rowsAt]
    simp [incomingRows]
  rw [incomingEntries, get?_pushAll_empty, ← inRows]
  by_cases nothing : rowsAt (incomingRows edges) dst = []
  · simp [nothing]
  · rw [if_neg nothing]
    exact List.mem_insertionSort _

/-- The rows that point at `dst`. -/
def incomingTo (edges : List (Row Cid (Edge Cid))) (dst : NodeId) : List (Row Cid (Edge Cid)) :=
  edges.filter fun r => decide (r.object.dst = dst)

theorem length_incomingEntries (edges : List (Row Cid (Edge Cid))) (dst : NodeId) :
    (incomingEntries edges dst).length = (incomingTo edges dst).length := by
  have rows_length : (rowsAt (incomingRows edges) dst).length = (incomingTo edges dst).length := by
    simp [rowsAt, incomingRows, incomingTo, List.filter_map, Function.comp_def]
  rw [incomingEntries, get?_pushAll_empty, ← rows_length]
  by_cases nothing : rowsAt (incomingRows edges) dst = []
  · simp [nothing]
  · rw [if_neg nothing]
    exact List.length_insertionSort _ _

end Adjacency

/-! ## Indexed commits -/

/-- The commit's index set stands for `c`, and covers the rows of its trees. -/
structure Indexed (s : Store H) (commit : Commit Cid) (nodes : List (Row Cid (Node Cid)))
    (edges : List (Row Cid (Edge Cid))) (c : Contents Cid) : Prop where
  root : commit.indexes = some (c.cid H)
  stored : c.Stored s
  covers : c.Covers H nodes edges

section Indexed

variable {s s' : Store H} {commit : Commit Cid} {nodes : List (Row Cid (Node Cid))}
  {edges : List (Row Cid (Edge Cid))} {c : Contents Cid}

theorem Indexed.mono (indexed : Indexed s commit nodes edges c) (le : s ≤ s') :
    Indexed s' commit nodes edges c :=
  ⟨indexed.root, indexed.stored.mono le, indexed.covers⟩

theorem Indexed.indexesOf (indexed : Indexed s commit nodes edges c) :
    indexesOf s commit = .ok (some (c.indexSet H)) := by
  have decoded : s.decodeFromStore (IndexSet Cid) (c.cid H) = .ok (c.indexSet H) :=
    indexed.stored.set
  simp only [Repo.indexesOf, indexed.root, decoded]
  rfl

theorem Indexed.outgoingBucket (indexed : Indexed s commit nodes edges c) (src : NodeId) :
    bucketAt (AdjacencyBucket Cid) s (c.indexSet H).outgoing src =
      .ok (((pushAll OrdMap.empty (outgoingRows edges)).get? src).map Index.outgoingBucket) := by
  have groups : c.outgoing = pushAll OrdMap.empty (outgoingRows edges) := indexed.covers.outgoing
  rw [← groups]
  exact bucketAt_adjacency indexed.stored.outgoing src

theorem Indexed.incomingBucket (indexed : Indexed s commit nodes edges c) (dst : NodeId) :
    bucketAt (IncomingAdjacencyBucket Cid) s (c.indexSet H).incoming dst =
      .ok (((pushAll OrdMap.empty (incomingRows edges)).get? dst).map Index.incomingBucket) := by
  have groups : c.incoming = pushAll OrdMap.empty (incomingRows edges) := indexed.covers.incoming
  rw [← groups]
  exact bucketAt_adjacency indexed.stored.incoming dst

/-- Decoding some rows' edges gives their objects. -/
theorem decodeEdges_of_rows {es : List (ProllyKey × Cid)} (reads : ReadsRows s es edges)
    (cids : List Cid) (fromRows : ∀ c ∈ cids, ∃ r ∈ edges, r.cid = c) :
    ∃ out, decodeEdges s cids = .ok out ∧ ∀ r ∈ edges, r.cid ∈ cids → r.object ∈ out := by
  have loads : ∀ c ∈ cids, ∃ e : Edge Cid, s.Loads c e := by
    intro c m
    obtain ⟨r, inRows, rfl⟩ := fromRows c m
    exact ⟨r.object, reads.loads r inRows⟩
  obtain ⟨out, ran, each⟩ := decodeEdges_of_loads loads
  refine ⟨out, ran, fun r inRows inCids => ?_⟩
  obtain ⟨i, lt, at_i⟩ := List.mem_iff_getElem.mp inCids
  have lt' := each.length_eq ▸ lt
  have here := (List.forall₂_iff_get.mp each).2 i lt lt'
  rw [List.get_eq_getElem, List.get_eq_getElem, at_i] at here
  rw [(reads.loads r inRows).unique here]
  exact List.getElem_mem lt'

theorem outgoingEdges_eq {r : ReadonlyRepo Cid} (head : r.commit = some commit)
    (indexed : Indexed s commit nodes edges c) (src : NodeId) :
    r.outgoingEdges s src none =
      decodeEdges s ((outgoingEntries edges src).map AdjacencyEntry.edge) := by
  have unfiltered : (outgoingEntries edges src).filter (fun e => wanted none e.label) =
      outgoingEntries edges src := List.filter_eq_self.mpr fun _ _ => rfl
  simp only [ReadonlyRepo.outgoingEdges, head]
  rw [indexed.indexesOf]
  change (bucketAt (AdjacencyBucket Cid) s (c.indexSet H).outgoing src >>= _) = _
  rw [indexed.outgoingBucket]
  change decodeEdges s (((outgoingEntries edges src).filter
    (fun e => wanted none e.label)).map AdjacencyEntry.edge) = _
  rw [unfiltered]

theorem incomingEdges_eq {r : ReadonlyRepo Cid} (head : r.commit = some commit)
    (indexed : Indexed s commit nodes edges c) (dst : NodeId) :
    r.incomingEdges s dst none = decodeEdges s
      (((incomingEntries edges dst).take defaultAdjacencyCap).map IncomingAdjacencyEntry.edge) := by
  have unfiltered : (incomingEntries edges dst).filter (fun e => wanted none e.label) =
      incomingEntries edges dst := List.filter_eq_self.mpr fun _ _ => rfl
  simp only [ReadonlyRepo.incomingEdges, ReadonlyRepo.incomingEdgesCapped, head]
  rw [indexed.indexesOf]
  change (bucketAt (IncomingAdjacencyBucket Cid) s (c.indexSet H).incoming dst >>= _) = _
  rw [indexed.incomingBucket]
  change decodeEdges s ((((incomingEntries edges dst).filter
    (fun e => wanted none e.label)).take defaultAdjacencyCap).map
      IncomingAdjacencyEntry.edge) = _
  rw [unfiltered]

/-- Every outgoing edge of a node is found. -/
theorem outgoingEdges_of_indexed {r : ReadonlyRepo Cid} (head : r.commit = some commit)
    (indexed : Indexed s commit nodes edges c) {es : List (ProllyKey × Cid)}
    (reads : ReadsRows s es edges) (src : NodeId) :
    ∃ out, r.outgoingEdges s src none = .ok out ∧
      ∀ row ∈ edges, row.object.src = src → row.object ∈ out := by
  obtain ⟨out, ran, all⟩ := decodeEdges_of_rows reads
    ((outgoingEntries edges src).map AdjacencyEntry.edge) (fun c m => by
      obtain ⟨ae, inBucket, rfl⟩ := List.mem_map.mp m
      obtain ⟨row, inRows, -, rfl⟩ := mem_outgoingEntries.mp inBucket
      exact ⟨row, inRows, rfl⟩)
  refine ⟨out, (outgoingEdges_eq head indexed src).trans ran,
    fun row inRows at_src => all row inRows ?_⟩
  exact List.mem_map.mpr ⟨_, mem_outgoingEntries.mpr ⟨row, inRows, at_src, rfl⟩, rfl⟩

/-- Every incoming edge of a node is found, when there are no more than the cap. -/
theorem incomingEdges_of_indexed {r : ReadonlyRepo Cid} (head : r.commit = some commit)
    (indexed : Indexed s commit nodes edges c) {es : List (ProllyKey × Cid)}
    (reads : ReadsRows s es edges) (dst : NodeId) :
    ∃ out, r.incomingEdges s dst none = .ok out ∧
      ((incomingTo edges dst).length ≤ defaultAdjacencyCap →
        ∀ row ∈ edges, row.object.dst = dst → row.object ∈ out) := by
  obtain ⟨out, ran, all⟩ := decodeEdges_of_rows reads
    (((incomingEntries edges dst).take defaultAdjacencyCap).map
      IncomingAdjacencyEntry.edge) (fun c m => by
      obtain ⟨ae, inBucket, rfl⟩ := List.mem_map.mp m
      obtain ⟨row, inRows, -, rfl⟩ := mem_incomingEntries.mp (List.mem_of_mem_take inBucket)
      exact ⟨row, inRows, rfl⟩)
  refine ⟨out, (incomingEdges_eq head indexed dst).trans ran,
    fun few row inRows at_dst => all row inRows ?_⟩
  rw [List.take_of_length_le (by rw [length_incomingEntries]; exact few)]
  exact List.mem_map.mpr ⟨_, mem_incomingEntries.mpr ⟨row, inRows, at_dst, rfl⟩, rfl⟩

end Indexed

end Mnem.Repo
