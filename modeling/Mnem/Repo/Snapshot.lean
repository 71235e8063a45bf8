/-
# Repo.Snapshot — what commits and operations stand for

A `Graph` is the plain content of a commit: two maps of objects and two maps of
vector buckets.  `Stands s commit g` says that the trees of `commit` hold `g`
and that its index set is one of `g`'s; `GoodOp` closes this under the
operations an operation descends from, for graphs with a given property, and
`Pinned` is a repository loaded at such an operation.  All of them are kept by
a growing store.
-/
import Mnem.Repo.Readonly

namespace Mnem.Repo

open Theory Theory.Groups Prolly Index

set_option autoImplicit false
set_option linter.unusedSectionVars false

variable {Cid : Type} {H : Hashing Cid} [LinearOrder Cid]

/-! ## Sidecars -/

section Sidecar

variable {V : Type} [Object Cid (Bucket V)] {s s' : Store H} {root : Option Cid}
  {buckets : OrdMap ProllyKey (Bucket V)}

/-- The CIDs of the buckets. -/
def bucketCids (H : Hashing Cid) (buckets : OrdMap ProllyKey (Bucket V)) : OrdMap ProllyKey Cid :=
  buckets.mapValues fun b => H.cidOf (Object.toBlock b)

/-- The sidecar tree at `root`, if there is one, holds `buckets`. -/
structure Sidecar (s : Store H) (root : Option Cid) (buckets : OrdMap ProllyKey (Bucket V)) :
    Prop where
  tree : ∀ r, root = some r → IsTree s r (bucketCids H buckets)
  absent : root = none → buckets = OrdMap.empty
  stored : ∀ k b, buckets.get? k = some b → s.Loads (H.cidOf (Object.toBlock b)) b

theorem Sidecar.mono (sidecar : Sidecar s root buckets) (le : s ≤ s') :
    Sidecar s' root buckets where
  tree r h := (sidecar.tree r h).mono le
  absent := sidecar.absent
  stored k b h := (sidecar.stored k b h).mono le

theorem sidecar_none (s : Store H) :
    Sidecar s none (OrdMap.empty : OrdMap ProllyKey (Bucket V)) where
  tree _ h := by cases h
  absent _ := rfl
  stored _ _ h := by cases h

theorem get?_bucketCids (buckets : OrdMap ProllyKey (Bucket V)) (k : ProllyKey) :
    (bucketCids H buckets).get? k = (buckets.get? k).map fun b => H.cidOf (Object.toBlock b) :=
  buckets.get?_mapValues _ k

/-- Reading a bucket of a sidecar. -/
theorem bucketAt_sidecar (sidecar : Sidecar s root buckets) (key : ProllyKey) :
    bucketAt (Bucket V) s root key = .ok (buckets.get? key) := by
  cases at_root : root with
  | none =>
      rw [sidecar.absent at_root]
      rfl
  | some r =>
      rw [bucketAt_of_isTree (sidecar.tree r at_root), get?_bucketCids]
      cases found : buckets.get? key with
      | none => rfl
      | some b =>
          have decoded : s.decodeFromStore (Bucket V) (H.cidOf (Object.toBlock b)) = .ok b :=
            sidecar.stored key b found
          simp only [Option.map_some, decoded]
          rfl

end Sidecar

/-! ## Graphs -/

/-- The content of a commit. -/
structure Graph (Cid : Type) where
  nodes : OrdMap ProllyKey Cid := OrdMap.empty
  edges : OrdMap ProllyKey Cid := OrdMap.empty
  embeddings : OrdMap ProllyKey EmbeddingBucket := OrdMap.empty
  sparse : OrdMap ProllyKey SparseBucket := OrdMap.empty

variable {s s' : Store H}

/-- The index set of a commit covers its trees. -/
def IsIndexed (s : Store H) (commit : Commit Cid) (g : Graph Cid) : Prop :=
  ∃ nodes edges c, ReadsRows s g.nodes.entries nodes ∧ ReadsRows s g.edges.entries edges ∧
    Indexed s commit nodes edges c

theorem IsIndexed.mono {commit : Commit Cid} {g : Graph Cid} (indexed : IsIndexed s commit g)
    (le : s ≤ s') : IsIndexed s' commit g := by
  obtain ⟨nodes, edges, c, nodesRead, edgesRead, isIndexed⟩ := indexed
  exact ⟨nodes, edges, c, nodesRead.mono le, edgesRead.mono le, isIndexed.mono le⟩

/-- The commit holds `g`. -/
structure Stands (s : Store H) (commit : Commit Cid) (g : Graph Cid) : Prop where
  nodes : NodeTable s commit.nodes g.nodes
  edges : EdgeTable s commit.edges g.edges
  indexed : IsIndexed s commit g
  embeddings : Sidecar s commit.embeddings g.embeddings
  sparse : Sidecar s commit.sparse g.sparse

theorem Stands.mono {commit : Commit Cid} {g : Graph Cid} (stands : Stands s commit g)
    (le : s ≤ s') : Stands s' commit g where
  nodes := stands.nodes.mono le
  edges := stands.edges.mono le
  indexed := stands.indexed.mono le
  embeddings := stands.embeddings.mono le
  sparse := stands.sparse.mono le

theorem bucketCids_injective {V : Type} [Object Cid (Bucket V)] :
    Function.Injective (bucketCids H : OrdMap ProllyKey (Bucket V) → OrdMap ProllyKey Cid) := by
  intro b b' same
  ext k : 1
  have at_k := congrArg (fun m => m.get? k) same
  simp only [get?_bucketCids] at at_k
  exact Option.map_injective (fun _ _ h => Store.toBlock_injective (H.cidOf_injective h)) at_k

theorem Sidecar.unique {V : Type} [Object Cid (Bucket V)] {root : Option Cid}
    {b b' : OrdMap ProllyKey (Bucket V)} (sidecar : Sidecar s root b)
    (sidecar' : Sidecar s' root b') : b = b' := by
  cases root with
  | none => rw [sidecar.absent rfl, sidecar'.absent rfl]
  | some r => exact bucketCids_injective ((sidecar.tree r rfl).unique (sidecar'.tree r rfl))

/-- A commit determines its graph. -/
theorem Stands.unique {commit : Commit Cid} {g g' : Graph Cid} (stands : Stands s commit g)
    (stands' : Stands s' commit g') : g = g' := by
  obtain ⟨nodes, edges, embeddings, sparse⟩ := g
  obtain ⟨nodes', edges', embeddings', sparse'⟩ := g'
  obtain rfl : nodes = nodes' := stands.nodes.tree.unique stands'.nodes.tree
  obtain rfl : edges = edges' := stands.edges.tree.unique stands'.edges.tree
  obtain rfl : embeddings = embeddings' := stands.embeddings.unique stands'.embeddings
  obtain rfl : sparse = sparse' := stands.sparse.unique stands'.sparse
  rfl

/-! ## Good operations -/

section Good

variable {P : Graph Cid → Prop}

/-- A stored commit that holds a graph with the property. -/
def GoodCommit (P : Graph Cid → Prop) (s : Store H) (cid : Cid) : Prop :=
  ∃ commit g, s.Loads cid (commit : Commit Cid) ∧ Stands s commit g ∧ P g

theorem GoodCommit.mono {cid : Cid} (good : GoodCommit P s cid) (le : s ≤ s') :
    GoodCommit P s' cid := by
  obtain ⟨commit, g, loads, stands, property⟩ := good
  exact ⟨commit, g, loads.mono le, stands.mono le, property⟩

/-- A stored operation with a stored view of good commits, descending from such. -/
inductive GoodOp (P : Graph Cid → Prop) (s : Store H) : Cid → Prop where
  | intro {cid : Cid} (op : Operation Cid) (view : View Cid) (loads : s.Loads cid op)
      (viewLoads : s.Loads op.view view) (heads : ∀ h ∈ view.heads, GoodCommit P s h)
      (parents : ∀ p ∈ op.parents, GoodOp P s p) : GoodOp P s cid

theorem GoodOp.mono {cid : Cid} (good : GoodOp P s cid) (le : s ≤ s') : GoodOp P s' cid := by
  induction good with
  | intro op view loads viewLoads heads _ ih =>
      exact .intro op view (loads.mono le) (viewLoads.mono le) (fun h m => (heads h m).mono le) ih

end Good

/-- No operation is its own parent. -/
theorem not_mem_parents {cid : Cid} {op : Operation Cid} (loads : s.Loads cid op) :
    cid ∉ op.parents := by
  intro member
  have link : cid ∈ (Object.toBlock op : Block Cid).links := List.mem_append_left _ member
  rw [← loads.cidOf] at link
  exact H.cidOf_not_mem_links _ link

/-- What a stored view carries has an encoding. -/
theorem accepted_of_loads {viewCid : Cid} {view : View Cid} (loads : s.Loads viewCid view)
    {key : String} {v : Ipld Cid} (found : view.extra.get? key = some v) :
    H.acceptsValue v = true := by
  have encodes := Store.encodes_of_get (Store.loads_iff.mp loads)
  have all : view.extra.values.all H.acceptsValue = true := (Bool.and_eq_true_iff.mp encodes).1
  refine List.all_eq_true.mp all v ?_
  exact List.mem_map_of_mem (view.extra.get?_eq_some_iff.mp found)

/-- No commit is its own parent. -/
theorem not_mem_commit_parents {cid : Cid} {commit : Commit Cid} (loads : s.Loads cid commit) :
    cid ∉ commit.parents := by
  intro member
  have link : cid ∈ (Object.toBlock commit : Block Cid).links := by
    change cid ∈ commit.parents ++ [commit.nodes, commit.edges, commit.schema] ++ _ ++ _ ++ _ ++ _
    simp only [List.mem_append]
    exact .inl (.inl (.inl (.inl (.inl member))))
  rw [← loads.cidOf] at link
  exact H.cidOf_not_mem_links _ link

/-! ## Pinned repositories -/

/-- What a repository without commits, or with one, holds. -/
def HeadHolds (s : Store H) (commit : Option (Commit Cid)) (g : Graph Cid) : Prop :=
  match commit with
  | none => g = {}
  | some commit => Stands s commit g

theorem HeadHolds.mono {commit : Option (Commit Cid)} {g : Graph Cid}
    (holds : HeadHolds s commit g) (le : s ≤ s') : HeadHolds s' commit g := by
  cases commit with
  | none => exact holds
  | some commit => exact Stands.mono holds le

/-- The sidecars of the head, none when there is no head. -/
theorem HeadHolds.sidecars {commit : Option (Commit Cid)} {g : Graph Cid}
    (holds : HeadHolds s commit g) : Sidecar s (commit.bind Commit.embeddings) g.embeddings ∧
      Sidecar s (commit.bind Commit.sparse) g.sparse := by
  cases commit with
  | none =>
      obtain rfl : g = {} := holds
      exact ⟨sidecar_none s, sidecar_none s⟩
  | some commit => exact ⟨Stands.embeddings holds, Stands.sparse holds⟩

/-- The repository is what `load_at` gives at a good operation, and its head holds `g`. -/
structure Pinned (P : Graph Cid → Prop) (s : Store H) (r : ReadonlyRepo Cid) (g : Graph Cid) :
    Prop where
  good : GoodOp P s r.opId
  op : s.Loads r.opId r.op
  view : s.Loads r.op.view r.view
  commit : r.view.heads.head?.elim (r.commit = none)
    fun head => ∃ commit, r.commit = some commit ∧ s.Loads head commit
  holds : HeadHolds s r.commit g

variable {P : Graph Cid → Prop}

theorem Pinned.mono {r : ReadonlyRepo Cid} {g : Graph Cid} (pinned : Pinned P s r g)
    (le : s ≤ s') : Pinned P s' r g where
  good := pinned.good.mono le
  op := pinned.op.mono le
  view := pinned.view.mono le
  commit := by
    have before := pinned.commit
    cases h : r.view.heads.head? with
    | none =>
        rw [h] at before
        exact before
    | some head =>
        rw [h] at before
        obtain ⟨commit, here, loads⟩ := before
        exact ⟨commit, here, loads.mono le⟩
  holds := pinned.holds.mono le

/-- The CID that a repository has for a node. -/
def ReadonlyRepo.nodeCid (s : Store H) (r : ReadonlyRepo Cid) (id : NodeId) : Option Cid :=
  r.commit.bind fun commit =>
    match lookup s commit.nodes id with
    | .ok found => found
    | .error _ => none

theorem Pinned.nodeCid_eq {r : ReadonlyRepo Cid} {g : Graph Cid} (pinned : Pinned P s r g)
    (id : NodeId) : r.nodeCid s id = g.nodes.get? id := by
  have holds := pinned.holds
  unfold ReadonlyRepo.nodeCid
  cases head : r.commit with
  | none =>
      rw [head] at holds
      obtain rfl : g = {} := holds
      rfl
  | some commit =>
      rw [head] at holds
      rw [Option.bind_some, lookup_of_isTree (Stands.nodes holds).tree]

/-- Loading at a good operation gives a pinned repository. -/
theorem loadAt_of_good {opId : Cid} (good : GoodOp P s opId) :
    ∃ r g, ReadonlyRepo.loadAt s opId = .ok r ∧ r.opId = opId ∧ Pinned P s r g := by
  cases good with
  | intro op view loads viewLoads heads parents =>
      have decodedOp : s.decodeFromStore (Operation Cid) opId = .ok op := loads
      have decodedView : s.decodeFromStore (View Cid) op.view = .ok view := viewLoads
      have good : GoodOp P s opId := .intro op view loads viewLoads heads parents
      unfold ReadonlyRepo.loadAt
      rw [decodedOp]
      change ∃ r g, (s.decodeFromStore (View Cid) op.view >>= _) = .ok r ∧ _
      rw [decodedView]
      dsimp only [bind, Except.bind]
      cases first : view.heads.head? with
      | none =>
          refine ⟨⟨opId, op, view, none⟩, {}, rfl, rfl, good, loads, viewLoads, ?_, rfl⟩
          change view.heads.head?.elim _ _
          rw [first]
          rfl
      | some head =>
          obtain ⟨commit, g, commitLoads, stands, -⟩ := heads head (List.mem_of_head? first)
          have decodedCommit : s.decodeFromStore (Commit Cid) head = .ok commit := commitLoads
          refine ⟨⟨opId, op, view, some commit⟩, g, ?_, rfl, good, loads, viewLoads, ?_, stands⟩
          · dsimp only
            rw [decodedCommit]
            rfl
          · change view.heads.head?.elim _ _
            rw [first]
            exact ⟨commit, rfl, commitLoads⟩

/-- What `load_at` returns at a good operation is pinned. -/
theorem pinned_of_loadAt {opId : Cid} (good : GoodOp P s opId) {r : ReadonlyRepo Cid}
    (ran : ReadonlyRepo.loadAt s opId = .ok r) : r.opId = opId ∧ ∃ g, Pinned P s r g := by
  obtain ⟨r', g, ran', at_op, pinned⟩ := loadAt_of_good good
  obtain rfl := Except.ok.inj (ran.symm.trans ran')
  exact ⟨at_op, g, pinned⟩

/-- The graph of a pinned repository has the property, if the empty one does. -/
theorem Pinned.property {r : ReadonlyRepo Cid} {g : Graph Cid} (pinned : Pinned P s r g)
    (empty : P {}) : P g := by
  obtain ⟨good, opLoads, viewLoads, byHead, holds⟩ := pinned
  cases good with
  | intro op view opLoads' viewLoads' heads _ =>
      obtain rfl := opLoads.unique opLoads'
      obtain rfl := viewLoads.unique viewLoads'
      cases first : r.view.heads.head? with
      | none =>
          rw [first] at byHead
          change r.commit = none at byHead
          rw [byHead] at holds
          obtain rfl : g = {} := holds
          exact empty
      | some head =>
          rw [first] at byHead
          obtain ⟨commit, here, loads⟩ := byHead
          rw [here] at holds
          obtain ⟨commit', g', loads', stands', property⟩ :=
            heads head (List.mem_of_head? first)
          obtain rfl := loads.unique loads'
          exact (Stands.unique holds stands') ▸ property

end Mnem.Repo
