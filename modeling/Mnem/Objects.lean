/-
# Objects — what a repository stores

The content-addressed objects, as plain data over an arbitrary type `Cid` of
content identifiers: IPLD values, nodes, edges, tree chunks, commits, views,
operations, index sets, adjacency buckets and the two vector buckets.  A
`Block` is one stored object; its constructor plays the part of the `_kind`
discriminator on the wire, and `Object.ofBlock?` is the typed decode that
rejects a block of another kind.

Stable identifiers are 16 bytes; as tree keys they compare bytewise, which is
the order of the big-endian numbers they spell.
-/
import Mnem.Theory.OrdMap
import Mathlib.Order.Fin.Basic
import Mathlib.Data.String.Basic
import Mathlib.Algebra.GroupWithZero.Nat

namespace Mnem

open Theory

set_option autoImplicit false

/-! ## Identifiers -/

/-- Sixteen bytes, ordered bytewise. -/
abbrev StableId := Fin (2 ^ 128)

instance neZero_stableIds : NeZero (2 ^ 128) := ⟨by decide⟩

instance lawfulBEq_stableId : LawfulBEq StableId := inferInstance

abbrev NodeId := StableId
abbrev EdgeId := StableId
abbrev ChangeId := StableId

/-- A tree key.  Every stable identifier converts to one byte for byte. -/
abbrev ProllyKey := StableId

/-! ## IPLD values -/

/-- The IPLD data model.  A float is its 64 bits; a map lists its entries in
key order. -/
inductive Ipld (Cid : Type) where
  | null
  | bool (b : Bool)
  | integer (i : Int)
  | float (bits : UInt64)
  | string (s : String)
  | bytes (bs : List UInt8)
  | list (xs : List (Ipld Cid))
  | map (kvs : List (String × Ipld Cid))
  | link (c : Cid)
  deriving Inhabited

namespace Ipld

variable {Cid : Type}

/-- Equality of doubles: no NaN equals anything, and the two zeros are equal. -/
def floatEq (a b : UInt64) : Bool :=
  let magnitude (x : UInt64) : Nat := x.toNat % 2 ^ 63
  let nan (x : UInt64) : Bool := magnitude x > 0x7ff0000000000000
  !nan a && !nan b && (a == b || (magnitude a == 0 && magnitude b == 0))

mutual

/-- The derived `PartialEq`: structural, with doubles compared as doubles. -/
def eq [DecidableEq Cid] : Ipld Cid → Ipld Cid → Bool
  | .null, .null => true
  | .bool a, .bool b => a == b
  | .integer a, .integer b => a == b
  | .float a, .float b => floatEq a b
  | .string a, .string b => a == b
  | .bytes a, .bytes b => a == b
  | .list a, .list b => eqList a b
  | .map a, .map b => eqMap a b
  | .link a, .link b => a == b
  | _, _ => false

def eqList [DecidableEq Cid] : List (Ipld Cid) → List (Ipld Cid) → Bool
  | [], [] => true
  | a :: as, b :: bs => eq a b && eqList as bs
  | _, _ => false

def eqMap [DecidableEq Cid] : List (String × Ipld Cid) → List (String × Ipld Cid) → Bool
  | [], [] => true
  | (k, a) :: as, (j, b) :: bs => k == j && eq a b && eqMap as bs
  | _, _ => false

end

theorem floatEq_comm (a b : UInt64) : floatEq a b = floatEq b a := by
  simp only [floatEq]
  rw [Bool.and_comm (!_) (!_), BEq.comm (a := a), Bool.and_comm (_ == 0)]

mutual

theorem eq_comm [DecidableEq Cid] : ∀ a b : Ipld Cid, eq a b = eq b a
  | .null, b => by cases b <;> rfl
  | .bool x, b => by
      cases b with
      | bool y => exact BEq.comm
      | _ => rfl
  | .integer x, b => by
      cases b with
      | integer y => exact BEq.comm
      | _ => rfl
  | .float x, b => by
      cases b with
      | float y => exact floatEq_comm x y
      | _ => rfl
  | .string x, b => by
      cases b with
      | string y => exact BEq.comm
      | _ => rfl
  | .bytes x, b => by
      cases b with
      | bytes y => exact BEq.comm
      | _ => rfl
  | .list xs, b => by
      cases b with
      | list ys => exact eqList_comm xs ys
      | _ => rfl
  | .map kvs, b => by
      cases b with
      | map jvs => exact eqMap_comm kvs jvs
      | _ => rfl
  | .link x, b => by
      cases b with
      | link y => exact BEq.comm
      | _ => rfl

theorem eqList_comm [DecidableEq Cid] : ∀ as bs : List (Ipld Cid), eqList as bs = eqList bs as
  | [], bs => by cases bs <;> rfl
  | a :: as, bs => by
      cases bs with
      | nil => rfl
      | cons b bs =>
          rw [eqList, eqList, eq_comm a b, eqList_comm as bs]

theorem eqMap_comm [DecidableEq Cid] :
    ∀ as bs : List (String × Ipld Cid), eqMap as bs = eqMap bs as
  | [], bs => by cases bs <;> rfl
  | (k, a) :: as, bs => by
      cases bs with
      | nil => rfl
      | cons jb bs =>
          obtain ⟨j, b⟩ := jb
          rw [eqMap, eqMap, eq_comm a b, eqMap_comm as bs, BEq.comm (a := k)]

end

mutual

/-- The links inside a value, depth first. -/
def links : Ipld Cid → List Cid
  | .link c => [c]
  | .list xs => linksList xs
  | .map kvs => linksMap kvs
  | _ => []

def linksList : List (Ipld Cid) → List Cid
  | [] => []
  | x :: xs => links x ++ linksList xs

def linksMap : List (String × Ipld Cid) → List Cid
  | [] => []
  | (_, x) :: kvs => links x ++ linksMap kvs

end

mutual

/-- Built without numbers; such a value always has a canonical encoding. -/
def numberFree : Ipld Cid → Bool
  | .integer _ => false
  | .float _ => false
  | .list xs => numberFreeList xs
  | .map kvs => numberFreeMap kvs
  | _ => true

def numberFreeList : List (Ipld Cid) → Bool
  | [] => true
  | x :: xs => numberFree x && numberFreeList xs

def numberFreeMap : List (String × Ipld Cid) → Bool
  | [] => true
  | (_, x) :: kvs => numberFree x && numberFreeMap kvs

end

end Ipld

/-- A property map or an extension map. -/
abbrev Props (Cid : Type) := OrdMap String (Ipld Cid)

def Props.links {Cid : Type} (p : Props Cid) : List Cid := p.values.flatMap Ipld.links

/-! ## Graph objects -/

/-- A graph vertex. -/
structure Node (Cid : Type) where
  id : NodeId
  ntype : String
  summary : Option String := none
  props : Props Cid := OrdMap.empty
  content : Option (List UInt8) := none
  contextSentence : Option String := none
  extra : Props Cid := OrdMap.empty

/-- A typed, directed link between two nodes, by their stable identifiers. -/
structure Edge (Cid : Type) where
  id : EdgeId
  etype : String
  src : NodeId
  dst : NodeId
  props : Props Cid := OrdMap.empty
  extra : Props Cid := OrdMap.empty

/-! ## Tree chunks -/

/-- A Prolly tree chunk: a leaf of ascending entries, or an internal node whose
`boundaries[i]` is the inclusive lower bound of child `i + 1`. -/
inductive TreeChunk (Cid : Type) where
  | leaf (entries : List (ProllyKey × Cid))
  | internal (boundaries : List ProllyKey) (children : List Cid)

/-! ## Indexes -/

/-- One outgoing edge of an `AdjacencyBucket`. -/
structure AdjacencyEntry (Cid : Type) where
  label : String
  edge : Cid

/-- The outgoing edges of one source node, sorted by `(label, edge)`. -/
structure AdjacencyBucket (Cid : Type) where
  edges : List (AdjacencyEntry Cid)

/-- One incoming edge of an `IncomingAdjacencyBucket`. -/
structure IncomingAdjacencyEntry (Cid : Type) where
  label : String
  src : NodeId
  edge : Cid

/-- The incoming edges of one destination node, sorted by `(label, src, edge)`. -/
structure IncomingAdjacencyBucket (Cid : Type) where
  edges : List (IncomingAdjacencyEntry Cid)

/-- The secondary indexes of one commit: a tree per label keyed by node id, a
tree per `(label, property)` keyed by value hash, and the two adjacency trees. -/
structure IndexSet (Cid : Type) where
  nodesByLabel : OrdMap String Cid := OrdMap.empty
  nodesByProp : OrdMap String (OrdMap String Cid) := OrdMap.empty
  outgoing : Option Cid := none
  incoming : Option Cid := none
  extra : Props Cid := OrdMap.empty

/-! ## Vector buckets -/

inductive Dtype where
  | f16
  | f32
  | f64
  | i8
  deriving DecidableEq

/-- A dense vector produced by a named model. -/
structure Embedding where
  model : String
  dtype : Dtype
  dim : UInt32
  vector : List UInt8
  deriving DecidableEq

/-- A learned-sparse vector over a named vocabulary; weights are `f32` bits. -/
structure SparseEmbed where
  indices : List UInt32
  values : List UInt32
  vocabId : String
  deriving DecidableEq

/-- The vectors of one node, at most one for each model (or vocabulary) name.
`EmbeddingBucket` and `SparseBucket` are this at their vector types. -/
structure Bucket (V : Type) where
  entries : List (String × V) := []

namespace Bucket

variable {V : Type}

/-- The vector stored under `name`. -/
def get (b : Bucket V) (name : String) : Option V := Entries.get? name b.entries

/-- Replace the entry at `name` in place, or append one. -/
def upsertEntries (name : String) (vector : V) : List (String × V) → List (String × V)
  | [] => [(name, vector)]
  | e :: es => if e.1 = name then (name, vector) :: es else e :: upsertEntries name vector es

def upsert (b : Bucket V) (name : String) (vector : V) : Bucket V :=
  ⟨upsertEntries name vector b.entries⟩

/-- Stable insertion by name. -/
def sortInsert (e : String × V) : List (String × V) → List (String × V)
  | [] => [e]
  | f :: fs => if e.1 ≤ f.1 then e :: f :: fs else f :: sortInsert e fs

/-- The wire form: entries sorted by name. -/
def canonical (b : Bucket V) : Bucket V := ⟨b.entries.foldr sortInsert []⟩

theorem get_upsert (b : Bucket V) (name : String) (vector : V) (other : String) :
    (b.upsert name vector).get other = if name = other then some vector else b.get other := by
  obtain ⟨es⟩ := b
  simp only [get, upsert]
  induction es with
  | nil => simp [upsertEntries, Entries.get?_cons]
  | cons e es ih =>
      simp only [upsertEntries]
      split
      · rename_i at_e
        subst at_e
        simp only [Entries.get?_cons]
        split <;> rfl
      · rename_i notAt
        simp only [Entries.get?_cons, ih]
        by_cases h : e.1 = other
        · subst h
          simp [Ne.symm notAt]
        · simp [h]

theorem get?_sortInsert (e : String × V) (fs : List (String × V)) (name : String) :
    Entries.get? name (sortInsert e fs) = Entries.get? name (e :: fs) := by
  induction fs with
  | nil => rfl
  | cons f fs ih =>
      simp only [sortInsert]
      split
      · rfl
      · rename_i below
        have distinct : e.1 ≠ f.1 := fun same => below (le_of_eq same)
        rw [Entries.get?_cons, ih]
        simp only [Entries.get?_cons]
        by_cases h : f.1 = name
        · subst h
          simp [distinct]
        · simp [h]

/-- Sorting for the wire does not change what a bucket answers. -/
@[simp] theorem get_canonical (b : Bucket V) (name : String) :
    b.canonical.get name = b.get name := by
  obtain ⟨es⟩ := b
  simp only [get, canonical]
  induction es with
  | nil => rfl
  | cons e es ih =>
      rw [List.foldr_cons, get?_sortInsert, Entries.get?_cons, Entries.get?_cons, ih]

end Bucket

abbrev EmbeddingBucket := Bucket Embedding
abbrev SparseBucket := Bucket SparseEmbed

/-! ## History objects -/

/-- A versioned snapshot of the graph. -/
structure Commit (Cid : Type) where
  changeId : ChangeId
  parents : List Cid := []
  nodes : Cid
  edges : Cid
  schema : Cid
  indexes : Option Cid := none
  embeddings : Option Cid := none
  sparse : Option Cid := none
  author : String
  time : Nat
  message : String
  extra : Props Cid := OrdMap.empty

/-- A named reference: one target, or an unresolved concurrent update. -/
inductive RefTarget (Cid : Type) where
  | normal (target : Cid)
  | conflicted (adds removes : List Cid)
  deriving DecidableEq

/-- A "forget this node" marker. -/
structure Tombstone where
  reason : String
  tombstonedAt : Nat
  deriving DecidableEq

/-- The mutable state of a repository at one instant. -/
structure View (Cid : Type) where
  heads : List Cid := []
  refs : OrdMap String (RefTarget Cid) := OrdMap.empty
  remoteRefs : Option (OrdMap String (OrdMap String (RefTarget Cid))) := none
  wcCommit : Option Cid := none
  tombstones : OrdMap NodeId Tombstone := OrdMap.empty
  extra : Props Cid := OrdMap.empty

/-- One entry of the operation log. -/
structure Operation (Cid : Type) where
  parents : List Cid := []
  view : Cid
  author : String
  agentId : Option String := none
  taskId : Option String := none
  time : Nat
  description : String

/-! ## Blocks -/

/-- One stored object; `raw` stands for bytes that decode to none of the others. -/
inductive Block (Cid : Type) where
  | raw (bytes : List UInt8)
  | node (n : Node Cid)
  | edge (e : Edge Cid)
  | tree (t : TreeChunk Cid)
  | commit (c : Commit Cid)
  | view (v : View Cid)
  | operation (o : Operation Cid)
  | indexSet (i : IndexSet Cid)
  | adjacencyBucket (b : AdjacencyBucket Cid)
  | incomingAdjacencyBucket (b : IncomingAdjacencyBucket Cid)
  | embeddingBucket (b : EmbeddingBucket)
  | sparseBucket (b : SparseBucket)

namespace RefTarget

variable {Cid : Type}

def links : RefTarget Cid → List Cid
  | .normal target => [target]
  | .conflicted adds removes => adds ++ removes

end RefTarget

namespace Block

variable {Cid : Type}

/-- The content identifiers a block refers to. -/
def links : Block Cid → List Cid
  | .raw _ => []
  | .node n => n.props.links ++ n.extra.links
  | .edge e => e.props.links ++ e.extra.links
  | .tree (.leaf entries) => entries.map Prod.snd
  | .tree (.internal _ children) => children
  | .commit c =>
      c.parents ++ [c.nodes, c.edges, c.schema] ++ c.indexes.toList ++ c.embeddings.toList ++
        c.sparse.toList ++ c.extra.links
  | .view v =>
      v.heads ++ v.refs.values.flatMap RefTarget.links ++
        (v.remoteRefs.toList.flatMap fun r =>
          r.values.flatMap fun refs => refs.values.flatMap RefTarget.links) ++
        v.wcCommit.toList ++ v.extra.links
  | .operation o => o.parents ++ [o.view]
  | .indexSet i =>
      i.nodesByLabel.values ++ i.nodesByProp.values.flatMap OrdMap.values ++ i.outgoing.toList ++
        i.incoming.toList ++ i.extra.links
  | .adjacencyBucket b => b.edges.map AdjacencyEntry.edge
  | .incomingAdjacencyBucket b => b.edges.map IncomingAdjacencyEntry.edge
  | .embeddingBucket _ => []
  | .sparseBucket _ => []

/-- The IPLD values a block carries. -/
def values : Block Cid → List (Ipld Cid)
  | .node n => n.props.values ++ n.extra.values
  | .edge e => e.props.values ++ e.extra.values
  | .commit c => c.extra.values
  | .view v => v.extra.values
  | .indexSet i => i.extra.values
  | _ => []

/-- The `f32` weights a block carries. -/
def weights : Block Cid → List UInt32
  | .sparseBucket b => b.entries.flatMap fun e => e.2.values
  | _ => []

end Block

/-- The object kinds a block decodes to. -/
class Object (Cid : Type) (α : Type) where
  toBlock : α → Block Cid
  ofBlock? : Block Cid → Option α
  ofBlock?_eq_some_iff : ∀ {b : Block Cid} {a : α}, ofBlock? b = some a ↔ b = toBlock a

section Kinds

variable {Cid : Type}

instance : Object Cid (Node Cid) where
  toBlock := .node
  ofBlock? | .node n => some n | _ => none
  ofBlock?_eq_some_iff {b a} := by cases b <;> simp

instance : Object Cid (Edge Cid) where
  toBlock := .edge
  ofBlock? | .edge e => some e | _ => none
  ofBlock?_eq_some_iff {b a} := by cases b <;> simp

instance : Object Cid (TreeChunk Cid) where
  toBlock := .tree
  ofBlock? | .tree t => some t | _ => none
  ofBlock?_eq_some_iff {b a} := by cases b <;> simp

instance : Object Cid (Commit Cid) where
  toBlock := .commit
  ofBlock? | .commit c => some c | _ => none
  ofBlock?_eq_some_iff {b a} := by cases b <;> simp

instance : Object Cid (View Cid) where
  toBlock := .view
  ofBlock? | .view v => some v | _ => none
  ofBlock?_eq_some_iff {b a} := by cases b <;> simp

instance : Object Cid (Operation Cid) where
  toBlock := .operation
  ofBlock? | .operation o => some o | _ => none
  ofBlock?_eq_some_iff {b a} := by cases b <;> simp

instance : Object Cid (IndexSet Cid) where
  toBlock := .indexSet
  ofBlock? | .indexSet i => some i | _ => none
  ofBlock?_eq_some_iff {b a} := by cases b <;> simp

instance : Object Cid (AdjacencyBucket Cid) where
  toBlock := .adjacencyBucket
  ofBlock? | .adjacencyBucket b => some b | _ => none
  ofBlock?_eq_some_iff {b a} := by cases b <;> simp

instance : Object Cid (IncomingAdjacencyBucket Cid) where
  toBlock := .incomingAdjacencyBucket
  ofBlock? | .incomingAdjacencyBucket b => some b | _ => none
  ofBlock?_eq_some_iff {b a} := by cases b <;> simp

instance : Object Cid EmbeddingBucket where
  toBlock := .embeddingBucket
  ofBlock? | .embeddingBucket b => some b | _ => none
  ofBlock?_eq_some_iff {b a} := by cases b <;> simp

instance : Object Cid SparseBucket where
  toBlock := .sparseBucket
  ofBlock? | .sparseBucket b => some b | _ => none
  ofBlock?_eq_some_iff {b a} := by cases b <;> simp

end Kinds

end Mnem
