/-
# Codec.Format — each object as the map it is written as

Every object has a wire record: a `_kind`, its own fields, and beside them all
other keys of the map.  An object is written as that map and read back from it
after a look at the kind.  Each kind is one `Format`; what is read back
(`Format.deserialize_serialize`) and which maps are written again as they were
(`Format.serialize_iff`) follows from the laws of the fields.

The objects here have every field of the source; those of `Mnem.Objects` have
the fields that the repository's operations look at.
-/
import Mnem.Theory.RecordCodec
import Mnem.Codec.Wire
import Mathlib.Data.List.Induction
import Mathlib.Data.List.Sort

namespace Mnem

open Theory

set_option autoImplicit false

/-! ## Identifiers -/

/-- The number that big-endian bytes spell. -/
def bigEndian (bs : List UInt8) : Nat := bs.foldl (fun n b => n * 256 + b.toNat) 0

theorem bigEndian_concat (bs : List UInt8) (b : UInt8) :
    bigEndian (bs ++ [b]) = bigEndian bs * 256 + b.toNat := by
  rw [bigEndian, List.foldl_append]
  rfl

/-- The last `n` bytes of a number, the most significant first. -/
def lastBytes (n x : Nat) : List UInt8 :=
  (List.range n).map fun i => UInt8.ofNat (x / 256 ^ (n - 1 - i))

theorem lastBytes_succ (n x : Nat) :
    lastBytes (n + 1) x = lastBytes n (x / 256) ++ [UInt8.ofNat x] := by
  rw [lastBytes, List.range_succ, List.map_append]
  congr 1
  · apply List.map_congr_left
    intro i m
    have below : i < n := List.mem_range.mp m
    have power : 256 ^ (n + 1 - 1 - i) = 256 * 256 ^ (n - 1 - i) := by
      rw [← pow_succ']
      congr 1
      omega
    rw [power, Nat.div_div_eq_div_mul]
  · simp

theorem bigEndian_lastBytes (n x : Nat) : bigEndian (lastBytes n x) = x % 256 ^ n := by
  induction n generalizing x with
  | zero =>
      rw [pow_zero, Nat.mod_one]
      rfl
  | succ n ih =>
      rw [lastBytes_succ, bigEndian_concat, ih, pow_succ', Nat.mod_mul, UInt8.toNat_ofNat']
      omega

theorem lastBytes_bigEndian (bs : List UInt8) : lastBytes bs.length (bigEndian bs) = bs := by
  induction bs using List.reverseRecOn with
  | nil => rfl
  | append_singleton bs b ih =>
      have low := b.toNat_lt
      have front : (bigEndian bs * 256 + b.toNat) / 256 = bigEndian bs := by omega
      have last : UInt8.ofNat (bigEndian bs * 256 + b.toNat) = b := by
        apply UInt8.toNat_inj.mp
        rw [UInt8.toNat_ofNat']
        omega
      rw [List.length_append, List.length_singleton, lastBytes_succ, bigEndian_concat, front, last,
        ih]

theorem bigEndian_lt (bs : List UInt8) : bigEndian bs < 256 ^ bs.length := by
  have whole := bigEndian_lastBytes bs.length (bigEndian bs)
  rw [lastBytes_bigEndian] at whole
  rw [whole]
  exact Nat.mod_lt _ (Nat.pow_pos (by decide))

/-- `from_bytes`: exactly sixteen bytes. -/
def StableId.ofBytes? (bs : List UInt8) : Option StableId :=
  if sixteen : bs.length = 16 then
    some ⟨bigEndian bs, by
      have below := bigEndian_lt bs
      rw [sixteen] at below
      exact below⟩
  else none

theorem StableId.toBytes_eq (id : StableId) : StableId.toBytes id = lastBytes 16 id.val := rfl

theorem StableId.ofBytes?_toBytes (id : StableId) :
    StableId.ofBytes? (StableId.toBytes id) = some id := by
  have sixteen : (StableId.toBytes id).length = 16 := by
    rw [toBytes_eq, lastBytes, List.length_map, List.length_range]
  rw [ofBytes?, dif_pos sixteen]
  congr 1
  apply Fin.ext
  show bigEndian (StableId.toBytes id) = id.val
  rw [toBytes_eq, bigEndian_lastBytes]
  exact Nat.mod_eq_of_lt id.isLt

theorem StableId.toBytes_ofBytes? {bs : List UInt8} {id : StableId}
    (read : StableId.ofBytes? bs = some id) : StableId.toBytes id = bs := by
  rw [ofBytes?] at read
  split at read
  · rename_i sixteen
    cases read
    rw [toBytes_eq]
    show lastBytes 16 (bigEndian bs) = bs
    rw [← sixteen]
    exact lastBytes_bigEndian bs
  · cases read

/-! ## Objects -/

namespace Objects

/-- Cryptographic signature on a commit or an operation. -/
structure Signature where
  algo : String
  publicKey : List UInt8
  sig : List UInt8

/-- A versioned snapshot of the graph. -/
structure Commit (Cid : Type) where
  changeId : ChangeId
  parents : List Cid
  nodes : Cid
  edges : Cid
  schema : Cid
  delta : Option Cid
  indexes : Option Cid
  embeddings : Option Cid
  sparse : Option Cid
  author : String
  agentId : Option String
  taskId : Option String
  time : UInt64
  message : String
  signature : Option Signature
  extra : Props Cid

/-- A single mutation of repository state. -/
structure Operation (Cid : Type) where
  parents : List Cid
  view : Cid
  predecessors : Option (OrdMap String (List ChangeId))
  author : String
  agentId : Option String
  taskId : Option String
  host : Option String
  time : UInt64
  description : String
  signature : Option Signature
  extra : Props Cid

/-- A "forget this node" marker. -/
structure Tombstone (Cid : Type) where
  reason : String
  tombstonedAt : UInt64
  extra : Props Cid

/-- The mutable state of a repository at one instant. -/
structure View (Cid : Type) where
  heads : List Cid
  refs : OrdMap String (RefTarget Cid)
  remoteRefs : Option (OrdMap String (OrdMap String (RefTarget Cid)))
  wcCommit : Option Cid
  tombstones : OrdMap NodeId (Tombstone Cid)
  extra : Props Cid

/-- The outgoing edges of one source node. -/
structure AdjacencyBucket (Cid : Type) where
  edges : List (AdjacencyEntry Cid)
  extra : Props Cid

/-- The incoming edges of one destination node. -/
structure IncomingAdjacencyBucket (Cid : Type) where
  edges : List (IncomingAdjacencyEntry Cid)
  extra : Props Cid

/-- The wire record of a tree chunk, before it is known to be a leaf or an internal chunk. -/
structure TreeWire (Cid : Type) where
  leaf : Bool
  entries : Option (List (ProllyKey × Cid))
  boundaries : Option (List ProllyKey)
  children : Option (List Cid)
  extra : Props Cid

/-- One `(model, Embedding)` pair of an `EmbeddingBucket`. -/
structure EmbeddingEntry where
  model : String
  embedding : Embedding

/-- The embeddings of one node. -/
structure EmbeddingBucket (Cid : Type) where
  entries : List EmbeddingEntry
  extra : Props Cid

end Objects

/-- A kind of object: the fields of its wire record, and how they make up the object together with
the keys beside them. -/
structure Format (Cid Body α : Type) where
  kind : String
  wire : Shape String (Ipld Cid) (String × Body)
  whole : Body × Props Cid ≃ α

inductive DecodeError where
  /-- The wire record itself does not decode. -/
  | malformed
  /-- `expected _kind='{}', got '{}'` -/
  | kind (expected got : String)
  deriving DecidableEq

namespace Format

variable {Cid Body α : Type}

/-- `Serialize`: the wire record of an object. -/
def serialize (f : Format Cid Body α) (a : α) : Props Cid :=
  f.wire.flatten.encode ((f.kind, (f.whole.symm a).1), (f.whole.symm a).2)

/-- `Deserialize`: the wire record, if it is of the kind. -/
def deserialize (f : Format Cid Body α) (m : Props Cid) : Except DecodeError α :=
  match f.wire.flatten.decode m with
  | none => .error .malformed
  | some ((kind, body), extra) =>
      if kind ≠ f.kind then .error (.kind f.kind kind) else .ok (f.whole (body, extra))

/-- Every field of an object holds what it may. -/
def Fits (f : Format Cid Body α) (a : α) : Prop := f.wire.Valid (f.kind, (f.whole.symm a).1)

/-- No key of a map is one of the fields. -/
def Beside (keys : List String) (extra : Props Cid) : Prop := ∀ k ∈ keys, extra.get? k = none

/-- An object is read back from its own encoding. -/
theorem deserialize_serialize (f : Format Cid Body α) {a : α} (fits : f.Fits a)
    (beside : Beside f.wire.keys (f.whole.symm a).2) : f.deserialize (f.serialize a) = .ok a := by
  have read := f.wire.flatten.decode_encode ((f.kind, (f.whole.symm a).1), (f.whole.symm a).2)
    ⟨fits, beside⟩
  rw [deserialize, serialize, read]
  dsimp only
  rw [if_neg (not_not.mpr rfl), f.whole.apply_symm_apply]

/-- What is read can be written: every field holds what it may, and no extra key is a field. -/
theorem fits_of_deserialize (f : Format Cid Body α) {m : Props Cid} {a : α}
    (read : f.deserialize m = .ok a) : f.Fits a ∧ Beside f.wire.keys (f.whole.symm a).2 := by
  rw [deserialize] at read
  cases record : f.wire.flatten.decode m with
  | none =>
      rw [record] at read
      cases read
  | some r =>
      obtain ⟨⟨kind, body⟩, extra⟩ := r
      rw [record] at read
      dsimp only at read
      split at read
      · cases read
      · rename_i ofKind
        cases read
        rw [Fits, f.whole.symm_apply_apply, ← not_not.mp ofKind]
        exact f.wire.flatten.valid_decode m _ record

/-- What is read is written again as it was exactly when its fields are as they are written. -/
theorem serialize_iff (f : Format Cid Body α) {m : Props Cid} {a : α}
    (read : f.deserialize m = .ok a) : f.serialize a = m ↔ f.wire.Canonical m.get? := by
  rw [deserialize] at read
  cases record : f.wire.flatten.decode m with
  | none =>
      rw [record] at read
      cases read
  | some r =>
      obtain ⟨⟨kind, body⟩, extra⟩ := r
      rw [record] at read
      dsimp only at read
      split at read
      · cases read
      · rename_i ofKind
        cases read
        refine Iff.trans ?_ (f.wire.flatten.encode_decode_iff record)
        rw [serialize, f.whole.symm_apply_apply, not_not.mp ofKind]

/-! ## Values -/

open Shape

def text : Theory.Codec (Ipld Cid) String :=
  Codec.exact .string (fun v => match v with | .string s => some s | _ => none) (fun _ => rfl)
    (fun v a read => by
      cases v <;> cases read
      rfl)

def byteString : Theory.Codec (Ipld Cid) (List UInt8) :=
  Codec.exact .bytes (fun v => match v with | .bytes bs => some bs | _ => none) (fun _ => rfl)
    (fun v a read => by
      cases v <;> cases read
      rfl)

def link : Theory.Codec (Ipld Cid) Cid :=
  Codec.exact .link (fun v => match v with | .link c => some c | _ => none) (fun _ => rfl)
    (fun v a read => by
      cases v <;> cases read
      rfl)

def lists : Theory.Codec (Ipld Cid) (List (Ipld Cid)) :=
  Codec.exact .list (fun v => match v with | .list xs => some xs | _ => none) (fun _ => rfl)
    (fun v a read => by
      cases v <;> cases read
      rfl)

/-- A map has its keys once and in order. -/
def maps : Theory.Codec (Ipld Cid) (Props Cid) :=
  Codec.exact (fun m => .map m.entries)
    (fun v => match v with
      | .map kvs => if asc : Entries.Ascending kvs then some ⟨kvs, asc⟩ else none
      | _ => none)
    (fun m => dif_pos m.ascending)
    (fun v a read => by
      cases v <;> try cases read
      rename_i kvs
      dsimp only at read
      split at read
      · cases read
        rfl
      · cases read)

def stableId : Theory.Codec (Ipld Cid) StableId :=
  Codec.exact idValue (fun v => match v with | .bytes bs => StableId.ofBytes? bs | _ => none)
    StableId.ofBytes?_toBytes
    (fun v a read => by
      cases v <;> try cases read
      exact congrArg Ipld.bytes (StableId.toBytes_ofBytes? read))

/-- An unsigned number below a bound. -/
def below (bound : Nat) : Theory.Codec (Ipld Cid) (Fin bound) :=
  Codec.exact (fun i => .integer i.val)
    (fun v => match v with
      | .integer i => if fits : 0 ≤ i ∧ i.toNat < bound then some ⟨i.toNat, fits.2⟩ else none
      | _ => none)
    (fun i => dif_pos ⟨Int.natCast_nonneg _, i.isLt⟩)
    (fun v a read => by
      cases v <;> try cases read
      dsimp only at read
      split at read
      · rename_i fits
        cases read
        exact congrArg Ipld.integer (Int.toNat_of_nonneg fits.1)
      · cases read)

def u64 : Theory.Codec (Ipld Cid) UInt64 :=
  (below (2 ^ 64)).as ⟨UInt64.ofFin, UInt64.toFin, fun _ => rfl, fun _ => rfl⟩

def u32 : Theory.Codec (Ipld Cid) UInt32 :=
  (below (2 ^ 32)).as ⟨UInt32.ofFin, UInt32.toFin, fun _ => rfl, fun _ => rfl⟩

def dtypeOfName? (name : String) : Option Dtype :=
  if name = "f16" then some .f16
  else if name = "f32" then some .f32
  else if name = "f64" then some .f64
  else if name = "i8" then some .i8
  else none

def dtype : Theory.Codec (Ipld Cid) Dtype :=
  Codec.exact (fun d => .string d.name)
    (fun v => match v with | .string s => dtypeOfName? s | _ => none)
    (fun d => by cases d <;> simp [Dtype.name, dtypeOfName?])
    (fun v a read => by
      cases v <;> try cases read
      simp only [dtypeOfName?] at read
      split_ifs at read <;> cases read <;> simp [*, Dtype.name])

def links : Theory.Codec (Ipld Cid) (List Cid) := lists.comp link.each

def boolean : Theory.Codec (Ipld Cid) Bool :=
  Codec.exact .bool (fun v => match v with | .bool b => some b | _ => none) (fun _ => rfl)
    (fun v a read => by
      cases v <;> cases read
      rfl)

/-- An entry of a leaf: a key and a link. -/
def treeEntry : Theory.Codec (Ipld Cid) (ProllyKey × Cid) :=
  Codec.exact (fun e => .list [idValue e.1, .link e.2])
    (fun v => match v with
      | .list [.bytes bs, .link c] => (StableId.ofBytes? bs).map fun k => (k, c)
      | _ => none)
    (fun e => congrArg (Option.map fun k => (k, e.2)) (StableId.ofBytes?_toBytes e.1))
    (fun v a read => by
      split at read
      · rename_i bs c
        obtain ⟨k, found, rfl⟩ := Option.map_eq_some_iff.mp read
        have bytes : (idValue k : Ipld Cid) = .bytes bs :=
          congrArg Ipld.bytes (StableId.toBytes_ofBytes? found)
        rw [bytes]
      · cases read)

/-- A map with one kind of value. -/
def mapOf (c : Theory.Codec (Ipld Cid) α) : Theory.Codec (Ipld Cid) (OrdMap String α) :=
  maps.comp c.values

/-- A list with one kind of element. -/
def listOf (c : Theory.Codec (Ipld Cid) α) : Theory.Codec (Ipld Cid) (List α) := lists.comp c.each

/-- A record without room for other keys. -/
def plain (s : Shape String (Ipld Cid) α) : Theory.Codec (Ipld Cid) α := maps.comp s.strict

def isNull : Ipld Cid → Bool
  | .null => true
  | _ => false

/-- What is written is not null. -/
class NeverNull (c : Theory.Codec (Ipld Cid) α) : Prop where
  never : ∀ a, isNull (c.encode a) = false

instance : NeverNull (@text Cid) := ⟨fun _ => rfl⟩

instance : NeverNull (@byteString Cid) := ⟨fun _ => rfl⟩

instance : NeverNull (@link Cid) := ⟨fun _ => rfl⟩

instance (c : Theory.Codec (Ipld Cid) α) : NeverNull (mapOf c) := ⟨fun _ => rfl⟩

instance (c : Theory.Codec (Ipld Cid) α) : NeverNull (listOf c) := ⟨fun _ => rfl⟩

instance : NeverNull (@links Cid) := ⟨fun _ => rfl⟩

/-- `default, skip_serializing_if = "Option::is_none"` -/
def opt (key : String) (c : Theory.Codec (Ipld Cid) α) [NeverNull c] :
    Shape String (Ipld Cid) (Option α) :=
  optional key c isNull NeverNull.never

@[simp] theorem keys_opt (key : String) (c : Theory.Codec (Ipld Cid) α) [NeverNull c] :
    (opt key c).keys = [key] := by
  simp only [opt, keys_optional]

/-- `default, skip_serializing_if = "BTreeMap::is_empty"` -/
def unlessEmpty {K : Type} [LinearOrder K] (key : String)
    (c : Theory.Codec (Ipld Cid) (OrdMap K α)) (valid : c.Valid OrdMap.empty) :
    Shape String (Ipld Cid) (OrdMap K α) :=
  skipEmpty key c OrdMap.empty (fun m => m.entries.isEmpty)
    (fun m => by
      rw [List.isEmpty_iff]
      exact ⟨fun nil => OrdMap.entries_injective nil, fun same => congrArg OrdMap.entries same⟩)
    valid

@[simp] theorem keys_unlessEmpty {K : Type} [LinearOrder K] (key : String)
    (c : Theory.Codec (Ipld Cid) (OrdMap K α)) (valid : c.Valid OrdMap.empty) :
    (unlessEmpty key c valid).keys = [key] := by
  simp only [unlessEmpty, keys_skipEmpty]

/-! ## Records inside an object -/

def signature : Theory.Codec (Ipld Cid) Objects.Signature :=
  plain (((required "algo" text).and <|
    (required "public_key" byteString).and <|
    required "sig" byteString).as
    ⟨fun p => ⟨p.1, p.2.1, p.2.2⟩, fun s => (s.algo, s.publicKey, s.sig), fun _ => rfl,
      fun _ => rfl⟩)

instance : NeverNull (@signature Cid) := ⟨fun _ => rfl⟩

def normalWire : Shape String (Ipld Cid) Cid :=
  ((required "kind" text).and (required "target" link)).tagged "normal"

def conflictedWire : Shape String (Ipld Cid) (List Cid × List Cid) :=
  ((required "kind" text).and <|
    (required "adds" links).and (required "removes" links)).tagged "conflicted"

theorem normal_apart (sides : List Cid × List Cid) :
    (plain normalWire).decode ((plain conflictedWire).encode sides) = none := by
  have written : (plain conflictedWire).encode sides =
      maps.encode (conflictedWire.write sides OrdMap.empty) := rfl
  show (maps.decode ((plain conflictedWire).encode sides)).bind normalWire.strict.decode = none
  rw [written, maps.decode_encode _ trivial, Option.bind_some]
  show normalWire.get (conflictedWire.write sides OrdMap.empty).get? = none
  rw [get?_write_empty]
  simp [normalWire, conflictedWire, tagged, Shape.and, required, field]

/-- `tag = "kind", rename_all = "lowercase"` -/
def refTarget : Theory.Codec (Ipld Cid) (RefTarget Cid) :=
  ((plain normalWire).either (plain conflictedWire) fun sides _ => normal_apart sides).as
    ⟨Sum.elim .normal fun sides => .conflicted sides.1 sides.2,
      fun t => match t with
        | .normal target => .inl target
        | .conflicted adds removes => .inr (adds, removes),
      fun s => by cases s <;> rfl, fun t => by cases t <;> rfl⟩

def adjacencyEntry : Theory.Codec (Ipld Cid) (AdjacencyEntry Cid) :=
  plain (((required "label" text).and (required "edge" link)).as
    ⟨fun p => ⟨p.1, p.2⟩, fun e => (e.label, e.edge), fun _ => rfl, fun _ => rfl⟩)

def incomingAdjacencyEntry : Theory.Codec (Ipld Cid) (IncomingAdjacencyEntry Cid) :=
  plain (((required "label" text).and <|
    (required "src" stableId).and <|
    required "edge" link).as
    ⟨fun p => ⟨p.1, p.2.1, p.2.2⟩, fun e => (e.label, e.src, e.edge), fun _ => rfl, fun _ => rfl⟩)

theorem valid_dtype (d : Dtype) : (@dtype Cid).Valid d := trivial

def embedding : Theory.Codec (Ipld Cid) Embedding :=
  plain (((required "model" text).and <|
    (defaulted "dtype" dtype .f32 (valid_dtype _)).and <|
    (required "dim" u32).and <|
    required "vector" byteString).as
    ⟨fun p => ⟨p.1, p.2.1, p.2.2.1, p.2.2.2⟩, fun e => (e.model, e.dtype, e.dim, e.vector),
      fun _ => rfl, fun _ => rfl⟩)

def embeddingEntry : Theory.Codec (Ipld Cid) Objects.EmbeddingEntry :=
  plain (((required "model" text).and (required "embedding" embedding)).as
    ⟨fun p => ⟨p.1, p.2⟩, fun e => (e.model, e.embedding), fun _ => rfl, fun _ => rfl⟩)

/-- `TombstoneEntry`: the wire record of the tombstone beside the node's identifier. -/
def tombstoneEntry : Theory.Codec (Ipld Cid) (NodeId × Objects.Tombstone Cid) :=
  (maps.comp ((required "node_id" stableId).and
    (((required "_kind" text).and <|
      (required "reason" text).and <|
      required "tombstoned_at" u64).tagged "tombstone")).flatten).as
    ⟨fun p => (p.1.1, ⟨p.1.2.1, p.1.2.2, p.2⟩),
      fun e => ((e.1, e.2.reason, e.2.tombstonedAt), e.2.extra), fun _ => rfl, fun _ => rfl⟩

/-- A list of entries; the later of two for one node is kept. -/
def tombstoneEntries : Theory.Codec (Ipld Cid) (OrdMap NodeId (Objects.Tombstone Cid)) :=
  lists.comp tombstoneEntry.keyed

theorem valid_mapOf_empty (c : Theory.Codec (Ipld Cid) α) : (mapOf c).Valid OrdMap.empty := nofun

theorem valid_tombstoneEntries_empty : (@tombstoneEntries Cid).Valid OrdMap.empty := nofun

theorem valid_listOf_nil (c : Theory.Codec (Ipld Cid) α) : (listOf c).Valid [] := nofun

theorem outgoing_only : (opt "outgoing" (@link Cid)).keys = ["outgoing"] := rfl

/-! ## The kinds -/

/-- `NodeWire` -/
def node : Format Cid
    (NodeId × String × Option String × Props Cid × Option (List UInt8) × Option String)
    (Node Cid) where
  kind := "node"
  wire :=
    (required "_kind" text).and <|
    (required "id" stableId).and <|
    (required "ntype" text).and <|
    (opt "summary" text).and <|
    (required "props" maps).and <|
    (opt "content" byteString).and <|
    opt "context_sentence" text
  whole :=
    ⟨fun ((id, ntype, summary, props, content, contextSentence), extra) =>
        ⟨id, ntype, summary, props, content, contextSentence, extra⟩,
      fun n => ((n.id, n.ntype, n.summary, n.props, n.content, n.contextSentence), n.extra),
      fun _ => rfl, fun _ => rfl⟩

/-- `CommitWire` -/
def commit : Format Cid
    (ChangeId × List Cid × Cid × Cid × Cid × Option Cid × Option Cid × Option Cid × Option Cid ×
      String × Option String × Option String × UInt64 × String × Option Objects.Signature)
    (Objects.Commit Cid) where
  kind := "commit"
  wire :=
    (required "_kind" text).and <|
    (required "change_id" stableId).and <|
    (required "parents" links).and <|
    (required "nodes" link).and <|
    (required "edges" link).and <|
    (required "schema" link).and <|
    (opt "delta" link).and <|
    (opt "indexes" link).and <|
    (opt "embeddings" link).and <|
    (opt "sparse" link).and <|
    (required "author" text).and <|
    (opt "agent_id" text).and <|
    (opt "task_id" text).and <|
    (required "time" u64).and <|
    (required "message" text).and <|
    opt "signature" signature
  whole :=
    ⟨fun ((changeId, parents, nodes, edges, schema, delta, indexes, embeddings, sparse, author,
          agentId, taskId, time, message, signature), extra) =>
        ⟨changeId, parents, nodes, edges, schema, delta, indexes, embeddings, sparse, author,
          agentId, taskId, time, message, signature, extra⟩,
      fun c => ((c.changeId, c.parents, c.nodes, c.edges, c.schema, c.delta, c.indexes,
          c.embeddings, c.sparse, c.author, c.agentId, c.taskId, c.time, c.message, c.signature),
        c.extra),
      fun _ => rfl, fun _ => rfl⟩

/-- `TreeWire` -/
def treeWire : Format Cid
    (Bool × Option (List (ProllyKey × Cid)) × Option (List ProllyKey) × Option (List Cid))
    (Objects.TreeWire Cid) where
  kind := "tree"
  wire :=
    (required "_kind" text).and <|
    (required "leaf" boolean).and <|
    (opt "entries" (listOf treeEntry)).and <|
    (opt "boundaries" (listOf stableId)).and <|
    opt "children" links
  whole :=
    ⟨fun ((leaf, entries, boundaries, children), extra) =>
        ⟨leaf, entries, boundaries, children, extra⟩,
      fun w => ((w.leaf, w.entries, w.boundaries, w.children), w.extra),
      fun _ => rfl, fun _ => rfl⟩

/-- `OperationWire` -/
def operation : Format Cid
    (List Cid × Cid × Option (OrdMap String (List ChangeId)) × String × Option String ×
      Option String × Option String × UInt64 × String × Option Objects.Signature)
    (Objects.Operation Cid) where
  kind := "operation"
  wire :=
    (required "_kind" text).and <|
    (required "parents" links).and <|
    (required "view" link).and <|
    (opt "predecessors" (mapOf (listOf stableId))).and <|
    (required "author" text).and <|
    (opt "agent_id" text).and <|
    (opt "task_id" text).and <|
    (opt "host" text).and <|
    (required "time" u64).and <|
    (required "description" text).and <|
    opt "signature" signature
  whole :=
    ⟨fun ((parents, view, predecessors, author, agentId, taskId, host, time, description,
          signature), extra) =>
        ⟨parents, view, predecessors, author, agentId, taskId, host, time, description, signature,
          extra⟩,
      fun o => ((o.parents, o.view, o.predecessors, o.author, o.agentId, o.taskId, o.host, o.time,
          o.description, o.signature), o.extra),
      fun _ => rfl, fun _ => rfl⟩

/-- `ViewWire` -/
def view : Format Cid
    (List Cid × OrdMap String (RefTarget Cid) ×
      Option (OrdMap String (OrdMap String (RefTarget Cid))) × Option Cid ×
      OrdMap NodeId (Objects.Tombstone Cid))
    (Objects.View Cid) where
  kind := "view"
  wire :=
    (required "_kind" text).and <|
    (required "heads" links).and <|
    (required "refs" (mapOf refTarget)).and <|
    (opt "remote_refs" (mapOf (mapOf refTarget))).and <|
    (opt "wc_commit" link).and <|
    unlessEmpty "tombstones" tombstoneEntries valid_tombstoneEntries_empty
  whole :=
    ⟨fun ((heads, refs, remoteRefs, wcCommit, tombstones), extra) =>
        ⟨heads, refs, remoteRefs, wcCommit, tombstones, extra⟩,
      fun v => ((v.heads, v.refs, v.remoteRefs, v.wcCommit, v.tombstones), v.extra),
      fun _ => rfl, fun _ => rfl⟩

/-- `IndexSetWire` -/
def indexSet : Format Cid
    (OrdMap String Cid × OrdMap String (OrdMap String Cid) × Option Cid × Option Cid)
    (IndexSet Cid) where
  kind := "index_set"
  wire :=
    (required "_kind" text).and <|
    (unlessEmpty "nodes_by_label" (mapOf link) (valid_mapOf_empty _)).and <|
    (unlessEmpty "nodes_by_prop" (mapOf (mapOf link)) (valid_mapOf_empty _)).and <|
    ((opt "outgoing" link).aliased "outgoing" "adjacency" outgoing_only (by simp)).and <|
    opt "incoming" link
  whole :=
    ⟨fun ((nodesByLabel, nodesByProp, outgoing, incoming), extra) =>
        ⟨nodesByLabel, nodesByProp, outgoing, incoming, extra⟩,
      fun i => ((i.nodesByLabel, i.nodesByProp, i.outgoing, i.incoming), i.extra),
      fun _ => rfl, fun _ => rfl⟩

/-- `AdjacencyBucketWire` -/
def adjacencyBucket :
    Format Cid (List (AdjacencyEntry Cid)) (Objects.AdjacencyBucket Cid) where
  kind := "adjacency_bucket"
  wire := (required "_kind" text).and <| required "edges" (listOf adjacencyEntry)
  whole := ⟨fun p => ⟨p.1, p.2⟩, fun b => (b.edges, b.extra), fun _ => rfl, fun _ => rfl⟩

/-- `IncomingAdjacencyBucketWire` -/
def incomingAdjacencyBucket :
    Format Cid (List (IncomingAdjacencyEntry Cid)) (Objects.IncomingAdjacencyBucket Cid) where
  kind := "incoming_adjacency_bucket"
  wire := (required "_kind" text).and <| required "edges" (listOf incomingAdjacencyEntry)
  whole := ⟨fun p => ⟨p.1, p.2⟩, fun b => (b.edges, b.extra), fun _ => rfl, fun _ => rfl⟩

/-- `EmbeddingBucketWire` -/
def embeddingBucket :
    Format Cid (List Objects.EmbeddingEntry) (Objects.EmbeddingBucket Cid) where
  kind := "embedding_bucket"
  wire := (required "_kind" text).and <| defaulted "entries" (listOf embeddingEntry) [] (valid_listOf_nil _)
  whole := ⟨fun p => ⟨p.1, p.2⟩, fun b => (b.entries, b.extra), fun _ => rfl, fun _ => rfl⟩

def sortEntries (entries : List Objects.EmbeddingEntry) : List Objects.EmbeddingEntry :=
  entries.insertionSort fun e f => e.model ≤ f.model

/-- `Serialize`: the entries are sorted by model first. -/
def serializeBucket (b : Objects.EmbeddingBucket Cid) : Props Cid :=
  embeddingBucket.serialize { b with entries := sortEntries b.entries }

/-! ## Canonical bytes -/

/-- `to_canonical_bytes` -/
def toCanonicalBytes (codec : Codec.DagCbor Cid) (f : Format Cid Body α) (a : α) :
    Except Codec.CodecError (List UInt8) :=
  (codec.encode (maps.encode (f.serialize a))).mapError .encode

/-- `from_canonical_bytes`; the text of a shape error is shortened. -/
def fromCanonicalBytes (codec : Codec.DagCbor Cid) (f : Format Cid Body α) (bytes : List UInt8) :
    Except Codec.CodecError α :=
  match codec.decode bytes with
  | .error message => .error (.decode message)
  | .ok v =>
      match maps.decode v with
      | none => .error (.decode "invalid type")
      | some m => (f.deserialize m).mapError fun _ => .decode "invalid record"

theorem toCanonicalBytes_eq_ok {codec : Codec.DagCbor Cid} {f : Format Cid Body α} {a : α}
    {bytes : List UInt8} : toCanonicalBytes codec f a = .ok bytes ↔
      codec.encode (maps.encode (f.serialize a)) = .ok bytes := by
  unfold toCanonicalBytes
  cases codec.encode (maps.encode (f.serialize a)) <;> simp [Except.mapError]

theorem fromCanonicalBytes_eq_ok {codec : Codec.DagCbor Cid} {f : Format Cid Body α} {a : α}
    {bytes : List UInt8} : fromCanonicalBytes codec f bytes = .ok a ↔
      ∃ m : Props Cid, codec.decode bytes = .ok (maps.encode m) ∧ f.deserialize m = .ok a := by
  unfold fromCanonicalBytes
  constructor
  · intro ran
    split at ran
    · cases ran
    · rename_i v read
      split at ran
      · cases ran
      · rename_i m isMap
        refine ⟨m, ?_, ?_⟩
        · rw [read, maps.encode_decode v m trivial isMap]
        · cases record : f.deserialize m with
          | error e =>
              rw [record] at ran
              cases ran
          | ok b =>
              rw [record] at ran
              cases ran
              rfl
  · rintro ⟨m, read, record⟩
    rw [read]
    dsimp only
    rw [maps.decode_encode m trivial]
    dsimp only
    rw [record]
    rfl

end Format

end Mnem
