/-
# Codec.Wire — every kind of object as a value

What each object writes on the wire: the fields of its type, with the keys that
are no field beside them.  A block's value has no link but those its object
refers to, and has all of them (`Block.mem_links_iff`), so a walk of the value
finds what the object refers to, whatever its kind.
-/
import Mnem.Codec.DagCbor

namespace Mnem

open Theory

set_option autoImplicit false

variable {Cid : Type}

/-! ## Fields -/

def kindField (kind : String) : String × Ipld Cid := ("_kind", .string kind)

/-- A field that is skipped when there is nothing to write. -/
def linkField (name : String) (c : Option Cid) : List (String × Ipld Cid) :=
  c.toList.map fun c => (name, .link c)

def linkList (cs : List Cid) : Ipld Cid := .list (cs.map .link)

def idValue (id : StableId) : Ipld Cid := .bytes (StableId.toBytes id)

/-- A record that stands inside a block. -/
def record (fields : List (String × Ipld Cid)) : Ipld Cid := wireMap fields OrdMap.empty

/-- The fields of `TreeWire`. -/
def TreeChunk.fields : TreeChunk Cid → List (String × Ipld Cid)
  | .leaf entries =>
      [kindField "tree", ("leaf", .bool true),
        ("entries", .list (entries.map fun e => .list [idValue e.1, .link e.2]))]
  | .internal boundaries children =>
      [kindField "tree", ("leaf", .bool false), ("boundaries", .list (boundaries.map idValue)),
        ("children", linkList children)]

/-- The fields of `CommitWire`. -/
def Commit.fields (c : Commit Cid) : List (String × Ipld Cid) :=
  [kindField "commit", ("change_id", idValue c.changeId), ("parents", linkList c.parents),
    ("nodes", .link c.nodes), ("edges", .link c.edges), ("schema", .link c.schema)] ++
    linkField "indexes" c.indexes ++ linkField "embeddings" c.embeddings ++
    linkField "sparse" c.sparse ++
    [("author", .string c.author), ("time", .integer c.time), ("message", .string c.message)]

def RefTarget.wire : RefTarget Cid → Ipld Cid
  | .normal target => record [("kind", .string "normal"), ("target", .link target)]
  | .conflicted adds removes =>
      record [("kind", .string "conflicted"), ("adds", linkList adds),
        ("removes", linkList removes)]

def refsValue (refs : OrdMap String (RefTarget Cid)) : Ipld Cid :=
  .map (refs.entries.map fun e => (e.1, e.2.wire))

/-- `TombstoneEntry`: the fields of the tombstone beside the node's. -/
def tombstoneEntry (e : NodeId × Tombstone) : Ipld Cid :=
  record [("node_id", idValue e.1), kindField "tombstone", ("reason", .string e.2.reason),
    ("tombstoned_at", .integer e.2.tombstonedAt)]

/-- The fields of `ViewWire`. -/
def View.fields (v : View Cid) : List (String × Ipld Cid) :=
  [kindField "view", ("heads", linkList v.heads), ("refs", refsValue v.refs)] ++
    v.remoteRefs.toList.map (fun remotes =>
      ("remote_refs", .map (remotes.entries.map fun e => (e.1, refsValue e.2)))) ++
    linkField "wc_commit" v.wcCommit ++
    (if v.tombstones.entries.isEmpty then []
      else [("tombstones", .list (v.tombstones.entries.map tombstoneEntry))])

/-- The fields of `OperationWire`. -/
def Operation.fields (o : Operation Cid) : List (String × Ipld Cid) :=
  [kindField "operation", ("parents", linkList o.parents), ("view", .link o.view),
    ("author", .string o.author)] ++
    o.agentId.toList.map (fun s => ("agent_id", .string s)) ++
    o.taskId.toList.map (fun s => ("task_id", .string s)) ++
    [("time", .integer o.time), ("description", .string o.description)]

/-- A tree for each name. -/
def linksByName (m : OrdMap String Cid) : Ipld Cid := .map (m.entries.map fun e => (e.1, .link e.2))

/-- The fields of `IndexSetWire`. -/
def IndexSet.fields (i : IndexSet Cid) : List (String × Ipld Cid) :=
  [kindField "index_set"] ++
    (if i.nodesByLabel.entries.isEmpty then []
      else [("nodes_by_label", linksByName i.nodesByLabel)]) ++
    (if i.nodesByProp.entries.isEmpty then []
      else [("nodes_by_prop", .map (i.nodesByProp.entries.map fun e => (e.1, linksByName e.2)))]) ++
    linkField "outgoing" i.outgoing ++ linkField "incoming" i.incoming

/-- The fields of `AdjacencyBucketWire`. -/
def AdjacencyBucket.fields (b : AdjacencyBucket Cid) : List (String × Ipld Cid) :=
  [kindField "adjacency_bucket", ("edges", .list (b.edges.map fun e =>
    record [("label", .string e.label), ("edge", .link e.edge)]))]

/-- The fields of `IncomingAdjacencyBucketWire`. -/
def IncomingAdjacencyBucket.fields (b : IncomingAdjacencyBucket Cid) : List (String × Ipld Cid) :=
  [kindField "incoming_adjacency_bucket", ("edges", .list (b.edges.map fun e =>
    record [("label", .string e.label), ("src", idValue e.src), ("edge", .link e.edge)]))]

def Dtype.name : Dtype → String
  | .f16 => "f16"
  | .f32 => "f32"
  | .f64 => "f64"
  | .i8 => "i8"

def Embedding.wire (e : Embedding) : Ipld Cid :=
  record [("model", .string e.model), ("dtype", .string e.dtype.name),
    ("dim", .integer e.dim.toNat), ("vector", .bytes e.vector)]

/-- The double with the value of a finite single. -/
def widen (bits : UInt32) : UInt64 :=
  let sign := bits.toNat / 2 ^ 31
  let exponent := bits.toNat / 2 ^ 23 % 2 ^ 8
  let fraction := bits.toNat % 2 ^ 23
  let magnitude :=
    if exponent ≠ 0 then (exponent + 896) * 2 ^ 52 + fraction * 2 ^ 29
    else if fraction = 0 then 0
    else
      -- a subnormal single is a normal double
      let top := fraction.log2
      (top + 874) * 2 ^ 52 + (fraction - 2 ^ top) * 2 ^ (52 - top)
  UInt64.ofNat (sign * 2 ^ 63 + magnitude)

def SparseEmbed.wire (e : SparseEmbed) : Ipld Cid :=
  record [("indices", .list (e.indices.map fun i => .integer i.toNat)),
    ("values", .list (e.values.map fun v => .float (widen v))), ("vocab_id", .string e.vocabId)]

/-- The fields of `EmbeddingBucketWire` and of `SparseBucketWire`: entries sorted by name. -/
def Bucket.fields {V : Type} (kind nameField vectorField : String) (wire : V → Ipld Cid)
    (b : Bucket V) : List (String × Ipld Cid) :=
  [kindField kind, ("entries", .list (b.canonical.entries.map fun e =>
    record [(nameField, .string e.1), (vectorField, wire e.2)]))]

def embeddingFields : EmbeddingBucket → List (String × Ipld Cid) :=
  Bucket.fields "embedding_bucket" "model" "embedding" Embedding.wire

def sparseFields : SparseBucket → List (String × Ipld Cid) :=
  Bucket.fields "sparse_bucket" "vocab_id" "sparse" SparseEmbed.wire

namespace Block

/-- The fields of a block that is not raw. -/
def fields : Block Cid → List (String × Ipld Cid)
  | .raw _ => []
  | .node n => n.fields
  | .edge e => e.fields
  | .tree t => t.fields
  | .commit c => c.fields
  | .view v => v.fields
  | .operation o => o.fields
  | .indexSet i => i.fields
  | .adjacencyBucket b => b.fields
  | .incomingAdjacencyBucket b => b.fields
  | .embeddingBucket b => embeddingFields b
  | .sparseBucket b => sparseFields b

/-- The keys of a block that are no field of its type. -/
def extra : Block Cid → Props Cid
  | .node n => n.extra
  | .edge e => e.extra
  | .commit c => c.extra
  | .view v => v.extra
  | .indexSet i => i.extra
  | _ => OrdMap.empty

def isRaw : Block Cid → Bool
  | .raw _ => true
  | _ => false

/-- The value that a block which is not raw writes. -/
def wire (b : Block Cid) : Ipld Cid := wireMap b.fields b.extra

/-- No extension key is the name of a field, as in every block that was decoded. -/
def Apart (b : Block Cid) : Prop := ∀ e ∈ b.extra.entries, ∀ f ∈ b.fields, e.1 ≠ f.1

theorem fields_nodup (b : Block Cid) : (b.fields.map Prod.fst).Nodup := by
  cases b with
  | raw bytes => exact List.nodup_nil
  | node n => exact n.fields_nodup
  | edge e => exact e.fields_nodup
  | tree t => cases t <;> simp [fields, TreeChunk.fields, kindField]
  | commit c =>
      cases indexes : c.indexes <;> cases embeddings : c.embeddings <;> cases sparse : c.sparse <;>
        simp [fields, Commit.fields, kindField, linkField, indexes, embeddings, sparse]
  | view v =>
      cases remotes : v.remoteRefs <;> cases working : v.wcCommit <;>
        by_cases buried : v.tombstones.entries.isEmpty <;>
          simp [fields, View.fields, kindField, linkField, remotes, working, buried]
  | operation o =>
      cases agent : o.agentId <;> cases task : o.taskId <;>
        simp [fields, Operation.fields, kindField, agent, task]
  | indexSet i =>
      cases outgoing : i.outgoing <;> cases incoming : i.incoming <;>
        by_cases labels : i.nodesByLabel.entries.isEmpty <;>
          by_cases props : i.nodesByProp.entries.isEmpty <;>
            simp [fields, IndexSet.fields, kindField, linkField, outgoing, incoming, labels, props]
  | adjacencyBucket b => simp [fields, AdjacencyBucket.fields, kindField]
  | incomingAdjacencyBucket b => simp [fields, IncomingAdjacencyBucket.fields, kindField]
  | embeddingBucket b => simp [fields, embeddingFields, Bucket.fields, kindField]
  | sparseBucket b => simp [fields, sparseFields, Bucket.fields, kindField]

end Block

/-! ## Links -/

namespace Ipld

theorem mem_linksList_iff {xs : List (Ipld Cid)} {c : Cid} :
    c ∈ linksList xs ↔ ∃ x ∈ xs, c ∈ x.links := by
  induction xs with
  | nil => simp [linksList]
  | cons x xs ih => simp [linksList, ih]

theorem mem_linksMap_iff {kvs : List (String × Ipld Cid)} {c : Cid} :
    c ∈ linksMap kvs ↔ ∃ e ∈ kvs, c ∈ e.2.links := by
  induction kvs with
  | nil => simp [linksMap]
  | cons e kvs ih =>
      obtain ⟨k, v⟩ := e
      simp [linksMap, ih]

@[simp] theorem links_string (s : String) : (string s : Ipld Cid).links = [] := rfl

@[simp] theorem links_bytes (bs : List UInt8) : (bytes bs : Ipld Cid).links = [] := rfl

@[simp] theorem links_bool (b : Bool) : (bool b : Ipld Cid).links = [] := rfl

@[simp] theorem links_integer (i : Int) : (integer i : Ipld Cid).links = [] := rfl

@[simp] theorem links_float (bits : UInt64) : (float bits : Ipld Cid).links = [] := rfl

@[simp] theorem links_link (c : Cid) : (link c).links = [c] := rfl

@[simp] theorem mem_links_list {xs : List (Ipld Cid)} {c : Cid} :
    c ∈ (list xs).links ↔ ∃ x ∈ xs, c ∈ x.links := mem_linksList_iff

theorem mem_links_map {kvs : List (String × Ipld Cid)} {c : Cid} :
    c ∈ (map kvs).links ↔ ∃ e ∈ kvs, c ∈ e.2.links := mem_linksMap_iff

end Ipld

/-- Some field has the link. -/
def Mentions (fields : List (String × Ipld Cid)) (c : Cid) : Prop := ∃ f ∈ fields, c ∈ f.2.links

section Links

variable {c : Cid} {fields : List (String × Ipld Cid)}

@[simp] theorem not_mentions_nil : ¬ Mentions [] c := nofun

@[simp] theorem mentions_cons {f : String × Ipld Cid} :
    Mentions (f :: fields) c ↔ c ∈ f.2.links ∨ Mentions fields c := by
  simp [Mentions]

@[simp] theorem mentions_append {more : List (String × Ipld Cid)} :
    Mentions (fields ++ more) c ↔ Mentions fields c ∨ Mentions more c := by
  simp [Mentions, or_and_right, exists_or]

@[simp] theorem mentions_linkField {name : String} {target : Option Cid} :
    Mentions (linkField name target) c ↔ c ∈ target := by
  cases target <;> simp [linkField, eq_comm]

/-- A field that is present or not. -/
@[simp] theorem mentions_optional {α : Type} {name : String} {value : α → Ipld Cid}
    {target : Option α} :
    Mentions (target.toList.map fun a => (name, value a)) c ↔ ∃ a ∈ target, c ∈ (value a).links := by
  cases target <;> simp

/-- A field that is skipped when it would be empty. -/
theorem mentions_skipped {empty : Bool} {f : String × Ipld Cid}
    (nothing : empty = true → c ∉ f.2.links) :
    Mentions (if empty then [] else [f]) c ↔ c ∈ f.2.links := by
  cases empty with
  | false => simp
  | true => simp [nothing]

/-- Among keys apart, a map has the links of its fields and those of the keys beside them. -/
theorem mem_links_wireMap {extra : Props Cid}
    (apart : ∀ e ∈ extra.entries, ∀ f ∈ fields, e.1 ≠ f.1) (nodup : (fields.map Prod.fst).Nodup) :
    c ∈ (wireMap fields extra).links ↔ Mentions fields c ∨ c ∈ extra.links := by
  change c ∈ (Ipld.map (extra.insertAll fields).entries).links ↔ _
  rw [Ipld.mem_links_map, Props.links, List.mem_flatMap]
  simp only [mem_wireMap apart nodup, or_and_right, exists_or, OrdMap.values, List.mem_map]
  refine or_congr_right ⟨?_, ?_⟩
  · rintro ⟨e, inExtra, here⟩
    exact ⟨e.2, ⟨e, inExtra, rfl⟩, here⟩
  · rintro ⟨_, ⟨e, inExtra, rfl⟩, here⟩
    exact ⟨e, inExtra, here⟩

theorem not_mem_links_empty : c ∉ Props.links (OrdMap.empty : Props Cid) := List.not_mem_nil

theorem mem_links_record (nodup : (fields.map Prod.fst).Nodup) :
    c ∈ (record fields).links ↔ Mentions fields c := by
  have apart : ∀ e ∈ (OrdMap.empty : Props Cid).entries, ∀ f ∈ fields, e.1 ≠ f.1 := nofun
  exact (mem_links_wireMap apart nodup).trans (or_iff_left not_mem_links_empty)

/-- The values of a map, each on the wire as `wire` says. -/
theorem mem_links_values {α : Type} {m : OrdMap String α} {wire : α → Ipld Cid} :
    c ∈ (Ipld.map (m.entries.map fun e => (e.1, wire e.2))).links ↔
      ∃ a ∈ m.values, c ∈ (wire a).links := by
  rw [Ipld.mem_links_map]
  simp only [OrdMap.values, List.mem_map]
  constructor
  · rintro ⟨_, ⟨e, inMap, rfl⟩, here⟩
    exact ⟨e.2, ⟨e, inMap, rfl⟩, here⟩
  · rintro ⟨_, ⟨e, inMap, rfl⟩, here⟩
    exact ⟨_, ⟨e, inMap, rfl⟩, here⟩

@[simp] theorem mem_links_linkList {cs : List Cid} : c ∈ (linkList cs).links ↔ c ∈ cs := by
  simp [linkList]

@[simp] theorem links_idValue (id : StableId) : (idValue id : Ipld Cid).links = [] := rfl

@[simp] theorem links_kindField (kind : String) : (kindField kind : String × Ipld Cid).2.links = [] :=
  rfl

@[simp] theorem RefTarget.mem_links_wire {t : RefTarget Cid} : c ∈ t.wire.links ↔ c ∈ t.links := by
  cases t with
  | normal target =>
      rw [RefTarget.wire, mem_links_record (by simp)]
      simp [RefTarget.links]
  | conflicted adds removes =>
      rw [RefTarget.wire, mem_links_record (by simp)]
      simp [RefTarget.links]

@[simp] theorem mem_links_refsValue {refs : OrdMap String (RefTarget Cid)} :
    c ∈ (refsValue refs).links ↔ ∃ t ∈ refs.values, c ∈ t.links := by
  simp only [refsValue, mem_links_values, RefTarget.mem_links_wire]

@[simp] theorem mem_links_linksByName {m : OrdMap String Cid} :
    c ∈ (linksByName m).links ↔ c ∈ m.values := by
  simp [linksByName, mem_links_values]

theorem not_mem_links_tombstoneEntry (e : NodeId × Tombstone) :
    c ∉ (tombstoneEntry e : Ipld Cid).links := by
  rw [tombstoneEntry, mem_links_record (by simp [kindField])]
  simp

theorem Embedding.not_mem_links_wire (e : Embedding) : c ∉ (e.wire : Ipld Cid).links := by
  rw [Embedding.wire, mem_links_record (by simp)]
  simp

theorem SparseEmbed.not_mem_links_wire (e : SparseEmbed) : c ∉ (e.wire : Ipld Cid).links := by
  rw [SparseEmbed.wire, mem_links_record (by simp)]
  simp

/-- A bucket of vectors refers to nothing. -/
theorem Bucket.not_mentions_fields {V : Type} {kind nameField vectorField : String}
    {wire : V → Ipld Cid} (b : Bucket V) (distinct : nameField ≠ vectorField)
    (none : ∀ v, c ∉ (wire v).links) :
    ¬ Mentions (b.fields kind nameField vectorField wire) c := by
  have entries : ∀ name vector,
      c ∉ (record [(nameField, .string name), (vectorField, wire vector)]).links := by
    intro name vector
    rw [mem_links_record (by simp [distinct])]
    simp [none]
  simp [Bucket.fields, entries]

theorem AdjacencyBucket.mentions_fields (b : AdjacencyBucket Cid) :
    Mentions b.fields c ↔ c ∈ b.edges.map AdjacencyEntry.edge := by
  have entries : ∀ e : AdjacencyEntry Cid,
      c ∈ (record [("label", .string e.label), ("edge", .link e.edge)]).links ↔ c = e.edge := by
    intro e
    rw [mem_links_record (by simp)]
    simp
  simp [AdjacencyBucket.fields, entries, eq_comm]

theorem IncomingAdjacencyBucket.mentions_fields (b : IncomingAdjacencyBucket Cid) :
    Mentions b.fields c ↔ c ∈ b.edges.map IncomingAdjacencyEntry.edge := by
  have entries : ∀ e : IncomingAdjacencyEntry Cid,
      c ∈ (record [("label", .string e.label), ("src", idValue e.src), ("edge", .link e.edge)]).links ↔
        c = e.edge := by
    intro e
    rw [mem_links_record (by simp)]
    simp
  simp [IncomingAdjacencyBucket.fields, entries, eq_comm]

theorem mem_props_links {props : Props Cid} : c ∈ (Ipld.map props.entries).links ↔ c ∈ props.links := by
  have same : c ∈ (Ipld.map (props.entries.map fun e => (e.1, id e.2))).links ↔
      ∃ a ∈ props.values, c ∈ (id a).links := mem_links_values
  simp only [id_eq, List.map_id'] at same
  simpa [Props.links] using same

theorem TreeChunk.mentions_fields (t : TreeChunk Cid) :
    Mentions t.fields c ↔ c ∈ (Block.tree t).links := by
  cases t with
  | leaf entries => simp [TreeChunk.fields, Block.links, eq_comm]
  | internal boundaries children => simp [TreeChunk.fields, Block.links]

theorem IndexSet.mentions_fields (i : IndexSet Cid) :
    Mentions i.fields c ↔ c ∈ i.nodesByLabel.values ∨
      (∃ m ∈ i.nodesByProp.values, c ∈ m.values) ∨ c ∈ i.outgoing ∨ c ∈ i.incoming := by
  have labels : Mentions (if i.nodesByLabel.entries.isEmpty then []
      else [("nodes_by_label", linksByName i.nodesByLabel)]) c ↔ c ∈ i.nodesByLabel.values := by
    refine (mentions_skipped fun empty => ?_).trans mem_links_linksByName
    simp [OrdMap.values, List.isEmpty_iff.mp empty]
  have props : Mentions (if i.nodesByProp.entries.isEmpty then [] else [("nodes_by_prop",
      .map (i.nodesByProp.entries.map fun e => (e.1, linksByName e.2)))]) c ↔
        ∃ m ∈ i.nodesByProp.values, c ∈ m.values := by
    refine (mentions_skipped fun empty => ?_).trans ?_
    · rw [mem_links_values]
      simp [OrdMap.values, List.isEmpty_iff.mp empty]
    · simp only [mem_links_values, mem_links_linksByName]
  simp only [IndexSet.fields, mentions_append, mentions_cons, labels, props, mentions_linkField,
    links_kindField, List.not_mem_nil, not_mentions_nil, false_or, or_assoc]

theorem View.mentions_fields (v : View Cid) :
    Mentions v.fields c ↔ c ∈ v.heads ∨ (∃ t ∈ v.refs.values, c ∈ t.links) ∨
      (∃ r ∈ v.remoteRefs, ∃ refs ∈ r.values, ∃ t ∈ refs.values, c ∈ t.links) ∨ c ∈ v.wcCommit := by
  have buried : c ∉ (Ipld.list (v.tombstones.entries.map tombstoneEntry)).links := by
    simp [not_mem_links_tombstoneEntry]
  have tombstones : ¬ Mentions (if v.tombstones.entries.isEmpty then []
      else [("tombstones", .list (v.tombstones.entries.map tombstoneEntry))]) c := by
    rw [mentions_skipped fun _ => buried]
    exact buried
  simp only [View.fields, mentions_append, mentions_cons, mentions_optional, mentions_linkField,
    tombstones, links_kindField, mem_links_linkList, mem_links_refsValue, mem_links_values,
    List.not_mem_nil, not_mentions_nil, false_or, or_false, or_assoc]

/-- The links of a block's value are those its object refers to. -/
theorem Block.mem_links_iff (b : Block Cid) (apart : b.Apart) :
    c ∈ b.wire.links ↔ c ∈ b.links := by
  rw [Block.wire, mem_links_wireMap apart b.fields_nodup]
  cases b with
  | raw bytes => exact iff_of_false (by simp [fields, extra, not_mem_links_empty]) List.not_mem_nil
  | node n =>
      refine (or_congr_left ?_).trans List.mem_append.symm
      simp [fields, Node.fields, mem_props_links]
  | edge e =>
      refine (or_congr_left ?_).trans List.mem_append.symm
      simp [fields, Edge.fields, mem_props_links]
  | tree t => exact (or_iff_left not_mem_links_empty).trans t.mentions_fields
  | commit c =>
      refine (or_congr_left ?_).trans List.mem_append.symm
      simp [fields, Commit.fields]
  | view v =>
      refine (or_congr_left v.mentions_fields).trans ?_
      simp [extra, links, or_assoc]
  | operation o =>
      refine (or_iff_left not_mem_links_empty).trans ?_
      simp [fields, Operation.fields, links]
  | indexSet i =>
      refine (or_congr_left i.mentions_fields).trans ?_
      simp [extra, links, or_assoc]
  | adjacencyBucket b => exact (or_iff_left not_mem_links_empty).trans b.mentions_fields
  | incomingAdjacencyBucket b => exact (or_iff_left not_mem_links_empty).trans b.mentions_fields
  | embeddingBucket b =>
      have nothing : ¬ Mentions (embeddingFields b) c :=
        b.not_mentions_fields (by decide) Embedding.not_mem_links_wire
      exact iff_of_false (not_or.mpr ⟨nothing, not_mem_links_empty⟩) List.not_mem_nil
  | sparseBucket b =>
      have nothing : ¬ Mentions (sparseFields b) c :=
        b.not_mentions_fields (by decide) SparseEmbed.not_mem_links_wire
      exact iff_of_false (not_or.mpr ⟨nothing, not_mem_links_empty⟩) List.not_mem_nil

end Links

end Mnem
