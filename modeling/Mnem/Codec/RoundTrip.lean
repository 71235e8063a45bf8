/-
# Codec.RoundTrip — what survives a write and a read, and a read and a write

An object whose extra keys are none of its own fields is read back from its
encoding.  A map that was read is written again as it was exactly when it is
settled: nothing in it has a second spelling that is read the same, and no record
inside the object has a key that the object has no room for
(`objects_round_trip`).
-/
import Mnem.Codec.Format

namespace Mnem.Format

open Theory Shape

set_option autoImplicit false

variable {Cid α : Type}

/-! ## What a map may hold -/

/-- What stands under the key is no null. -/
def NotNull (m : Props Cid) (key : String) : Prop := m.get? key ≠ some .null

/-- What stands under the key, if anything does. -/
def At (m : Props Cid) (key : String) (P : Ipld Cid → Prop) : Prop :=
  ∀ v, m.get? key = some v → P v

/-- What stands inside a record. -/
def Inside (P : Props Cid → Prop) (v : Ipld Cid) : Prop := ∀ m, maps.decode v = some m → P m

/-- No key but these. -/
def Only (keys : List String) (v : Ipld Cid) : Prop :=
  Inside (fun m => ∀ k, (m.get? k).isSome = true → k ∈ keys) v

def EachValue (P : Ipld Cid → Prop) (v : Ipld Cid) : Prop :=
  Inside (fun m => ∀ k x, m.get? k = some x → P x) v

def EachElement (P : Ipld Cid → Prop) (v : Ipld Cid) : Prop :=
  ∀ xs, lists.decode v = some xs → ∀ x ∈ xs, P x

/-! ## When the parts are canonical -/

section Parts

variable {m : Props Cid} {key : String} {v : Ipld Cid}

@[simp] theorem canonical_text : text.Canonical v := trivial

@[simp] theorem canonical_byteString : byteString.Canonical v := trivial

@[simp] theorem canonical_link : link.Canonical v := trivial

@[simp] theorem canonical_maps : maps.Canonical v := trivial

@[simp] theorem canonical_stableId : stableId.Canonical v := trivial

@[simp] theorem canonical_dtype : dtype.Canonical v := trivial

@[simp] theorem canonical_u64 : u64.Canonical v := trivial

@[simp] theorem canonical_u32 : u32.Canonical v := trivial

theorem canonical_listOf (c : Theory.Codec (Ipld Cid) α) :
    (listOf c).Canonical v ↔ EachElement (fun x => c.Canonical x) v :=
  ⟨And.right, fun h => ⟨trivial, h⟩⟩

theorem canonical_mapOf (c : Theory.Codec (Ipld Cid) α) :
    (mapOf c).Canonical v ↔ EachValue (fun x => c.Canonical x) v :=
  ⟨And.right, fun h => ⟨trivial, h⟩⟩

theorem canonical_plain (s : Shape String (Ipld Cid) α) :
    (plain s).Canonical v ↔ Inside (fun m => s.Canonical m.get?) v ∧ Only s.keys v := by
  constructor
  · rintro ⟨-, h⟩
    exact ⟨fun m read => (h m read).1, fun m read => (h m read).2⟩
  · rintro ⟨shaped, only⟩
    exact ⟨trivial, fun m read => ⟨shaped m read, only m read⟩⟩

@[simp] theorem canonical_links : links.Canonical v :=
  ⟨trivial, fun _ _ _ _ => trivial⟩

@[simp] theorem canonical_linkMap : (mapOf (@link Cid)).Canonical v :=
  ⟨trivial, fun _ _ _ _ _ => trivial⟩

theorem isNull_iff : isNull v = false ↔ v ≠ .null := by
  cases v <;> simp [isNull]

theorem canonical_opt (c : Theory.Codec (Ipld Cid) α) [NeverNull c] :
    (opt key c).Canonical m.get? ↔ NotNull m key ∧ At m key c.Canonical := by
  rw [opt, canonical_optional]
  constructor
  · intro h
    refine ⟨fun null => ?_, fun v found => (h v found).2⟩
    cases (h .null null).1
  · rintro ⟨notNull, canonical⟩ v found
    refine ⟨isNull_iff.mpr ?_, canonical v found⟩
    rintro rfl
    exact notNull found

theorem canonical_unlessEmpty {K : Type} [LinearOrder K]
    (c : Theory.Codec (Ipld Cid) (OrdMap K α)) (valid : c.Valid OrdMap.empty)
    {nothing : Ipld Cid} (only : ∀ v, c.decode v = some OrdMap.empty ↔ v = nothing) :
    (unlessEmpty key c valid).Canonical m.get? ↔
      m.get? key ≠ some nothing ∧ At m key c.Canonical := by
  rw [unlessEmpty, canonical_skipEmpty]
  constructor
  · intro h
    refine ⟨fun found => ?_, fun v found => (h v found).1⟩
    exact (h nothing found).2 ((only nothing).mpr rfl)
  · rintro ⟨notEmpty, canonical⟩ v found
    refine ⟨canonical v found, fun empty => notEmpty ?_⟩
    rw [found, (only v).mp empty]

theorem mapOf_decode_empty (c : Theory.Codec (Ipld Cid) α) :
    (mapOf c).decode v = some OrdMap.empty ↔ v = .map [] := by
  constructor
  · intro read
    obtain ⟨m, first, second⟩ := Option.bind_eq_some_iff.mp read
    rw [Codec.values_decode_empty] at second
    subst second
    exact (maps.encode_decode v _ trivial first).symm
  · rintro rfl
    rfl

theorem tombstoneEntries_decode_empty :
    tombstoneEntries.decode v = some OrdMap.empty ↔ v = .list [] := by
  constructor
  · intro read
    obtain ⟨xs, first, second⟩ := Option.bind_eq_some_iff.mp read
    rw [Codec.keyed_decode_empty] at second
    subst second
    exact (lists.encode_decode v _ trivial first).symm
  · rintro rfl
    rfl

/-! ## Records inside an object -/

theorem canonical_signature : signature.Canonical v ↔ Only ["algo", "public_key", "sig"] v := by
  rw [signature, canonical_plain]
  simp [Inside]

theorem canonical_adjacencyEntry : adjacencyEntry.Canonical v ↔ Only ["label", "edge"] v := by
  rw [adjacencyEntry, canonical_plain]
  simp [Inside]

theorem canonical_incomingAdjacencyEntry :
    incomingAdjacencyEntry.Canonical v ↔ Only ["label", "src", "edge"] v := by
  rw [incomingAdjacencyEntry, canonical_plain]
  simp [Inside]

/-- A reference with no key but those of its kind. -/
def PlainRef (v : Ipld Cid) : Prop :=
  if ((plain normalWire).decode v).isSome then Only ["kind", "target"] v
  else Only ["kind", "adds", "removes"] v

theorem canonical_refTarget : refTarget.Canonical v ↔ PlainRef v := by
  have normal : (plain normalWire).Canonical v ↔ Only ["kind", "target"] v := by
    rw [canonical_plain]
    simp [Inside, normalWire]
  have conflicted : (plain conflictedWire).Canonical v ↔ Only ["kind", "adds", "removes"] v := by
    rw [canonical_plain]
    simp [Inside, conflictedWire]
  show ((plain normalWire).decode v).isSome = true ∧ (plain normalWire).Canonical v ∨
    (plain normalWire).decode v = none ∧ (plain conflictedWire).Canonical v ↔ _
  rw [normal, conflicted, PlainRef]
  cases (plain normalWire).decode v <;> simp

/-- An embedding that names its element type, with no key beside its fields. -/
def PlainEmbedding (v : Ipld Cid) : Prop :=
  Inside (fun m => (m.get? "dtype").isSome = true) v ∧ Only ["model", "dtype", "dim", "vector"] v

theorem canonical_embedding : embedding.Canonical v ↔ PlainEmbedding v := by
  rw [embedding, canonical_plain]
  simp [Inside, PlainEmbedding]

def PlainEntry (v : Ipld Cid) : Prop :=
  Inside (fun m => At m "embedding" PlainEmbedding) v ∧ Only ["model", "embedding"] v

theorem canonical_embeddingEntry : embeddingEntry.Canonical v ↔ PlainEntry v := by
  rw [embeddingEntry, canonical_plain]
  simp [Inside, PlainEntry, At, canonical_embedding]

theorem canonical_tombstoneEntry : tombstoneEntry.Canonical v := by
  refine ⟨trivial, fun m _ => ?_⟩
  exact ⟨fun _ _ => trivial, fun _ _ => trivial, fun _ _ => trivial, fun _ _ => trivial⟩

/-- The entries that a list reads as are strictly ascending by node. -/
def AscendingEntries (v : Ipld Cid) : Prop :=
  ∀ entries, (listOf tombstoneEntry).decode v = some entries → Entries.Ascending entries

theorem canonical_tombstoneEntries : tombstoneEntries.Canonical v ↔ AscendingEntries v := by
  constructor
  · rintro ⟨-, h⟩ entries read
    obtain ⟨xs, first, second⟩ := Option.bind_eq_some_iff.mp read
    exact (h xs first).2 entries second
  · intro h
    refine ⟨trivial, fun xs first => ⟨fun x _ => canonical_tombstoneEntry, fun entries second => ?_⟩⟩
    exact h entries (Option.bind_eq_some_iff.mpr ⟨xs, first, second⟩)

end Parts

/-! ## What a settled map holds -/

namespace Settled

def node (m : Props Cid) : Prop := ∀ key ∈ ["summary", "content", "context_sentence"], NotNull m key

def commit (m : Props Cid) : Prop :=
  (∀ key ∈ ["delta", "indexes", "embeddings", "sparse", "agent_id", "task_id", "signature"],
    NotNull m key) ∧
  At m "signature" (Only ["algo", "public_key", "sig"])

def view (m : Props Cid) : Prop :=
  At m "refs" (EachValue PlainRef) ∧
  NotNull m "remote_refs" ∧ At m "remote_refs" (EachValue (EachValue PlainRef)) ∧
  NotNull m "wc_commit" ∧
  m.get? "tombstones" ≠ some (.list []) ∧ At m "tombstones" AscendingEntries

def indexSet (m : Props Cid) : Prop :=
  m.get? "nodes_by_label" ≠ some (.map []) ∧ m.get? "nodes_by_prop" ≠ some (.map []) ∧
  m.get? "adjacency" = none ∧ NotNull m "outgoing" ∧ NotNull m "incoming"

def adjacencyBucket (m : Props Cid) : Prop := At m "edges" (EachElement (Only ["label", "edge"]))

def incomingAdjacencyBucket (m : Props Cid) : Prop :=
  At m "edges" (EachElement (Only ["label", "src", "edge"]))

def embeddingBucket (m : Props Cid) : Prop :=
  (m.get? "entries").isSome = true ∧ At m "entries" (EachElement PlainEntry) ∧
  ∀ b, Format.embeddingBucket.deserialize m = .ok b →
    b.entries.Pairwise fun e f => e.model ≤ f.model

end Settled

theorem node_settled {m : Props Cid} : node.wire.Canonical m.get? ↔ Settled.node m := by
  simp [node, Settled.node, canonical_opt, At]

theorem commit_settled {m : Props Cid} : commit.wire.Canonical m.get? ↔ Settled.commit m := by
  simp [commit, Settled.commit, canonical_opt, canonical_signature, At, and_assoc]

theorem view_settled {m : Props Cid} : view.wire.Canonical m.get? ↔ Settled.view m := by
  simp [view, Settled.view, canonical_opt, canonical_mapOf, canonical_refTarget,
    canonical_unlessEmpty _ _ fun _ => tombstoneEntries_decode_empty, canonical_tombstoneEntries,
    At, and_assoc]

theorem indexSet_settled {m : Props Cid} :
    indexSet.wire.Canonical m.get? ↔ Settled.indexSet m := by
  simp [indexSet, Settled.indexSet, canonical_opt, canonical_mapOf,
    canonical_unlessEmpty _ _ fun _ => mapOf_decode_empty _, At, EachValue, Inside, and_assoc]

theorem adjacencyBucket_settled {m : Props Cid} :
    adjacencyBucket.wire.Canonical m.get? ↔ Settled.adjacencyBucket m := by
  simp [adjacencyBucket, Settled.adjacencyBucket, canonical_listOf, canonical_adjacencyEntry, At]

theorem incomingAdjacencyBucket_settled {m : Props Cid} :
    incomingAdjacencyBucket.wire.Canonical m.get? ↔ Settled.incomingAdjacencyBucket m := by
  simp [incomingAdjacencyBucket, Settled.incomingAdjacencyBucket, canonical_listOf,
    canonical_incomingAdjacencyEntry, At]

/-! ## What an object may hold -/

theorem valid_refTarget (t : RefTarget Cid) : refTarget.Valid t := by
  cases t with
  | normal target => exact ⟨trivial, trivial⟩
  | conflicted adds removes => exact ⟨trivial, fun _ _ => trivial, fun _ _ => trivial⟩

theorem fits_node (n : Node Cid) : node.Fits n :=
  ⟨trivial, trivial, trivial, fun _ _ => trivial, trivial, fun _ _ => trivial, fun _ _ => trivial⟩

theorem valid_signature (s : Objects.Signature) : (@signature Cid).Valid s :=
  ⟨trivial, trivial, trivial⟩

theorem fits_commit (c : Objects.Commit Cid) : commit.Fits c :=
  ⟨trivial, trivial, fun _ _ => trivial, trivial, trivial, trivial, fun _ _ => trivial,
    fun _ _ => trivial, fun _ _ => trivial, fun _ _ => trivial, trivial, fun _ _ => trivial,
    fun _ _ => trivial, trivial, trivial, fun s _ => valid_signature s⟩

theorem fits_operation (o : Objects.Operation Cid) : operation.Fits o :=
  ⟨trivial, fun _ _ => trivial, trivial, fun _ _ _ _ _ _ _ => trivial, trivial,
    fun _ _ => trivial, fun _ _ => trivial, fun _ _ => trivial, trivial, trivial,
    fun s _ => valid_signature s⟩

theorem fits_indexSet (i : IndexSet Cid) : indexSet.Fits i :=
  ⟨trivial, fun _ _ _ => trivial, fun _ _ _ _ _ _ => trivial, fun _ _ => trivial,
    fun _ _ => trivial⟩

theorem fits_adjacencyBucket (b : Objects.AdjacencyBucket Cid) : adjacencyBucket.Fits b :=
  ⟨trivial, fun _ _ => ⟨trivial, trivial⟩⟩

theorem fits_incomingAdjacencyBucket (b : Objects.IncomingAdjacencyBucket Cid) :
    incomingAdjacencyBucket.Fits b :=
  ⟨trivial, fun _ _ => ⟨trivial, trivial, trivial⟩⟩

theorem fits_embeddingBucket (b : Objects.EmbeddingBucket Cid) : embeddingBucket.Fits b :=
  ⟨trivial, fun _ _ => ⟨trivial, trivial, trivial, trivial, trivial⟩⟩

/-- Only a tombstone has something beside its fields that may stand in their way. -/
theorem fits_view (v : Objects.View Cid)
    (beside : ∀ id t, v.tombstones.get? id = some t →
      Beside ["node_id", "_kind", "reason", "tombstoned_at"] t.extra) :
    view.Fits v := by
  refine ⟨trivial, fun _ _ => trivial, fun _ t _ => valid_refTarget t,
    fun _ _ _ _ _ _ t _ => valid_refTarget t, fun _ _ => trivial, fun e buried => ?_⟩
  refine ⟨⟨trivial, trivial, trivial, trivial⟩, ?_⟩
  exact beside e.1 e.2 (v.tombstones.get?_eq_some_iff.mpr buried)

/-! ## The fields of each kind -/

theorem keys_node : (@node Cid).wire.keys =
    ["_kind", "id", "ntype", "summary", "props", "content", "context_sentence"] := by
  simp [node]

theorem keys_commit : (@commit Cid).wire.keys =
    ["_kind", "change_id", "parents", "nodes", "edges", "schema", "delta", "indexes", "embeddings",
      "sparse", "author", "agent_id", "task_id", "time", "message", "signature"] := by
  simp [commit]

theorem keys_operation : (@operation Cid).wire.keys =
    ["_kind", "parents", "view", "predecessors", "author", "agent_id", "task_id", "host", "time",
      "description", "signature"] := by
  simp [operation]

theorem keys_view : (@view Cid).wire.keys =
    ["_kind", "heads", "refs", "remote_refs", "wc_commit", "tombstones"] := by
  simp [view]

theorem keys_indexSet : (@indexSet Cid).wire.keys =
    ["_kind", "nodes_by_label", "nodes_by_prop", "outgoing", "adjacency", "incoming"] := by
  simp [indexSet]

theorem keys_adjacencyBucket : (@adjacencyBucket Cid).wire.keys = ["_kind", "edges"] := by
  simp [adjacencyBucket]

theorem keys_incomingAdjacencyBucket :
    (@incomingAdjacencyBucket Cid).wire.keys = ["_kind", "edges"] := by
  simp [incomingAdjacencyBucket]

theorem keys_embeddingBucket :
    (@embeddingBucket Cid).wire.keys = ["_kind", "entries"] := by
  simp [embeddingBucket]

/-! ## Sorted entries -/

theorem sortEntries_perm (entries : List Objects.EmbeddingEntry) :
    (sortEntries entries).Perm entries := List.perm_insertionSort _ _

theorem sortEntries_sorted (entries : List Objects.EmbeddingEntry) :
    (sortEntries entries).Pairwise fun e f => e.model ≤ f.model := by
  have total : Std.Total fun e f : Objects.EmbeddingEntry => e.model ≤ f.model :=
    ⟨fun e f => le_total e.model f.model⟩
  have ordered : IsTrans Objects.EmbeddingEntry fun e f => e.model ≤ f.model :=
    ⟨fun _ _ _ => le_trans⟩
  exact List.pairwise_insertionSort _ _

theorem sortEntries_of_sorted {entries : List Objects.EmbeddingEntry}
    (sorted : entries.Pairwise fun e f => e.model ≤ f.model) : sortEntries entries = entries :=
  sorted.insertionSort_eq

/-- Entries of distinct models are written in one order, whatever order they come in. -/
theorem sortEntries_congr {entries others : List Objects.EmbeddingEntry}
    (same : entries.Perm others) (distinct : (entries.map (·.model)).Nodup) :
    sortEntries entries = sortEntries others := by
  have both : (sortEntries entries).Perm (sortEntries others) :=
    (sortEntries_perm entries).trans (same.trans (sortEntries_perm others).symm)
  refine both.eq_of_pairwise ?_ (sortEntries_sorted entries) (sortEntries_sorted others)
  intro e f inFirst inSecond below above
  have models : e.model = f.model := le_antisymm below above
  have e_mem := (sortEntries_perm entries).subset inFirst
  have f_mem := same.symm.subset ((sortEntries_perm others).subset inSecond)
  exact List.inj_on_of_nodup_map distinct e_mem f_mem models

/-- A bucket is read back with its entries sorted. -/
theorem deserialize_serializeBucket {b : Objects.EmbeddingBucket Cid}
    (beside : Beside ["_kind", "entries"] b.extra) :
    embeddingBucket.deserialize (serializeBucket b) =
      .ok { b with entries := sortEntries b.entries } :=
  embeddingBucket.deserialize_serialize (fits_embeddingBucket _) (keys_embeddingBucket ▸ beside)

theorem serializeBucket_iff {m : Props Cid} {b : Objects.EmbeddingBucket Cid}
    (read : embeddingBucket.deserialize m = .ok b) :
    serializeBucket b = m ↔ Settled.embeddingBucket m := by
  have shaped : embeddingBucket.wire.Canonical m.get? ↔
      (m.get? "entries").isSome = true ∧ At m "entries" (EachElement PlainEntry) := by
    simp [embeddingBucket, canonical_listOf, canonical_embeddingEntry, At]
  constructor
  · intro again
    have beside : Beside ["_kind", "entries"] b.extra :=
      keys_embeddingBucket ▸ (embeddingBucket.fits_of_deserialize read).2
    have back := deserialize_serializeBucket beside
    rw [again, read] at back
    have sorted := congrArg Objects.EmbeddingBucket.entries (Except.ok.inj back)
    have written : embeddingBucket.serialize b = m := by
      rw [← again, serializeBucket, ← Except.ok.inj back]
    obtain ⟨present, plain⟩ := shaped.mp ((embeddingBucket.serialize_iff read).mp written)
    refine ⟨present, plain, fun b' read' => ?_⟩
    rw [read] at read'
    cases read'
    rw [sorted]
    exact sortEntries_sorted b.entries
  · rintro ⟨present, plain, sorted⟩
    rw [serializeBucket, sortEntries_of_sorted (sorted b read)]
    exact (embeddingBucket.serialize_iff read).mpr (shaped.mpr ⟨present, plain⟩)

/-! ## The same map as a list of fields -/

section Fields

variable {Body : Type}

/-- What an object has at each key of its wire record. -/
def row (f : Format Cid Body α) (a : α) : String → Option (Ipld Cid) :=
  f.wire.put (f.kind, (f.whole.symm a).1)

theorem map_serialize (f : Format Cid Body α) {a : α} {fields : List (String × Ipld Cid)}
    (nodup : (fields.map Prod.fst).Nodup) (same : ∀ k, f.row a k = Entries.get? k fields) :
    Ipld.map (f.serialize a).entries = wireMap fields (f.whole.symm a).2 := by
  show Ipld.map _ = Ipld.map _
  congr 2
  ext k : 1
  have reversed : Entries.get? k fields.reverse = Entries.get? k fields := by
    have nodup' : (fields.reverse.map Prod.fst).Nodup := by
      rw [List.map_reverse]
      exact List.nodup_reverse.mpr nodup
    ext v
    rw [Entries.get?_eq_some_iff_of_nodup nodup', Entries.get?_eq_some_iff_of_nodup nodup,
      List.mem_reverse]
  show OrdMap.get? (f.wire.write _ _) k = _
  rw [get?_write, OrdMap.get?_insertAll, reversed, ← same k]
  split
  · rfl
  · rename_i outside
    rw [row, f.wire.put_outside _ k outside, Option.none_or]

theorem get?_field (k : String) (e : String × Ipld Cid) (es : List (String × Ipld Cid)) :
    Entries.get? k (e :: es) = (if k = e.1 then some e.2 else none).or (Entries.get? k es) := by
  rw [Entries.get?_cons]
  by_cases here : e.1 = k
  · simp [here]
  · simp [here, Ne.symm here]

theorem get?_toList (k key : String) (o : Option α) (wire : α → Ipld Cid) :
    Entries.get? k (o.toList.map fun a => (key, wire a)) =
      if k = key then o.map wire else none := by
  cases o with
  | none => simp
  | some a => simp [Entries.get?_cons, eq_comm]

/-- The map a node is written as is the one its links are looked for in. -/
theorem map_serialize_node (n : Node Cid) : Ipld.map (node.serialize n).entries = n.wire := by
  refine node.map_serialize n.fields_nodup fun k => ?_
  rw [Node.fields]
  simp only [List.append_assoc, List.cons_append, List.nil_append, Entries.get?_append, get?_field,
    get?_toList]
  rfl

theorem get?_skipped (k key : String) (empty : Bool) (v : Ipld Cid) :
    Entries.get? k (if empty then [] else [(key, v)]) =
      if k = key then if empty then none else some v else none := by
  cases empty <;> simp [Entries.get?_cons, eq_comm]

theorem map_serialize_indexSet (i : IndexSet Cid) :
    Ipld.map (indexSet.serialize i).entries = wireMap i.fields i.extra := by
  refine indexSet.map_serialize (Block.fields_nodup (.indexSet i)) fun k => ?_
  rw [IndexSet.fields]
  simp only [List.append_assoc, List.cons_append, List.nil_append, Entries.get?_append, get?_field,
    get?_skipped, linkField, get?_toList]
  rfl

end Fields

/-! ## Every kind -/

/-- Every object whose extra keys are no fields is read back from its encoding (an embedding bucket
up to the order of its entries, which the encoding does not depend on where the models are
distinct), and a map that was read is written again as it was exactly when it is settled. -/
theorem objects_round_trip :
    ((∀ n : Node Cid,
        Beside ["_kind", "id", "ntype", "summary", "props", "content", "context_sentence"] n.extra →
        node.deserialize (node.serialize n) = .ok n) ∧
      ∀ (m : Props Cid) n, node.deserialize m = .ok n → (node.serialize n = m ↔ Settled.node m)) ∧
    ((∀ c : Objects.Commit Cid,
        Beside ["_kind", "change_id", "parents", "nodes", "edges", "schema", "delta", "indexes",
          "embeddings", "sparse", "author", "agent_id", "task_id", "time", "message", "signature"]
          c.extra →
        commit.deserialize (commit.serialize c) = .ok c) ∧
      ∀ (m : Props Cid) c, commit.deserialize m = .ok c →
        (commit.serialize c = m ↔ Settled.commit m)) ∧
    ((∀ v : Objects.View Cid,
        Beside ["_kind", "heads", "refs", "remote_refs", "wc_commit", "tombstones"] v.extra →
        (∀ id t, v.tombstones.get? id = some t →
          Beside ["node_id", "_kind", "reason", "tombstoned_at"] t.extra) →
        view.deserialize (view.serialize v) = .ok v) ∧
      ∀ (m : Props Cid) v, view.deserialize m = .ok v → (view.serialize v = m ↔ Settled.view m)) ∧
    ((∀ i : IndexSet Cid,
        Beside ["_kind", "nodes_by_label", "nodes_by_prop", "outgoing", "adjacency", "incoming"]
          i.extra →
        indexSet.deserialize (indexSet.serialize i) = .ok i) ∧
      ∀ (m : Props Cid) i, indexSet.deserialize m = .ok i →
        (indexSet.serialize i = m ↔ Settled.indexSet m)) ∧
    ((∀ b : Objects.AdjacencyBucket Cid, Beside ["_kind", "edges"] b.extra →
        adjacencyBucket.deserialize (adjacencyBucket.serialize b) = .ok b) ∧
      ∀ (m : Props Cid) b, adjacencyBucket.deserialize m = .ok b →
        (adjacencyBucket.serialize b = m ↔ Settled.adjacencyBucket m)) ∧
    ((∀ b : Objects.IncomingAdjacencyBucket Cid, Beside ["_kind", "edges"] b.extra →
        incomingAdjacencyBucket.deserialize (incomingAdjacencyBucket.serialize b) = .ok b) ∧
      ∀ (m : Props Cid) b, incomingAdjacencyBucket.deserialize m = .ok b →
        (incomingAdjacencyBucket.serialize b = m ↔ Settled.incomingAdjacencyBucket m)) ∧
    (∀ b : Objects.EmbeddingBucket Cid, Beside ["_kind", "entries"] b.extra →
        ∃ entries, entries.Perm b.entries ∧
          embeddingBucket.deserialize (serializeBucket b) = .ok ⟨entries, b.extra⟩) ∧
      (∀ b c : Objects.EmbeddingBucket Cid, b.entries.Perm c.entries → b.extra = c.extra →
        (b.entries.map (·.model)).Nodup → serializeBucket b = serializeBucket c) ∧
      ∀ (m : Props Cid) b, embeddingBucket.deserialize m = .ok b →
        (serializeBucket b = m ↔ Settled.embeddingBucket m) := by
  refine ⟨⟨fun n beside => ?_, fun m n read => ?_⟩, ⟨fun c beside => ?_, fun m c read => ?_⟩,
    ⟨fun v beside buried => ?_, fun m v read => ?_⟩, ⟨fun i beside => ?_, fun m i read => ?_⟩,
    ⟨fun b beside => ?_, fun m b read => ?_⟩, ⟨fun b beside => ?_, fun m b read => ?_⟩,
    fun b beside => ?_, fun b c same rest distinct => ?_, fun m b read => ?_⟩
  · exact node.deserialize_serialize (fits_node n) (keys_node ▸ beside)
  · exact (node.serialize_iff read).trans node_settled
  · exact commit.deserialize_serialize (fits_commit c) (keys_commit ▸ beside)
  · exact (commit.serialize_iff read).trans commit_settled
  · exact view.deserialize_serialize (fits_view v buried) (keys_view ▸ beside)
  · exact (view.serialize_iff read).trans view_settled
  · exact indexSet.deserialize_serialize (fits_indexSet i) (keys_indexSet ▸ beside)
  · exact (indexSet.serialize_iff read).trans indexSet_settled
  · exact adjacencyBucket.deserialize_serialize (fits_adjacencyBucket b)
      (keys_adjacencyBucket ▸ beside)
  · exact (adjacencyBucket.serialize_iff read).trans adjacencyBucket_settled
  · exact incomingAdjacencyBucket.deserialize_serialize (fits_incomingAdjacencyBucket b)
      (keys_incomingAdjacencyBucket ▸ beside)
  · exact (incomingAdjacencyBucket.serialize_iff read).trans incomingAdjacencyBucket_settled
  · exact ⟨_, sortEntries_perm b.entries, deserialize_serializeBucket beside⟩
  · obtain ⟨entries, extra⟩ := b
    obtain ⟨others, extra'⟩ := c
    subst rest
    rw [serializeBucket, serializeBucket, sortEntries_congr same distinct]
  · exact serializeBucket_iff read

/-- A node that still carries its vectors inline, as old repositories wrote it. -/
def legacyNode : Props ℕ :=
  OrdMap.ofList [("_kind", .string "node"), ("embed", .map [("dim", .integer 3)]),
    ("id", .bytes (List.replicate 16 7)), ("ntype", .string "Person"), ("props", .map [])]

/-- Its unknown field survives. -/
theorem objects_round_trip_legacy :
    ∃ n, node.deserialize legacyNode = .ok n ∧ node.serialize n = legacyNode := by
  have reads : (node.deserialize legacyNode).toOption.isSome = true := by decide
  have absent : ∀ key ∈ ["summary", "content", "context_sentence"],
      (legacyNode.get? key).isNone = true := by decide
  cases read : node.deserialize legacyNode with
  | error e =>
      rw [read] at reads
      cases reads
  | ok n =>
      refine ⟨n, rfl, (objects_round_trip.1.2 legacyNode n read).mpr fun key isOptional => ?_⟩
      rw [NotNull, Option.isNone_iff_eq_none.mp (absent key isOptional)]
      nofun

/-- A bucket whose edge has a field that `AdjacencyEntry` does not know. -/
def weightedBucket : Props ℕ :=
  OrdMap.ofList [("_kind", .string "adjacency_bucket"),
    ("edges", .list [.map [("edge", .link 0), ("label", .string "knows"), ("weight", .integer 1)]])]

/-- A bucket without the entries. -/
def bareBucket : Props ℕ := OrdMap.ofList [("_kind", .string "embedding_bucket")]

/-- The unknown field of an edge is not written again, and the missing entries are. -/
theorem reencoding_differs :
    (∃ b, adjacencyBucket.deserialize weightedBucket = .ok b ∧
      adjacencyBucket.serialize b ≠ weightedBucket) ∧
    ∃ b, embeddingBucket.deserialize bareBucket = .ok b ∧ serializeBucket b ≠ bareBucket := by
  have weightedReads : (adjacencyBucket.deserialize weightedBucket).toOption.isSome = true := by
    decide
  have bareReads : (embeddingBucket.deserialize bareBucket).toOption.isSome = true := by
    decide
  constructor
  · cases read : adjacencyBucket.deserialize weightedBucket with
    | error e =>
        rw [read] at weightedReads
        cases weightedReads
    | ok b =>
        refine ⟨b, rfl, fun same => ?_⟩
        have settled := adjacencyBucket_settled.mp ((adjacencyBucket.serialize_iff read).mp same)
        have listed : ∀ k, _ → k ∈ ["label", "edge"] :=
          settled _ rfl _ rfl _ (List.mem_singleton_self _) _ rfl
        have weight : "weight" ∈ ["label", "edge"] := listed "weight" (by decide)
        exact absurd weight (by decide)
  · cases read : embeddingBucket.deserialize bareBucket with
    | error e =>
        rw [read] at bareReads
        cases bareReads
    | ok b =>
        refine ⟨b, rfl, fun same => ?_⟩
        have present := ((serializeBucket_iff read).mp same).1
        have missing : (bareBucket.get? "entries").isSome = false := by decide
        rw [missing] at present
        cases present

end Mnem.Format
