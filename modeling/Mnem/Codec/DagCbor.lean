/-
# Codec.DagCbor — blocks as values, and the links found in them

`extract_links` decodes a block into a value and walks it for links, with a
depth counter that starts at the whole block.  `walkIpld_eq` says what the walk
does to any value.  A property stands two levels down in the block of its node
or edge, so what `json_to_ipld` accepts the walk may refuse
(`blocks_walk_iff`).
-/
import Mnem.Codec.Json

namespace Mnem

open Theory

set_option autoImplicit false

variable {Cid : Type}

namespace Codec

/-! ## The walk -/

inductive CodecError where
  | encode (message : String)
  | decode (message : String)
  deriving DecidableEq

def walkIpldMaxDepth : Nat := 64

def tooDeep : CodecError := .decode "walk_ipld: nesting exceeds depth cap of 64"

mutual

def walkIpld : Ipld Cid → Nat → Except CodecError (List Cid)
  | node, depth =>
      if walkIpldMaxDepth ≤ depth then .error tooDeep
      else
        match node with
        | .list xs => walkList xs (depth + 1)
        | .map kvs => walkMap kvs (depth + 1)
        | .link c => .ok [c]
        | _ => .ok []

def walkList : List (Ipld Cid) → Nat → Except CodecError (List Cid)
  | [], _ => .ok []
  | x :: xs, depth => do
      let links ← walkIpld x depth
      let more ← walkList xs depth
      return links ++ more

def walkMap : List (String × Ipld Cid) → Nat → Except CodecError (List Cid)
  | [], _ => .ok []
  | (_, x) :: kvs, depth => do
      let links ← walkIpld x depth
      let more ← walkMap kvs depth
      return links ++ more

end

/-- Two results that are right or too deep, one after the other. -/
theorem append_bounded {a b : List Cid} {p q r : Prop} [Decidable p] [Decidable q] [Decidable r]
    (both : r ↔ p ∧ q) :
    (do let links ← (if p then .ok a else .error tooDeep : Except CodecError (List Cid))
        let more ← (if q then .ok b else .error tooDeep)
        return links ++ more) = if r then .ok (a ++ b) else .error tooDeep := by
  by_cases left : p
  · by_cases right : q
    · rw [if_pos left, if_pos right, if_pos (both.mpr ⟨left, right⟩)]
      rfl
    · rw [if_pos left, if_neg right, if_neg fun h => right (both.mp h).2]
      rfl
  · rw [if_neg left, if_neg fun h => left (both.mp h).1]
    rfl

mutual

/-- The walk finds the links of a value that stays above the cap, and refuses any other. -/
theorem walkIpld_eq : ∀ (v : Ipld Cid) (depth : Nat), walkIpld v depth =
    if depth + v.height < walkIpldMaxDepth then .ok v.links else .error tooDeep := by
  intro v depth
  unfold walkIpld
  by_cases deep : walkIpldMaxDepth ≤ depth
  · rw [if_pos deep, if_neg (by omega)]
  · rw [if_neg deep]
    have room : depth + 1 ≤ walkIpldMaxDepth := by omega
    cases v with
    | list xs =>
        refine (walkList_eq xs (depth + 1) room).trans (if_congr ?_ rfl rfl)
        simp only [Ipld.height]
        omega
    | map kvs =>
        refine (walkMap_eq kvs (depth + 1) room).trans (if_congr ?_ rfl rfl)
        simp only [Ipld.height]
        omega
    | _ => exact (if_pos (by simp only [Ipld.height]; omega)).symm

theorem walkList_eq : ∀ (xs : List (Ipld Cid)) (depth : Nat), depth ≤ walkIpldMaxDepth →
    walkList xs depth = if depth + Ipld.heightList xs ≤ walkIpldMaxDepth then
      .ok (Ipld.linksList xs) else .error tooDeep
  | [], depth, room => (if_pos room).symm
  | x :: xs, depth, room => by
      rw [walkList, walkIpld_eq x depth, walkList_eq xs depth room]
      refine append_bounded ?_
      simp only [Ipld.heightList]
      omega

theorem walkMap_eq : ∀ (kvs : List (String × Ipld Cid)) (depth : Nat), depth ≤ walkIpldMaxDepth →
    walkMap kvs depth = if depth + Ipld.heightMap kvs ≤ walkIpldMaxDepth then
      .ok (Ipld.linksMap kvs) else .error tooDeep
  | [], depth, room => (if_pos room).symm
  | (k, x) :: kvs, depth, room => by
      rw [walkMap, walkIpld_eq x depth, walkMap_eq kvs depth room]
      refine append_bounded ?_
      simp only [Ipld.heightMap]
      omega

end

/-! ## The codec -/

/-- The DAG-CBOR codec: what it writes it reads back, unless its own recursion limit stops it. -/
structure DagCbor (Cid : Type) where
  encode : Ipld Cid → Except String (List UInt8)
  decode : List UInt8 → Except String (Ipld Cid)
  decode_encode : ∀ v bytes, v.Ordered → encode v = .ok bytes →
    decode bytes = .ok v ∨ 128 < v.height ∧ ∃ message, decode bytes = .error message

/-- `extract_links`: every link in a block, depth first. -/
def extractLinks (codec : DagCbor Cid) (bytes : List UInt8) : Except CodecError (List Cid) :=
  match codec.decode bytes with
  | .ok root => walkIpld root 0
  | .error message => .error (.decode message)

/-- The blocks whose links are found are those of values less than 64 levels high. -/
theorem extractLinks_ok_iff {codec : DagCbor Cid} {v : Ipld Cid} {bytes : List UInt8}
    (ordered : v.Ordered) (written : codec.encode v = .ok bytes) :
    (∃ links, extractLinks codec bytes = .ok links) ↔ v.height < walkIpldMaxDepth := by
  unfold extractLinks
  rcases codec.decode_encode v bytes ordered written with back | ⟨high, message, refused⟩
  · rw [back]
    change (∃ links, walkIpld v 0 = .ok links) ↔ _
    rw [walkIpld_eq v 0, Nat.zero_add]
    split
    · simp [*]
    · simp [*]
  · rw [refused]
    have low : ¬ v.height < walkIpldMaxDepth := by
      unfold walkIpldMaxDepth
      omega
    simp [low]

end Codec

/-! ## Nodes and edges on the wire -/

/-- The sixteen bytes of an identifier, most significant first. -/
def StableId.toBytes (id : StableId) : List UInt8 :=
  (List.range 16).map fun i => UInt8.ofNat (id.val / 256 ^ (15 - i))

/-- A map of fields, with the keys that are no field of the type beside them. -/
def wireMap (fields : List (String × Ipld Cid)) (extra : Props Cid) : Ipld Cid :=
  .map (extra.insertAll fields).entries

/-- The fields of `NodeWire`. -/
def Node.fields (n : Node Cid) : List (String × Ipld Cid) :=
  [("_kind", .string "node"), ("id", .bytes (StableId.toBytes n.id)), ("ntype", .string n.ntype)] ++
    n.summary.toList.map (fun s => ("summary", .string s)) ++ [("props", .map n.props.entries)] ++
    n.content.toList.map (fun b => ("content", .bytes b)) ++
    n.contextSentence.toList.map fun s => ("context_sentence", .string s)

/-- `NodeWire`. -/
def Node.wire (n : Node Cid) : Ipld Cid := wireMap n.fields n.extra

/-- The fields of `EdgeWire`. -/
def Edge.fields (e : Edge Cid) : List (String × Ipld Cid) :=
  [("_kind", .string "edge"), ("id", .bytes (StableId.toBytes e.id)), ("etype", .string e.etype),
    ("src", .bytes (StableId.toBytes e.src)), ("dst", .bytes (StableId.toBytes e.dst)),
    ("props", .map e.props.entries)]

/-- `EdgeWire`. -/
def Edge.wire (e : Edge Cid) : Ipld Cid := wireMap e.fields e.extra

/-- The keys beside the fields of a type: none is a field's, and every value is ordered. -/
structure Beside (fields : List (String × Ipld Cid)) (extra : Props Cid) : Prop where
  apart : ∀ e ∈ extra.entries, ∀ f ∈ fields, e.1 ≠ f.1
  ordered : ∀ e ∈ extra.entries, e.2.Ordered

section

variable {fields : List (String × Ipld Cid)} {extra : Props Cid}

theorem mem_wireMap (apart : ∀ e ∈ extra.entries, ∀ f ∈ fields, e.1 ≠ f.1)
    (nodup : (fields.map Prod.fst).Nodup) {e : String × Ipld Cid} :
    e ∈ (extra.insertAll fields).entries ↔ e ∈ fields ∨ e ∈ extra.entries := by
  obtain ⟨k, v⟩ := e
  have reversed : ((fields.reverse).map Prod.fst).Nodup := by
    rw [List.map_reverse]
    exact (List.reverse_perm _).nodup_iff.mpr nodup
  rw [← OrdMap.get?_eq_some_iff, OrdMap.get?_insertAll, Option.or_eq_some_iff,
    Entries.get?_eq_some_iff_of_nodup reversed, List.mem_reverse, OrdMap.get?_eq_some_iff]
  refine or_congr_right ⟨And.right, fun member => ⟨?_, member⟩⟩
  rw [Entries.get?_eq_none_iff]
  intro f hf same
  exact apart _ member f (List.mem_reverse.mp hf) same.symm

theorem wireMap_ordered (beside : Beside fields extra) (nodup : (fields.map Prod.fst).Nodup)
    (each : ∀ f ∈ fields, f.2.Ordered) : (wireMap fields extra).Ordered := by
  refine ⟨OrdMap.ascending _, Ipld.orderedMap_iff.mpr fun e member => ?_⟩
  rcases (mem_wireMap beside.apart nodup).mp member with field | rest
  · exact each e field
  · exact beside.ordered e rest

theorem wireMap_height_le_iff (beside : Beside fields extra) (nodup : (fields.map Prod.fst).Nodup)
    {n : Nat} : (wireMap fields extra).height ≤ n ↔
      (∀ f ∈ fields, f.2.height < n) ∧ ∀ e ∈ extra.entries, e.2.height < n := by
  change Ipld.heightMap _ ≤ n ↔ _
  simp only [Ipld.heightMap_le_iff, mem_wireMap beside.apart nodup]
  constructor
  · intro h
    exact ⟨fun f m => h f (Or.inl m), fun e m => h e (Or.inr m)⟩
  · rintro ⟨left, right⟩ e (m | m)
    · exact left e m
    · exact right e m

/-- A block whose fields hold no value of their own but the properties. -/
theorem wire_walk_iff {codec : Codec.DagCbor Cid} {props : Props Cid} {bytes : List UInt8}
    (beside : Beside fields extra) (nodup : (fields.map Prod.fst).Nodup)
    (rest : ∀ P : Ipld Cid → Prop, (∀ s, P (.string s)) → (∀ b, P (.bytes b)) →
      ((∀ f ∈ fields, P f.2) ↔ P (.map props.entries)))
    (inputs : ∀ e ∈ props.entries, e.2.Ordered)
    (written : codec.encode (wireMap fields extra) = .ok bytes) :
    (∃ links, Codec.extractLinks codec bytes = .ok links) ↔
      (∀ e ∈ props.entries, e.2.height < 62) ∧ ∀ e ∈ extra.entries, e.2.height < 63 := by
  have ordered : (wireMap fields extra).Ordered := by
    refine wireMap_ordered beside nodup ((rest Ipld.Ordered ?_ ?_).mpr ?_)
    · intro s
      exact trivial
    · intro b
      exact trivial
    · exact ⟨props.ascending, Ipld.orderedMap_iff.mpr inputs⟩
  have fieldsLow : (∀ f ∈ fields, f.2.height < 63) ↔ ∀ e ∈ props.entries, e.2.height < 62 := by
    refine (rest (fun v => v.height < 63) ?_ ?_).trans ?_
    · intro s
      change 0 < 63
      omega
    · intro b
      change 0 < 63
      omega
    · exact Nat.lt_succ_iff.trans Ipld.heightMap_le_iff
  rw [Codec.extractLinks_ok_iff ordered written, ← fieldsLow]
  exact Nat.lt_succ_iff.trans (wireMap_height_le_iff beside nodup)

end

theorem Node.fields_nodup (n : Node Cid) : (n.fields.map Prod.fst).Nodup := by
  cases summary : n.summary <;> cases content : n.content <;> cases sentence : n.contextSentence <;>
    simp [Node.fields, summary, content, sentence]

theorem Edge.fields_nodup (e : Edge Cid) : (e.fields.map Prod.fst).Nodup := by
  simp [Edge.fields]

theorem Node.fields_rest (n : Node Cid) (P : Ipld Cid → Prop) (strings : ∀ s, P (.string s))
    (bytes : ∀ b, P (.bytes b)) : (∀ f ∈ n.fields, P f.2) ↔ P (.map n.props.entries) := by
  simp [Node.fields, or_imp, forall_and, strings, bytes]

theorem Edge.fields_rest (e : Edge Cid) (P : Ipld Cid → Prop) (strings : ∀ s, P (.string s))
    (bytes : ∀ b, P (.bytes b)) : (∀ f ∈ e.fields, P f.2) ↔ P (.map e.props.entries) := by
  simp [Edge.fields, strings, bytes]

/-- Every property value came through `json_to_ipld`. -/
def FromInput (props : Props Cid) : Prop :=
  ∀ e ∈ props.entries, ∃ v, Codec.jsonToIpld v = .ok e.2

theorem FromInput.ordered {props : Props Cid} (input : FromInput props) :
    ∀ e ∈ props.entries, e.2.Ordered := by
  intro e member
  obtain ⟨v, accepted⟩ := input e member
  exact (Codec.jsonToIpld_accepted accepted).2

/-- Of the values `json_to_ipld` accepts, up to 63 levels high, the walk accepts as a property
those up to 61 levels high: the block and its property map stand above them. -/
theorem blocks_walk_iff (codec : Codec.DagCbor Cid) :
    (∀ (n : Node Cid) (bytes : List UInt8), FromInput n.props → Beside n.fields n.extra →
      codec.encode n.wire = .ok bytes →
        ((∃ links, Codec.extractLinks codec bytes = .ok links) ↔
          (∀ e ∈ n.props.entries, e.2.height < 62) ∧ ∀ e ∈ n.extra.entries, e.2.height < 63)) ∧
    ∀ (e : Edge Cid) (bytes : List UInt8), FromInput e.props → Beside e.fields e.extra →
      codec.encode e.wire = .ok bytes →
        ((∃ links, Codec.extractLinks codec bytes = .ok links) ↔
          (∀ p ∈ e.props.entries, p.2.height < 62) ∧ ∀ p ∈ e.extra.entries, p.2.height < 63) := by
  constructor
  · intro n bytes input beside written
    exact wire_walk_iff beside n.fields_nodup n.fields_rest input.ordered written
  · intro e bytes input beside written
    exact wire_walk_iff beside e.fields_nodup e.fields_rest input.ordered written

/-! ### The boundary -/

/-- A codec that knows one block and its bytes. -/
noncomputable def Codec.DagCbor.single (v : Ipld Cid) (bytes : List UInt8) : Codec.DagCbor Cid :=
  open Classical in
  { encode := fun w => if w = v then .ok bytes else .error "another value"
    decode := fun b => if b = bytes then .ok v else .error "another block"
    decode_encode := by
      intro w b _ written
      split at written
      · rename_i same
        cases written
        rw [if_pos rfl, same]
        exact Or.inl rfl
      · cases written }

theorem Codec.DagCbor.single_encode (v : Ipld Cid) (bytes : List UInt8) :
    (Codec.DagCbor.single v bytes).encode v = .ok bytes := if_pos rfl

/-- An empty array inside `n` arrays, as JSON, as a value and as DAG-CBOR. -/
def nestedJson : Nat → Codec.Json
  | 0 => .array []
  | n + 1 => .array [nestedJson n]

def nested : Nat → Ipld Cid
  | 0 => .list []
  | n + 1 => .list [nested n]

def nestedBytes (n : Nat) : List UInt8 := List.replicate n 0x81 ++ [0x80]

theorem jsonToIpldAt_nested : ∀ n depth, depth + n < Codec.ipldMaxDepth →
    Codec.jsonToIpldAt (nestedJson n) depth = .ok (nested n : Ipld Cid)
  | 0, depth, room => by
      unfold nestedJson Codec.jsonToIpldAt
      rw [if_neg (by omega)]
      rfl
  | n + 1, depth, room => by
      unfold nestedJson Codec.jsonToIpldAt
      rw [if_neg (by omega)]
      simp only [Codec.arrayToIpld, jsonToIpldAt_nested n (depth + 1) (by omega)]
      rfl

theorem height_nested : ∀ n, (nested n : Ipld Cid).height = n
  | 0 => rfl
  | n + 1 => by
      change max ((nested n : Ipld Cid).height + 1) 0 = n + 1
      rw [height_nested n]
      omega

def nestedProps (n : Nat) : Props Cid := OrdMap.empty.insert "k" (nested n)

theorem nestedProps_input {n : Nat} (low : n < Codec.ipldMaxDepth) :
    FromInput (nestedProps n : Props Cid) := by
  intro e member
  obtain rfl := List.mem_singleton.mp member
  exact ⟨nestedJson n, jsonToIpldAt_nested n 0 (by omega)⟩

def nestedNode (n : Nat) : Node Nat := { id := 0, ntype := "A", props := nestedProps n }

def nestedEdge (n : Nat) : Edge Nat :=
  { id := 0, etype := "r", src := 0, dst := 0, props := nestedProps n }

/-- The keys of a block, shortest first: `id`, `_kind`, `ntype`, `props`. -/
def nestedNodeBytes (n : Nat) : List UInt8 :=
  [0xa4, 0x62, 0x69, 0x64, 0x50] ++ List.replicate 16 0 ++
    [0x65, 0x5f, 0x6b, 0x69, 0x6e, 0x64, 0x64, 0x6e, 0x6f, 0x64, 0x65] ++
    [0x65, 0x6e, 0x74, 0x79, 0x70, 0x65, 0x61, 0x41] ++
    [0x65, 0x70, 0x72, 0x6f, 0x70, 0x73, 0xa1, 0x61, 0x6b] ++ nestedBytes n

/-- `id`, `dst`, `src`, `_kind`, `etype`, `props`. -/
def nestedEdgeBytes (n : Nat) : List UInt8 :=
  [0xa6, 0x62, 0x69, 0x64, 0x50] ++ List.replicate 16 0 ++
    [0x63, 0x64, 0x73, 0x74, 0x50] ++ List.replicate 16 0 ++
    [0x63, 0x73, 0x72, 0x63, 0x50] ++ List.replicate 16 0 ++
    [0x65, 0x5f, 0x6b, 0x69, 0x6e, 0x64, 0x64, 0x65, 0x64, 0x67, 0x65] ++
    [0x65, 0x65, 0x74, 0x79, 0x70, 0x65, 0x61, 0x72] ++
    [0x65, 0x70, 0x72, 0x6f, 0x70, 0x73, 0xa1, 0x61, 0x6b] ++ nestedBytes n

theorem beside_empty {fields : List (String × Ipld Cid)} : Beside fields OrdMap.empty :=
  ⟨fun _ member => absurd member List.not_mem_nil, fun _ member => absurd member List.not_mem_nil⟩

/-- Sixty-two levels are accepted as input and refused in a block. -/
theorem extractLinks_refuses_accepted :
    ∃ (codec : Codec.DagCbor Nat) (n : Node Nat) (bytes : List UInt8),
      FromInput n.props ∧ n.extra = OrdMap.empty ∧ codec.encode n.wire = .ok bytes ∧
        ∀ links, Codec.extractLinks codec bytes ≠ .ok links := by
  refine ⟨.single (nestedNode 62).wire (nestedNodeBytes 62), nestedNode 62, nestedNodeBytes 62,
    nestedProps_input (by decide), rfl, Codec.DagCbor.single_encode _ _, ?_⟩
  intro links walked
  have low := (wire_walk_iff beside_empty (nestedNode 62).fields_nodup (nestedNode 62).fields_rest
    (nestedProps_input (by decide : 62 < Codec.ipldMaxDepth)).ordered
    (Codec.DagCbor.single_encode (nestedNode 62).wire (nestedNodeBytes 62))).mp ⟨links, walked⟩
  have here := low.1 ("k", nested 62) List.mem_cons_self
  rw [height_nested] at here
  omega

/-- Sixty-one levels are found again in a node and in an edge. -/
theorem blocks_walk_iff_nested :
    (∃ (codec : Codec.DagCbor Nat) (bytes : List UInt8),
      codec.encode (nestedNode 61).wire = .ok bytes ∧
        ∃ links, Codec.extractLinks codec bytes = .ok links) ∧
    ∃ (codec : Codec.DagCbor Nat) (bytes : List UInt8),
      codec.encode (nestedEdge 61).wire = .ok bytes ∧
        ∃ links, Codec.extractLinks codec bytes = .ok links := by
  have low : ∀ e ∈ (nestedProps 61 : Props Nat).entries, e.2.height < 62 := by
    intro e member
    obtain rfl := List.mem_singleton.mp member
    change (nested 61 : Ipld Nat).height < 62
    rw [height_nested]
    omega
  have none : ∀ e ∈ (OrdMap.empty : Props Nat).entries, e.2.height < 63 :=
    fun _ member => absurd member List.not_mem_nil
  constructor
  · refine ⟨.single (nestedNode 61).wire (nestedNodeBytes 61), nestedNodeBytes 61,
      Codec.DagCbor.single_encode _ _, ?_⟩
    exact ((blocks_walk_iff _).1 (nestedNode 61) (nestedNodeBytes 61)
      (nestedProps_input (by decide)) beside_empty (Codec.DagCbor.single_encode _ _)).mpr ⟨low, none⟩
  · refine ⟨.single (nestedEdge 61).wire (nestedEdgeBytes 61), nestedEdgeBytes 61,
      Codec.DagCbor.single_encode _ _, ?_⟩
    exact ((blocks_walk_iff _).2 (nestedEdge 61) (nestedEdgeBytes 61)
      (nestedProps_input (by decide)) beside_empty (Codec.DagCbor.single_encode _ _)).mpr ⟨low, none⟩

end Mnem
