/-
# Http.NodeIdentity — node identifiers derived from a label and properties

`mnem add node --deterministic` and `POST /v1/nodes` with `deterministic` hash
the same text: a domain, the label, a NUL, and for each property its key, `=`,
its DAG-CBOR value and a NUL.  Neither the label nor a key is written with its
length, so a key that holds `=` and a label that holds a NUL can be read another
way, and two identities may be written alike (`preimage_eq_iff` says exactly
when).  The command line splits a property at its first `=` and has no such
keys, but it derives the identifier from an empty label where the node it stores
gets the default one.
-/
import Mnem.Codec.Format
import Mnem.Theory.Separated
import Mnem.Theory.Utf8
import Mnem.Transport.Fragment

namespace Mnem.NodeIdentity

open Theory Theory.Separated Codec

set_option autoImplicit false

/-- The packages: DAG-CBOR, BLAKE3, and the readers of JSON and of UUIDs. -/
structure Packages (Cid : Type) where
  cbor : DagCbor Cid
  blake3_256 : List UInt8 → List UInt8
  length_blake3_256 : ∀ data, (blake3_256 data).length = 32
  parseJson : String → Option Json
  parseUuid : String → Except String NodeId

variable {Cid : Type} (pk : Packages Cid)

/-! ## What is hashed -/

def utf8 (s : String) : List UInt8 := s.toUTF8.data.toList

/-- `b"mnem-c3-2:node:v1\0"`. -/
def domain : List UInt8 := utf8 "mnem-c3-2:node:v1" ++ [0]

/-- The loop over the properties. -/
def pushProps (codec : DagCbor Cid) :
    List (String × Ipld Cid) → List UInt8 → Except String (List UInt8)
  | [], buf => .ok buf
  | (k, v) :: kv, buf => do
      let cbor ← codec.encode v
      pushProps codec kv (buf ++ utf8 k ++ [0x3d] ++ cbor ++ [0])

def preimage (codec : DagCbor Cid) (label : String) (kv : Props Cid) : Except String (List UInt8) :=
  pushProps codec kv.entries (domain ++ utf8 label ++ [0])

/-- The first sixteen bytes of the digest. -/
def nodeIdOf (buf : List UInt8) : NodeId :=
  ⟨bigEndian ((pk.blake3_256 buf).take 16), by
    have below := bigEndian_lt ((pk.blake3_256 buf).take 16)
    rw [List.length_take, pk.length_blake3_256] at below
    exact below⟩

/-- `Node::DEFAULT_NTYPE`. -/
def defaultNtype : String := "Node"

def refuseIf {ε : Type} (refused : Bool) (e : ε) : Except ε Unit :=
  if refused then .error e else .ok ()

def withProp (node : Node Cid) (key : String) (value : Ipld Cid) : Node Cid :=
  { node with props := node.props.insert key value }

/-! ## The server -/

inductive DeriveError where
  | json (e : JsonIpldError)
  | cbor (message : String)

/-- The loop that fills `kv`. -/
def insertJson (kv : Props Cid) : List (String × Json) → Except JsonIpldError (Props Cid)
  | [] => .ok kv
  | (k, v) :: props => do
      let ipld ← jsonToIpld v
      insertJson (kv.insert k ipld) props

/-- `derive_deterministic_node_id_http`, up to the text it hashes. -/
def preimageHttp (codec : DagCbor Cid) (label : String) (props : Option (List (String × Json))) :
    Except DeriveError (List UInt8) := do
  let kv ← (insertJson OrdMap.empty (props.getD [])).mapError .json
  (preimage codec label kv).mapError .cbor

def deriveDeterministicNodeIdHttp (label : String) (props : Option (List (String × Json))) :
    Except DeriveError NodeId := do
  let buf ← preimageHttp pk.cbor label props
  return nodeIdOf pk buf

structure PostNodeBody where
  label : String := ""
  summary : Option String := none
  props : Option (List (String × Json)) := none
  content : Option String := none
  author : Option String := none
  message : Option String := none
  id : Option String := none
  deterministic : Bool := false
  contextSentence : Option String := none

inductive PostError where
  | badRequest (message : String)
  | notDerived (e : DeriveError)
  | invalidId (message : String)
  | prop (e : JsonIpldError)

def maxAuthorLen : Nat := 255
def maxMessageLen : Nat := 2000
def maxSummaryLen : Nat := 8192
def maxContentLen : Nat := 1024 * 1024

def requireAuthor (author : Option String) : Except PostError String :=
  let trimmed := Utf8.trim (author.getD "").toList
  if trimmed = [] then .error (.badRequest "author is required")
  else if maxAuthorLen < Utf8.byteLen trimmed then
    .error (.badRequest "author exceeds maximum length of 255 bytes")
  else .ok (String.ofList trimmed)

/-- A text longer than its limit is refused. -/
def within (limit : Nat) (refusal : String) (text : Option String) : Except PostError Unit :=
  match text with
  | some t => if limit < t.utf8ByteSize then .error (.badRequest refusal) else .ok ()
  | none => .ok ()

def validateMessage : Option String → Except PostError Unit :=
  within maxMessageLen "message exceeds maximum length of 2000 bytes"

/-- The caller's label counts when the server allows labels and it is not blank. -/
def postNodeLabel (allowLabels : Bool) (label : String) : String :=
  if allowLabels && Utf8.trim label.toList ≠ [] then label else defaultNtype

/-- The loop that stores the properties. -/
def storeJson (node : Node Cid) : List (String × Json) → Except PostError (Node Cid)
  | [] => .ok node
  | (k, v) :: props =>
      match jsonToIpld v with
      | .ok ipld => storeJson (withProp node k ipld) props
      | .error e => .error (.prop e)

/-- The identifier of a node: derived, the caller's, or a fresh one. -/
def postNodeId (fresh : NodeId) (label : String) (body : PostNodeBody) : Except PostError NodeId :=
  if body.deterministic then (deriveDeterministicNodeIdHttp pk label body.props).mapError .notDerived
  else
    match body.id with
    | some s => (pk.parseUuid s).mapError .invalidId
    | none => .ok fresh

/-- `post_node` without `canonical`, up to the node it adds. -/
def postNode (fresh : NodeId) (allowLabels : Bool) (body : PostNodeBody) :
    Except PostError (Node Cid) := do
  refuseIf (body.deterministic && body.id.isSome)
    (.badRequest "`deterministic` and `id` are mutually exclusive")
  let label := postNodeLabel allowLabels body.label
  let _ ← requireAuthor body.author
  validateMessage body.message
  within maxSummaryLen "summary exceeds maximum length of 8192 bytes" body.summary
  within maxContentLen "content exceeds maximum length of 1048576 bytes" body.content
  let nodeId ← postNodeId pk fresh label body
  refuseIf (!body.deterministic && body.id.isNone &&
    Utf8.trim (body.summary.getD "").toList = []) (.badRequest "summary is required")
  let node ← storeJson
    { id := nodeId, ntype := label, summary := body.summary, contextSentence := body.contextSentence }
    (body.props.getD [])
  return { node with content := body.content.map utf8 }

/-! ## The command line -/

structure NodeArgs where
  positional : Option String := none
  label : Option String := none
  summary : Option String := none
  props : List String := []
  content : Option String := none
  id : Option String := none
  deterministic : Bool := false

inductive AddError where
  | positional (argument : String)
  | noEquals (argument : String)
  | prop (key : String) (e : JsonIpldError)
  | cbor (message : String)
  | invalidId (id message : String)

/-- The first `=` splits; a value that is no JSON is a string. -/
def parseProp (arg : String) : Except AddError (String × Ipld Cid) :=
  match Utf8.splitOnce '=' arg.toList with
  | none => .error (.noEquals arg)
  | some (k, v) =>
      match pk.parseJson (String.ofList v) with
      | some json =>
          match jsonToIpld json with
          | .ok value => .ok (String.ofList k, value)
          | .error e => .error (.prop (String.ofList k) e)
      | none => .ok (String.ofList k, .string (String.ofList v))

/-- The loop that fills `kv`. -/
def insertParsed (kv : Props Cid) : List String → Except AddError (Props Cid)
  | [] => .ok kv
  | raw :: props => do
      let (k, v) ← parseProp pk raw
      insertParsed (kv.insert k v) props

/-- The label the derivation uses. -/
def NodeArgs.derivedLabel (a : NodeArgs) : String := a.label.getD defaultNtype

/-- `derive_deterministic_node_id`, up to the text it hashes. -/
def preimageCli (a : NodeArgs) : Except AddError (List UInt8) := do
  let kv ← insertParsed pk OrdMap.empty a.props
  (preimage pk.cbor a.derivedLabel kv).mapError .cbor

def deriveDeterministicNodeId (a : NodeArgs) : Except AddError NodeId := do
  let buf ← preimageCli pk a
  return nodeIdOf pk buf

/-- The loop that stores the properties. -/
def storeParsed (node : Node Cid) : List String → Except AddError (Node Cid)
  | [] => .ok node
  | p :: props => do
      let (k, v) ← parseProp pk p
      storeParsed (withProp node k v) props

def addNodeId (fresh : NodeId) (a : NodeArgs) : Except AddError NodeId :=
  match a.id, a.deterministic with
  | some s, _ => (pk.parseUuid s).mapError (.invalidId s)
  | none, true => deriveDeterministicNodeId pk a
  | none, false => .ok fresh

/-- The label the node is stored with. -/
def NodeArgs.storedLabel (a : NodeArgs) : String :=
  match a.label with
  | some l => if l ≠ "" then l else defaultNtype
  | none => defaultNtype

/-- `add_node` without `--canonical`, up to the node it adds. -/
def addNode (fresh : NodeId) (stdin : String) (a : NodeArgs) : Except AddError (Node Cid) := do
  refuseIf a.positional.isSome (.positional (a.positional.getD ""))
  let nodeId ← addNodeId pk fresh a
  let node ← storeParsed pk { id := nodeId, ntype := a.storedLabel, summary := a.summary } a.props
  return { node with content := a.content.map fun c => utf8 (if c = "@-" then stdin else c) }

/-! ## Two texts compared -/

/-- What a value contributes to the text. -/
def item (codec : DagCbor Cid) (v : Ipld Cid) : List UInt8 := (codec.encode v).toOption.getD []

/-- The values the codec writes. -/
def Encodes (codec : DagCbor Cid) (v : Ipld Cid) : Prop :=
  v.Ordered ∧ ∃ bytes, codec.encode v = .ok bytes

/-- DAG-CBOR: one item for each value, which says itself where it ends. -/
def OneItemEach (codec : DagCbor Cid) : Prop := SelfDelimiting (item codec) (Encodes codec)

/-- The properties as records. -/
def spelled (codec : DagCbor Cid) (kv : Props Cid) : List UInt8 :=
  spell utf8 (item codec) 0x3d 0 kv.entries

/-- A key of the second map runs on past the `=` of the first map's key there, through the value
behind it, and the rest agrees. -/
def KeySpills (codec : DagCbor Cid) (kv kv' : Props Cid) : Prop :=
  Spills utf8 (item codec) 0x3d 0 kv.entries kv'.entries

/-- The second label runs on past a NUL, through properties of the first, and the rest agrees. -/
def LabelSpills (codec : DagCbor Cid) (label : String) (kv : Props Cid) (label' : String)
    (kv' : Props Cid) : Prop :=
  TitleSpills utf8 (item codec) 0x3d 0 (utf8 label) kv.entries (utf8 label') kv'.entries

variable {pk} {codec : DagCbor Cid}

theorem utf8_injective : Function.Injective utf8 := by
  intro s t same
  apply String.toByteArray_inj.mp
  exact ByteArray.ext (Array.toList_inj.mp same)

theorem item_of_encode {v : Ipld Cid} {bytes : List UInt8} (written : codec.encode v = .ok bytes) :
    item codec v = bytes := by
  rw [item, written]
  rfl

theorem pushProps_eq_ok {kv : List (String × Ipld Cid)} {buf out : List UInt8}
    (ran : pushProps codec kv buf = .ok out) :
    (∀ e ∈ kv, ∃ bytes, codec.encode e.2 = .ok bytes) ∧
      out = buf ++ spell utf8 (item codec) 0x3d 0 kv := by
  induction kv generalizing buf with
  | nil =>
      cases ran
      exact ⟨by simp, (List.append_nil _).symm⟩
  | cons e kv ih =>
      obtain ⟨bytes, written, ran⟩ := Exec.bind_eq_ok.mp ran
      obtain ⟨each, rfl⟩ := ih ran
      refine ⟨List.forall_mem_cons.mpr ⟨⟨bytes, written⟩, each⟩, ?_⟩
      simp [spell, item_of_encode written]

/-- The text that is hashed: the domain, the label, a NUL and the records. -/
theorem preimage_eq_ok {label : String} {kv : Props Cid} {buf : List UInt8}
    (ran : preimage codec label kv = .ok buf) :
    (∀ e ∈ kv.entries, ∃ bytes, codec.encode e.2 = .ok bytes) ∧
      buf = domain ++ (utf8 label ++ 0 :: spelled codec kv) := by
  obtain ⟨each, rfl⟩ := pushProps_eq_ok ran
  exact ⟨each, by simp [spelled]⟩

/-- Two different identities with one text. -/
def Collides (codec : DagCbor Cid) (label : String) (kv : Props Cid) (label' : String)
    (kv' : Props Cid) : Prop :=
  LabelSpills codec label kv label' kv' ∨ label = label' ∧ KeySpills codec kv kv'

/-- Two identities are written alike when they are equal, or one spills into the other. -/
theorem preimage_eq_iff (own : OneItemEach codec) {label label' : String} {kv kv' : Props Cid}
    {buf buf' : List UInt8} (ordered : ∀ e ∈ kv.entries, e.2.Ordered)
    (ordered' : ∀ e ∈ kv'.entries, e.2.Ordered) (ran : preimage codec label kv = .ok buf)
    (ran' : preimage codec label' kv' = .ok buf') :
    buf = buf' ↔
      (label = label' ∧ (kv = kv' ∨ KeySpills codec kv kv' ∨ KeySpills codec kv' kv)) ∨
        LabelSpills codec label kv label' kv' ∨ LabelSpills codec label' kv' label kv := by
  obtain ⟨each, rfl⟩ := preimage_eq_ok ran
  obtain ⟨each', rfl⟩ := preimage_eq_ok ran'
  have labels : utf8 label = utf8 label' ↔ label = label' := utf8_injective.eq_iff
  have maps : kv.entries = kv'.entries ↔ kv = kv' :=
    ⟨OrdMap.entries_injective, congrArg OrdMap.entries⟩
  rw [List.append_cancel_left_eq, spelled, spelled,
    titled_eq_iff utf8_injective own (fun e m => ⟨ordered e m, each e m⟩)
      (fun e m => ⟨ordered' e m, each' e m⟩), labels, maps]
  exact Iff.rfl

theorem Collides.ne {label label' : String} {kv kv' : Props Cid}
    (collides : Collides codec label kv label' kv') : ¬ (label = label' ∧ kv = kv') := by
  rintro ⟨rfl, rfl⟩
  rcases collides with spills | ⟨-, spills⟩
  · exact spills.ne rfl
  · exact spills.ne rfl

/-- The text identifies the label and the properties unless they collide. -/
theorem preimage_exact (own : OneItemEach codec) {label label' : String} {kv kv' : Props Cid}
    {buf buf' : List UInt8} (ordered : ∀ e ∈ kv.entries, e.2.Ordered)
    (ordered' : ∀ e ∈ kv'.entries, e.2.Ordered) (ran : preimage codec label kv = .ok buf)
    (ran' : preimage codec label' kv' = .ok buf') :
    (buf = buf' ↔ label = label' ∧ kv = kv') ↔
      ¬ Collides codec label kv label' kv' ∧ ¬ Collides codec label' kv' label kv := by
  have alike := preimage_eq_iff own ordered ordered' ran ran'
  constructor
  · intro identifies
    refine ⟨fun collides => collides.ne (identifies.mp (alike.mpr ?_)),
      fun collides => collides.ne ?_⟩
    · rcases collides with spills | ⟨same, spills⟩
      · exact .inr (.inl spills)
      · exact .inl ⟨same, .inr (.inl spills)⟩
    · have both := identifies.mp (alike.mpr ?_)
      · exact ⟨both.1.symm, both.2.symm⟩
      · rcases collides with spills | ⟨same, spills⟩
        · exact .inr (.inr spills)
        · exact .inl ⟨same.symm, .inr (.inr spills)⟩
  · rintro ⟨apart, apart'⟩
    refine alike.trans ⟨?_, fun both => .inl ⟨both.1, .inl both.2⟩⟩
    rintro (⟨same, maps | spills | spills⟩ | spills | spills)
    · exact ⟨same, maps⟩
    · exact absurd (.inr ⟨same, spills⟩) apart
    · exact absurd (.inr ⟨same.symm, spills⟩) apart'
    · exact absurd (.inl spills) apart
    · exact absurd (.inl spills) apart'

/-! ## The server's identity -/

/-- What the loop inserts is ordered. -/
theorem insertJson_ordered {props : List (String × Json)} {kv kv' : Props Cid}
    (ordered : ∀ e ∈ kv.entries, e.2.Ordered) (ran : insertJson kv props = .ok kv') :
    ∀ e ∈ kv'.entries, e.2.Ordered := by
  induction props generalizing kv with
  | nil =>
      cases ran
      exact ordered
  | cons p props ih =>
      obtain ⟨ipld, converted, ran⟩ := Exec.bind_eq_ok.mp ran
      refine ih (fun e m => ?_) ran
      rcases Entries.mem_insert m with rfl | old
      · exact (jsonToIpld_accepted converted).2
      · exact ordered e old

/-- The two loops over the same properties store what they derive from. -/
theorem storeJson_eq {props : List (String × Json)} {node : Node Cid} {kv : Props Cid}
    (ran : insertJson node.props props = .ok kv) :
    storeJson node props = .ok { node with props := kv } := by
  induction props generalizing node with
  | nil =>
      cases ran
      rfl
  | cons p props ih =>
      obtain ⟨ipld, converted, ran⟩ := Exec.bind_eq_ok.mp ran
      rw [storeJson, converted]
      refine ih ?_
      exact ran

theorem preimageHttp_eq_ok {label : String} {props : Option (List (String × Json))}
    {buf : List UInt8} : preimageHttp codec label props = .ok buf ↔
      ∃ kv, insertJson OrdMap.empty (props.getD []) = .ok kv ∧ preimage codec label kv = .ok buf := by
  unfold preimageHttp
  rw [Exec.bind_eq_ok]
  simp only [Exec.mapError_eq_ok]

/-- A deterministic node carries what its identifier is derived from. -/
theorem postNode_identity {fresh : NodeId} {allowLabels : Bool} {body : PostNodeBody}
    {n : Node Cid} (deterministic : body.deterministic = true)
    (ran : postNode pk fresh allowLabels body = .ok n) :
    n.ntype = postNodeLabel allowLabels body.label ∧
      insertJson OrdMap.empty (body.props.getD []) = .ok n.props ∧
        ∃ buf, preimage pk.cbor n.ntype n.props = .ok buf ∧ n.id = nodeIdOf pk buf := by
  obtain ⟨_, -, ran⟩ := Exec.bind_eq_ok.mp ran
  obtain ⟨_, -, ran⟩ := Exec.bind_eq_ok.mp ran
  obtain ⟨_, -, ran⟩ := Exec.bind_eq_ok.mp ran
  obtain ⟨_, -, ran⟩ := Exec.bind_eq_ok.mp ran
  obtain ⟨_, -, ran⟩ := Exec.bind_eq_ok.mp ran
  obtain ⟨nodeId, derived, ran⟩ := Exec.bind_eq_ok.mp ran
  obtain ⟨_, -, ran⟩ := Exec.bind_eq_ok.mp ran
  obtain ⟨node, stored, ran⟩ := Exec.bind_eq_ok.mp ran
  cases ran
  rw [postNodeId, if_pos deterministic, Exec.mapError_eq_ok, deriveDeterministicNodeIdHttp,
    Exec.bind_eq_ok] at derived
  obtain ⟨buf, hashed, same⟩ := derived
  cases same
  obtain ⟨kv, inserted, written⟩ := preimageHttp_eq_ok.mp hashed
  rw [storeJson_eq inserted] at stored
  cases stored
  exact ⟨rfl, inserted, buf, written, rfl⟩

/-! ## The command line's identity -/

theorem utf8_ofList (t : Utf8.Text) : utf8 (String.ofList t) = t.flatMap String.utf8EncodeChar := by
  rw [utf8, String.toUTF8_eq_toByteArray, String.toByteArray_ofList, List.utf8Encode,
    List.toList_data_toByteArray]

/-- An ASCII character that is not in a text is no byte of it. -/
theorem byte_not_mem {c : Char} (ascii : c.toNat < 0x80) {t : Utf8.Text} (absent : c ∉ t) :
    UInt8.ofNat c.toNat ∉ utf8 (String.ofList t) := by
  rw [utf8_ofList, List.mem_flatMap]
  rintro ⟨d, inText, byte⟩
  exact absent (Utf8.eq_of_mem_utf8EncodeChar ascii byte ▸ inText)

/-- A parsed property has no `=` in its key, and its value is ordered. -/
theorem parseProp_eq_ok {arg : String} {e : String × Ipld Cid} (ran : parseProp pk arg = .ok e) :
    0x3d ∉ utf8 e.1 ∧ e.2.Ordered := by
  unfold parseProp at ran
  split at ran
  · cases ran
  · rename_i k v split
    have clean : 0x3d ∉ utf8 (String.ofList k) :=
      byte_not_mem (c := '=') (by decide) (Utf8.not_mem_of_splitOnce split)
    split at ran
    · split at ran
      · rename_i converted
        cases ran
        exact ⟨clean, (jsonToIpld_accepted converted).2⟩
      · cases ran
    · cases ran
      exact ⟨clean, trivial⟩

theorem insertParsed_entries {props : List String} {kv kv' : Props Cid}
    (each : ∀ e ∈ kv.entries, 0x3d ∉ utf8 e.1 ∧ e.2.Ordered)
    (ran : insertParsed pk kv props = .ok kv') :
    ∀ e ∈ kv'.entries, 0x3d ∉ utf8 e.1 ∧ e.2.Ordered := by
  induction props generalizing kv with
  | nil =>
      cases ran
      exact each
  | cons raw props ih =>
      obtain ⟨p, parsed, ran⟩ := Exec.bind_eq_ok.mp ran
      refine ih (fun e m => ?_) ran
      rcases Entries.mem_insert m with rfl | old
      · exact parseProp_eq_ok parsed
      · exact each e old

theorem storeParsed_eq {props : List String} {node : Node Cid} {kv : Props Cid}
    (ran : insertParsed pk node.props props = .ok kv) :
    storeParsed pk node props = .ok { node with props := kv } := by
  induction props generalizing node with
  | nil =>
      cases ran
      rfl
  | cons raw props ih =>
      obtain ⟨p, parsed, ran⟩ := Exec.bind_eq_ok.mp ran
      rw [storeParsed, parsed]
      refine ih ?_
      exact ran

theorem preimageCli_eq_ok {a : NodeArgs} {buf : List UInt8} : preimageCli pk a = .ok buf ↔
    ∃ kv, insertParsed pk OrdMap.empty a.props = .ok kv ∧
      preimage pk.cbor a.derivedLabel kv = .ok buf := by
  unfold preimageCli
  rw [Exec.bind_eq_ok]
  simp only [Exec.mapError_eq_ok]

/-- The parsed properties, the last of each key. -/
theorem insertParsed_eq_ok {props : List String} {kv kv' : Props Cid} :
    insertParsed pk kv props = .ok kv' ↔
      ∃ ps, props.mapM (parseProp pk) = .ok ps ∧ kv' = kv.insertAll ps := by
  induction props generalizing kv with
  | nil =>
      rw [List.mapM_nil]
      constructor
      · intro ran
        cases ran
        exact ⟨[], rfl, rfl⟩
      · rintro ⟨ps, none, rfl⟩
        cases none
        rfl
  | cons raw props ih =>
      rw [List.mapM_cons, insertParsed, Exec.bind_eq_ok]
      constructor
      · rintro ⟨p, parsed, ran⟩
        obtain ⟨ps, others, rfl⟩ := ih.mp ran
        exact ⟨p :: ps, by rw [parsed, others]; rfl, rfl⟩
      · rintro ⟨all, parsed, rfl⟩
        obtain ⟨p, first, parsed⟩ := Exec.bind_eq_ok.mp parsed
        obtain ⟨ps, others, same⟩ := Exec.bind_eq_ok.mp parsed
        cases same
        exact ⟨p, first, ih.mpr ⟨ps, others, rfl⟩⟩

/-- A deterministic node carries the properties its identifier is derived from. -/
theorem addNode_identity {fresh : NodeId} {stdin : String} {a : NodeArgs} {n : Node Cid}
    (noId : a.id = none) (deterministic : a.deterministic = true)
    (ran : addNode pk fresh stdin a = .ok n) :
    n.ntype = a.storedLabel ∧ insertParsed pk OrdMap.empty a.props = .ok n.props ∧
      ∃ buf, preimage pk.cbor a.derivedLabel n.props = .ok buf ∧ n.id = nodeIdOf pk buf := by
  obtain ⟨_, -, ran⟩ := Exec.bind_eq_ok.mp ran
  obtain ⟨nodeId, derived, ran⟩ := Exec.bind_eq_ok.mp ran
  obtain ⟨node, stored, ran⟩ := Exec.bind_eq_ok.mp ran
  cases ran
  rw [addNodeId, noId, deterministic] at derived
  obtain ⟨buf, hashed, same⟩ := Exec.bind_eq_ok.mp derived
  cases same
  obtain ⟨kv, inserted, written⟩ := preimageCli_eq_ok.mp hashed
  rw [storeParsed_eq inserted] at stored
  cases stored
  exact ⟨rfl, inserted, buf, written, rfl⟩

/-- Only an empty label is stored as another one. -/
theorem storedLabel_eq_iff {a : NodeArgs} : a.storedLabel = a.derivedLabel ↔ a.label ≠ some "" := by
  rw [NodeArgs.storedLabel, NodeArgs.derivedLabel]
  cases a.label with
  | none => simp
  | some l =>
      by_cases empty : l = ""
      · simp [empty, defaultNtype]
      · simp [empty]

/-- Texts of the same properties are the same only if the labels are. -/
theorem label_of_preimage {label label' : String} {kv : Props Cid} {buf : List UInt8}
    (ran : preimage codec label kv = .ok buf) (ran' : preimage codec label' kv = .ok buf) :
    label = label' := by
  have same := (preimage_eq_ok ran).2.symm.trans (preimage_eq_ok ran').2
  rw [List.append_cancel_left_eq] at same
  exact utf8_injective (List.append_cancel_right same)

/-! ## Exactly one text for an identity -/

/-- A label without a NUL spills into no other. -/
theorem not_labelSpills {label label' : String} {kv kv' : Props Cid}
    (clean : '\x00' ∉ label'.toList) : ¬ LabelSpills codec label kv label' kv' := by
  have bytes := byte_not_mem (c := '\x00') (by decide) clean
  rw [String.ofList_toList] at bytes
  exact not_titleSpills_of_free bytes

/-- What the command line hashes tells the label and the properties apart, NULs in the label
aside. -/
theorem preimageCli_exact (own : OneItemEach pk.cbor) {a a' : NodeArgs}
    {ps ps' : List (String × Ipld Cid)} {buf buf' : List UInt8}
    (parsed : a.props.mapM (parseProp pk) = .ok ps)
    (parsed' : a'.props.mapM (parseProp pk) = .ok ps') (hashed : preimageCli pk a = .ok buf)
    (hashed' : preimageCli pk a' = .ok buf') :
    (buf = buf' ↔ a.derivedLabel = a'.derivedLabel ∧ OrdMap.ofList ps = OrdMap.ofList ps') ↔
      ¬ LabelSpills pk.cbor a.derivedLabel (OrdMap.ofList ps) a'.derivedLabel (OrdMap.ofList ps') ∧
      ¬ LabelSpills pk.cbor a'.derivedLabel (OrdMap.ofList ps') a.derivedLabel
        (OrdMap.ofList ps) := by
  have map : insertParsed pk OrdMap.empty a.props = .ok (OrdMap.ofList ps) :=
    insertParsed_eq_ok.mpr ⟨ps, parsed, rfl⟩
  have map' : insertParsed pk OrdMap.empty a'.props = .ok (OrdMap.ofList ps') :=
    insertParsed_eq_ok.mpr ⟨ps', parsed', rfl⟩
  obtain ⟨kv, inserted, written⟩ := preimageCli_eq_ok.mp hashed
  obtain ⟨kv', inserted', written'⟩ := preimageCli_eq_ok.mp hashed'
  cases inserted.symm.trans map
  cases inserted'.symm.trans map'
  have each := insertParsed_entries (by simp) inserted
  have each' := insertParsed_entries (by simp) inserted'
  have free : ¬ KeySpills pk.cbor (OrdMap.ofList ps) (OrdMap.ofList ps') :=
    not_spills_of_free fun e m => (each' e m).1
  have free' : ¬ KeySpills pk.cbor (OrdMap.ofList ps') (OrdMap.ofList ps) :=
    not_spills_of_free fun e m => (each e m).1
  refine (preimage_exact own (fun e m => (each e m).2) (fun e m => (each' e m).2) written
    written').trans (and_congr (not_congr ?_) (not_congr ?_))
  · exact or_iff_left fun h => free h.2
  · exact or_iff_left fun h => free' h.2

theorem preimageHttp_exact (own : OneItemEach pk.cbor) {label label' : String}
    {props props' : Option (List (String × Json))} {kv kv' : Props Cid} {buf buf' : List UInt8}
    (inserted : insertJson OrdMap.empty (props.getD []) = .ok kv)
    (inserted' : insertJson OrdMap.empty (props'.getD []) = .ok kv')
    (hashed : preimageHttp pk.cbor label props = .ok buf)
    (hashed' : preimageHttp pk.cbor label' props' = .ok buf') :
    (buf = buf' ↔ label = label' ∧ kv = kv') ↔
      ¬ Collides pk.cbor label kv label' kv' ∧ ¬ Collides pk.cbor label' kv' label kv := by
  obtain ⟨m, again, written⟩ := preimageHttp_eq_ok.mp hashed
  obtain ⟨m', again', written'⟩ := preimageHttp_eq_ok.mp hashed'
  cases again.symm.trans inserted
  cases again'.symm.trans inserted'
  exact preimage_exact own (insertJson_ordered (by simp) inserted)
    (insertJson_ordered (by simp) inserted') written written'

/-- A text identifies a label and properties exactly where no key or label can be read past its
separator; and an identifier is derived from what its node carries exactly where the command line
is not given an empty label. -/
theorem deterministic_ids_exact (pk : Packages Cid) (own : OneItemEach pk.cbor) :
    (∀ (label label' : String) (props props' : Option (List (String × Json))) (kv kv' : Props Cid)
      (buf buf' : List UInt8),
      insertJson OrdMap.empty (props.getD []) = .ok kv →
      insertJson OrdMap.empty (props'.getD []) = .ok kv' →
      preimageHttp pk.cbor label props = .ok buf → preimageHttp pk.cbor label' props' = .ok buf' →
      ((buf = buf' ↔ label = label' ∧ kv = kv') ↔
        ¬ Collides pk.cbor label kv label' kv' ∧ ¬ Collides pk.cbor label' kv' label kv)) ∧
    (∀ (a a' : NodeArgs) (ps ps' : List (String × Ipld Cid)) (buf buf' : List UInt8),
      a.props.mapM (parseProp pk) = .ok ps → a'.props.mapM (parseProp pk) = .ok ps' →
      preimageCli pk a = .ok buf → preimageCli pk a' = .ok buf' →
      ((buf = buf' ↔ a.derivedLabel = a'.derivedLabel ∧
          ∀ k, Entries.get? k ps.reverse = Entries.get? k ps'.reverse) ↔
        ¬ LabelSpills pk.cbor a.derivedLabel (OrdMap.ofList ps) a'.derivedLabel
            (OrdMap.ofList ps') ∧
        ¬ LabelSpills pk.cbor a'.derivedLabel (OrdMap.ofList ps') a.derivedLabel
            (OrdMap.ofList ps))) ∧
    (∀ (fresh : NodeId) (stdin : String) (a : NodeArgs) (n : Node Cid),
      a.id = none → a.deterministic = true → addNode pk fresh stdin a = .ok n →
      ∃ buf, preimageCli pk a = .ok buf ∧ n.id = nodeIdOf pk buf ∧
        (preimage pk.cbor n.ntype n.props = .ok buf ↔ a.label ≠ some "")) ∧
    (∀ (fresh : NodeId) (allowLabels : Bool) (body : PostNodeBody) (n : Node Cid),
      body.deterministic = true → postNode pk fresh allowLabels body = .ok n →
      ∃ buf, preimageHttp pk.cbor (postNodeLabel allowLabels body.label) body.props = .ok buf ∧
        n.id = nodeIdOf pk buf ∧ preimage pk.cbor n.ntype n.props = .ok buf) ∧
    ∀ (fresh fresh' : NodeId) (stdin : String) (allowLabels : Bool) (a : NodeArgs)
      (body : PostNodeBody) (n n' : Node Cid),
      a.id = none → a.deterministic = true → addNode pk fresh stdin a = .ok n →
      body.deterministic = true → postNode pk fresh' allowLabels body = .ok n' →
      n.ntype = n'.ntype → n.props = n'.props →
      ∃ buf buf', preimageCli pk a = .ok buf ∧
        preimageHttp pk.cbor (postNodeLabel allowLabels body.label) body.props = .ok buf' ∧
        n.id = nodeIdOf pk buf ∧ n'.id = nodeIdOf pk buf' ∧ (buf = buf' ↔ a.label ≠ some "") := by
  have cli : ∀ (fresh : NodeId) (stdin : String) (a : NodeArgs) (n : Node Cid),
      a.id = none → a.deterministic = true → addNode pk fresh stdin a = .ok n →
      ∃ buf, preimageCli pk a = .ok buf ∧ n.id = nodeIdOf pk buf ∧
        (preimage pk.cbor n.ntype n.props = .ok buf ↔ a.label ≠ some "") := by
    intro fresh stdin a n noId deterministic ran
    obtain ⟨ntype, inserted, buf, written, same⟩ := addNode_identity noId deterministic ran
    refine ⟨buf, preimageCli_eq_ok.mpr ⟨_, inserted, written⟩, same, ?_⟩
    rw [ntype, ← storedLabel_eq_iff]
    exact ⟨fun stored => label_of_preimage stored written, fun label => by rw [label, written]⟩
  have http : ∀ (fresh : NodeId) (allowLabels : Bool) (body : PostNodeBody) (n : Node Cid),
      body.deterministic = true → postNode pk fresh allowLabels body = .ok n →
      ∃ buf, preimageHttp pk.cbor (postNodeLabel allowLabels body.label) body.props = .ok buf ∧
        n.id = nodeIdOf pk buf ∧ preimage pk.cbor n.ntype n.props = .ok buf := by
    intro fresh allowLabels body n deterministic ran
    obtain ⟨ntype, inserted, buf, written, same⟩ := postNode_identity deterministic ran
    exact ⟨buf, preimageHttp_eq_ok.mpr ⟨_, inserted, ntype ▸ written⟩, same, written⟩
  refine ⟨fun _ _ _ _ _ _ _ _ => preimageHttp_exact own, ?_, cli, http, ?_⟩
  · intro a a' ps ps' buf buf' parsed parsed' hashed hashed'
    rw [← preimageCli_exact own parsed parsed' hashed hashed']
    have maps : OrdMap.ofList ps = OrdMap.ofList ps' ↔
        ∀ k, Entries.get? k ps.reverse = Entries.get? k ps'.reverse := by
      simp only [← OrdMap.get?_ofList]
      exact ⟨fun same k => by rw [same], OrdMap.ext⟩
    rw [maps]
  · intro fresh fresh' stdin allowLabels a body n n' noId deterministic added deterministic' posted
      ntype props
    obtain ⟨buf, hashed, id, carried⟩ := cli fresh stdin a n noId deterministic added
    obtain ⟨buf', hashed', id', written⟩ := http fresh' allowLabels body n' deterministic' posted
    refine ⟨buf, buf', hashed, hashed', id, id', ?_⟩
    rw [← carried, ntype, props, written, Except.ok.injEq]
    exact eq_comm

/-! ## Some identities -/

section Texts

open Transport.Fragment

/-- DAG-CBOR for strings. -/
def encodeText : Ipld Cid → Except String (List UInt8)
  | .string s => if s.utf8ByteSize < 2 ^ 64 then .ok (textBytes s) else .error "too long"
  | _ => .error "not a string"

def decodeText (bytes : List UInt8) : Except String (Ipld Cid) :=
  match readHead bytes with
  | some (3, size, rest) =>
      if rest.length = size then
        match String.fromUTF8? ⟨rest.toArray⟩ with
        | some s => .ok (.string s)
        | none => .error "not UTF-8"
      else .error "trailing bytes"
  | _ => .error "not a string"

theorem encodeText_eq_ok {v : Ipld Cid} {bytes : List UInt8} (written : encodeText v = .ok bytes) :
    ∃ s, v = .string s ∧ s.utf8ByteSize < 2 ^ 64 ∧ bytes = textBytes s := by
  cases v with
  | string s =>
      rw [encodeText] at written
      split at written
      · cases written
        exact ⟨s, rfl, ‹_›, rfl⟩
      · cases written
  | _ => cases written

theorem decodeText_textBytes {s : String} (small : s.utf8ByteSize < 2 ^ 64) :
    decodeText (textBytes s) = .ok (.string s : Ipld Cid) := by
  have bytes : (⟨(s.toUTF8.data.toList).toArray⟩ : ByteArray) = s.toByteArray := by simp
  have length : s.toUTF8.data.toList.length = s.utf8ByteSize := rfl
  rw [decodeText, textBytes, readHead_head (by omega) small]
  refine (if_pos length).trans ?_
  rw [bytes, String.fromUTF8?, dif_pos s.isValidUTF8]
  rfl

/-- The strings of DAG-CBOR. -/
def textCodec (Cid : Type) : DagCbor Cid where
  encode := encodeText
  decode := decodeText
  decode_encode := by
    intro v bytes _ written
    obtain ⟨s, rfl, small, rfl⟩ := encodeText_eq_ok written
    exact .inl (decodeText_textBytes small)

theorem textCodec_oneItemEach : OneItemEach (textCodec Cid) := by
  rintro v w x y ⟨-, bytes, written⟩ ⟨-, bytes', written'⟩ same
  rw [item_of_encode written, item_of_encode written'] at same
  obtain ⟨s, rfl, small, rfl⟩ := encodeText_eq_ok written
  obtain ⟨t, rfl, small', rfl⟩ := encodeText_eq_ok written'
  rw [textBytes, textBytes, List.append_assoc, List.append_assoc] at same
  have heads := congrArg readHead same
  rw [readHead_head (by omega) small, readHead_head (by omega) small'] at heads
  simp only [Option.some.injEq, Prod.mk.injEq, true_and] at heads
  have sizes : s.toUTF8.data.toList.length = t.toUTF8.data.toList.length := heads.1
  obtain ⟨texts, rest⟩ := List.append_inj heads.2 sizes
  exact ⟨congrArg _ (utf8_injective texts), rest⟩

/-- Values that are no JSON. -/
def textPackages (Cid : Type) : Packages Cid where
  cbor := textCodec Cid
  blake3_256 := digest []
  length_blake3_256 := length_digest_nil
  parseJson _ := none
  parseUuid _ := .error "invalid UUID"

/-- `mnem add node --deterministic --label Person --prop name=Alice --prop city=Berlin`. -/
def aliceArgs : NodeArgs :=
  { label := some "Person", props := ["name=Alice", "city=Berlin"], deterministic := true }

/-- The same node over HTTP. -/
def aliceBody : PostNodeBody :=
  { label := "Person", author := some "ada", deterministic := true,
    props := some [("city", .string "Berlin"), ("name", .string "Alice")] }

/-- The two nodes get one identifier. -/
theorem deterministic_ids_exact_alice : ∃ n n' : Node Unit,
    addNode (textPackages Unit) 0 "" aliceArgs = .ok n ∧
      postNode (textPackages Unit) 0 true aliceBody = .ok n' ∧ n.ntype = "Person" ∧
      n.props = n'.props ∧ n.id = n'.id := by
  obtain ⟨n, added, ntype, props⟩ : ∃ n : Node Unit,
      addNode (textPackages Unit) 0 "" aliceArgs = .ok n ∧ n.ntype = "Person" ∧
        n.props = (OrdMap.empty.insert "city" (.string "Berlin")).insert "name" (.string "Alice") :=
    ⟨_, rfl, rfl, rfl⟩
  obtain ⟨n', posted, ntype', props'⟩ : ∃ n' : Node Unit,
      postNode (textPackages Unit) 0 true aliceBody = .ok n' ∧ n'.ntype = "Person" ∧
        n'.props = (OrdMap.empty.insert "city" (.string "Berlin")).insert "name" (.string "Alice") :=
    ⟨_, rfl, rfl, rfl⟩
  obtain ⟨buf, buf', -, -, id, id', same⟩ :=
    (deterministic_ids_exact (textPackages Unit) textCodec_oneItemEach).2.2.2.2 0 0 "" true
      aliceArgs aliceBody n n' rfl rfl added rfl posted (ntype.trans ntype'.symm)
      (props.trans props'.symm)
  have nonempty : aliceArgs.label ≠ some "" := by decide
  exact ⟨n, n', added, posted, ntype, props.trans props'.symm,
    by rw [id, id', same.mpr nonempty]⟩

/-- `{"a": "=ab"}` and `{"a=c": "b"}` are both hashed as `a=c=ab` and a NUL; and with `--label ""`
a node is stored like the server's but derived from another text. -/
theorem identities_collide :
    (∃ (codec : DagCbor Unit) (props props' : Option (List (String × Json))) (kv kv' : Props Unit)
      (buf : List UInt8), OneItemEach codec ∧
      insertJson OrdMap.empty (props.getD []) = .ok kv ∧
      insertJson OrdMap.empty (props'.getD []) = .ok kv' ∧
      preimageHttp codec "Node" props = .ok buf ∧ preimageHttp codec "Node" props' = .ok buf ∧
      kv ≠ kv') ∧
    ∃ (a : NodeArgs) (body : PostNodeBody) (n n' : Node Unit) (buf buf' : List UInt8),
      addNode (textPackages Unit) 0 "" a = .ok n ∧
      postNode (textPackages Unit) 0 true body = .ok n' ∧
      n.ntype = n'.ntype ∧ n.props = n'.props ∧
      preimageCli (textPackages Unit) a = .ok buf ∧
      preimageHttp (textPackages Unit).cbor (postNodeLabel true body.label) body.props = .ok buf' ∧
      buf ≠ buf' := by
  refine ⟨⟨textCodec Unit, some [("a", .string "=ab")], some [("a=c", .string "b")],
    OrdMap.empty.insert "a" (.string "=ab"), OrdMap.empty.insert "a=c" (.string "b"),
    domain ++ utf8 "Node" ++ [0] ++ utf8 "a" ++ [0x3d] ++ textBytes "=ab" ++ [0],
    textCodec_oneItemEach, rfl, rfl, rfl, ?_, ?_⟩,
    { label := some "", deterministic := true }, { author := some "ada", deterministic := true },
    _, _, domain ++ [0], domain ++ utf8 "Node" ++ [0], rfl, rfl, rfl, rfl, rfl, rfl, by decide⟩
  · exact congrArg Except.ok (by decide)
  · intro same
    have keys := congrArg (fun m : Props Unit => m.entries.map Prod.fst) same
    revert keys
    decide

end Texts

end Mnem.NodeIdentity
