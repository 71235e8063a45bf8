/-
# Http.BlockImport — `POST /v1/import`

The handler reads a body of lines, each an identifier and the block's bytes in
hexadecimal.  A line that is malformed, or whose bytes do not hash to its
identifier, is reported and skipped; the others are stored.  It then moves the
head to the newest commit among what it stored, by the time the commit itself
gives, without looking at the head that is there or at what the commit refers
to.

What the blocks are concerned the import is safe unless a line brings other
bytes for a stored identifier whose hash is unknown; for the head it is safe
exactly when the newest commit happens to be complete and to descend from the
head before it (`postImport_safe_iff`).
-/
import Mnem.Transport.Import
import Mnem.Transport.Export
import Mnem.Codec.Format
import Mnem.Theory.Latest
import Mnem.Theory.Utf8

namespace Mnem.Http

open Theory Theory.Utf8 Transport

set_option autoImplicit false

/-- What the handler takes from other packages, beside the formats. -/
structure Packages where
  formats : Formats
  /-- `serde_json::from_str` -/
  parseJson : Text → Except String Codec.Json
  /-- `Cid::parse_str` -/
  parseCid : String → Except String Cid
  /-- The text form of an identifier. -/
  cidText : Cid → String

/-! ## Requests -/

/-- The content type, empty where the header is not visible ASCII, and the body's text, or what is
wrong with its UTF-8. -/
structure ImportRequest where
  contentType : Option Text := none
  body : Except String Text

structure LineError where
  line : Nat
  cid : Option String := none
  error : String
  deriving DecidableEq

inductive MoveError where
  | encode (message : String)
  | notFound (cid : Cid)
  | decode (cid : Cid)

inductive ImportFailure where
  | unsupportedMediaType (message : String)
  | badRequest (message : String)
  | internal (cause : MoveError)

/-- The content type without its parameters. -/
def mediaType (header : Text) : Text := trim ((trim header).takeWhile (· ≠ ';'))

def accepts (media : Text) : Bool :=
  media = "application/x-ndjson".toList ∨ media = "text/plain".toList

def refusal (media : Text) : String :=
  "unsupported Content-Type '" ++ String.ofList media ++
    "'; expected application/x-ndjson or text/plain"

/-- The text of a request that is not refused. -/
def ImportRequest.text (request : ImportRequest) : Except ImportFailure Text :=
  let media := request.contentType.map mediaType
  match media.filter fun m => !accepts m with
  | some media => .error (.unsupportedMediaType (refusal media))
  | none =>
      match request.body with
      | .ok text => .ok text
      | .error e => .error (.badRequest ("request body is not valid UTF-8: " ++ e))

/-! ## Lines -/

/-- `str::lines`, `line` being the one under way, backwards. -/
def linesFrom : Text → Text → List Text
  | line, [] => if line = [] then [] else [line.reverse]
  | line, '\n' :: t =>
      (match line with
        | '\r' :: line => line.reverse
        | line => line.reverse) :: linesFrom [] t
  | line, c :: t => linesFrom (c :: line) t

def lines (t : Text) : List Text := linesFrom [] t

/-- A field of an object, if it is a string. -/
def stringField (name : String) : Codec.Json → Option String
  | .object kvs =>
      match Entries.get? name kvs with
      | some (.string s) => some s
      | _ => none
  | _ => none

/-- `char::to_digit` at base sixteen. -/
def hexDigit (b : UInt8) : Option Nat :=
  if 0x30 ≤ b.toNat ∧ b.toNat ≤ 0x39 then some (b.toNat - 0x30)
  else if 0x41 ≤ b.toNat ∧ b.toNat ≤ 0x46 then some (b.toNat - 0x41 + 10)
  else if 0x61 ≤ b.toNat ∧ b.toNat ≤ 0x66 then some (b.toNat - 0x61 + 10)
  else none

/-- Two digits a byte. -/
def hexBytes : Bytes → Option Bytes
  | high :: low :: rest => do
      let h ← hexDigit high
      let l ← hexDigit low
      let raw ← hexBytes rest
      return UInt8.ofNat (h * 16 + l) :: raw
  | _ => some []

/-- A digit as `{:02x}` writes it. -/
def digit (n : Nat) : Char := Char.ofNat (if n < 10 then 0x30 + n else 0x57 + n)

/-- The digits of a block in `GET /v1/export`. -/
def hexText (data : Bytes) : Text := data.flatMap fun b => [digit (b.toNat / 16), digit (b.toNat % 16)]

/-- A line of `GET /v1/export`. -/
def exportLine (cidText : String) (data : Bytes) : Text :=
  "\x7b\"cid\":\"".toList ++ (cidText.toList ++ ("\",\"hex\":\"".toList ++ (hexText data ++
    "\"\x7d".toList)))

section Digits

theorem utf8_ofList (t : Text) :
    (String.ofList t).toUTF8.data.toList = t.flatMap String.utf8EncodeChar := by
  rw [String.toUTF8_eq_toByteArray, String.toByteArray_ofList, List.utf8Encode,
    List.toList_data_toByteArray]

/-- A digit is one byte, and read back. -/
theorem hexDigit_digit : ∀ n < 16, ∃ b, String.utf8EncodeChar (digit n) = [b] ∧ hexDigit b = some n := by
  have bytes : ∀ n < 16, String.utf8EncodeChar (digit n) = [UInt8.ofNat (digit n).toNat] ∧
      hexDigit (UInt8.ofNat (digit n).toNat) = some n := by
    decide
  exact fun n low => ⟨_, bytes n low⟩

/-- What the export writes the import reads. -/
theorem hexBytes_hexText (data : Bytes) :
    hexBytes (String.ofList (hexText data)).toUTF8.data.toList = some data ∧
      (String.ofList (hexText data)).toUTF8.data.toList.length = 2 * data.length := by
  rw [utf8_ofList]
  induction data with
  | nil => exact ⟨rfl, rfl⟩
  | cons b data ih =>
      obtain ⟨high, one, reads⟩ := hexDigit_digit (b.toNat / 16) (by have := b.toNat_lt; omega)
      obtain ⟨low, one', reads'⟩ := hexDigit_digit (b.toNat % 16) (by omega)
      have step : (hexText (b :: data)).flatMap String.utf8EncodeChar =
          high :: low :: (hexText data).flatMap String.utf8EncodeChar := by
        simp [hexText, one, one']
      rw [step]
      refine ⟨?_, by rw [List.length_cons, List.length_cons, ih.2, List.length_cons]; omega⟩
      have whole : b.toNat / 16 * 16 + b.toNat % 16 = b.toNat := by omega
      rw [hexBytes, reads, reads', ih.1]
      show some (UInt8.ofNat (b.toNat / 16 * 16 + b.toNat % 16) :: data) = _
      rw [whole, UInt8.ofNat_toNat]

end Digits

def orFail {ε α : Type} (found : Option α) (e : ε) : Except ε α :=
  match found with
  | some a => .ok a
  | none => .error e

/-- The block of a line, and the identifier as the line writes it. -/
structure Line where
  cidStr : String
  claimed : Cid
  data : Bytes

/-- One line that is not empty: the block it brings, or what is wrong with it. -/
def readLine (P : Packages) (number : Nat) (line : Text) : Except LineError Line := do
  let obj ← (P.parseJson line).mapError fun e => ⟨number, none, "JSON parse error: " ++ e⟩
  let cidStr ← orFail (stringField "cid" obj)
    ⟨number, none, "missing or non-string \"cid\" field"⟩
  let hexStr ← orFail (stringField "hex" obj)
    ⟨number, none, "missing or non-string \"hex\" field"⟩
  let claimed ← (P.parseCid cidStr).mapError fun e => ⟨number, some cidStr, "invalid CID: " ++ e⟩
  let hex := hexStr.toUTF8.data.toList
  if hex.length % 2 ≠ 0 then .error ⟨number, some cidStr, "hex string has odd length"⟩
  else do
    let data ← orFail (hexBytes hex) ⟨number, some cidStr, "invalid hex character"⟩
    match recomputeCid P.formats claimed data with
    | none => .ok ⟨cidStr, claimed, data⟩
    | some computed =>
        if computed ≠ claimed then
          .error ⟨number, some cidStr, "CID mismatch: claimed " ++ P.cidText claimed ++
            " but data hashes to " ++ P.cidText computed⟩
        else .ok ⟨cidStr, claimed, data⟩

/-! ## Blocks -/

/-- `Blockstore::put`: what is at the identifier is replaced; an unknown hash is trusted. -/
def put (P : Packages) (bs : Blockstore) (cid : Cid) (data : Bytes) : Except String Blockstore :=
  match recomputeCid P.formats cid data with
  | none => .ok (bs.putTrusted cid data)
  | some computed =>
      if computed ≠ cid then
        .error ("cid mismatch: claimed " ++ P.cidText cid ++ ", computed " ++ P.cidText computed)
      else .ok (bs.putTrusted cid data)

/-- What the loop has stored and reported. -/
structure Progress where
  blocks : Blockstore
  imported : List Cid := []
  errors : List LineError := []

def importLine (P : Packages) (acc : Progress) (entry : Text × Nat) : Progress :=
  let line := trim entry.1
  if line = [] then acc
  else
    match readLine P entry.2 line with
    | .error e => { acc with errors := acc.errors ++ [e] }
    | .ok line =>
        match put P acc.blocks line.claimed line.data with
        | .ok blocks => { acc with blocks := blocks, imported := acc.imported ++ [line.claimed] }
        | .error e => { acc with
            errors := acc.errors ++ [⟨entry.2, some line.cidStr, "blockstore write: " ++ e⟩] }

def importLines (P : Packages) (bs : Blockstore) (text : Text) : Progress :=
  ((lines text).zipIdx 1).foldl (importLine P) { blocks := bs }

/-- The time of a map whose `_kind` is `commit`; zero where it gives no 64-bit time. -/
def commitTime (F : Formats) (data : Bytes) : Option Nat :=
  match F.cbor.decode data with
  | .ok (.map kvs) =>
      match Entries.get? "_kind" kvs with
      | some (.string kind) =>
          if kind ≠ "commit" then none
          else
            match Entries.get? "time" kvs with
            | some (.integer n) => some (if 0 ≤ n ∧ n < 2 ^ 64 then n.toNat else 0)
            | _ => some 0
      | _ => none
  | _ => none

/-- The commit with the greatest time among what was imported. -/
def bestCommit (F : Formats) (bs : Blockstore) (imported : List Cid) : Option Cid :=
  latest (fun cid => (bs.get cid).bind (commitTime F)) imported

/-! ## The server -/

/-- An operation and its view. -/
structure Head where
  opId : Cid
  view : Objects.View Cid

/-- The stores, the repository behind the mutex, and the operations written so far, newest
first. -/
structure Server where
  blocks : Blockstore
  opHeads : List Cid
  held : Head
  log : List Head := []

/-- `hash_to_cid`: the encoding of an object, and its identifier. -/
def hashToCid (F : Formats) (v : Ipld Cid) : Except String (Cid × Bytes) := do
  let bytes ← F.cbor.encode v
  return (.v1 codecDagCbor ⟨hashSha2256, F.sha2_256 bytes, F.length_sha2_256_le bytes⟩, bytes)

theorem commitTime_of_decode {F : Formats} {data : Bytes} {kvs : List (String × Ipld Cid)} {time : UInt64}
    (decoded : F.cbor.decode data = .ok (.map kvs))
    (kind : Entries.get? "_kind" kvs = some (.string "commit"))
    (timed : Entries.get? "time" kvs = some (.integer time.toNat)) :
    commitTime F data = some time.toNat := by
  have low := time.toNat_lt
  unfold commitTime
  rw [decoded]
  dsimp only
  rw [kind, timed]
  dsimp only
  rw [if_neg (not_not.mpr rfl), if_pos (by omega)]
  rfl

/-- `from_canonical_bytes::<Commit>` of a stored block. -/
def loadCommit (F : Formats) (bs : Blockstore) (cid : Cid) :
    Except MoveError (Objects.Commit Cid) :=
  match bs.get cid with
  | none => .error (.notFound cid)
  | some data =>
      match F.cbor.decode data with
      | .ok (.map kvs) =>
          match Format.commit.deserialize (OrdMap.ofList kvs) with
          | .ok commit => .ok commit
          | .error _ => .error (.decode cid)
      | _ => .error (.decode cid)

/-- The view with another head. -/
def moved (view : Objects.View Cid) (newHead : Cid) : Objects.View Cid :=
  { view with heads := [newHead] }

def viewBlock (F : Formats) (view : Objects.View Cid) : Except String (Cid × Bytes) :=
  hashToCid F (.map (Format.view.serialize view).entries)

def operationBlock (P : Packages) (server : Server) (view newHead : Cid) (author : String)
    (now : Nat) : Except String (Cid × Bytes) :=
  hashToCid P.formats (Block.wire (.operation
    { parents := [server.held.opId], view := view, author := author, time := now,
      description := "update_heads: " ++ P.cidText newHead }))

/-- `ReadonlyRepo::update_heads`.  What it has just written it reads back, so only the new head
can fail to load; by then the operation is the head. -/
def updateHeads (P : Packages) (server : Server) (newHead : Cid) (author : String) (now : Nat) :
    Except MoveError Head × Server :=
  match viewBlock P.formats (moved server.held.view newHead) with
  | .error e => (.error (.encode e), server)
  | .ok view =>
      let blocks := server.blocks.putTrusted view.1 view.2
      match operationBlock P server view.1 newHead author now with
      | .error e => (.error (.encode e), { server with blocks := blocks })
      | .ok op =>
          let blocks := blocks.putTrusted op.1 op.2
          let head : Head := ⟨op.1, moved server.held.view newHead⟩
          let server := { server with
            blocks := blocks
            opHeads := (server.opHeads.insert op.1).filter (· ≠ server.held.opId)
            log := head :: server.log }
          match loadCommit P.formats blocks newHead with
          | .error e => (.error e, server)
          | .ok _ => (.ok head, server)

structure ImportReport where
  imported : Nat
  errors : List LineError
  ok : Bool
  headAdvanced : Bool
  newHead : Option String

/-- `post_import`. -/
def postImport (P : Packages) (server : Server) (request : ImportRequest) (now : Nat) :
    Except ImportFailure ImportReport × Server :=
  match request.text with
  | .error e => (.error e, server)
  | .ok text =>
      let progress := importLines P server.blocks text
      let server := { server with blocks := progress.blocks }
      match bestCommit P.formats progress.blocks progress.imported with
      | none =>
          (.ok ⟨progress.imported.length, progress.errors, progress.errors.isEmpty, false, none⟩, server)
      | some commit =>
          match updateHeads P server commit "mnem-http" now with
          | (.error e, server) => (.error (.internal e), server)
          | (.ok held, server) =>
              (.ok ⟨progress.imported.length, progress.errors, progress.errors.isEmpty, true,
                some (P.cidText commit)⟩, { server with held := held })

/-! ## What the lines leave -/

section Lines

variable {P : Packages}

/-- The block of a line that is accepted. -/
def acceptedLine (P : Packages) (entry : Text × Nat) : Option (Cid × Bytes) :=
  if trim entry.1 = [] then none
  else
    match readLine P entry.2 (trim entry.1) with
    | .ok line => some (line.claimed, line.data)
    | .error _ => none

/-- The blocks of the lines that are accepted, in their order. -/
def accepted (P : Packages) (text : Text) : List (Cid × Bytes) :=
  ((lines text).zipIdx 1).filterMap (acceptedLine P)

theorem accepted_of_line {text line : Text} {l : Line} (one : lines text = [line])
    (trimmed : trim line = line) (full : line ≠ []) (read : readLine P 1 line = .ok l) :
    accepted P text = [(l.claimed, l.data)] := by
  have taken : acceptedLine P (line, 1) = some (l.claimed, l.data) := by
    unfold acceptedLine
    dsimp only
    rw [trimmed, if_neg full, read]
  rw [accepted, one, List.zipIdx_cons, List.zipIdx_nil, List.filterMap_cons_some taken,
    List.filterMap_nil]

theorem readLine_hashed {number : Nat} {line : Text} {l : Line} {computed : Cid}
    (read : readLine P number line = .ok l)
    (known : recomputeCid P.formats l.claimed l.data = some computed) : computed = l.claimed := by
  unfold readLine at read
  obtain ⟨obj, -, read⟩ := Exec.bind_eq_ok.mp read
  obtain ⟨cidStr, -, read⟩ := Exec.bind_eq_ok.mp read
  obtain ⟨hexStr, -, read⟩ := Exec.bind_eq_ok.mp read
  obtain ⟨claimed, -, read⟩ := Exec.bind_eq_ok.mp read
  dsimp only at read
  split at read
  · cases read
  · obtain ⟨data, -, read⟩ := Exec.bind_eq_ok.mp read
    split at read
    · rename_i unknown
      cases read
      rw [unknown] at known
      cases known
    · rename_i c found
      split at read
      · cases read
      · rename_i same
        cases read
        rw [found] at known
        obtain rfl := Option.some.inj known
        exact not_not.mp same

/-- A line as the export writes it is read back. -/
theorem readLine_exported {number : Nat} {line : Text} {cidStr : String} {claimed : Cid} {data : Bytes}
    (parsed : P.parseJson line = .ok (.object [("cid", .string cidStr),
      ("hex", .string (String.ofList (hexText data)))]))
    (named : P.parseCid cidStr = .ok claimed)
    (hashed : ∀ c, recomputeCid P.formats claimed data = some c → c = claimed) :
    readLine P number line = .ok ⟨cidStr, claimed, data⟩ := by
  obtain ⟨digits, size⟩ := hexBytes_hexText data
  have even : ¬ (String.ofList (hexText data)).toUTF8.data.toList.length % 2 ≠ 0 := by omega
  unfold readLine
  rw [parsed]
  show Except.bind ((P.parseCid cidStr).mapError fun e =>
    (⟨number, some cidStr, "invalid CID: " ++ e⟩ : LineError)) _ = _
  rw [named]
  show (if _ then _ else _) = _
  rw [if_neg even, digits]
  show (match recomputeCid P.formats claimed data with
    | none => _
    | some computed => _) = _
  cases known : recomputeCid P.formats claimed data with
  | none => rfl
  | some c => exact if_neg (not_not.mpr (hashed c known))

/-- The store accepts what the handler has checked. -/
theorem put_of_hashed {bs : Blockstore} {cid : Cid} {data : Bytes}
    (hashed : ∀ c, recomputeCid P.formats cid data = some c → c = cid) :
    put P bs cid data = .ok (bs.putTrusted cid data) := by
  unfold put
  split
  · rfl
  · rename_i c found
    rw [if_neg (not_not.mpr (hashed c found))]

theorem importLine_cases (acc : Progress) (entry : Text × Nat) :
    (acceptedLine P entry = none ∧ (importLine P acc entry).blocks = acc.blocks ∧
        (importLine P acc entry).imported = acc.imported) ∨
      ∃ cid data, acceptedLine P entry = some (cid, data) ∧
        (∀ c, recomputeCid P.formats cid data = some c → c = cid) ∧
        importLine P acc entry = { acc with
          blocks := acc.blocks.putTrusted cid data, imported := acc.imported ++ [cid] } := by
  unfold acceptedLine importLine
  dsimp only
  by_cases blank : trim entry.1 = []
  · rw [if_pos blank, if_pos blank]
    exact .inl ⟨rfl, rfl, rfl⟩
  · rw [if_neg blank, if_neg blank]
    cases read : readLine P entry.2 (trim entry.1) with
    | error e => exact .inl ⟨rfl, rfl, rfl⟩
    | ok line =>
        have hashed : ∀ c, recomputeCid P.formats line.claimed line.data = some c →
            c = line.claimed := fun c known => readLine_hashed read known
        refine .inr ⟨_, _, rfl, hashed, ?_⟩
        dsimp only
        rw [put_of_hashed hashed]

/-- The loop stores exactly the accepted blocks. -/
theorem importLines_eq (bs : Blockstore) (text : Text) :
    (importLines P bs text).blocks.blocks = (accepted P text).reverse ++ bs.blocks ∧
      (importLines P bs text).imported = (accepted P text).map Prod.fst := by
  suffices loop : ∀ (entries : List (Text × Nat)) (acc : Progress),
      (entries.foldl (importLine P) acc).blocks.blocks =
          (entries.filterMap (acceptedLine P)).reverse ++ acc.blocks.blocks ∧
        (entries.foldl (importLine P) acc).imported =
          acc.imported ++ (entries.filterMap (acceptedLine P)).map Prod.fst from
    loop ((lines text).zipIdx 1) { blocks := bs }
  intro entries
  induction entries with
  | nil => exact fun acc => ⟨rfl, (List.append_nil _).symm⟩
  | cons entry entries ih =>
      intro acc
      rw [List.foldl_cons]
      obtain ⟨blocks, imported⟩ := ih (importLine P acc entry)
      rw [blocks, imported]
      rcases importLine_cases acc entry with ⟨refused, same, same'⟩ | ⟨cid, data, taken, -, step⟩
      · rw [same, same', List.filterMap_cons_none refused]
        exact ⟨rfl, rfl⟩
      · rw [step, List.filterMap_cons_some taken]
        simp [Blockstore.putTrusted]

/-- An accepted block hashes to its identifier, if the hash is known. -/
theorem accepted_hashed {text : Text} {e : Cid × Bytes} (member : e ∈ accepted P text) {c : Cid}
    (known : recomputeCid P.formats e.1 e.2 = some c) : c = e.1 := by
  obtain ⟨entry, -, taken⟩ := List.mem_filterMap.mp member
  rcases importLine_cases (P := P) { blocks := {} } entry with ⟨refused, -⟩ | ⟨cid, data, same, hashed, -⟩
  · rw [refused] at taken
    cases taken
  · obtain rfl := Option.some.inj (same.symm.trans taken)
    exact hashed c known

end Lines

/-! ## When an import is safe -/

/-- The accepted commit with the greatest time, the first of several; a time is read from the bytes
that were accepted last for the identifier. -/
def newest (P : Packages) (text : Text) : Option Cid :=
  latest (fun cid => (Entries.get? cid (accepted P text).reverse).bind (commitTime P.formats))
    ((accepted P text).map Prod.fst)

/-- The store with the accepted blocks and then, newest first, with `added`. -/
def stored (P : Packages) (server : Server) (text : Text) (added : List (Cid × Bytes)) : Blockstore :=
  { blocks := added ++ ((accepted P text).reverse ++ server.blocks.blocks) }

/-- The block at `a` is a commit, and `b` is a parent of it. -/
def ParentAt (P : Packages) (bs : Blockstore) (a b : Cid) : Prop :=
  ∃ commit, loadCommit P.formats bs a = .ok commit ∧ b ∈ commit.parents

/-- All that `c` reaches is stored, and the previous head is `c` or an ancestor of it. -/
structure FitHead (P : Packages) (bs : Blockstore) (previous : Option Cid) (c : Cid) : Prop where
  complete : ∀ x, Blockstore.Reaches P.formats bs c x → (bs.get x).isSome
  descends : ∀ p ∈ previous, Relation.ReflTransGen (ParentAt P bs) c p

/-- New blocks hash to their identifiers, blocks that were there are unchanged, and the view that is
held and those of the operations written either are the view from before or have a fit head. -/
structure HeadSafe (P : Packages) (before after : Server) : Prop where
  added : ∀ cid data computed, before.blocks.get cid = none → after.blocks.get cid = some data →
    recomputeCid P.formats cid data = some computed → computed = cid
  unchanged : ∀ cid data, before.blocks.get cid = some data → after.blocks.get cid = some data
  view : ∃ written, after.log = written ++ before.log ∧ ∀ h ∈ after.held :: written,
    h.view = before.held.view ∨
      ∃ c, h.view.heads = [c] ∧ FitHead P after.blocks before.held.view.heads.head? c

/-- No other bytes come for a stored identifier whose hash is unknown; and if the newest commit is
not the head already, and the view and the operation of the move have encodings, it is fit to be. -/
structure Harmless (P : Packages) (server : Server) (text : Text) (now : Nat) : Prop where
  verified : ∀ cid old data, server.blocks.get cid = some old →
    recomputeCid P.formats cid old = none →
    Entries.get? cid (accepted P text).reverse = some data → data = old
  head : ∀ c view op, newest P text = some c →
    viewBlock P.formats (moved server.held.view c) = .ok view →
    operationBlock P server view.1 c "mnem-http" now = .ok op →
    server.held.view.heads = [c] ∨
      FitHead P (stored P server text [op, view]) server.held.view.heads.head? c

section Safety

variable {P : Packages} {server : Server} {text : Text} {now : Nat}

theorem get_stored (added : List (Cid × Bytes)) (cid : Cid) :
    (stored P server text added).get cid =
      (Entries.get? cid added).or ((Entries.get? cid (accepted P text).reverse).or
        (server.blocks.get cid)) := by
  rw [stored, Blockstore.get, Entries.get?_append, Entries.get?_append]
  rfl

theorem importLines_stored (P : Packages) (server : Server) (text : Text) :
    (importLines P server.blocks text).blocks = stored P server text [] := by
  rw [stored, List.nil_append, ← (importLines_eq server.blocks text).1]

theorem newest_of_single {cid : Cid} {data : Bytes} {t : Nat} (one : accepted P text = [(cid, data)])
    (timed : commitTime P.formats data = some t) : newest P text = some cid := by
  have found : (Entries.get? cid [(cid, data)].reverse).bind (commitTime P.formats) = some t := by
    rw [List.reverse_singleton, Entries.get?_cons, if_pos rfl]
    exact timed
  have first := @later_first Cid (fun c => (Entries.get? c [(cid, data)].reverse).bind
    (commitTime P.formats)) cid t found
  unfold newest latest
  rw [one]
  exact congrArg (Option.map Prod.snd) first

/-- The head is chosen among the accepted blocks by the bytes accepted for them. -/
theorem bestCommit_eq_newest (P : Packages) (server : Server) (text : Text) :
    bestCommit P.formats (importLines P server.blocks text).blocks
      (importLines P server.blocks text).imported = newest P text := by
  rw [importLines_stored, (importLines_eq server.blocks text).2]
  refine latest_congr fun cid member => ?_
  have present : (Entries.get? cid (accepted P text).reverse).isSome := by
    rw [Entries.get?_isSome_iff]
    simpa using member
  obtain ⟨data, found⟩ := Option.isSome_iff_exists.mp present
  rw [get_stored, found]
  rfl

/-- An object is stored at its hash. -/
theorem hashToCid_hashed {F : Formats} {v : Ipld Cid} {block : Cid × Bytes}
    (ran : hashToCid F v = .ok block) : recomputeCid F block.1 block.2 = some block.1 := by
  unfold hashToCid at ran
  obtain ⟨bytes, -, ran⟩ := Exec.bind_eq_ok.mp ran
  cases ran
  rfl

/-- What the call leaves: the accepted blocks are stored, with up to two that hash to their
identifiers; and either no operation is written, or the one that moves the head is. -/
theorem postImport_cases (P : Packages) (server : Server) (request : ImportRequest) (now : Nat)
    (read : request.text = .ok text) :
    ∃ added, (postImport P server request now).2.blocks = stored P server text added ∧
      (∀ e ∈ added, recomputeCid P.formats e.1 e.2 = some e.1) ∧
      (((postImport P server request now).2.log = server.log ∧
          (postImport P server request now).2.held = server.held ∧
          ∀ c view op, newest P text = some c →
            viewBlock P.formats (moved server.held.view c) = .ok view →
            operationBlock P server view.1 c "mnem-http" now ≠ .ok op) ∨
        ∃ c view op, newest P text = some c ∧
          viewBlock P.formats (moved server.held.view c) = .ok view ∧
          operationBlock P server view.1 c "mnem-http" now = .ok op ∧ added = [op, view] ∧
          (postImport P server request now).2.log =
            ⟨op.1, moved server.held.view c⟩ :: server.log ∧
          ((postImport P server request now).2.held = server.held ∨
            (postImport P server request now).2.held = ⟨op.1, moved server.held.view c⟩)) := by
  unfold postImport
  simp only [read, bestCommit_eq_newest]
  rw [importLines_stored]
  cases best : newest P text with
  | none => exact ⟨[], rfl, nofun, .inl ⟨rfl, rfl, nofun⟩⟩
  | some c =>
      dsimp only
      unfold updateHeads
      dsimp only
      cases viewed : viewBlock P.formats (moved server.held.view c) with
      | error e =>
          refine ⟨[], rfl, nofun, .inl ⟨rfl, rfl, fun c' view op same viewed' => ?_⟩⟩
          obtain rfl := Option.some.inj same
          rw [viewed] at viewed'
          cases viewed'
      | ok view =>
          have hashed := hashToCid_hashed viewed
          dsimp only
          have operation : operationBlock P { server with blocks := stored P server text [] } view.1 c
              "mnem-http" now = operationBlock P server view.1 c "mnem-http" now := rfl
          rw [operation]
          cases wrote : operationBlock P server view.1 c "mnem-http" now with
          | error e =>
              refine ⟨[view], rfl, by simpa using hashed, .inl ⟨rfl, rfl, ?_⟩⟩
              intro c' view' op same viewed'
              obtain rfl := Option.some.inj same
              obtain rfl := Except.ok.inj (viewed.symm.trans viewed')
              rw [wrote]
              nofun
          | ok op =>
              have hashed' := hashToCid_hashed wrote
              have both : ∀ e ∈ [op, view], recomputeCid P.formats e.1 e.2 = some e.1 := by
                simp [hashed, hashed']
              dsimp only
              -- the operation is the head by the time the new head commit is loaded
              cases loadCommit P.formats
                  (((stored P server text []).putTrusted view.1 view.2).putTrusted op.1 op.2) c with
              | error e =>
                  exact ⟨[op, view], rfl, both, .inr ⟨c, view, op, rfl, viewed, wrote, rfl, rfl, .inl rfl⟩⟩
              | ok commit =>
                  exact ⟨[op, view], rfl, both, .inr ⟨c, view, op, rfl, viewed, wrote, rfl, rfl, .inr rfl⟩⟩

/-- Stored blocks stay as they are exactly where no other bytes come for an unknown hash. -/
theorem unchanged_iff {added : List (Cid × Bytes)}
    (hashed : ∀ e ∈ added, recomputeCid P.formats e.1 e.2 = some e.1)
    (sound : server.blocks.Sound P.formats)
    (apart : ∀ cid old new, server.blocks.get cid = some old →
      (cid, new) ∈ (stored P server text added).blocks → Apart P.formats old new) :
    (∀ cid data, server.blocks.get cid = some data →
        (stored P server text added).get cid = some data) ↔
      ∀ cid old data, server.blocks.get cid = some old → recomputeCid P.formats cid old = none →
        Entries.get? cid (accepted P text).reverse = some data → data = old := by
  -- what hashes to the identifier of a stored block is that block
  have same : ∀ cid old new, server.blocks.get cid = some old →
      (cid, new) ∈ (stored P server text added).blocks →
      recomputeCid P.formats cid new = some cid → new = old := by
    intro cid old new there member fresh
    obtain ⟨c, computed⟩ := recomputeCid_known fresh old
    have before : recomputeCid P.formats cid old = some cid := by
      rw [computed, sound cid old c there computed]
    exact (eq_of_recomputed (apart cid old new there member) before fresh).symm
  constructor
  · intro unchanged cid old data there unknown taken
    have after := unchanged cid old there
    rw [get_stored, taken] at after
    cases extra : Entries.get? cid added with
    | none =>
        rw [extra] at after
        exact Option.some.inj after
    | some new =>
        obtain ⟨c, computed⟩ := recomputeCid_known (hashed _ (Entries.mem_of_get? extra)) old
        rw [unknown] at computed
        cases computed
  · intro verified cid old there
    rw [get_stored]
    cases extra : Entries.get? cid added with
    | some new =>
        have member := Entries.mem_of_get? extra
        rw [same cid old new there (List.mem_append_left _ member) (hashed _ member)]
        rfl
    | none =>
        cases taken : Entries.get? cid (accepted P text).reverse with
        | none => exact there
        | some new =>
            have member := Entries.mem_of_get? taken
            cases known : recomputeCid P.formats cid new with
            | none =>
                have unknown : recomputeCid P.formats cid old = none := by
                  cases computed : recomputeCid P.formats cid old with
                  | none => rfl
                  | some c =>
                      obtain ⟨d, other⟩ := recomputeCid_known computed new
                      rw [known] at other
                      cases other
                rw [verified cid old new there unknown taken]
                rfl
            | some c =>
                have inside : (cid, new) ∈ (stored P server text added).blocks :=
                  List.mem_append_right _ (List.mem_append_left _ member)
                rw [accepted_hashed (List.mem_reverse.mp member) known] at known
                rw [same cid old new there inside known]
                rfl

/-- What is new hashes to its identifier. -/
theorem stored_added {added : List (Cid × Bytes)}
    (hashed : ∀ e ∈ added, recomputeCid P.formats e.1 e.2 = some e.1) {cid computed : Cid}
    {data : Bytes} (absent : server.blocks.get cid = none)
    (found : (stored P server text added).get cid = some data)
    (known : recomputeCid P.formats cid data = some computed) : computed = cid := by
  have member := Entries.mem_of_get? (show Entries.get? cid (stored P server text added).blocks =
    some data from found)
  rcases List.mem_append.mp member with extra | rest
  · exact Option.some.inj (known.symm.trans (hashed _ extra))
  · rcases List.mem_append.mp rest with taken | old
    · exact accepted_hashed (List.mem_reverse.mp taken) known
    · have there : (Entries.get? cid server.blocks.blocks).isSome := by
        rw [Entries.get?_isSome_iff]
        exact List.mem_map_of_mem old
      rw [show Entries.get? cid server.blocks.blocks = none from absent] at there
      cases there

theorem moved_eq_iff {view : Objects.View Cid} {c : Cid} : moved view c = view ↔ view.heads = [c] := by
  constructor
  · intro same
    rw [← same]
    rfl
  · intro same
    rw [moved, ← same]

end Safety

section Old

open Fragment

/-- A commit without parents. -/
def firstCommit : Objects.Commit Cid :=
  { changeId := 1, parents := [], nodes := leafCid, edges := leafCid, schema := leafCid,
    delta := none, indexes := none, embeddings := none, sparse := none, author := "ada",
    agentId := none, taskId := none, time := 1, message := "first", signature := none,
    extra := OrdMap.empty }

def firstBytes : Bytes := commitBytes 1 [] "first"

def firstCid : Cid :=
  sha256Cid
    [0x9b, 0xbb, 0x32, 0x09, 0xfe, 0xf0, 0x8d, 0x82, 0x53, 0xa0, 0xf4, 0xde, 0xd3, 0x11, 0x11,
      0xae, 0xed, 0x5e, 0xed, 0x41, 0x6e, 0xea, 0x66, 0x7f, 0x5b, 0x18, 0x97, 0x11, 0xdd, 0x80,
      0xa0, 0x3a]
    rfl

def firstText : String := "bafyreie3xmzat7xqrwbfhihu33jrceno5vpo2qlo5jth6wyys4i53afahi"

/-- The commit after it. -/
def secondBytes : Bytes := commitBytes 2 [firstCid] "second"

def secondCid : Cid :=
  sha256Cid
    [0x31, 0xc0, 0xe9, 0x16, 0x10, 0x6b, 0xca, 0x2c, 0xd0, 0xff, 0x85, 0x30, 0x37, 0x21, 0x94,
      0x48, 0xcf, 0x4a, 0xf5, 0x45, 0x27, 0x0d, 0xf7, 0xb7, 0x46, 0x14, 0xd1, 0x18, 0xa4, 0x1d,
      0xb6, 0x5a]
    rfl

def viewBytes (head : Cid) : Bytes :=
  mapBytes [("refs", Fragment.head 5 0), ("_kind", textBytes "view"), ("heads", linksBytes [head])]

def operationBytes (number : UInt8) (view : Cid) (author : String) (parents : List Cid)
    (description : String) : Bytes :=
  mapBytes [("time", [number]), ("view", linkBytes view), ("_kind", textBytes "operation"),
    ("author", textBytes author), ("parents", linksBytes parents),
    ("description", textBytes description)]

def heldView : Objects.View Cid :=
  { heads := [secondCid], refs := OrdMap.empty, remoteRefs := none, wcCommit := none,
    tombstones := OrdMap.empty, extra := OrdMap.empty }

def heldViewCid : Cid :=
  sha256Cid
    [0xed, 0x74, 0x4f, 0xf9, 0xc5, 0xea, 0xe6, 0xf0, 0x2b, 0x32, 0xd0, 0x63, 0xa2, 0x47, 0x1f,
      0xbb, 0xec, 0x25, 0x7a, 0x0e, 0x51, 0xca, 0x9f, 0xc1, 0xcf, 0x3f, 0x15, 0xa8, 0xc6, 0xf3,
      0x5d, 0xec]
    rfl

def heldOperationBytes : Bytes := operationBytes 3 heldViewCid "ada" [] "import"

def heldOperationCid : Cid :=
  sha256Cid
    [0xa2, 0x3d, 0x90, 0xab, 0xb1, 0xfb, 0xda, 0xad, 0x00, 0x76, 0x17, 0x1f, 0x4d, 0xaf, 0x61,
      0xec, 0x7b, 0x78, 0xe4, 0x44, 0xa9, 0x49, 0x25, 0x50, 0x5e, 0x8f, 0x9c, 0x79, 0x5d, 0x6d,
      0xb0, 0x18]
    rfl

/-- The second commit is the head, and its history is complete. -/
def headServer : Server :=
  { blocks := { blocks := [(heldOperationCid, heldOperationBytes),
      (heldViewCid, viewBytes secondCid), (secondCid, secondBytes), (firstCid, firstBytes),
      (leafCid, leafBytes)] }
    opHeads := [heldOperationCid]
    held := ⟨heldOperationCid, heldView⟩ }

/-- The view that has the first commit as its head. -/
def movedViewBytes : Bytes := viewBytes firstCid

def movedViewCid : Cid :=
  sha256Cid
    [0xf5, 0xe1, 0x4d, 0x62, 0x22, 0x61, 0x9e, 0x8d, 0xdd, 0xe9, 0x5c, 0x87, 0xb7, 0xa7, 0x43,
      0x17, 0x4c, 0xd8, 0x10, 0x6f, 0x1f, 0xaa, 0x6a, 0xa4, 0x18, 0xcb, 0x7c, 0x70, 0x97, 0x83,
      0x40, 0x4c]
    rfl

/-- The operation that moves the head there. -/
def movedOperation : Block Cid := .operation
  { parents := [heldOperationCid], view := movedViewCid, author := "mnem-http", time := 4,
    description := "update_heads: " ++ firstText }

def movedOperationBytes : Bytes :=
  operationBytes 4 movedViewCid "mnem-http" [heldOperationCid] ("update_heads: " ++ firstText)

def movedOperationCid : Cid :=
  sha256Cid
    [0xb1, 0x5c, 0x3f, 0xe9, 0x90, 0x58, 0xfd, 0xab, 0xe8, 0xb1, 0xd9, 0xf2, 0x3c, 0xbb, 0x41,
      0x4c, 0x25, 0x10, 0xd4, 0x33, 0x81, 0xdd, 0x80, 0x42, 0x70, 0xd7, 0xd2, 0xd1, 0x55, 0x2c,
      0x76, 0xa2]
    rfl

def oldMaps : Maps where
  decodings := [(movedViewBytes, .map (Format.view.serialize (moved heldView firstCid)).entries),
    (movedOperationBytes, movedOperation.wire),
    (firstBytes, .map (Format.commit.serialize firstCommit).entries)]
  nodup := by decide
  outside := by decide

/-- The first commit, as the export writes it. -/
def oldLine : Text := exportLine firstText firstBytes

noncomputable def oldPackages : Packages where
  formats := formatsWith [(firstBytes, firstCid.multihash.digest),
    (movedViewBytes, movedViewCid.multihash.digest),
    (movedOperationBytes, movedOperationCid.multihash.digest)] oldMaps
  parseJson line :=
    if line = oldLine then
      .ok (.object [("cid", .string firstText),
        ("hex", .string (String.ofList (hexText firstBytes)))])
    else .error "expected value at line 1 column 1"
  parseCid s := if s = firstText then .ok firstCid else .error "Failed to parse multihash"
  cidText c := if c = firstCid then firstText else ""

theorem readLine_old : readLine oldPackages 1 oldLine = .ok ⟨firstText, firstCid, firstBytes⟩ := by
  have parsed : oldPackages.parseJson oldLine = .ok (.object [("cid", .string firstText),
      ("hex", .string (String.ofList (hexText firstBytes)))]) := by
    simp only [oldPackages, ↓reduceIte]
  have named : oldPackages.parseCid firstText = .ok firstCid := by
    simp only [oldPackages, ↓reduceIte]
  have hashed : recomputeCid oldPackages.formats firstCid firstBytes = some firstCid := by
    decide +kernel
  exact readLine_exported parsed named fun c known => Option.some.inj (known.symm.trans hashed)

theorem accepted_old : accepted oldPackages oldLine = [(firstCid, firstBytes)] := by
  have one : lines oldLine = [oldLine] := by decide +kernel
  have trimmed : trim oldLine = oldLine := by decide +kernel
  have full : oldLine ≠ [] := by decide
  exact accepted_of_line one trimmed full readLine_old

theorem decode_first : oldPackages.formats.cbor.decode firstBytes =
    .ok (.map (Format.commit.serialize firstCommit).entries) := by
  apply decode_maps
  have other : movedViewBytes ≠ firstBytes := by decide
  have other' : movedOperationBytes ≠ firstBytes := by decide
  show Entries.get? _ [_, _, _] = _
  rw [Entries.get?_cons, if_neg other, Entries.get?_cons, if_neg other', Entries.get?_cons, if_pos rfl]

theorem commitTime_first : commitTime oldPackages.formats firstBytes = some 1 := by
  have kind : Entries.get? "_kind" (Format.commit.serialize firstCommit).entries =
      some (.string "commit") := rfl
  have time : Entries.get? "time" (Format.commit.serialize firstCommit).entries =
      some (.integer (1 : UInt64).toNat) := rfl
  exact commitTime_of_decode decode_first kind time

theorem newest_old : newest oldPackages oldLine = some firstCid :=
  newest_of_single accepted_old commitTime_first

theorem viewBlock_old : viewBlock oldPackages.formats (moved headServer.held.view firstCid) =
    .ok (movedViewCid, movedViewBytes) := by
  have encoded : oldPackages.formats.cbor.encode
      (.map (Format.view.serialize (moved headServer.held.view firstCid)).entries) =
        .ok movedViewBytes :=
    @encode_maps oldMaps [] _ _ _ rfl nofun ⟨_, rfl⟩
  have hashed : sha256Cid (oldPackages.formats.sha2_256 movedViewBytes)
      (oldPackages.formats.length_sha2_256 _) = movedViewCid := by decide
  unfold viewBlock hashToCid
  rw [encoded]
  exact congrArg (fun c => Except.ok (c, movedViewBytes)) hashed

theorem operationBlock_old : operationBlock oldPackages headServer movedViewCid firstCid
    "mnem-http" 4 = .ok (movedOperationCid, movedOperationBytes) := by
  have other : Ipld.map (Format.view.serialize (moved heldView firstCid)).entries ≠
      movedOperation.wire := by
    intro same
    have kinds := congrArg (Entries.get? "_kind") (Ipld.map.inj same)
    have apart : (some (Ipld.string "view") : Option (Ipld Cid)) ≠ some (.string "operation") := by
      simp
    exact apart kinds
  have encoded : oldPackages.formats.cbor.encode movedOperation.wire = .ok movedOperationBytes :=
    @encode_maps oldMaps [_] _ _ _ rfl (by simpa using other) ⟨_, rfl⟩
  have hashed : sha256Cid (oldPackages.formats.sha2_256 movedOperationBytes)
      (oldPackages.formats.length_sha2_256 _) = movedOperationCid := by decide +kernel
  have described : "update_heads: " ++ oldPackages.cidText firstCid =
      "update_heads: " ++ firstText := by
    simp only [oldPackages, ↓reduceIte]
  unfold operationBlock hashToCid
  rw [described]
  show (do
    let bytes ← oldPackages.formats.cbor.encode movedOperation.wire
    _) = _
  rw [encoded]
  exact congrArg (fun c => Except.ok (c, movedOperationBytes)) hashed

/-- The first commit has no parents, so it does not descend from the second. -/
theorem not_parentAt_first {bs : Blockstore} (there : bs.get firstCid = some firstBytes) (b : Cid) :
    ¬ ParentAt oldPackages bs firstCid b := by
  rintro ⟨commit, loads, parent⟩
  have read : Format.commit.deserialize (Format.commit.serialize firstCommit) = .ok firstCommit := rfl
  unfold loadCommit at loads
  rw [there] at loads
  dsimp only at loads
  rw [decode_first] at loads
  dsimp only at loads
  rw [OrdMap.ofList_entries, read] at loads
  obtain rfl := Except.ok.inj loads
  cases parent

end Old

end Mnem.Http
