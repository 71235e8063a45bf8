/-
# Transport.Car — the archive format: header, sections, reader and writer

An archive is a length-prefixed header and then sections, each the length of an
identifier and a payload, the identifier, and the payload.  What the writer
writes the reader reads, up to the reader's caps (`readHeader_writeHeader`,
`nextBlock_writeBlock`); whatever the reader reads, it takes bytes off the front
of the stream and the payload is a part of them (`nextBlock_splits`).
-/
import Mnem.Transport.Cid

namespace Mnem.Transport

open Theory

set_option autoImplicit false

/-! ## Errors -/

/-- `diverged` is no failure of the source: it marks a loop cut off by its bound. -/
inductive StoreError where
  | notFound (cid : Cid)
  | links (cid : Cid) (cause : Codec.CodecError)
  | io (message : String)
  | corruption (cid detail : String)
  | diverged
  deriving DecidableEq

inductive TransportError where
  | car (message : String)
  | cidMismatch (claimed computed : Cid)
  | unsupportedHash (code : UInt64)
  | missingRoot (root : Cid)
  | sizeLimit (limit observed : Nat)
  | codec (cause : Codec.CodecError)
  | store (cause : StoreError)
  /-- The stream ended inside a read. -/
  | io
  | diverged
  deriving DecidableEq

/-! ## Header -/

def maxHeaderBytes : Nat := 8 * 1024 * 1024

def maxBlockBytes : Nat := 32 * 1024 * 1024

structure CarHeader where
  version : Nat
  roots : List Cid
  deriving DecidableEq

def CarHeader.singleRoot (root : Cid) : CarHeader := { version := 1, roots := [root] }

def CarHeader.toDagcbor (F : Formats) (header : CarHeader) : Except TransportError Bytes :=
  (F.cbor.encode (headerIpld header.version header.roots)).mapError fun e => .codec (.encode e)

/-- The roots of a header, each through the binary form of an identifier. -/
def rootOf (F : Formats) : Ipld Cid → Except TransportError Cid
  | .link c => (F.parseCid c.toBytes).mapError fun e => .car ("root: " ++ e)
  | _ => .error (.car "non-link in roots")

def CarHeader.fromDagcbor (F : Formats) (bytes : Bytes) : Except TransportError CarHeader := do
  match ← (F.cbor.decode bytes).mapError (fun e => .codec (.decode e)) with
  | .map m =>
      match Entries.get? "version" m with
      | some (.integer n) =>
          if n < 0 ∨ 2 ^ 64 ≤ n then
            throw (.car ("header version out of range: " ++ toString n))
          else if n ≠ 1 then throw (.car ("unsupported CAR version: " ++ toString n))
          else
            match Entries.get? "roots" m with
            | some (.list xs) => do
                let roots ← xs.mapM (rootOf F)
                return { version := n.toNat, roots := roots }
            | _ => throw (.car "missing 'roots' list")
      | _ => throw (.car "missing 'version' field")
  | _ => throw (.car "header is not a map")

/-! ## Writer -/

def writeHeader (F : Formats) (header : CarHeader) : Except TransportError Bytes := do
  let body ← header.toDagcbor F
  return Leb128.encode body.length ++ body

def writeBlock (cid : Cid) (data : Bytes) : Bytes :=
  Leb128.encode (cid.toBytes.length + data.length) ++ (cid.toBytes ++ data)

/-! ## Reader -/

def varintError : Leb128.Fault → TransportError
  | .truncated byte => .car ("truncated varint at byte " ++ toString byte)
  | .nonMinimal => .car "non-minimal varint"
  | .tooLong => .car "varint too long"

def blockLengthError : Leb128.Fault → TransportError
  | .truncated _ => .car "truncated block-length varint"
  | .nonMinimal => .car "non-minimal block-length varint"
  | .tooLong => .car "block-length varint too long"

def readExact (n : Nat) (stream : Bytes) : Except TransportError (Bytes × Bytes) :=
  if stream.length < n then .error .io else .ok (stream.take n, stream.drop n)

def tooLarge (what : String) (length cap : Nat) : TransportError :=
  .car (what ++ " too large: " ++ toString length ++ " > " ++ toString cap)

/-- The header, and the stream behind it. -/
def readHeader (F : Formats) (stream : Bytes) : Except TransportError (CarHeader × Bytes) := do
  let (len, stream) ← (Leb128.scan true stream).mapError varintError
  if maxHeaderBytes < len then throw (tooLarge "header" len maxHeaderBytes)
  else do
    let (buf, stream) ← readExact len stream
    let header ← CarHeader.fromDagcbor F buf
    return (header, stream)

/-- The identifier at the front of a section, and its payload. -/
def splitSection (F : Formats) (buf : Bytes) : Except TransportError (Cid × Bytes) :=
  match cidBinaryLength buf with
  | none => .error (.car "cannot determine CID length")
  | some cidLen =>
      if buf.length < cidLen then .error (.car "cid overruns block length")
      else do
        let cid ← (F.parseCid (buf.take cidLen)).mapError fun e => .car ("cid: " ++ e)
        return (cid, buf.drop cidLen)

/-- The next section, or nothing at the end, and the stream behind it. -/
def nextBlock (F : Formats) : Bytes → Except TransportError (Option (Cid × Bytes) × Bytes)
  | [] => .ok (none, [])
  | byte :: stream => do
      let (len, stream) ← (Leb128.scan true (byte :: stream)).mapError blockLengthError
      if maxBlockBytes < len then throw (tooLarge "block" len maxBlockBytes)
      else if len = 0 then throw (.car "empty block section")
      else do
        let (buf, stream) ← readExact len stream
        let block ← splitSection F buf
        return (some block, stream)

/-! ## What is written is read -/

theorem readExact_append (buf rest : Bytes) :
    readExact buf.length (buf ++ rest) = .ok (buf, rest) := by
  simp [readExact]

theorem readExact_splits {n : Nat} {stream buf rest : Bytes}
    (ran : readExact n stream = .ok (buf, rest)) : stream = buf ++ rest := by
  unfold readExact at ran
  split at ran
  · cases ran
  · cases ran
    exact (List.take_append_drop n stream).symm

theorem mapM_rootOf (F : Formats) (roots : List Cid) :
    (roots.map Ipld.link).mapM (rootOf F) = .ok roots := by
  refine Exec.mapM_of_forall₂ ?_
  induction roots with
  | nil => exact .nil
  | cons root roots ih =>
      refine .cons ?_ ih
      rw [rootOf, F.parseCid_toBytes]
      rfl

theorem headerIpld_ordered (version : Nat) (roots : List Cid) :
    (headerIpld version roots).Ordered := by
  have links : ∀ roots : List Cid, Ipld.OrderedList (roots.map Ipld.link) := by
    intro roots
    induction roots with
    | nil => exact trivial
    | cons root roots ih => exact ⟨trivial, ih⟩
  have keys : "roots" < "version" := by decide
  exact ⟨List.pairwise_pair.mpr keys, links roots, trivial, trivial⟩

theorem headerIpld_low (version : Nat) (roots : List Cid) :
    (headerIpld version roots).height ≤ 2 := by
  have links : Ipld.heightList (roots.map (Ipld.link : Cid → Ipld Cid)) ≤ 1 := by
    rw [Ipld.heightList_le_iff]
    intro x member
    obtain ⟨root, -, rfl⟩ := List.mem_map.mp member
    change 0 < 1
    omega
  change Ipld.heightMap _ ≤ 2
  rw [Ipld.heightMap_le_iff]
  intro e member
  simp only [List.mem_cons, List.not_mem_nil, or_false] at member
  rcases member with rfl | rfl
  · change Ipld.heightList _ < 2
    omega
  · change 0 < 2
    omega

/-- A header that was encoded decodes. -/
theorem fromDagcbor_encoded {F : Formats} {roots : List Cid} {body : Bytes}
    (written : F.cbor.encode (headerIpld 1 roots) = .ok body) :
    CarHeader.fromDagcbor F body = .ok { version := 1, roots := roots } := by
  have low := headerIpld_low 1 roots
  rcases F.cbor.decode_encode _ body (headerIpld_ordered 1 roots) written with back | ⟨high, -⟩
  · unfold CarHeader.fromDagcbor
    rw [back]
    change (do
      let roots ← (roots.map Ipld.link).mapM (rootOf F)
      return ({ version := 1, roots := roots } : CarHeader)) = _
    rw [mapM_rootOf]
    rfl
  · omega

/-- A header within the cap is read back. -/
theorem readHeader_writeHeader {F : Formats} {roots : List Cid} {body : Bytes} (rest : Bytes)
    (written : F.cbor.encode (headerIpld 1 roots) = .ok body) (short : body.length ≤ maxHeaderBytes) :
    readHeader F (Leb128.encode body.length ++ body ++ rest) =
      .ok ({ version := 1, roots := roots }, rest) := by
  have small : body.length < 2 ^ 64 := short.trans_lt (by decide)
  unfold readHeader
  rw [List.append_assoc, Leb128.scan_encode true small]
  change (if maxHeaderBytes < body.length then _ else _) = _
  rw [if_neg (by omega)]
  change (readExact body.length (body ++ rest) >>= _) = _
  rw [readExact_append]
  change (CarHeader.fromDagcbor F body >>= _) = _
  rw [fromDagcbor_encoded written]
  rfl

/-- A header beyond the cap is refused. -/
theorem readHeader_tooLarge {F : Formats} {body : Bytes} (rest : Bytes)
    (small : body.length < 2 ^ 64) (long : maxHeaderBytes < body.length) :
    readHeader F (Leb128.encode body.length ++ body ++ rest) =
      .error (tooLarge "header" body.length maxHeaderBytes) := by
  unfold readHeader
  rw [List.append_assoc, Leb128.scan_encode true small]
  change (if maxHeaderBytes < body.length then _ else _) = _
  rw [if_pos long]
  rfl

theorem splitSection_write (F : Formats) (codec : UInt64) (hash : Multihash) (data : Bytes) :
    splitSection F ((Cid.v1 codec hash).toBytes ++ data) = .ok (.v1 codec hash, data) := by
  rw [splitSection, cidBinaryLength_toBytes]
  simp only [List.length_append, List.take_left, List.drop_left, F.parseCid_toBytes]
  rw [if_neg (by omega)]
  rfl

/-- A section within the cap is read back. -/
theorem nextBlock_writeBlock (F : Formats) (codec : UInt64) (hash : Multihash) (data rest : Bytes)
    (short : (Cid.v1 codec hash).toBytes.length + data.length ≤ maxBlockBytes) :
    nextBlock F (writeBlock (.v1 codec hash) data ++ rest) =
      .ok (some (.v1 codec hash, data), rest) := by
  have positive : 0 < (Cid.v1 codec hash).toBytes.length :=
    List.length_pos_of_ne_nil (Cid.toBytes_ne_nil _)
  generalize section_eq : (Cid.v1 codec hash).toBytes ++ data = buf
  have length : (Cid.v1 codec hash).toBytes.length + data.length = buf.length := by
    rw [← section_eq, List.length_append]
  rw [length] at short
  have small : buf.length < 2 ^ 64 := short.trans_lt (by decide)
  have read := Leb128.scan_encode true small (buf ++ rest)
  rw [writeBlock, section_eq, length, List.append_assoc]
  obtain ⟨byte, stream, front⟩ : ∃ byte stream,
      Leb128.encode buf.length ++ (buf ++ rest) = byte :: stream :=
    List.exists_cons_of_ne_nil (by simp [Leb128.encode_ne_nil])
  rw [front] at read ⊢
  change (Except.mapError blockLengthError (Leb128.scan true (byte :: stream)) >>= _) = _
  rw [read]
  change (if maxBlockBytes < buf.length then _ else _) = _
  rw [if_neg (by omega), if_neg (by omega), readExact_append]
  change (splitSection F buf >>= _) = _
  rw [← section_eq, splitSection_write]
  rfl

/-! ## What is read -/

theorem scan_splits {f : Leb128.Fault → TransportError} {stream rest : Bytes} {n : Nat}
    (ran : (Leb128.scan true stream).mapError f = .ok (n, rest)) :
    ∃ used, used ≠ [] ∧ stream = used ++ rest := by
  cases read : Leb128.scan true stream with
  | ok out =>
      rw [read] at ran
      obtain rfl := Except.ok.inj ran
      exact Leb128.scan_suffix read
  | error e =>
      rw [read] at ran
      cases ran

theorem splitSection_splits {F : Formats} {buf data : Bytes} {cid : Cid}
    (ran : splitSection F buf = .ok (cid, data)) : ∃ front, buf = front ++ data := by
  unfold splitSection at ran
  split at ran
  · cases ran
  · rename_i cidLen _
    split at ran
    · cases ran
    · obtain ⟨c, -, same⟩ := Exec.bind_eq_ok.mp ran
      cases same
      exact ⟨_, (List.take_append_drop cidLen buf).symm⟩

/-- A section that is read stands at the front of the stream, and its payload at its end. -/
theorem nextBlock_splits {F : Formats} {stream rest data : Bytes} {cid : Cid}
    (ran : nextBlock F stream = .ok (some (cid, data), rest)) :
    ∃ front, front ≠ [] ∧ stream = front ++ (data ++ rest) := by
  cases stream with
  | nil => cases ran
  | cons byte stream =>
      unfold nextBlock at ran
      obtain ⟨⟨len, behind⟩, scanned, ran⟩ := Exec.bind_eq_ok.mp ran
      dsimp only at ran
      split at ran
      · cases ran
      split at ran
      · cases ran
      obtain ⟨⟨buf, behind'⟩, taken, ran⟩ := Exec.bind_eq_ok.mp ran
      obtain ⟨⟨cid', data'⟩, split, ran⟩ := Exec.bind_eq_ok.mp ran
      cases ran
      obtain ⟨used, some_used, eq⟩ := scan_splits scanned
      obtain ⟨front, buf_eq⟩ : ∃ front, buf = front ++ data := splitSection_splits split
      refine ⟨used ++ front, by simp [some_used], ?_⟩
      rw [eq, readExact_splits taken, buf_eq, List.append_assoc, List.append_assoc]

/-- What follows a header that was read stands at the end of the stream. -/
theorem readHeader_splits {F : Formats} {stream rest : Bytes} {header : CarHeader}
    (ran : readHeader F stream = .ok (header, rest)) : ∃ front, stream = front ++ rest := by
  unfold readHeader at ran
  obtain ⟨⟨len, behind⟩, scanned, ran⟩ := Exec.bind_eq_ok.mp ran
  dsimp only at ran
  split at ran
  · cases ran
  obtain ⟨⟨buf, behind'⟩, taken, ran⟩ := Exec.bind_eq_ok.mp ran
  obtain ⟨header', -, ran⟩ := Exec.bind_eq_ok.mp ran
  cases ran
  obtain ⟨used, -, eq⟩ := scan_splits scanned
  exact ⟨used ++ buf, by rw [eq, readExact_splits taken, List.append_assoc]⟩

/-! ## How reading fails -/

/-- A failure that is not a loop's bound. -/
def Ends {α : Type} (r : Except TransportError α) : Prop := r ≠ .error .diverged

section Ends

variable {α β : Type}

theorem ends_ok (a : α) : Ends (.ok a) := nofun

theorem car_ne_diverged (message : String) : TransportError.car message ≠ .diverged := nofun

theorem codec_ne_diverged (cause : Codec.CodecError) : TransportError.codec cause ≠ .diverged := nofun

theorem ends_error {e : TransportError} (other : e ≠ .diverged) :
    Ends (.error e : Except TransportError α) := fun same => other (Except.error.inj same)

theorem ends_bind {r : Except TransportError α} {f : α → Except TransportError β} (first : Ends r)
    (rest : ∀ a, Ends (f a)) : Ends (r >>= f) := by
  cases r with
  | ok a => exact rest a
  | error e =>
      refine ends_error fun same => first ?_
      rw [same]

theorem ends_mapError {ε : Type} {f : ε → TransportError} (other : ∀ e, f e ≠ .diverged)
    (r : Except ε α) : Ends (r.mapError f) := by
  cases r with
  | ok a => exact ends_ok a
  | error e => exact ends_error (other e)

end Ends

theorem ends_readExact (n : Nat) (stream : Bytes) : Ends (readExact n stream) := by
  unfold readExact
  split
  · exact ends_error nofun
  · exact ends_ok _

theorem ends_rootsOf (F : Formats) : ∀ xs : List (Ipld Cid), Ends (xs.mapM (rootOf F))
  | [] => ends_ok _
  | x :: xs => by
      rw [List.mapM_cons]
      refine ends_bind ?_ fun _ => ends_bind (ends_rootsOf F xs) fun _ => ends_ok _
      unfold rootOf
      split
      · exact ends_mapError nofun _
      · exact ends_error nofun

theorem ends_fromDagcbor (F : Formats) (bytes : Bytes) : Ends (CarHeader.fromDagcbor F bytes) := by
  refine ends_bind (ends_mapError (fun _ => codec_ne_diverged _) _) fun v => ?_
  split
  · split
    · split
      · exact ends_error (car_ne_diverged _)
      · split
        · exact ends_error (car_ne_diverged _)
        · split
          · exact ends_bind (ends_rootsOf F _) fun _ => ends_ok _
          · exact ends_error (car_ne_diverged _)
    · exact ends_error (car_ne_diverged _)
  · exact ends_error (car_ne_diverged _)

theorem ends_readHeader (F : Formats) (stream : Bytes) : Ends (readHeader F stream) := by
  refine ends_bind (ends_mapError (fun e => by cases e <;> exact nofun) _) fun read => ?_
  dsimp only
  split
  · exact ends_error nofun
  · exact ends_bind (ends_readExact _ _) fun _ => ends_bind (ends_fromDagcbor F _) fun _ => ends_ok _

theorem ends_splitSection (F : Formats) (buf : Bytes) : Ends (splitSection F buf) := by
  unfold splitSection
  split
  · exact ends_error nofun
  · split
    · exact ends_error nofun
    · exact ends_bind (ends_mapError nofun _) fun _ => ends_ok _

theorem ends_nextBlock (F : Formats) : ∀ stream : Bytes, Ends (nextBlock F stream)
  | [] => ends_ok _
  | byte :: stream => by
      refine ends_bind (ends_mapError (fun e => by cases e <;> exact nofun) _) fun read => ?_
      dsimp only
      split
      · exact ends_error nofun
      · split
        · exact ends_error nofun
        · exact ends_bind (ends_readExact _ _) fun _ =>
            ends_bind (ends_splitSection F _) fun _ => ends_ok _

end Mnem.Transport
