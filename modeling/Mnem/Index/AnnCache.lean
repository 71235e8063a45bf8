/-
# Index.AnnCache — the cache file of a vector index

An index is saved as a header, its identifiers and its vectors, and read back
field by field; the header names the operation that the index belongs to.

* What is saved is read back, and is a miss for any other operation
  (`load_save`, `load_save_stale`).
* An index is read only from a whole encoding (`load_eq_value_iff`).
* A file that is cut short is an error, not a miss, unless it reaches beyond the
  identifier of another operation; a header may ask for more room than there
  can be (`load_eq_crash_iff`).  So the cache is safe exactly for the other files
  (`cache_safe_iff`, `cut_in_magic`).
-/
import Mnem.Codec.Format
import Mnem.Theory.Reader
import Mathlib.Data.UInt
import Mnem.Transport.Fragment

namespace Mnem.Ann

open Theory Transport

set_option autoImplicit false

/-- A vector component, by its bits. -/
abbrev F32 := UInt32

/-- The index as it is saved; the graph over its points is rebuilt. -/
structure HnswVectorIndex where
  model : String
  dim : UInt32
  ids : List NodeId
  points : List (List F32)
  efSearch : UInt64

/-- The largest size of an allocation, in bytes. -/
def isizeMax : Nat := 2 ^ 63 - 1

/-- One point for each identifier, each of the index's dimension, all of it in memory. -/
structure HnswVectorIndex.Valid (idx : HnswVectorIndex) : Prop where
  aligned : idx.ids.length = idx.points.length
  uniform : ∀ p ∈ idx.points, p.length = idx.dim.toNat
  held : 24 * idx.points.length ≤ isizeMax

inductive LoadError where
  | failedToFillWholeBuffer
  | cid (text : String)
  | invalidUtf8
  deriving DecidableEq

/-! ## The file -/

def le32 (n : UInt32) : Bytes := littleBytes 4 n.toNat

def le64 (n : UInt64) : Bytes := littleBytes 8 n.toNat

def asBytes (s : String) : Bytes := s.toUTF8.data.toList

/-- `MNEMHNSW`. -/
def magic : Bytes := [0x4D, 0x4E, 0x45, 0x4D, 0x48, 0x4E, 0x53, 0x57]

/-- Up to the operation's identifier. -/
def opFields (opIdBytes : Bytes) : Bytes :=
  magic ++ (le32 1 ++ (le32 (UInt32.ofNat opIdBytes.length) ++ opIdBytes))

/-- The other fields of the header; `knobs` are three numbers that are not read. -/
def indexFields (model : String) (dim : UInt32) (knobs : Bytes) (nPoints : UInt64) : Bytes :=
  le32 (UInt32.ofNat (asBytes model).length) ++
    (asBytes model ++ (le32 dim ++ (knobs ++ le64 nPoints)))

def pointFields (ids : List NodeId) (points : List (List F32)) : Bytes :=
  ids.flatMap StableId.toBytes ++ points.flatMap fun p => p.flatMap le32

/-- `save_to_path`: what it writes, unless the model's name is too long. -/
def saveToPath (idx : HnswVectorIndex) (opId : Cid) : Option Bytes :=
  if (asBytes idx.model).length < 2 ^ 32 then
    some (opFields opId.toBytes ++
      (indexFields idx.model idx.dim (le64 idx.efSearch ++ (le64 idx.efSearch ++ le64 0))
          (UInt64.ofNat idx.ids.length) ++
        pointFields idx.ids idx.points))
  else none

/-! ## Reading it -/

def readExact (n : Nat) : Reader LoadError Bytes := .take .failedToFillWholeBuffer n

/-- A buffer of some length, filled. -/
def readBuffer (n : Nat) : Reader LoadError Bytes := do
  Reader.reserve isizeMax 1 n
  readExact n

def readU32 : Reader LoadError UInt32 := do
  let bytes ← readExact 4
  return UInt32.ofNat (littleEndian bytes)

def readU64 : Reader LoadError UInt64 := do
  let bytes ← readExact 8
  return UInt64.ofNat (littleEndian bytes)

def readId : Reader LoadError NodeId := do
  let bytes ← readExact 16
  return Fin.ofNat _ (bigEndian bytes)

def readVector (dim : UInt32) : Reader LoadError (List F32) := do
  Reader.reserve isizeMax 4 dim.toNat
  Reader.many readU32 dim.toNat

/-- The operation that the file belongs to. -/
def readOpId (F : Formats) : Reader LoadError Cid := do
  let bytes ← readExact 8
  if bytes ≠ magic then Reader.miss
  else do
    let version ← readU32
    if version ≠ 1 then Reader.miss
    else do
      let opIdLen ← readU32
      let opIdBytes ← readBuffer opIdLen.toNat
      match F.parseCid opIdBytes with
      | .ok opId => return opId
      | .error e => Reader.fail (.cid e)

def readModel : Reader LoadError String := do
  let modelLen ← readU32
  let modelBytes ← readBuffer modelLen.toNat
  match String.fromUTF8? ⟨modelBytes.toArray⟩ with
  | some model => return model
  | none => Reader.fail .invalidUtf8

/-- The model, the dimension and the number of points; the knobs are read over. -/
def readFields : Reader LoadError (String × UInt32 × UInt64) := do
  let model ← readModel
  let dim ← readU32
  let _efConstruction ← readExact 8
  let _efSearch ← readExact 8
  let _seed ← readExact 8
  let nPoints ← readU64
  return (model, dim, nPoints)

def readPoints (dim : UInt32) (nPoints : UInt64) :
    Reader LoadError (List NodeId × List (List F32)) := do
  Reader.reserve isizeMax 16 nPoints.toNat
  let ids ← Reader.many readId nPoints.toNat
  Reader.reserve isizeMax 24 nPoints.toNat
  let normalisedVecs ← Reader.many (readVector dim) nPoints.toNat
  return (ids, normalisedVecs)

/-- The index; `efSearch` is the caller's. -/
def readIndex (efSearch : UInt64) : Reader LoadError HnswVectorIndex := do
  let fields ← readFields
  let points ← readPoints fields.2.1 fields.2.2
  return ⟨fields.1, fields.2.1, points.1, points.2, efSearch⟩

/-- `load_from_path` on the bytes of a file. -/
def loadFromPath (F : Formats) (expectedOpId : Cid) (efSearch : UInt64) :
    Reader LoadError HnswVectorIndex := do
  let storedOpId ← readOpId F
  if storedOpId ≠ expectedOpId then Reader.miss else readIndex efSearch

/-! ## The fields -/

section Fields

variable {s r : Bytes}

theorem readU32_eq_value {n : UInt32} (found : readU32 s = .value (n, r)) : s = le32 n ++ r := by
  obtain ⟨bytes, first, rfl⟩ := Reader.map_eq_value.mp found
  obtain ⟨rfl, four⟩ := Reader.take_eq_value.mp first
  have small := littleEndian_lt bytes
  have whole := littleBytes_littleEndian bytes
  rw [four] at small whole
  have small : littleEndian bytes < 2 ^ 32 := small
  rw [le32, UInt32.toNat_ofNat', Nat.mod_eq_of_lt small, whole]

theorem reads_u32 (n : UInt32) : Reader.Reads readU32 (le32 n) n := by
  have read : Reader.Reads readU32 (le32 n) (UInt32.ofNat (littleEndian (le32 n))) :=
    Reader.Reads.map (.take (length_littleBytes 4 n.toNat))
  rwa [le32, littleEndian_littleBytes n.toNat_lt, UInt32.ofNat_toNat] at read

theorem readU64_eq_value {n : UInt64} (found : readU64 s = .value (n, r)) : s = le64 n ++ r := by
  obtain ⟨bytes, first, rfl⟩ := Reader.map_eq_value.mp found
  obtain ⟨rfl, eight⟩ := Reader.take_eq_value.mp first
  have small := littleEndian_lt bytes
  have whole := littleBytes_littleEndian bytes
  rw [eight] at small whole
  have small : littleEndian bytes < 2 ^ 64 := small
  rw [le64, UInt64.toNat_ofNat', Nat.mod_eq_of_lt small, whole]

theorem reads_u64 (n : UInt64) : Reader.Reads readU64 (le64 n) n := by
  have read : Reader.Reads readU64 (le64 n) (UInt64.ofNat (littleEndian (le64 n))) :=
    Reader.Reads.map (.take (length_littleBytes 8 n.toNat))
  rwa [le64, littleEndian_littleBytes n.toNat_lt, UInt64.ofNat_toNat] at read

theorem length_toBytes (id : NodeId) : (StableId.toBytes id).length = 16 := by
  rw [StableId.toBytes_eq, lastBytes, List.length_map, List.length_range]

theorem readId_eq_value {id : NodeId} (found : readId s = .value (id, r)) :
    s = StableId.toBytes id ++ r := by
  obtain ⟨bytes, first, rfl⟩ := Reader.map_eq_value.mp found
  obtain ⟨rfl, sixteen⟩ := Reader.take_eq_value.mp first
  have small := bigEndian_lt bytes
  have whole := lastBytes_bigEndian bytes
  rw [sixteen] at small whole
  have small : bigEndian bytes < 2 ^ 128 := small
  rw [StableId.toBytes_eq]
  show bytes ++ r = lastBytes 16 (bigEndian bytes % 2 ^ 128) ++ r
  rw [Nat.mod_eq_of_lt small, whole]

theorem reads_id (id : NodeId) : Reader.Reads readId (StableId.toBytes id) id := by
  have read : Reader.Reads readId (StableId.toBytes id)
      (Fin.ofNat _ (bigEndian (StableId.toBytes id))) := Reader.Reads.map (.take (length_toBytes id))
  have back : bigEndian (StableId.toBytes id) = id.val := by
    rw [StableId.toBytes_eq, bigEndian_lastBytes]
    exact Nat.mod_eq_of_lt id.isLt
  rwa [back, Fin.ofNat_val_eq_self] at read

/-- A buffer of the length of 32 bits is always granted. -/
theorem reads_buffer {bytes : Bytes} {n : UInt32} (length : bytes.length = n.toNat) :
    Reader.Reads (readBuffer n.toNat) bytes bytes := by
  have small := n.toNat_lt
  have fits : 1 * n.toNat ≤ isizeMax := by
    unfold isizeMax
    omega
  exact (Reader.Reads.reserve fits).bind (.take length)

theorem readBuffer_eq_value {bytes : Bytes} {n : Nat} (found : readBuffer n s = .value (bytes, r)) :
    s = bytes ++ r ∧ bytes.length = n := by
  obtain ⟨_, t, first, second⟩ := Reader.bind_eq_value.mp found
  obtain ⟨-, rfl⟩ := Reader.reserve_eq_value.mp first
  exact Reader.take_eq_value.mp second

theorem readVector_eq_value {dim : UInt32} {v : List F32} (found : readVector dim s = .value (v, r)) :
    s = v.flatMap le32 ++ r ∧ v.length = dim.toNat := by
  obtain ⟨_, t, first, second⟩ := Reader.bind_eq_value.mp found
  obtain ⟨-, rfl⟩ := Reader.reserve_eq_value.mp first
  obtain ⟨same, length, -⟩ := Reader.many_eq_value
    (fun s n r found => (⟨readU32_eq_value found, trivial⟩ : s = le32 n ++ r ∧ True)) second
  exact ⟨same, length⟩

theorem reads_vector {dim : UInt32} {v : List F32} (length : v.length = dim.toNat) :
    Reader.Reads (readVector dim) (v.flatMap le32) v := by
  have small := dim.toNat_lt
  have fits : 4 * dim.toNat ≤ isizeMax := by
    unfold isizeMax
    omega
  have read := Reader.Reads.many fun n (_ : n ∈ v) => reads_u32 n
  rw [length] at read
  exact (Reader.Reads.reserve fits).bind read

end Fields

/-! ## The header and the points -/

section Parts

variable {F : Formats} {s r : Bytes}

theorem length_op_lt {opIdBytes : Bytes} {n : UInt32} (length : opIdBytes.length = n.toNat) :
    opIdBytes.length < 2 ^ 32 ∧ n = UInt32.ofNat opIdBytes.length := by
  have small := n.toNat_lt
  refine ⟨by omega, ?_⟩
  rw [length, UInt32.ofNat_toNat]

theorem readOpId_eq_value {opId : Cid} (found : readOpId F s = .value (opId, r)) :
    ∃ opIdBytes, opIdBytes.length < 2 ^ 32 ∧ F.parseCid opIdBytes = .ok opId ∧
      s = opFields opIdBytes ++ r := by
  obtain ⟨bytes, t, first, found⟩ := Reader.bind_eq_value.mp found
  obtain ⟨magicBytes, -⟩ := Reader.take_eq_value.mp first
  split at found
  · cases found
  rename_i isMagic
  obtain ⟨version, t, first, found⟩ := Reader.bind_eq_value.mp found
  have versionBytes := readU32_eq_value first
  split at found
  · cases found
  rename_i isOne
  obtain ⟨opIdLen, t', first, found⟩ := Reader.bind_eq_value.mp found
  have lengthBytes := readU32_eq_value first
  obtain ⟨opIdBytes, t'', first, found⟩ := Reader.bind_eq_value.mp found
  obtain ⟨rest, length⟩ := readBuffer_eq_value first
  obtain ⟨small, same⟩ := length_op_lt length
  cases parsed : F.parseCid opIdBytes with
  | ok opId' =>
      rw [parsed] at found
      cases found
      refine ⟨opIdBytes, small, parsed, ?_⟩
      rw [magicBytes, not_not.mp isMagic, versionBytes, not_not.mp isOne, lengthBytes, rest, same,
        opFields]
      simp only [List.append_assoc]
  | error e =>
      rw [parsed] at found
      cases found

theorem reads_opId {opIdBytes : Bytes} {opId : Cid} (small : opIdBytes.length < 2 ^ 32)
    (parsed : F.parseCid opIdBytes = .ok opId) :
    Reader.Reads (readOpId F) (opFields opIdBytes) opId := by
  have length : opIdBytes.length = (UInt32.ofNat opIdBytes.length).toNat := by
    rw [UInt32.toNat_ofNat', Nat.mod_eq_of_lt small]
  unfold opFields
  refine Reader.Reads.bind (.take rfl) ?_
  rw [if_neg (by simp)]
  refine Reader.Reads.bind (reads_u32 1) ?_
  rw [if_neg (by simp)]
  refine Reader.Reads.bind (reads_u32 _) ?_
  intro more
  rw [Reader.bind_of_value (reads_buffer length more), parsed]
  rfl

theorem readModel_eq_value {model : String} (found : readModel s = .value (model, r)) :
    (asBytes model).length < 2 ^ 32 ∧
      s = le32 (UInt32.ofNat (asBytes model).length) ++ (asBytes model ++ r) := by
  obtain ⟨modelLen, t, first, found⟩ := Reader.bind_eq_value.mp found
  have lengthBytes := readU32_eq_value first
  obtain ⟨modelBytes, t', first, found⟩ := Reader.bind_eq_value.mp found
  obtain ⟨rest, length⟩ := readBuffer_eq_value first
  obtain ⟨small, same⟩ := length_op_lt length
  cases decoded : String.fromUTF8? ⟨modelBytes.toArray⟩ with
  | none =>
      rw [decoded] at found
      cases found
  | some decodedModel =>
      rw [decoded] at found
      cases found
      have back : asBytes model = modelBytes := by
        unfold String.fromUTF8? at decoded
        split at decoded
        · cases decoded
          rfl
        · cases decoded
      rw [back]
      refine ⟨small, ?_⟩
      rw [lengthBytes, rest, same]

theorem reads_model {model : String} (small : (asBytes model).length < 2 ^ 32) :
    Reader.Reads readModel (le32 (UInt32.ofNat (asBytes model).length) ++ asBytes model) model := by
  have length : (asBytes model).length = (UInt32.ofNat (asBytes model).length).toNat := by
    rw [UInt32.toNat_ofNat', Nat.mod_eq_of_lt small]
  have decoded : String.fromUTF8? ⟨(asBytes model).toArray⟩ = some model := by
    have bytes : (⟨(asBytes model).toArray⟩ : ByteArray) = model.toByteArray := by simp [asBytes]
    rw [bytes, String.fromUTF8?, dif_pos model.isValidUTF8]
    rfl
  refine Reader.Reads.bind (reads_u32 _) fun more => ?_
  rw [Reader.bind_of_value (reads_buffer length more), decoded]
  rfl

theorem readFields_eq_value {model : String} {dim : UInt32} {nPoints : UInt64}
    (found : readFields s = .value ((model, dim, nPoints), r)) :
    ∃ knobs, (asBytes model).length < 2 ^ 32 ∧ knobs.length = 24 ∧
      s = indexFields model dim knobs nPoints ++ r := by
  obtain ⟨model', t, first, rest⟩ := Reader.bind_eq_value.mp found
  obtain ⟨small, modelBytes⟩ := readModel_eq_value first
  obtain ⟨dim', u, first, rest⟩ := Reader.bind_eq_value.mp rest
  have dimBytes := readU32_eq_value first
  obtain ⟨a, v, first, rest⟩ := Reader.bind_eq_value.mp rest
  obtain ⟨bytesA, lengthA⟩ := Reader.take_eq_value.mp first
  obtain ⟨b, w, first, rest⟩ := Reader.bind_eq_value.mp rest
  obtain ⟨bytesB, lengthB⟩ := Reader.take_eq_value.mp first
  obtain ⟨c, x, first, rest⟩ := Reader.bind_eq_value.mp rest
  obtain ⟨bytesC, lengthC⟩ := Reader.take_eq_value.mp first
  obtain ⟨n, first, same⟩ := Reader.map_eq_value.mp rest
  have pointsBytes := readU64_eq_value first
  cases same
  refine ⟨a ++ (b ++ c), small, by simp only [List.length_append]; omega, ?_⟩
  rw [modelBytes, dimBytes, bytesA, bytesB, bytesC, pointsBytes]
  simp only [indexFields, List.append_assoc]

theorem reads_fields {model : String} {dim : UInt32} {knobs : Bytes} {nPoints : UInt64}
    (small : (asBytes model).length < 2 ^ 32) (length : knobs.length = 24) :
    Reader.Reads readFields (indexFields model dim knobs nPoints) (model, dim, nPoints) := by
  have split : knobs = knobs.take 8 ++ ((knobs.drop 8).take 8 ++ (knobs.drop 8).drop 8) := by
    rw [List.take_append_drop, List.take_append_drop]
  unfold indexFields
  rw [← List.append_assoc]
  refine (reads_model small).bind ((reads_u32 dim).bind ?_)
  rw [split, List.append_assoc, List.append_assoc]
  refine Reader.Reads.bind (.take (by rw [List.length_take]; omega)) ?_
  refine Reader.Reads.bind (.take (by rw [List.length_take, List.length_drop]; omega)) ?_
  refine Reader.Reads.bind (.take (by rw [List.length_drop, List.length_drop]; omega)) ?_
  exact (reads_u64 nPoints).map

theorem readPoints_eq_value {dim : UInt32} {nPoints : UInt64} {ids : List NodeId}
    {points : List (List F32)} (found : readPoints dim nPoints s = .value ((ids, points), r)) :
    24 * nPoints.toNat ≤ isizeMax ∧ ids.length = nPoints.toNat ∧ points.length = nPoints.toNat ∧
      (∀ p ∈ points, p.length = dim.toNat) ∧ s = pointFields ids points ++ r := by
  obtain ⟨_, t, first, rest⟩ := Reader.bind_eq_value.mp found
  obtain ⟨-, same⟩ := Reader.reserve_eq_value.mp first
  obtain ⟨ids', u, first, rest⟩ := Reader.bind_eq_value.mp rest
  obtain ⟨idBytes, idLength, -⟩ := Reader.many_eq_value
    (fun s id r found => (⟨readId_eq_value found, trivial⟩ : s = StableId.toBytes id ++ r ∧ True))
    first
  obtain ⟨_, v, first, rest⟩ := Reader.bind_eq_value.mp rest
  obtain ⟨held, same'⟩ := Reader.reserve_eq_value.mp first
  obtain ⟨points', first, pair⟩ := Reader.map_eq_value.mp rest
  obtain ⟨vectorBytes, length, uniform⟩ :=
    Reader.many_eq_value (fun s v r found => readVector_eq_value found) first
  cases pair
  refine ⟨held, idLength, length, uniform, ?_⟩
  rw [same, idBytes, same', vectorBytes, pointFields, List.append_assoc]

theorem reads_points {dim : UInt32} {nPoints : UInt64} {ids : List NodeId}
    {points : List (List F32)} (held : 24 * nPoints.toNat ≤ isizeMax)
    (idLength : ids.length = nPoints.toNat) (length : points.length = nPoints.toNat)
    (uniform : ∀ p ∈ points, p.length = dim.toNat) :
    Reader.Reads (readPoints dim nPoints) (pointFields ids points) (ids, points) := by
  have readIds := Reader.Reads.many fun id (_ : id ∈ ids) => reads_id id
  have readVectors := Reader.Reads.many fun p (m : p ∈ points) => reads_vector (uniform p m)
  rw [idLength] at readIds
  rw [length] at readVectors
  show Reader.Reads (readPoints dim nPoints) ([] ++ (ids.flatMap StableId.toBytes ++
    ([] ++ points.flatMap fun p => p.flatMap le32))) (ids, points)
  refine Reader.Reads.bind (.reserve (by omega)) (readIds.bind ?_)
  exact Reader.Reads.bind (.reserve held) readVectors.map

/-! ## Stable parts -/

theorem stable_u32 : Reader.Stable readU32 := (Reader.Stable.take _ _).bind fun _ => .pure _

theorem stable_u64 : Reader.Stable readU64 := (Reader.Stable.take _ _).bind fun _ => .pure _

theorem stable_buffer (n : Nat) : Reader.Stable (readBuffer n) :=
  (Reader.Stable.reserve _ _ _).bind fun _ => .take _ _

theorem stable_opId (F : Formats) : Reader.Stable (readOpId F) := by
  refine (Reader.Stable.take _ _).bind fun bytes => ?_
  split
  · exact .miss'
  refine stable_u32.bind fun version => ?_
  split
  · exact .miss'
  refine stable_u32.bind fun opIdLen => (stable_buffer _).bind fun opIdBytes => ?_
  split
  · exact .pure _
  · exact .fail _

theorem stable_model : Reader.Stable readModel := by
  refine stable_u32.bind fun modelLen => (stable_buffer _).bind fun modelBytes => ?_
  split
  · exact .pure _
  · exact .fail _

theorem stable_fields : Reader.Stable readFields :=
  stable_model.bind fun _ => stable_u32.bind fun _ => (Reader.Stable.take _ _).bind fun _ =>
    (Reader.Stable.take _ _).bind fun _ => (Reader.Stable.take _ _).bind fun _ =>
      stable_u64.bind fun _ => .pure _

theorem stable_vector (dim : UInt32) : Reader.Stable (readVector dim) :=
  (Reader.Stable.reserve _ _ _).bind fun _ => .many stable_u32 _

theorem stable_points (dim : UInt32) (nPoints : UInt64) :
    Reader.Stable (readPoints dim nPoints) :=
  (Reader.Stable.reserve _ _ _).bind fun _ =>
    (Reader.Stable.many ((Reader.Stable.take _ _).bind fun _ => .pure _) _).bind fun _ =>
      (Reader.Stable.reserve _ _ _).bind fun _ =>
        (Reader.Stable.many (stable_vector dim) _).bind fun _ => .pure _

theorem stable_load (F : Formats) (opId : Cid) (efSearch : UInt64) :
    Reader.Stable (loadFromPath F opId efSearch) := by
  refine (stable_opId F).bind fun storedOpId => ?_
  split
  · exact .miss'
  · exact stable_fields.bind fun _ => (stable_points _ _).bind fun _ => .pure _

/-! ## Room -/

theorem readU32_ne_crash (s : Bytes) : readU32 s ≠ .crash :=
  Reader.bind_ne_crash (fun _ => Reader.take_ne_crash) (fun _ => Reader.pure_ne_crash _) s

theorem readBuffer_ne_crash (n : UInt32) (s : Bytes) : readBuffer n.toNat s ≠ .crash := by
  have small := n.toNat_lt
  refine Reader.bind_ne_crash (fun s crashed => ?_) (fun _ _ => Reader.take_ne_crash) s
  have exceeds := Reader.reserve_eq_crash.mp crashed
  unfold isizeMax at exceeds
  omega

theorem readOpId_ne_crash (F : Formats) (s : Bytes) : readOpId F s ≠ .crash := by
  refine Reader.bind_ne_crash (fun _ => Reader.take_ne_crash) (fun bytes s => ?_) s
  split
  · exact nofun
  refine Reader.bind_ne_crash readU32_ne_crash (fun version s => ?_) s
  split
  · exact nofun
  refine Reader.bind_ne_crash readU32_ne_crash (fun opIdLen s => ?_) s
  refine Reader.bind_ne_crash (readBuffer_ne_crash opIdLen) (fun opIdBytes s => ?_) s
  cases F.parseCid opIdBytes with
  | ok opId => exact Reader.pure_ne_crash opId s
  | error e => exact nofun

theorem readModel_ne_crash (s : Bytes) : readModel s ≠ .crash := by
  refine Reader.bind_ne_crash readU32_ne_crash (fun modelLen s => ?_) s
  refine Reader.bind_ne_crash (readBuffer_ne_crash modelLen) (fun modelBytes s => ?_) s
  cases String.fromUTF8? ⟨modelBytes.toArray⟩ with
  | some model => exact Reader.pure_ne_crash model s
  | none => exact nofun

theorem readFields_ne_crash (s : Bytes) : readFields s ≠ .crash := by
  have taken : ∀ s, readExact 8 s ≠ .crash := fun _ => Reader.take_ne_crash
  refine Reader.bind_ne_crash readModel_ne_crash (fun _ => ?_) s
  refine Reader.bind_ne_crash readU32_ne_crash fun _ => ?_
  refine Reader.bind_ne_crash taken fun _ => ?_
  refine Reader.bind_ne_crash taken fun _ => ?_
  refine Reader.bind_ne_crash taken fun _ => ?_
  exact Reader.bind_ne_crash (Reader.bind_ne_crash taken fun _ => Reader.pure_ne_crash _) fun _ =>
    Reader.pure_ne_crash _

theorem readVector_ne_crash (dim : UInt32) (s : Bytes) : readVector dim s ≠ .crash := by
  have small := dim.toNat_lt
  refine Reader.bind_ne_crash (fun s crashed => ?_)
    (fun _ => Reader.many_ne_crash readU32_ne_crash _) s
  have exceeds := Reader.reserve_eq_crash.mp crashed
  unfold isizeMax at exceeds
  omega

/-- Only the buffers of the points can be too large: that of the identifiers, or once these are
read that of the vectors. -/
theorem readPoints_eq_crash_iff {dim : UInt32} {nPoints : UInt64} :
    readPoints dim nPoints s = .crash ↔ isizeMax < 16 * nPoints.toNat ∨
      isizeMax < 24 * nPoints.toNat ∧ 16 * nPoints.toNat ≤ s.length := by
  constructor
  · intro crashed
    rcases Reader.bind_eq_crash.mp crashed with here | ⟨_, t, first, later⟩
    · exact .inl (Reader.reserve_eq_crash.mp here)
    obtain ⟨-, same⟩ := Reader.reserve_eq_value.mp first
    rcases Reader.bind_eq_crash.mp later with here | ⟨ids, u, first, later⟩
    · have taken : ∀ s, readId s ≠ .crash :=
        Reader.bind_ne_crash (fun _ => Reader.take_ne_crash) fun _ => Reader.pure_ne_crash _
      exact absurd here (Reader.many_ne_crash taken _ _)
    obtain ⟨idBytes, idLength, -⟩ := Reader.many_eq_value
      (fun s id r found => (⟨readId_eq_value found, trivial⟩ : s = StableId.toBytes id ++ r ∧ True))
      first
    have bytes : (ids.flatMap StableId.toBytes).length = 16 * ids.length :=
      Reader.length_flatMap length_toBytes ids
    rcases Reader.bind_eq_crash.mp later with here | ⟨_, v, -, last⟩
    · refine .inr ⟨Reader.reserve_eq_crash.mp here, ?_⟩
      rw [same, idBytes, List.length_append, bytes]
      omega
    · exact absurd last (Reader.bind_ne_crash
        (Reader.many_ne_crash (readVector_ne_crash dim) _) (fun _ => Reader.pure_ne_crash _) _)
  · intro exceeds
    rcases lt_or_ge isizeMax (16 * nPoints.toNat) with large | fits
    · exact Reader.bind_eq_crash.mpr (.inl (Reader.reserve_eq_crash.mpr large))
    obtain ⟨exceeds, enough⟩ := exceeds.resolve_left (Nat.not_lt.mpr fits)
    have each : ∀ s : Bytes, 16 ≤ s.length → ∃ id, readId s = .value (id, s.drop 16) :=
      fun s enough => ⟨_, Reader.map_eq_value.mpr ⟨s.take 16, if_pos enough, rfl⟩⟩
    obtain ⟨ids, r, first⟩ := Reader.many_of_length each enough
    refine Reader.bind_eq_crash.mpr (.inr ⟨(), s, Reader.reserve_eq_value.mpr ⟨fits, rfl⟩, ?_⟩)
    refine Reader.bind_eq_crash.mpr (.inr ⟨ids, r, first, ?_⟩)
    exact Reader.bind_eq_crash.mpr (.inl (Reader.reserve_eq_crash.mpr exceeds))

end Parts

/-! ## The whole file -/

section File

variable {F : Formats} {opId : Cid} {efSearch : UInt64} {bytes : Bytes}

/-- A complete encoding of an index, for some operation. -/
def Encodes (F : Formats) (opId : Cid) (idx : HnswVectorIndex) (bytes : Bytes) : Prop :=
  ∃ opIdBytes knobs, opIdBytes.length < 2 ^ 32 ∧ F.parseCid opIdBytes = .ok opId ∧
    (asBytes idx.model).length < 2 ^ 32 ∧ knobs.length = 24 ∧
    bytes = opFields opIdBytes ++
      (indexFields idx.model idx.dim knobs (UInt64.ofNat idx.ids.length) ++
        pointFields idx.ids idx.points)

/-- A header, for an operation, that asks for more room than there can be. -/
def Overfull (F : Formats) (opId : Cid) (bytes : Bytes) : Prop :=
  ∃ opIdBytes model dim knobs nPoints rest, opIdBytes.length < 2 ^ 32 ∧
    F.parseCid opIdBytes = .ok opId ∧ (asBytes model).length < 2 ^ 32 ∧ List.length knobs = 24 ∧
    bytes = opFields opIdBytes ++ (indexFields model dim knobs nPoints ++ rest) ∧
    (isizeMax < 16 * UInt64.toNat nPoints ∨
      isizeMax < 24 * nPoints.toNat ∧ 16 * nPoints.toNat ≤ List.length rest)

/-- What was being saved when it was interrupted. -/
def CutShort (idx : HnswVectorIndex) (opId : Cid) (bytes : Bytes) : Prop :=
  ∃ whole, saveToPath idx opId = some whole ∧ bytes <+: whole ∧ bytes ≠ whole

theorem toNat_ids {idx : HnswVectorIndex} (valid : idx.Valid) :
    (UInt64.ofNat idx.ids.length).toNat = idx.ids.length := by
  have held := valid.held
  have aligned := valid.aligned
  unfold isizeMax at held
  rw [UInt64.toNat_ofNat']
  exact Nat.mod_eq_of_lt (by omega)

theorem load_of_opId {storedOpId : Cid} {r : Bytes}
    (stored : readOpId F bytes = .value (storedOpId, r)) (same : storedOpId = opId) :
    loadFromPath F opId efSearch bytes = readIndex efSearch r := by
  rw [loadFromPath, Reader.bind_of_value stored, if_neg (not_not.mpr same)]

/-- **What is loaded.**  Exactly the valid indexes with an encoding, for the expected operation, at
the front of the file. -/
theorem load_eq_value_iff {idx : HnswVectorIndex} {rest : Bytes} :
    loadFromPath F opId efSearch bytes = .value (idx, rest) ↔
      idx.Valid ∧ idx.efSearch = efSearch ∧ ∃ used, bytes = used ++ rest ∧ Encodes F opId idx used := by
  constructor
  · intro loaded
    obtain ⟨storedOpId, t, first, found⟩ := Reader.bind_eq_value.mp loaded
    obtain ⟨opIdBytes, opSmall, parsed, opFront⟩ := readOpId_eq_value first
    split at found
    · cases found
    rename_i same
    obtain ⟨⟨model, dim, nPoints⟩, u, first, found⟩ := Reader.bind_eq_value.mp found
    obtain ⟨knobs, small, knobLength, fieldsFront⟩ := readFields_eq_value first
    obtain ⟨⟨ids, points⟩, first, index⟩ := Reader.map_eq_value.mp found
    obtain ⟨held, idLength, length, uniform, pointsFront⟩ := readPoints_eq_value first
    cases index
    have count : UInt64.ofNat ids.length = nPoints := by rw [idLength, UInt64.ofNat_toNat]
    refine ⟨⟨idLength.trans length.symm, uniform, by rw [length]; exact held⟩, rfl,
      opFields opIdBytes ++ (indexFields model dim knobs nPoints ++ pointFields ids points), ?_,
      opIdBytes, knobs, opSmall, not_not.mp same ▸ parsed, small, knobLength, by rw [count]⟩
    rw [opFront, fieldsFront, pointsFront]
    simp only [List.append_assoc]
  · rintro ⟨valid, rfl, used, rfl, opIdBytes, knobs, opSmall, parsed, small, knobLength, rfl⟩
    have count := toNat_ids valid
    have held := valid.held
    rw [List.append_assoc, load_of_opId (reads_opId opSmall parsed _) rfl, List.append_assoc,
      readIndex, Reader.bind_of_value (reads_fields small knobLength _)]
    refine Reader.map_eq_value.mpr ⟨(idx.ids, idx.points), ?_, rfl⟩
    refine reads_points ?_ count.symm ?_ valid.uniform rest
    · rw [count, valid.aligned]
      exact held
    · rw [count, valid.aligned]

/-- When loading crashes: the header asks for too much room. -/
theorem load_eq_crash_iff : loadFromPath F opId efSearch bytes = .crash ↔ Overfull F opId bytes := by
  constructor
  · intro crashed
    rcases Reader.bind_eq_crash.mp crashed with here | ⟨storedOpId, t, first, found⟩
    · exact absurd here (readOpId_ne_crash F bytes)
    obtain ⟨opIdBytes, opSmall, parsed, opFront⟩ := readOpId_eq_value first
    split at found
    · cases found
    rename_i same
    rcases Reader.bind_eq_crash.mp found with here | ⟨⟨model, dim, nPoints⟩, u, first, found⟩
    · exact absurd here (readFields_ne_crash _)
    obtain ⟨knobs, small, knobLength, fieldsFront⟩ := readFields_eq_value first
    rcases Reader.bind_eq_crash.mp found with here | ⟨_, v, -, last⟩
    · refine ⟨opIdBytes, model, dim, knobs, nPoints, u, opSmall, not_not.mp same ▸ parsed, small,
        knobLength, ?_, readPoints_eq_crash_iff.mp here⟩
      rw [opFront, fieldsFront]
    · cases last
  · rintro ⟨opIdBytes, model, dim, knobs, nPoints, rest, opSmall, parsed, small, knobLength, rfl,
      exceeds⟩
    rw [load_of_opId (reads_opId opSmall parsed _) rfl, readIndex,
      Reader.bind_of_value (reads_fields small knobLength _)]
    exact Reader.bind_eq_crash.mpr (.inl (readPoints_eq_crash_iff.mpr exceeds))

/-- The identifier that is saved is read back. -/
theorem reads_savedOp (F : Formats) (savedOp : Cid) :
    Reader.Reads (readOpId F) (opFields savedOp.toBytes) savedOp := by
  have short := savedOp.length_toBytes_le
  exact reads_opId (by omega) (F.parseCid_toBytes savedOp)

theorem encodes_of_save {idx : HnswVectorIndex} {savedOp : Cid} {whole : Bytes}
    (saved : saveToPath idx savedOp = some whole) : Encodes F savedOp idx whole := by
  have short := savedOp.length_toBytes_le
  unfold saveToPath at saved
  split at saved
  · rename_i small
    refine ⟨savedOp.toBytes, _, by omega, F.parseCid_toBytes savedOp, small, ?_,
      (Option.some.inj saved).symm⟩
    simp [le64]
  · cases saved

/-- **Round trip.** -/
theorem load_save {idx : HnswVectorIndex} (valid : idx.Valid) (saved : saveToPath idx opId = some bytes) :
    loadFromPath F opId efSearch bytes = .value ({ idx with efSearch := efSearch }, []) := by
  obtain ⟨aligned, uniform, held⟩ := valid
  have encodes : Encodes F opId idx bytes := encodes_of_save saved
  exact load_eq_value_iff.mpr ⟨⟨aligned, uniform, held⟩, rfl, bytes, (List.append_nil _).symm,
    encodes⟩

/-- Behind the identifier of another operation everything is a miss. -/
theorem load_stale {savedOp : Cid} (other : savedOp ≠ opId) (rest : Bytes) :
    loadFromPath F opId efSearch (opFields savedOp.toBytes ++ rest) = .miss := by
  rw [loadFromPath, Reader.bind_of_value (reads_savedOp F savedOp rest), if_pos other]
  rfl

theorem opFields_front {idx : HnswVectorIndex} {savedOp : Cid} {whole : Bytes}
    (saved : saveToPath idx savedOp = some whole) : opFields savedOp.toBytes <+: whole := by
  unfold saveToPath at saved
  split at saved
  · rw [← Option.some.inj saved]
    exact List.prefix_append _ _
  · cases saved

theorem load_save_stale {idx : HnswVectorIndex} {savedOp : Cid} (other : savedOp ≠ opId)
    (saved : saveToPath idx savedOp = some bytes) : loadFromPath F opId efSearch bytes = .miss := by
  obtain ⟨rest, rfl⟩ := opFields_front saved
  exact load_stale other rest

/-- The cache is safe on a file: it neither crashes nor invents an index, a file that was saved
is loaded or stale, and one that is cut short is a miss. -/
structure Safe (F : Formats) (opId : Cid) (efSearch : UInt64) (bytes : Bytes) : Prop where
  returns : loadFromPath F opId efSearch bytes ≠ .crash
  encoded : ∀ idx rest, loadFromPath F opId efSearch bytes = .value (idx, rest) →
    idx.Valid ∧ ∃ used, bytes = used ++ rest ∧ Encodes F opId idx used
  saved : ∀ (idx : HnswVectorIndex) savedOp, idx.Valid → saveToPath idx savedOp = some bytes →
    loadFromPath F opId efSearch bytes =
      if savedOp = opId then .value ({ idx with efSearch := efSearch }, []) else .miss
  cut : ∀ (idx : HnswVectorIndex) savedOp, idx.Valid → CutShort idx savedOp bytes →
    loadFromPath F opId efSearch bytes = .miss

/-- A file that is cut short is a miss exactly if it holds the identifier of another operation. -/
theorem load_cut_iff {idx : HnswVectorIndex} {savedOp : Cid} (valid : idx.Valid)
    (cut : CutShort idx savedOp bytes) :
    loadFromPath F opId efSearch bytes = .miss ↔
      savedOp ≠ opId ∧ (opFields savedOp.toBytes).length ≤ bytes.length := by
  obtain ⟨whole, saved, isPrefix, short⟩ := cut
  constructor
  · intro missed
    constructor
    · rintro rfl
      obtain ⟨e, failed⟩ := (stable_load F savedOp efSearch).cut (load_save valid saved) isPrefix short
      rw [failed] at missed
      cases missed
    · by_contra early
      -- the cut lies within what is read for the identifier
      have within : bytes <+: opFields savedOp.toBytes :=
        List.prefix_of_prefix_length_le isPrefix (opFields_front saved) (by omega)
      have fewer : bytes ≠ opFields savedOp.toBytes := by
        rintro rfl
        exact early (le_refl _)
      have reads := reads_savedOp F savedOp []
      rw [List.append_nil] at reads
      obtain ⟨e, failed⟩ := (stable_opId F).cut reads within fewer
      rcases Reader.bind_eq_miss.mp missed with here | ⟨_, _, found, -⟩
      · rw [failed] at here
        cases here
      · rw [failed] at found
        cases found
  · rintro ⟨other, beyond⟩
    obtain ⟨rest, rfl⟩ := List.prefix_of_prefix_length_le (opFields_front saved) isPrefix beyond
    exact load_stale other rest

/-- **When the cache is safe.**  On exactly the files whose header does not ask for too much room
and that, if they are cut short, hold the identifier of another operation. -/
theorem cache_safe_iff (F : Formats) (opId : Cid) (efSearch : UInt64) (bytes : Bytes) :
    Safe F opId efSearch bytes ↔ ¬ Overfull F opId bytes ∧
      ∀ (idx : HnswVectorIndex) savedOp, idx.Valid → CutShort idx savedOp bytes →
        savedOp ≠ opId ∧ (opFields savedOp.toBytes).length ≤ bytes.length := by
  constructor
  · intro safe
    refine ⟨fun exceeds => safe.returns (load_eq_crash_iff.mpr exceeds), fun idx savedOp valid cut => ?_⟩
    exact (load_cut_iff valid cut).mp (safe.cut idx savedOp valid cut)
  · rintro ⟨fits, cuts⟩
    refine ⟨fun crashed => fits (load_eq_crash_iff.mp crashed), fun idx rest loaded => ?_,
      fun idx savedOp valid saved => ?_, fun idx savedOp valid cut => ?_⟩
    · obtain ⟨valid, -, used⟩ := load_eq_value_iff.mp loaded
      exact ⟨valid, used⟩
    · split
      · rename_i same
        subst same
        exact load_save valid saved
      · rename_i other
        exact load_save_stale other saved
    · exact (load_cut_iff valid cut).mpr (cuts idx savedOp valid cut)

end File

def someOp : Cid := .v0 (List.replicate 32 0) (List.length_replicate ..)

/-- An index without points. -/
def emptyIndex : HnswVectorIndex := ⟨"m", 0, [], [], 0⟩

/-- A save that was interrupted within the magic number makes loading fail, and a header that
counts too many points makes it crash. -/
theorem cut_in_magic :
    (CutShort emptyIndex someOp [0x4D, 0x4E, 0x45, 0x4D] ∧
      loadFromPath (Fragment.formats []) someOp 0 [0x4D, 0x4E, 0x45, 0x4D] =
        .error .failedToFillWholeBuffer ∧
      ¬ Safe (Fragment.formats []) someOp 0 [0x4D, 0x4E, 0x45, 0x4D]) ∧
    loadFromPath (Fragment.formats []) someOp 0 (opFields someOp.toBytes ++
      (indexFields "m" 0 (List.replicate 24 0) (2 ^ 59) ++ [])) = .crash := by
  have cut : CutShort emptyIndex someOp [0x4D, 0x4E, 0x45, 0x4D] :=
    ⟨_, if_pos (by decide), ⟨_, rfl⟩, by simp [opFields, magic]⟩
  have failed : loadFromPath (Fragment.formats []) someOp 0 [0x4D, 0x4E, 0x45, 0x4D] =
      .error .failedToFillWholeBuffer := rfl
  have valid : emptyIndex.Valid := ⟨rfl, nofun, Nat.zero_le _⟩
  refine ⟨⟨cut, failed, fun safe => ?_⟩, load_eq_crash_iff.mpr ?_⟩
  · have missed := safe.cut emptyIndex someOp valid cut
    rw [failed] at missed
    cases missed
  · have short := someOp.length_toBytes_le
    exact ⟨someOp.toBytes, "m", 0, List.replicate 24 0, 2 ^ 59, [], by omega,
      (Fragment.formats []).parseCid_toBytes someOp, by decide, by decide, rfl, .inl (by decide)⟩

end Mnem.Ann
