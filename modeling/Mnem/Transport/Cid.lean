/-
# Transport.Cid — content identifiers as bytes

The wire form of an identifier is four varints and a digest, or for the legacy
form the multihash alone.  `cidBinaryLength` finds where an identifier at the
front of a section ends without knowing its digest; on what `toBytes` writes it
is right (`cidBinaryLength_toBytes`).

The hash functions, the identifier parser and the DAG-CBOR codec come from
packages outside the repository.  `Formats` collects what the repository relies
on in them.
-/
import Mnem.Codec.DagCbor
import Mnem.Theory.Leb128

namespace Mnem.Transport

open Theory

set_option autoImplicit false

abbrev Bytes := List UInt8

/-! ## Identifiers -/

def hashSha2256 : UInt64 := 0x12

def hashBlake3256 : UInt64 := 0x1e

def codecDagCbor : UInt64 := 0x71

def codecRaw : UInt64 := 0x55

/-- The codec of a legacy identifier. -/
def codecDagPb : UInt64 := 0x70

/-- An algorithm code and a digest, which fits the buffer of 64 bytes. -/
structure Multihash where
  code : UInt64
  digest : Bytes
  bounded : digest.length ≤ 64
  deriving DecidableEq

/-- `<code: varint> <size: varint> <digest>`. -/
def Multihash.toBytes (h : Multihash) : Bytes :=
  Leb128.encode h.code.toNat ++ (Leb128.encode h.digest.length ++ h.digest)

/-- A content identifier; the legacy form has no codec and a SHA-256 digest. -/
inductive Cid where
  | v0 (digest : Bytes) (full : digest.length = 32)
  | v1 (codec : UInt64) (hash : Multihash)
  deriving DecidableEq

theorem length_le_of_full {digest : Bytes} (full : digest.length = 32) : digest.length ≤ 64 := by
  omega

namespace Cid

def codec : Cid → UInt64
  | v0 _ _ => codecDagPb
  | v1 codec _ => codec

def multihash : Cid → Multihash
  | v0 digest full => ⟨hashSha2256, digest, length_le_of_full full⟩
  | v1 _ hash => hash

/-- `<version-varint=1> <codec-varint> <multihash>`, or the multihash alone. -/
def toBytes : Cid → Bytes
  | v0 digest full => Multihash.toBytes ⟨hashSha2256, digest, length_le_of_full full⟩
  | v1 codec hash =>
      Leb128.encode 1 ++ (Leb128.encode codec.toNat ++ hash.toBytes)

theorem length_toBytes_le (c : Cid) : c.toBytes.length ≤ 104 := by
  have one := Leb128.length_encode_le 1
  cases c with
  | v0 digest full =>
      have code := Leb128.length_encode_le hashSha2256.toNat
      have size := Leb128.length_encode_le digest.length
      simp only [toBytes, Multihash.toBytes, List.length_append]
      omega
  | v1 codec hash =>
      have bounded := hash.bounded
      have kind := Leb128.length_encode_le codec.toNat
      have code := Leb128.length_encode_le hash.code.toNat
      have size := Leb128.length_encode_le hash.digest.length
      simp only [toBytes, Multihash.toBytes, List.length_append]
      omega

theorem toBytes_ne_nil (c : Cid) : c.toBytes ≠ [] := by
  cases c <;> simp [toBytes, Multihash.toBytes, Leb128.encode_ne_nil]

end Cid

/-! ## The end of an identifier -/

/-- A number at the front of a buffer, and how many bytes it takes. -/
def decodeInlineVarint (buf : Bytes) : Option (Nat × Nat) :=
  match Leb128.scan false buf with
  | .ok (value, rest) => some (value, buf.length - rest.length)
  | .error _ => none

theorem decodeInlineVarint_encode {n : Nat} (small : n < 2 ^ 64) (rest : Bytes) :
    decodeInlineVarint (Leb128.encode n ++ rest) = some (n, (Leb128.encode n).length) := by
  rw [decodeInlineVarint, Leb128.scan_encode false small rest]
  simp

/-- The length of a version 1 identifier at the front of `buf`. -/
def cidBinaryLength (buf : Bytes) : Option Nat := do
  let cursor := 0
  let (version, n) ← decodeInlineVarint (buf.drop cursor)
  let cursor := cursor + n
  if version ≠ 1 then none
  else
    let (_, n) ← decodeInlineVarint (buf.drop cursor)
    let cursor := cursor + n
    let (_, n) ← decodeInlineVarint (buf.drop cursor)
    let cursor := cursor + n
    let (digestSize, n) ← decodeInlineVarint (buf.drop cursor)
    let cursor := cursor + n
    if cursor + digestSize < 2 ^ 64 then some (cursor + digestSize) else none

/-- The length of what `toBytes` writes is found, whatever follows. -/
theorem cidBinaryLength_toBytes (codec : UInt64) (hash : Multihash) (rest : Bytes) :
    cidBinaryLength ((Cid.v1 codec hash).toBytes ++ rest) =
      some (Cid.v1 codec hash).toBytes.length := by
  have bounded := hash.bounded
  have version := decodeInlineVarint_encode (by decide : 1 < 2 ^ 64)
    (Leb128.encode codec.toNat ++ (hash.toBytes ++ rest))
  have kind := decodeInlineVarint_encode codec.toNat_lt (hash.toBytes ++ rest)
  have code := decodeInlineVarint_encode hash.code.toNat_lt
    (Leb128.encode hash.digest.length ++ (hash.digest ++ rest))
  have size := decodeInlineVarint_encode (by omega : hash.digest.length < 2 ^ 64)
    (hash.digest ++ rest)
  have short := (Cid.v1 codec hash).length_toBytes_le
  simp only [Cid.toBytes, Multihash.toBytes, List.length_append, List.append_assoc] at *
  simp only [cidBinaryLength, List.drop_zero, version, Option.bind_eq_bind, Option.bind_some,
    Nat.zero_add, List.drop_left, kind, ← List.drop_drop, code, size, ne_eq, not_true_eq_false,
    if_false]
  rw [if_pos (by omega)]
  simp only [Nat.add_assoc]

/-! ## What the repository relies on -/

/-- The header of an archive as a value. -/
def headerIpld (version : Nat) (roots : List Cid) : Ipld Cid :=
  .map [("roots", .list (roots.map .link)), ("version", .integer version)]

/-- The hash functions, the identifier parser and the DAG-CBOR codec. -/
structure Formats where
  sha2_256 : Bytes → Bytes
  length_sha2_256 : ∀ data, (sha2_256 data).length = 32
  blake3_256 : Bytes → Bytes
  length_blake3_256 : ∀ data, (blake3_256 data).length = 32
  parseCid : Bytes → Except String Cid
  parseCid_toBytes : ∀ c, parseCid c.toBytes = .ok c
  cbor : Codec.DagCbor Cid
  /-- A header has an encoding, which spends less than 128 bytes on a root. -/
  encode_header : ∀ roots, roots.length < 2 ^ 64 → ∃ body,
    cbor.encode (headerIpld 1 roots) = .ok body ∧ body.length ≤ 64 + 128 * roots.length

theorem Formats.length_sha2_256_le (F : Formats) (data : Bytes) : (F.sha2_256 data).length ≤ 64 :=
  length_le_of_full (F.length_sha2_256 data)

theorem Formats.length_blake3_256_le (F : Formats) (data : Bytes) :
    (F.blake3_256 data).length ≤ 64 :=
  length_le_of_full (F.length_blake3_256 data)

/-- The identifier of `data` under the codec and the algorithm of another one. -/
def recomputeCid (F : Formats) (claimed : Cid) (data : Bytes) : Option Cid :=
  if claimed.multihash.code = hashSha2256 then
    some (.v1 claimed.codec ⟨hashSha2256, F.sha2_256 data, F.length_sha2_256_le data⟩)
  else if claimed.multihash.code = hashBlake3256 then
    some (.v1 claimed.codec ⟨hashBlake3256, F.blake3_256 data, F.length_blake3_256_le data⟩)
  else none

/-- An identifier that is recomputed is of version 1. -/
theorem recomputeCid_v1 {F : Formats} {claimed c : Cid} {data : Bytes}
    (computed : recomputeCid F claimed data = some c) : ∃ codec hash, c = .v1 codec hash := by
  unfold recomputeCid at computed
  split at computed
  · exact ⟨_, _, (Option.some.inj computed).symm⟩
  · split at computed
    · exact ⟨_, _, (Option.some.inj computed).symm⟩
    · cases computed

/-- Whether an identifier is recomputed is up to its algorithm. -/
theorem recomputeCid_known {F : Formats} {claimed c : Cid} {data : Bytes}
    (computed : recomputeCid F claimed data = some c) (other : Bytes) :
    ∃ d, recomputeCid F claimed other = some d := by
  unfold recomputeCid at computed ⊢
  split
  · exact ⟨_, rfl⟩
  · rename_i unlike
    rw [if_neg unlike] at computed
    split
    · exact ⟨_, rfl⟩
    · rename_i unknown
      rw [if_neg unknown] at computed
      cases computed

end Mnem.Transport
