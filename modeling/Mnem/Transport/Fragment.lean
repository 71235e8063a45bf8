/-
# Transport.Fragment — formats that evaluate, on a fragment of DAG-CBOR

The results about archives hold for every `Formats`.  This module gives one: the
binary form of identifiers, canonical DAG-CBOR for lists of lists and links and
for archive headers, and digests looked up in a table.  It is what the concrete
archives of the other modules are computed with.
-/
import Mnem.Transport.Cid

namespace Mnem.Transport.Fragment

open Theory

set_option autoImplicit false

/-! ## Identifiers -/

def number (bytes : Bytes) : Except String (Nat × Bytes) :=
  (Leb128.scan true bytes).mapError fun _ => "invalid varint"

/-- The binary form of an identifier, read from the front. -/
def readCid (bytes : Bytes) : Except String Cid := do
  let (version, bytes) ← number bytes
  let (codec, bytes) ← number bytes
  if version = 0x12 ∧ codec = 0x20 then
    if full : (bytes.take 32).length = 32 then return .v0 (bytes.take 32) full
    else throw "failed to fill whole buffer"
  else if version = 1 then do
    let (code, bytes) ← number bytes
    let (size, bytes) ← number bytes
    if fits : (bytes.take size).length = size ∧ size ≤ 64 then
      return .v1 (UInt64.ofNat codec) ⟨UInt64.ofNat code, bytes.take size, by omega⟩
    else throw "invalid multihash"
  else throw "unrecognized CID version"

theorem number_encode {n : Nat} (small : n < 2 ^ 64) (rest : Bytes) :
    number (Leb128.encode n ++ rest) = .ok (n, rest) := by
  rw [number, Leb128.scan_encode true small]
  rfl

theorem readCid_toBytes (c : Cid) : readCid c.toBytes = .ok c := by
  cases c with
  | v0 digest full =>
      have code := number_encode (by decide : hashSha2256.toNat < 2 ^ 64)
        (Leb128.encode digest.length ++ digest)
      have size := number_encode (by omega : digest.length < 2 ^ 64) digest
      have all : digest.take 32 = digest := List.take_of_length_le (by omega)
      unfold readCid
      rw [Cid.toBytes, Multihash.toBytes, code]
      change (number (Leb128.encode digest.length ++ digest) >>= _) = _
      rw [size]
      change (if hashSha2256.toNat = 0x12 ∧ digest.length = 0x20 then _ else _) = _
      rw [if_pos ⟨rfl, full⟩, dif_pos (by rw [all]; exact full)]
      simp only [all]
      rfl
  | v1 codec hash =>
      have bounded := hash.bounded
      have version := number_encode (by decide : 1 < 2 ^ 64)
        (Leb128.encode codec.toNat ++ hash.toBytes)
      have kind := number_encode codec.toNat_lt hash.toBytes
      have code := number_encode hash.code.toNat_lt
        (Leb128.encode hash.digest.length ++ hash.digest)
      have size := number_encode (by omega : hash.digest.length < 2 ^ 64) hash.digest
      have all : hash.digest.take hash.digest.length = hash.digest := List.take_length
      unfold readCid
      rw [Cid.toBytes, version]
      dsimp only [bind, Except.bind]
      rw [kind]
      dsimp only
      rw [if_neg (by omega), if_pos rfl, Multihash.toBytes, code]
      dsimp only
      rw [size]
      dsimp only
      rw [dif_pos ⟨by rw [all], bounded⟩]
      simp only [all, UInt64.ofNat_toNat]
      rfl

theorem toBytes_injective : Function.Injective Cid.toBytes := by
  intro a b same
  have back := readCid_toBytes a
  rw [same, readCid_toBytes b] at back
  exact (Except.ok.inj back).symm

/-! ## Heads -/

/-- The head of an item: its major type and a number, in the shortest form. -/
def head (major n : Nat) : Bytes :=
  if n < 24 then [UInt8.ofNat (32 * major + n)]
  else if n < 2 ^ 8 then [UInt8.ofNat (32 * major + 24), UInt8.ofNat n]
  else if n < 2 ^ 16 then
    [UInt8.ofNat (32 * major + 25), UInt8.ofNat (n / 2 ^ 8), UInt8.ofNat n]
  else if n < 2 ^ 32 then
    [UInt8.ofNat (32 * major + 26), UInt8.ofNat (n / 2 ^ 24), UInt8.ofNat (n / 2 ^ 16),
      UInt8.ofNat (n / 2 ^ 8), UInt8.ofNat n]
  else
    [UInt8.ofNat (32 * major + 27), UInt8.ofNat (n / 2 ^ 56), UInt8.ofNat (n / 2 ^ 48),
      UInt8.ofNat (n / 2 ^ 40), UInt8.ofNat (n / 2 ^ 32), UInt8.ofNat (n / 2 ^ 24),
      UInt8.ofNat (n / 2 ^ 16), UInt8.ofNat (n / 2 ^ 8), UInt8.ofNat n]

/-- Big-endian. -/
def bigEndian (bytes : Bytes) : Nat := bytes.foldl (fun n b => 256 * n + b.toNat) 0

def readHead : Bytes → Option (Nat × Nat × Bytes)
  | [] => none
  | b :: rest =>
      let width := match b.toNat % 32 with
        | 24 => 1
        | 25 => 2
        | 26 => 4
        | 27 => 8
        | _ => 0
      if b.toNat % 32 < 24 then some (b.toNat / 32, b.toNat % 32, rest)
      else some (b.toNat / 32, bigEndian (rest.take width), rest.drop width)

theorem readHead_head {major n : Nat} (kind : major < 8) (small : n < 2 ^ 64) (rest : Bytes) :
    readHead (head major n ++ rest) = some (major, n, rest) := by
  unfold head
  have byte : ∀ m, m < 32 → (UInt8.ofNat (32 * major + m)).toNat = 32 * major + m := by
    intro m low
    rw [UInt8.toNat_ofNat']
    omega
  have quotient : ∀ m, m < 32 → (32 * major + m) / 32 = major := by omega
  have remainder : ∀ m, m < 32 → (32 * major + m) % 32 = m := by omega
  split
  · rename_i tiny
    simp only [List.singleton_append, readHead, byte n (by omega), quotient n (by omega),
      remainder n (by omega), tiny, if_true]
  all_goals
    repeat' split
    all_goals
      simp only [List.cons_append, List.nil_append, readHead, byte 24 (by omega), byte 25 (by omega),
        byte 26 (by omega), byte 27 (by omega), quotient 24 (by omega), quotient 25 (by omega),
        quotient 26 (by omega), quotient 27 (by omega), remainder 24 (by omega),
        remainder 25 (by omega), remainder 26 (by omega), remainder 27 (by omega)]
      simp [bigEndian]
      omega

theorem length_head_le (major n : Nat) : (head major n).length ≤ 9 := by
  unfold head
  repeat' split
  all_goals simp

/-! ## Values -/

/-- Tag 42, then a byte string: a zero and the identifier. -/
def linkBytes (c : Cid) : Bytes :=
  head 6 42 ++ (head 2 (c.toBytes.length + 1) ++ (0 :: c.toBytes))

mutual

/-- Lists of lists and links. -/
def encodeItem : Ipld Cid → Option Bytes
  | .link c => some (linkBytes c)
  | .list xs => do
      let items ← encodeItems xs
      if xs.length < 2 ^ 64 then return head 4 xs.length ++ items else none
  | _ => none

def encodeItems : List (Ipld Cid) → Option Bytes
  | [] => some []
  | x :: xs => do
      let item ← encodeItem x
      let items ← encodeItems xs
      return item ++ items

end

/-- The keys of a header, the shorter first, each behind its head. -/
def rootsKey : Bytes := [0x65, 0x72, 0x6f, 0x6f, 0x74, 0x73]

def versionKey : Bytes := [0x67, 0x76, 0x65, 0x72, 0x73, 0x69, 0x6f, 0x6e]

def encode : Ipld Cid → Except String Bytes
  | .map [("roots", .list roots), ("version", .integer 1)] =>
      match encodeItem (.list roots) with
      | some list => .ok (head 5 2 ++ (rootsKey ++ (list ++ (versionKey ++ head 0 1))))
      | none => .error "outside the fragment"
  | v =>
      match encodeItem v with
      | some bytes => .ok bytes
      | none => .error "outside the fragment"

theorem linkBytes_cancel {a b : Cid} {s t : Bytes} (same : linkBytes a ++ s = linkBytes b ++ t) :
    a = b ∧ s = t := by
  have bounds := a.length_toBytes_le
  have bounds' := b.length_toBytes_le
  simp only [linkBytes, List.append_assoc, List.append_cancel_left_eq] at same
  have heads := congrArg readHead same
  rw [readHead_head (by omega) (by omega), readHead_head (by omega) (by omega)] at heads
  simp only [List.cons_append, Option.some.injEq, Prod.mk.injEq, true_and, Nat.add_right_cancel_iff,
    List.cons.injEq] at heads
  obtain ⟨bytes, rest⟩ := List.append_inj heads.2 heads.1
  exact ⟨toBytes_injective bytes, rest⟩

theorem readHead_link (c : Cid) (s : Bytes) :
    ∃ rest, readHead (linkBytes c ++ s) = some (6, 42, rest) := by
  rw [linkBytes, List.append_assoc]
  exact ⟨_, readHead_head (by omega) (by omega) _⟩

theorem encodeItem_list {xs : List (Ipld Cid)} {x : Bytes} (ran : encodeItem (.list xs) = some x) :
    ∃ items, encodeItems xs = some items ∧ xs.length < 2 ^ 64 ∧ x = head 4 xs.length ++ items := by
  rw [encodeItem] at ran
  obtain ⟨items, inside, kept⟩ := Option.bind_eq_some_iff.mp ran
  split at kept
  · exact ⟨items, inside, ‹_›, (Option.some.inj kept).symm⟩
  · cases kept

theorem readHead_list {xs : List (Ipld Cid)} {x : Bytes} (ran : encodeItem (.list xs) = some x)
    (s : Bytes) : ∃ items, encodeItems xs = some items ∧
      readHead (x ++ s) = some (4, xs.length, items ++ s) := by
  obtain ⟨items, inside, small, rfl⟩ := encodeItem_list ran
  refine ⟨items, inside, ?_⟩
  rw [List.append_assoc, readHead_head (by omega) small]

mutual

theorem encodeItem_cancel : ∀ (a b : Ipld Cid) {x y s t : Bytes}, encodeItem a = some x →
    encodeItem b = some y → x ++ s = y ++ t → a = b ∧ s = t := by
  intro a b x y s t left right same
  have heads := congrArg readHead same
  cases a <;> cases b <;> try simp only [encodeItem, reduceCtorEq] at left right
  case link.link c d =>
    obtain rfl := Option.some.inj left
    obtain rfl := Option.some.inj right
    obtain ⟨rfl, rest⟩ := linkBytes_cancel same
    exact ⟨rfl, rest⟩
  case link.list c ys =>
    obtain rfl := Option.some.inj left
    obtain ⟨rest, tag⟩ := readHead_link c s
    obtain ⟨items, -, list⟩ := readHead_list right t
    simp [tag, list] at heads
  case list.link xs d =>
    obtain rfl := Option.some.inj right
    obtain ⟨rest, tag⟩ := readHead_link d t
    obtain ⟨items, -, list⟩ := readHead_list left s
    simp [tag, list] at heads
  case list.list xs ys =>
    obtain ⟨items, ran, list⟩ := readHead_list left s
    obtain ⟨items', ran', list'⟩ := readHead_list right t
    rw [list, list'] at heads
    simp only [Option.some.injEq, Prod.mk.injEq, true_and] at heads
    obtain ⟨rfl, rest⟩ := encodeItems_cancel xs ys heads.1 ran ran' heads.2
    exact ⟨rfl, rest⟩

theorem encodeItems_cancel : ∀ (xs ys : List (Ipld Cid)) {x y s t : Bytes},
    xs.length = ys.length → encodeItems xs = some x → encodeItems ys = some y →
      x ++ s = y ++ t → xs = ys ∧ s = t
  | [], [], _, _, _, _, _, left, right, same => by
      obtain rfl := Option.some.inj left
      obtain rfl := Option.some.inj right
      exact ⟨rfl, same⟩
  | [], _ :: _, _, _, _, _, len, _, _, _ => by simp at len
  | _ :: _, [], _, _, _, _, len, _, _, _ => by simp at len
  | a :: xs, b :: ys, _, _, _, _, len, left, right, same => by
      obtain ⟨x, one, left⟩ := Option.bind_eq_some_iff.mp left
      obtain ⟨xs', rest, left⟩ := Option.bind_eq_some_iff.mp left
      obtain ⟨y, one', right⟩ := Option.bind_eq_some_iff.mp right
      obtain ⟨ys', rest', right⟩ := Option.bind_eq_some_iff.mp right
      obtain rfl := Option.some.inj left
      obtain rfl := Option.some.inj right
      rw [List.append_assoc, List.append_assoc] at same
      obtain ⟨rfl, same⟩ := encodeItem_cancel a b one one' same
      obtain ⟨rfl, same⟩ := encodeItems_cancel xs ys (by simpa using len) rest rest' same
      exact ⟨rfl, same⟩

end

theorem readHead_item {v : Ipld Cid} {x : Bytes} (ran : encodeItem v = some x) (s : Bytes) :
    ∃ major n rest, readHead (x ++ s) = some (major, n, rest) ∧ major ≠ 5 := by
  cases v <;> try simp only [encodeItem, reduceCtorEq] at ran
  case link c =>
    obtain rfl := Option.some.inj ran
    obtain ⟨rest, tag⟩ := readHead_link c s
    exact ⟨6, 42, rest, tag, by omega⟩
  case list xs =>
    obtain ⟨items, -, list⟩ := readHead_list ran s
    exact ⟨4, _, _, list, by omega⟩

theorem encode_cases {v : Ipld Cid} {bytes : Bytes} (ran : encode v = .ok bytes) :
    (∃ roots list, v = .map [("roots", .list roots), ("version", .integer 1)] ∧
      encodeItem (.list roots) = some list ∧
        bytes = head 5 2 ++ (rootsKey ++ (list ++ (versionKey ++ head 0 1)))) ∨
      encodeItem v = some bytes := by
  unfold encode at ran
  split at ran
  · split at ran
    · cases ran
      exact .inl ⟨_, _, rfl, ‹_›, rfl⟩
    · cases ran
  · split at ran
    · cases ran
      exact .inr ‹_›
    · cases ran

theorem encode_injective {v w : Ipld Cid} {bytes : Bytes} (left : encode v = .ok bytes)
    (right : encode w = .ok bytes) : v = w := by
  have header : ∀ rest, readHead (head 5 2 ++ rest) = some (5, 2, rest) :=
    fun rest => readHead_head (by omega) (by omega) rest
  rcases encode_cases left with ⟨roots, list, rfl, ran, eq⟩ | item
  · rcases encode_cases right with ⟨roots', list', rfl, ran', eq'⟩ | item'
    · have same := eq.symm.trans eq'
      simp only [List.append_cancel_left_eq] at same
      rw [(encodeItem_cancel _ _ ran ran' same).1]
    · obtain ⟨major, n, rest, reads, other⟩ := readHead_item item' []
      rw [List.append_nil, eq, header] at reads
      simp only [Option.some.injEq, Prod.mk.injEq] at reads
      exact absurd reads.1.symm other
  · rcases encode_cases right with ⟨roots', list', rfl, ran', eq'⟩ | item'
    · obtain ⟨major, n, rest, reads, other⟩ := readHead_item item []
      rw [List.append_nil, eq', header] at reads
      simp only [Option.some.injEq, Prod.mk.injEq] at reads
      exact absurd reads.1.symm other
    · exact (encodeItem_cancel v w item item' (s := []) (t := []) rfl).1

/-! ## The formats -/

open Classical in
/-- The codec of the fragment: what it encodes it decodes, and nothing else. -/
noncomputable def cbor : Codec.DagCbor Cid where
  encode := encode
  decode bytes := if known : ∃ v, encode v = .ok bytes then .ok known.choose
    else .error "outside the fragment"
  decode_encode v bytes _ written := by
    have known : ∃ v, encode v = .ok bytes := ⟨v, written⟩
    rw [dif_pos known, encode_injective known.choose_spec written]
    exact .inl rfl

/-- A map of another length than a header. -/
def isMap (bytes : Bytes) : Bool :=
  match readHead bytes with
  | some (5, n, _) => n ≠ 2
  | _ => false

/-- Values beside the fragment, under their encodings. -/
structure Maps where
  decodings : List (Bytes × Ipld Cid)
  nodup : (decodings.map Prod.fst).Nodup
  outside : ∀ bytes ∈ decodings.map Prod.fst, isMap bytes = true

theorem encode_outside {bytes : Bytes} (outside : isMap bytes = true) (v : Ipld Cid) :
    encode v ≠ .ok bytes := by
  intro ran
  unfold isMap at outside
  split at outside
  case h_2 => cases outside
  rename_i n rest map
  have other : n ≠ 2 := of_decide_eq_true outside
  rcases encode_cases ran with ⟨roots, list, -, -, rfl⟩ | item
  · rw [readHead_head (by omega) (by omega)] at map
    simp only [Option.some.injEq, Prod.mk.injEq, true_and] at map
    exact other map.1.symm
  · obtain ⟨major, m, rest', reads, unlike⟩ := readHead_item item []
    rw [List.append_nil, map] at reads
    simp only [Option.some.injEq, Prod.mk.injEq] at reads
    exact unlike reads.1.symm

open Classical in
/-- The codec of the fragment and of these maps. -/
noncomputable def cborWith (maps : Maps) : Codec.DagCbor Cid where
  encode v :=
    match encode v with
    | .ok bytes => .ok bytes
    | .error message =>
        match maps.decodings.find? (fun e => e.2 = v) with
        | some e => .ok e.1
        | none => .error message
  decode bytes :=
    match Entries.get? bytes maps.decodings with
    | some v => .ok v
    | none => cbor.decode bytes
  decode_encode v bytes ordered written := by
    cases inside : encode v with
    | ok bytes' =>
        rw [inside] at written
        obtain rfl := Except.ok.inj written
        have absent : Entries.get? bytes' maps.decodings = none := by
          refine Entries.get?_eq_none_iff.mpr fun e member same => ?_
          have outside := maps.outside e.1 (List.mem_map_of_mem member)
          rw [same] at outside
          exact encode_outside outside v inside
        rw [absent]
        exact cbor.decode_encode v bytes' ordered inside
    | error message =>
        rw [inside] at written
        cases found : maps.decodings.find? (fun e => e.2 = v) with
        | none =>
            rw [found] at written
            cases written
        | some e =>
            rw [found] at written
            obtain rfl := Except.ok.inj written
            have value : e.2 = v := by simpa using List.find?_some found
            have member : (e.1, v) ∈ maps.decodings := by
              rw [← value]
              exact List.mem_of_find?_eq_some found
            rw [(Entries.get?_eq_some_iff_of_nodup maps.nodup).mpr member]
            exact .inl rfl

theorem length_linkBytes_le (c : Cid) : (linkBytes c).length ≤ 128 := by
  have cid := c.length_toBytes_le
  have tag := length_head_le 6 42
  have size := length_head_le 2 (c.toBytes.length + 1)
  simp only [linkBytes, List.length_append, List.length_cons]
  omega

theorem encodeItems_links (roots : List Cid) :
    encodeItems (roots.map Ipld.link) = some (roots.flatMap linkBytes) := by
  induction roots with
  | nil => rfl
  | cons root roots ih =>
      rw [List.map_cons, encodeItems, ih]
      rfl

theorem length_links_le (roots : List Cid) :
    (roots.flatMap linkBytes).length ≤ 128 * roots.length := by
  induction roots with
  | nil => exact Nat.zero_le _
  | cons root roots ih =>
      have one := length_linkBytes_le root
      rw [List.flatMap_cons, List.length_append, List.length_cons]
      omega

theorem encode_header (roots : List Cid) (small : roots.length < 2 ^ 64) :
    ∃ body, encode (headerIpld 1 roots) = .ok body ∧
      (roots.flatMap linkBytes).length ≤ body.length ∧ body.length ≤ 64 + 128 * roots.length := by
  have most := length_links_le roots
  have list : encodeItem (.list (roots.map Ipld.link)) =
      some (head 4 roots.length ++ roots.flatMap linkBytes) := by
    rw [encodeItem, encodeItems_links, List.length_map]
    change (if roots.length < 2 ^ 64 then
      some (head 4 roots.length ++ roots.flatMap linkBytes) else none) = _
    rw [if_pos small]
  have unfolded : encode (headerIpld 1 roots) =
      match encodeItem (.list (roots.map Ipld.link)) with
      | some list => Except.ok (head 5 2 ++ (rootsKey ++ (list ++ (versionKey ++ head 0 1))))
      | none => Except.error "outside the fragment" := rfl
  refine ⟨_, by rw [unfolded, list], ?_, ?_⟩
  · simp only [List.length_append]
    omega
  · have map := length_head_le 5 2
    have array := length_head_le 4 roots.length
    have version := length_head_le 0 1
    simp only [List.length_append, rootsKey, versionKey, List.length_cons, List.length_nil]
    omega

/-- A table of digests, and the front of any other string in place of its digest. -/
def digest (table : List (Bytes × Bytes)) (data : Bytes) : Bytes :=
  ((Entries.get? data table).getD data ++ List.replicate 32 0).take 32

/-- The first byte in place of a digest. -/
theorem head?_digest (table : List (Bytes × Bytes)) (data : Bytes) :
    (digest table data).head? = some (((Entries.get? data table).getD data).headD 0) := by
  unfold digest
  cases (Entries.get? data table).getD data <;> rfl

theorem length_digest (table : List (Bytes × Bytes)) (data : Bytes) :
    (digest table data).length = 32 := by
  rw [digest, List.length_take, List.length_append, List.length_replicate]
  omega

theorem length_digest_nil : ∀ data, (digest [] data).length = 32 := length_digest []

noncomputable def formats (table : List (Bytes × Bytes)) : Formats where
  sha2_256 := digest table
  length_sha2_256 := length_digest table
  blake3_256 := digest []
  length_blake3_256 := length_digest_nil
  parseCid := readCid
  parseCid_toBytes := readCid_toBytes
  cbor := cbor
  encode_header roots small := by
    obtain ⟨body, written, -, short⟩ := encode_header roots small
    exact ⟨body, written, short⟩

noncomputable def formatsWith (table : List (Bytes × Bytes)) (maps : Maps) : Formats where
  sha2_256 := digest table
  length_sha2_256 := length_digest table
  blake3_256 := digest []
  length_blake3_256 := length_digest_nil
  parseCid := readCid
  parseCid_toBytes := readCid_toBytes
  cbor := cborWith maps
  encode_header roots small := by
    obtain ⟨body, written, -, short⟩ := encode_header roots small
    refine ⟨body, ?_, short⟩
    unfold cborWith
    dsimp only
    rw [written]

/-- A map of the table is decoded. -/
theorem decode_maps {maps : Maps} {bytes : Bytes} {v : Ipld Cid}
    (found : Entries.get? bytes maps.decodings = some v) : (cborWith maps).decode bytes = .ok v := by
  unfold cborWith
  dsimp only
  rw [found]

/-- A map of the table is encoded as the first string for it. -/
theorem encode_maps {maps : Maps} {before after : List (Bytes × Ipld Cid)} {bytes : Bytes}
    {v : Ipld Cid} (split : maps.decodings = before ++ (bytes, v) :: after)
    (first : ∀ e ∈ before, e.2 ≠ v) (outside : ∃ message, encode v = .error message) :
    (cborWith maps).encode v = .ok bytes := by
  obtain ⟨message, refused⟩ := outside
  unfold cborWith
  dsimp only
  rw [refused]
  dsimp only
  rw [split, List.find?_append, List.find?_eq_none.mpr (by simpa using first), List.find?_cons]
  simp

/-! ## Some blocks -/

/-- A string in DAG-CBOR. -/
def textBytes (s : String) : Bytes := head 3 s.utf8ByteSize ++ s.toUTF8.data.toList

def linksBytes (cs : List Cid) : Bytes := head 4 cs.length ++ cs.flatMap linkBytes

/-- A map in DAG-CBOR, its fields in the order they are given. -/
def mapBytes (fields : List (String × Bytes)) : Bytes :=
  head 5 fields.length ++ fields.flatMap fun f => textBytes f.1 ++ f.2

def sha256Cid (digest : Bytes) (full : digest.length = 32) : Cid :=
  .v1 codecDagCbor ⟨hashSha2256, digest, length_le_of_full full⟩

/-- The chunk of an empty tree. -/
def leafBytes : Bytes :=
  mapBytes [("leaf", [0xf5]), ("_kind", textBytes "tree"), ("entries", head 4 0)]

def leafCid : Cid :=
  sha256Cid
    [0x27, 0x4b, 0xa3, 0x13, 0xe4, 0x43, 0x55, 0x12, 0xde, 0xaa, 0x82, 0x8d, 0xd6, 0x9b, 0x4d,
      0x1c, 0xd8, 0x58, 0x7e, 0x91, 0xf3, 0xf9, 0xc1, 0xdf, 0x39, 0xd8, 0x99, 0x02, 0x10, 0x49,
      0xeb, 0xc0]
    rfl

/-- A commit of empty trees, whose number is its time and the last byte of its change. -/
def commitBytes (number : UInt8) (parents : List Cid) (message : String) : Bytes :=
  mapBytes [("time", [number]), ("_kind", textBytes "commit"), ("edges", linkBytes leafCid),
    ("nodes", linkBytes leafCid), ("author", textBytes "ada"), ("schema", linkBytes leafCid),
    ("message", textBytes message), ("parents", linksBytes parents),
    ("change_id", head 2 16 ++ (List.replicate 15 0 ++ [number]))]

/-- `hello` and `world`. -/
def hello : Bytes := [0x68, 0x65, 0x6c, 0x6c, 0x6f]

def world : Bytes := [0x77, 0x6f, 0x72, 0x6c, 0x64]

def helloDigest : Bytes :=
  [0x2c, 0xf2, 0x4d, 0xba, 0x5f, 0xb0, 0xa3, 0x0e, 0x26, 0xe8, 0x3b, 0x2a, 0xc5, 0xb9, 0xe2, 0x9e,
    0x1b, 0x16, 0x1e, 0x5c, 0x1f, 0xa7, 0x42, 0x5e, 0x73, 0x04, 0x33, 0x62, 0x93, 0x8b, 0x98, 0x24]

def helloCid : Cid := .v1 codecRaw ⟨hashSha2256, helloDigest, by decide⟩

/-- A list of two links to `hello`. -/
def pair : Ipld Cid := .list [.link helloCid, .link helloCid]

def pairBytes : Bytes := head 4 2 ++ (linkBytes helloCid ++ (linkBytes helloCid ++ []))

/-- The digests of `hello`, `world`, a list inside 64 lists and the pair. -/
def table : List (Bytes × Bytes) :=
  [(hello, helloDigest),
    (world, [0x48, 0x6e, 0xa4, 0x62, 0x24, 0xd1, 0xbb, 0x4f, 0xb6, 0x80, 0xf3, 0x4f, 0x7c, 0x9a,
      0xd9, 0x6a, 0x8f, 0x24, 0xec, 0x88, 0xbe, 0x73, 0xea, 0x8e, 0x5a, 0x6c, 0x65, 0x26, 0x0e,
      0x9c, 0xb8, 0xa7]),
    (nestedBytes 64, [0x8c, 0x60, 0xd3, 0xb9, 0x1f, 0x66, 0x47, 0xc2, 0x11, 0x14, 0xd8, 0x21,
      0x8a, 0x12, 0x32, 0xef, 0x92, 0xff, 0xd0, 0x49, 0x96, 0x64, 0xe6, 0xd5, 0x55, 0x3b, 0x78,
      0x6a, 0x42, 0xb3, 0x67, 0x39]),
    (pairBytes, [0xcf, 0x33, 0xa9, 0xc2, 0x89, 0xf4, 0x28, 0xbc, 0x2a, 0xd3, 0x4a, 0xd5, 0x0d,
      0x0e, 0x39, 0x0f, 0x4d, 0xaf, 0x7b, 0xc9, 0x1b, 0x30, 0x36, 0xfa, 0xa2, 0x95, 0x82, 0x69,
      0x5f, 0xdc, 0x83, 0x14])]

/-- The identifier of `data` by SHA-256. -/
def cidOf (codec : UInt64) (data : Bytes) : Cid :=
  .v1 codec ⟨hashSha2256, digest table data, length_le_of_full (length_digest table data)⟩

theorem recomputeCid_cidOf (codec : UInt64) (data : Bytes) :
    recomputeCid (formats table) (cidOf codec data) data = some (cidOf codec data) := rfl

theorem cidOf_hello : cidOf codecRaw hello = helloCid := by decide

theorem encode_list {xs : List (Ipld Cid)} {bytes : Bytes}
    (item : encodeItem (.list xs) = some bytes) : encode (.list xs) = .ok bytes := by
  rw [encode, item]
  nofun

/-- A list inside lists is in the fragment. -/
theorem encode_nested : ∀ n, encodeItem (nested n) = some (nestedBytes n)
  | 0 => rfl
  | n + 1 => by
      rw [nested, encodeItem, encodeItems, encode_nested n]
      change (if 1 < 2 ^ 64 then some (head 4 1 ++ (nestedBytes n ++ [])) else none) = _
      rw [if_pos (by omega), List.append_nil]
      rfl

end Mnem.Transport.Fragment
