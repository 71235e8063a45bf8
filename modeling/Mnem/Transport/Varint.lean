/-
# Transport.Varint — the two readers of a number in an archive

`read_varint_u64` reads the length of the header, `next_block` has a loop of
its own for the length of a section.  Both shift seven bits at a time into a
64-bit register; `checked_shl` looks at the distance alone, so the bits of the
tenth byte that do not fit are lost.  The loops agree with `Leb128.scan`, and
so with each other (`readVarintU64_eq`, `readBlockLength_eq`): they are strict
exactly on strings without such a tenth byte (`varint_strict_iff`).
-/
import Mnem.Transport.Car

namespace Mnem.Transport

open Theory

set_option autoImplicit false

/-! ## The loops -/

/-- `u64::checked_shl`. -/
def checkedShl (value : UInt64) (shift : Nat) : Option UInt64 :=
  if shift < 64 then some (value <<< UInt64.ofNat shift) else none

/-- The rounds of `read_varint_u64`, from round `i` on. -/
def readVarintFrom : Nat → Nat → UInt64 → Nat → Bytes → Except TransportError (UInt64 × Bytes)
  | 0, _, _, _, _ => .error (.car "varint too long")
  | _ + 1, i, _, _, [] => .error (.car ("truncated varint at byte " ++ toString i))
  | rounds + 1, i, result, shift, byte :: stream =>
      match checkedShl (byte &&& 0x7F).toUInt64 shift with
      | none => .error (.car "varint overflow")
      | some shifted =>
          let result := result ||| shifted
          if byte &&& 0x80 = 0 then
            if 0 < i ∧ byte = 0 then .error (.car "non-minimal varint") else .ok (result, stream)
          else readVarintFrom rounds (i + 1) result (shift + 7) stream

def readVarintU64 (stream : Bytes) : Except TransportError (UInt64 × Bytes) :=
  readVarintFrom 10 0 0 0 stream

/-- The loop of `next_block`: the length so far, the shift, the count and the byte at hand. -/
def readBlockLengthFrom (len : UInt64) (shift i : Nat) (byte : UInt8) (stream : Bytes) :
    Except TransportError (UInt64 × Bytes) :=
  match checkedShl (byte &&& 0x7F).toUInt64 shift with
  | none => .error (.car "block-length varint overflow")
  | some shifted =>
      let len := len ||| shifted
      if byte &&& 0x80 = 0 then
        if 0 < i ∧ byte = 0 then .error (.car "non-minimal block-length varint") else .ok (len, stream)
      else if 64 ≤ shift + 7 then .error (.car "block-length varint too long")
      else
        match stream with
        | [] => .error (.car "truncated block-length varint")
        | next :: stream => readBlockLengthFrom len (shift + 7) (i + 1) next stream

/-- The length at the front of a section; nothing at the end of the archive. -/
def readBlockLength : Bytes → Except TransportError (Option (UInt64 × Bytes))
  | [] => .ok none
  | first :: stream => some <$> readBlockLengthFrom 0 0 0 first stream

/-! ## The loops are one scan -/

section Scan

theorem continues_iff (byte : UInt8) : byte &&& 0x80 = 0 ↔ byte.toNat < 128 := by
  have all : ∀ b : Fin 256, UInt8.ofNat b.val &&& 0x80 = 0 ↔ b.val < 128 := by decide +kernel
  have at_byte := all ⟨byte.toNat, byte.toNat_lt⟩
  rwa [UInt8.ofNat_toNat] at at_byte

theorem group_eq (byte : UInt8) : (byte &&& 0x7F).toUInt64.toNat = byte.toNat % 128 := by
  rw [UInt8.toNat_toUInt64, UInt8.toNat_and]
  exact Nat.and_two_pow_sub_one_eq_mod byte.toNat 7

/-- A group is shifted and cut to the register. -/
theorem checkedShl_group (byte : UInt8) {i : Nat} (low : i < 10) :
    ∃ shifted, checkedShl (byte &&& 0x7F).toUInt64 (7 * i) = some shifted ∧
      shifted.toNat = (byte.toNat % 128 * 2 ^ (7 * i)) % 2 ^ 64 := by
  refine ⟨_, if_pos (by omega), ?_⟩
  rw [UInt64.toNat_shiftLeft, group_eq, UInt64.toNat_ofNat', Nat.shiftLeft_eq]
  have small : 7 * i % 2 ^ 64 % 64 = 7 * i := by omega
  rw [small]

/-- One round of the scan, as the loops write it. -/
theorem scanFrom_round (rounds : Nat) {i : Nat} (low : i < 10) (acc : UInt64) (byte : UInt8)
    (stream : Bytes) : ∃ shifted, checkedShl (byte &&& 0x7F).toUInt64 (7 * i) = some shifted ∧
      Leb128.scanFrom true (rounds + 1) i acc.toNat (byte :: stream) =
        if byte &&& 0x80 = 0 then
          if 0 < i ∧ byte = 0 then .error .nonMinimal else .ok ((acc ||| shifted).toNat, stream)
        else Leb128.scanFrom true rounds (i + 1) (acc ||| shifted).toNat stream := by
  obtain ⟨shifted, shl, value⟩ := checkedShl_group byte low
  refine ⟨shifted, shl, ?_⟩
  rw [Leb128.scanFrom, UInt64.toNat_or, value]
  refine if_congr (continues_iff byte).symm (if_congr ?_ rfl rfl) rfl
  simp

theorem readVarintFrom_eq : ∀ (rounds i : Nat) (result : UInt64) (stream : Bytes), rounds + i = 10 →
    (readVarintFrom rounds i result (7 * i) stream).map (fun r => (r.1.toNat, r.2)) =
      (Leb128.scanFrom true rounds i result.toNat stream).mapError varintError
  | 0, _, _, _, _ => rfl
  | _ + 1, _, _, [], _ => rfl
  | rounds + 1, i, result, byte :: stream, whole => by
      obtain ⟨shifted, shl, round⟩ := scanFrom_round rounds (by omega : i < 10) result byte stream
      rw [readVarintFrom, shl, round]
      dsimp only
      split
      · split <;> rfl
      · rw [← readVarintFrom_eq rounds (i + 1) _ stream (by omega), Nat.mul_succ]

theorem readBlockLengthFrom_eq (stream : Bytes) : ∀ (rounds i : Nat) (len : UInt64) (byte : UInt8),
    rounds + i = 9 →
      (readBlockLengthFrom len (7 * i) i byte stream).map (fun r => (r.1.toNat, r.2)) =
        (Leb128.scanFrom true (rounds + 1) i len.toNat (byte :: stream)).mapError
          blockLengthError := by
  induction stream with
  | nil =>
      intro rounds i len byte whole
      obtain ⟨shifted, shl, round⟩ := scanFrom_round rounds (by omega : i < 10) len byte []
      unfold readBlockLengthFrom
      rw [shl, round]
      dsimp only
      split
      · split <;> rfl
      · cases rounds with
        | zero =>
            rw [if_pos (by omega)]
            rfl
        | succ rounds =>
            rw [if_neg (by omega)]
            rfl
  | cons next stream ih =>
      intro rounds i len byte whole
      obtain ⟨shifted, shl, round⟩ := scanFrom_round rounds (by omega : i < 10) len byte (next :: stream)
      unfold readBlockLengthFrom
      rw [shl, round]
      dsimp only
      split
      · split <;> rfl
      · cases rounds with
        | zero =>
            rw [if_pos (by omega)]
            rfl
        | succ rounds =>
            rw [if_neg (by omega), ← ih rounds (i + 1) _ next (by omega), Nat.mul_succ]

/-- The reader of the header's length is the scan. -/
theorem readVarintU64_eq (stream : Bytes) :
    (readVarintU64 stream).map (fun r => (r.1.toNat, r.2)) =
      (Leb128.scan true stream).mapError varintError :=
  readVarintFrom_eq 10 0 0 stream rfl

/-- The reader of a section's length is the scan. -/
theorem readBlockLength_eq (first : UInt8) (stream : Bytes) :
    (readBlockLengthFrom 0 0 0 first stream).map (fun r => (r.1.toNat, r.2)) =
      (Leb128.scan true (first :: stream)).mapError blockLengthError :=
  readBlockLengthFrom_eq stream 9 0 0 first rfl

/-- A reader that is the scan finds what the scan finds. -/
theorem reads_iff {r : Except TransportError (UInt64 × Bytes)} {stream : Bytes}
    {f : Leb128.Fault → TransportError}
    (same : r.map (fun r => (r.1.toNat, r.2)) = (Leb128.scan true stream).mapError f) :
    (∀ n rest, r = .ok (n, rest) ↔ stream = Leb128.encode n.toNat ++ rest) ↔
      ¬ Leb128.Overflows stream := by
  rw [← Leb128.scan_iff]
  have small : ∀ n rest, Leb128.scan true stream = .ok (n, rest) →
      ∃ m : UInt64, m.toNat = n ∧ r = .ok (m, rest) := by
    intro n rest found
    rw [found] at same
    cases r with
    | error e => cases same
    | ok p =>
        obtain ⟨rfl, rfl⟩ := Prod.mk.inj (Except.ok.inj same)
        exact ⟨p.1, rfl, rfl⟩
  have scanned : ∀ n rest, r = .ok (n, rest) ↔ Leb128.scan true stream = .ok (n.toNat, rest) := by
    intro n rest
    constructor
    · rintro rfl
      cases found : Leb128.scan true stream with
      | error e =>
          rw [found] at same
          cases same
      | ok p =>
          rw [found] at same
          exact congrArg Except.ok (Except.ok.inj same).symm
    · intro found
      obtain ⟨m, value, rfl⟩ := small _ _ found
      rw [UInt64.toNat_inj.mp value]
  constructor
  · intro strict n rest
    constructor
    · intro found
      obtain ⟨m, rfl, read⟩ := small n rest found
      exact ⟨m.toNat_lt, (strict m rest).mp read⟩
    · rintro ⟨fits, rfl⟩
      exact Leb128.scan_encode true fits rest
  · intro strict n rest
    rw [scanned, strict]
    exact and_iff_right n.toNat_lt

end Scan

/-- Each reader finds exactly the encodings of 64-bit numbers, and takes no more than one, unless
nine bytes go on and a tenth ends with more than one bit. -/
theorem varint_strict_iff (stream : Bytes) :
    ((∀ n rest, readVarintU64 stream = .ok (n, rest) ↔ stream = Leb128.encode n.toNat ++ rest) ↔
        ¬ Leb128.Overflows stream) ∧
      ((∀ n rest, readBlockLength stream = .ok (some (n, rest)) ↔
          stream = Leb128.encode n.toNat ++ rest) ↔ ¬ Leb128.Overflows stream) := by
  refine ⟨reads_iff (readVarintU64_eq stream), ?_⟩
  cases stream with
  | nil =>
      have fits : ¬ Leb128.Overflows [] := by
        rintro ⟨front, last, rest, whole, -⟩
        simp at whole
      refine iff_of_true (fun n rest => iff_of_false nofun fun whole => ?_) fits
      exact Leb128.encode_ne_nil n.toNat (List.append_eq_nil_iff.mp whole.symm).1
  | cons first stream =>
      rw [← reads_iff (readBlockLength_eq first stream)]
      refine forall₂_congr fun n rest => iff_congr ?_ Iff.rfl
      exact Exec.map_eq_ok.trans (by simp)

/-- `2 ^ 64` is read as zero, as is zero. -/
theorem varint_overflow : readVarintU64 [0x80, 0x80, 0x80, 0x80, 0x80, 0x80, 0x80, 0x80, 0x80, 0x02] =
      .ok (0, []) ∧
    readBlockLength [0x80, 0x80, 0x80, 0x80, 0x80, 0x80, 0x80, 0x80, 0x80, 0x02] =
      .ok (some (0, [])) ∧
    readVarintU64 [0x00] = .ok (0, []) := ⟨rfl, rfl, rfl⟩

end Mnem.Transport
