/-
# Theory.Leb128 — numbers as seven-bit groups, lowest first

Every byte but the last has its high bit set.  A 64-bit number takes at most
ten bytes; `scan` reads up to ten, dropping the bits of the tenth byte that do
not fit, and refuses a zero last byte where it is told to.  It finds exactly
the encodings where no bit is dropped (`scan_iff`).
-/
import Mathlib.Data.Nat.Bitwise

namespace Mnem.Theory.Leb128

set_option autoImplicit false

/-- At most `room` groups of a number. -/
def encodeUpTo : Nat → Nat → List UInt8
  | 0, _ => []
  | room + 1, n =>
      if n < 128 then [UInt8.ofNat n]
      else UInt8.ofNat (n % 128 + 128) :: encodeUpTo room (n / 128)

def encode (n : Nat) : List UInt8 := encodeUpTo 10 n

inductive Fault where
  | truncated (byte : Nat)
  | nonMinimal
  | tooLong
  deriving DecidableEq

/-- Read groups at shifts `7 * i`, `7 * (i + 1)`, … into `acc`. -/
def scanFrom (minimal : Bool) : Nat → Nat → Nat → List UInt8 → Except Fault (Nat × List UInt8)
  | 0, _, _, _ => .error .tooLong
  | _ + 1, i, _, [] => .error (.truncated i)
  | room + 1, i, acc, byte :: rest =>
      let acc := acc ||| (byte.toNat % 128 * 2 ^ (7 * i)) % 2 ^ 64
      if byte.toNat < 128 then
        if minimal && 0 < i && byte == 0 then .error .nonMinimal else .ok (acc, rest)
      else scanFrom minimal room (i + 1) acc rest

def scan (minimal : Bool) (bytes : List UInt8) : Except Fault (Nat × List UInt8) :=
  scanFrom minimal 10 0 0 bytes

theorem encodeUpTo_ne_nil (room n : Nat) : encodeUpTo (room + 1) n ≠ [] := by
  unfold encodeUpTo
  split <;> simp

theorem length_encodeUpTo_le (room n : Nat) : (encodeUpTo room n).length ≤ room := by
  induction room generalizing n with
  | zero => simp [encodeUpTo]
  | succ room ih =>
      unfold encodeUpTo
      split
      · simp
      · simpa using ih (n / 128)

theorem encode_ne_nil (n : Nat) : encode n ≠ [] := encodeUpTo_ne_nil 9 n

theorem length_encode_le (n : Nat) : (encode n).length ≤ 10 := length_encodeUpTo_le 10 n

/-- One group lands above what was read so far. -/
theorem or_group {acc group i : Nat} (low : acc < 2 ^ (7 * i)) (fits : group * 2 ^ (7 * i) < 2 ^ 64) :
    acc ||| (group * 2 ^ (7 * i)) % 2 ^ 64 = acc + group * 2 ^ (7 * i) := by
  rw [Nat.mod_eq_of_lt fits, Nat.or_comm, Nat.mul_comm, ← Nat.two_pow_add_eq_or_of_lt low]
  omega

/-- Reading an encoded number leaves what follows it. -/
theorem scanFrom_encodeUpTo (minimal : Bool) (rest : List UInt8) : ∀ (room i acc n : Nat),
    n < 128 ^ room → 0 < room → acc < 2 ^ (7 * i) → n * 2 ^ (7 * i) < 2 ^ 64 → (0 < i → 0 < n) →
      scanFrom minimal room i acc (encodeUpTo room n ++ rest) = .ok (acc + n * 2 ^ (7 * i), rest)
  | 0, _, _, _, _, room, _, _, _ => by omega
  | room + 1, i, acc, n, small, _, low, fits, positive => by
      unfold encodeUpTo
      by_cases last : n < 128
      · have byte : (UInt8.ofNat n).toNat = n := by
          rw [UInt8.toNat_ofNat']
          omega
        have kept : (minimal && decide (0 < i) && UInt8.ofNat n == 0) = false := by
          by_cases first : 0 < i
          · have nonzero : UInt8.ofNat n ≠ 0 := by
              intro zero
              have value := congrArg UInt8.toNat zero
              rw [byte] at value
              have := positive first
              simp at value
              omega
            simp [nonzero]
          · simp [first]
        rw [if_pos last]
        simp only [List.singleton_append, scanFrom, byte, if_pos last, kept, Bool.false_eq_true,
          if_false]
        rw [Nat.mod_eq_of_lt last, or_group low fits]
      · have byte : (UInt8.ofNat (n % 128 + 128)).toNat = n % 128 + 128 := by
          rw [UInt8.toNat_ofNat']
          omega
        have group : (n % 128 + 128) % 128 = n % 128 := by omega
        have width : 2 ^ (7 * (i + 1)) = 2 ^ (7 * i) * 128 := by rw [Nat.mul_succ, Nat.pow_add]
        have split : n % 128 * 2 ^ (7 * i) + n / 128 * 2 ^ (7 * (i + 1)) = n * 2 ^ (7 * i) := by
          rw [width, Nat.mul_comm (2 ^ (7 * i)) 128, ← Nat.mul_assoc, ← Nat.add_mul]
          congr 1
          omega
        have below : acc + n % 128 * 2 ^ (7 * i) < 2 ^ (7 * (i + 1)) := by
          have most : n % 128 * 2 ^ (7 * i) ≤ 127 * 2 ^ (7 * i) :=
            Nat.mul_le_mul_right _ (by omega)
          omega
        have more : n / 128 < 128 ^ room := by
          rw [Nat.div_lt_iff_lt_mul (by decide)]
          rwa [Nat.pow_succ] at small
        have roomy : 0 < room := by
          rcases Nat.eq_zero_or_pos room with rfl | positive
          · simp at more
            omega
          · exact positive
        rw [if_neg last]
        simp only [List.cons_append, scanFrom, byte, group]
        rw [if_neg (by omega), or_group low (by omega),
          scanFrom_encodeUpTo minimal rest room (i + 1) _ (n / 128) more roomy below (by omega)
            (fun _ => by omega), Nat.add_assoc, split]

theorem scan_encode (minimal : Bool) {n : Nat} (small : n < 2 ^ 64) (rest : List UInt8) :
    scan minimal (encode n ++ rest) = .ok (n, rest) := by
  have room : n < 128 ^ 10 := small.trans (by decide)
  have read := scanFrom_encodeUpTo minimal rest 10 0 0 n room (by decide) (by decide)
    (by simpa using small) (by simp)
  simpa [scan, encode] using read

/-- A number that was read stands in front of what is left. -/
theorem scanFrom_suffix {minimal : Bool} : ∀ {room i acc n : Nat} {bytes rest : List UInt8},
    scanFrom minimal room i acc bytes = .ok (n, rest) → ∃ used, used ≠ [] ∧ bytes = used ++ rest
  | 0, _, _, _, _, _, read => by cases read
  | _ + 1, _, _, _, [], _, read => by cases read
  | room + 1, i, acc, n, byte :: bytes, rest, read => by
      rw [scanFrom] at read
      split at read
      · split at read
        · cases read
        · cases read
          exact ⟨[byte], by simp, rfl⟩
      · obtain ⟨used, -, split⟩ := scanFrom_suffix read
        exact ⟨byte :: used, by simp, by rw [split]; rfl⟩

theorem scan_suffix {minimal : Bool} {n : Nat} {bytes rest : List UInt8}
    (read : scan minimal bytes = .ok (n, rest)) : ∃ used, used ≠ [] ∧ bytes = used ++ rest :=
  scanFrom_suffix read

/-! ## Strict reading -/

/-- Nine bytes that go on and a tenth that ends with more than the one bit that is left: a number of
`2 ^ 64` or more. -/
def Overflows (bytes : List UInt8) : Prop :=
  ∃ front last rest, bytes = front ++ last :: rest ∧ front.length = 9 ∧
    (∀ b ∈ front, 128 ≤ b.toNat) ∧ 2 ≤ last.toNat ∧ last.toNat < 128

/-- What is read is an encoding, unless the tenth byte is too great. -/
theorem encodeUpTo_of_scanFrom : ∀ {room i acc n : Nat} {bytes rest : List UInt8},
    room + i = 10 → acc < 2 ^ (7 * i) → scanFrom true room i acc bytes = .ok (n, rest) →
      (∃ front last, bytes = front ++ last :: rest ∧ front.length + i = 9 ∧
          (∀ b ∈ front, 128 ≤ b.toNat) ∧ 2 ≤ last.toNat ∧ last.toNat < 128) ∨
        ∃ m, bytes = encodeUpTo room m ++ rest ∧ n = acc + m * 2 ^ (7 * i) ∧
          m * 2 ^ (7 * i) < 2 ^ 64 ∧ (0 < i → 0 < m)
  | 0, _, _, _, _, _, _, _, read => by cases read
  | _ + 1, _, _, _, [], _, _, _, read => by cases read
  | room + 1, i, acc, n, byte :: bytes, rest, whole, low, read => by
      have width : 2 ^ (7 * (i + 1)) = 2 ^ (7 * i) * 128 := by rw [Nat.mul_succ, Nat.pow_add]
      have byte_lt := byte.toNat_lt
      rw [scanFrom] at read
      split at read
      · rename_i last
        split at read
        · cases read
        · rename_i minimal
          cases read
          by_cases great : i = 9 ∧ 2 ≤ byte.toNat
          · exact .inl ⟨[], byte, rfl, by simp [great.1], nofun, great.2, last⟩
          · have fits : byte.toNat * 2 ^ (7 * i) < 2 ^ 64 := by
              by_cases tenth : i = 9
              · subst tenth
                omega
              · have room : 2 ^ (7 * i) ≤ 2 ^ 56 := Nat.pow_le_pow_right (by omega) (by omega)
                have most := Nat.mul_le_mul (show byte.toNat ≤ 127 by omega) room
                omega
            refine .inr ⟨byte.toNat, ?_, ?_, fits, fun later => ?_⟩
            · rw [encodeUpTo, if_pos last, UInt8.ofNat_toNat]
              rfl
            · rw [Nat.mod_eq_of_lt last, or_group low fits]
            · rcases Nat.eq_zero_or_pos byte.toNat with zero | positive
              · have none : byte = 0 := UInt8.toNat_inj.mp zero
                simp [later, none] at minimal
              · exact positive
      · rename_i more
        have room : room ≠ 0 := by
          rintro rfl
          cases read
        have small : 2 ^ (7 * i) ≤ 2 ^ 56 := Nat.pow_le_pow_right (by omega) (by omega)
        have fits : byte.toNat % 128 * 2 ^ (7 * i) < 2 ^ 64 := by
          have most := Nat.mul_le_mul (show byte.toNat % 128 ≤ 127 by omega) small
          omega
        have below : acc + byte.toNat % 128 * 2 ^ (7 * i) < 2 ^ (7 * (i + 1)) := by
          have most := Nat.mul_le_mul_right (2 ^ (7 * i)) (show byte.toNat % 128 ≤ 127 by omega)
          omega
        rw [or_group low fits] at read
        rcases encodeUpTo_of_scanFrom (by omega) below read with
          ⟨front, last, rfl, length, goes, great⟩ | ⟨m, rfl, value, less, positive⟩
        · refine .inl ⟨byte :: front, last, rfl, by rw [List.length_cons]; omega, ?_, great⟩
          intro b member
          rcases List.mem_cons.mp member with rfl | later
          · omega
          · exact goes b later
        · have nonzero : 0 < m := positive (by omega)
          have quotient : (byte.toNat % 128 + 128 * m) / 128 = m := by omega
          have remainder : (byte.toNat % 128 + 128 * m) % 128 = byte.toNat % 128 := by omega
          have product : (byte.toNat % 128 + 128 * m) * 2 ^ (7 * i) =
              byte.toNat % 128 * 2 ^ (7 * i) + m * 2 ^ (7 * (i + 1)) := by
            rw [width, Nat.add_mul, Nat.mul_comm (2 ^ (7 * i)) 128, ← Nat.mul_assoc m,
              Nat.mul_comm m 128]
          refine .inr ⟨byte.toNat % 128 + 128 * m, ?_, by rw [value, product]; omega, ?_, fun _ => by omega⟩
          · have group : byte.toNat % 128 + 128 = byte.toNat := by omega
            rw [encodeUpTo, if_neg (by omega), quotient, remainder, group, UInt8.ofNat_toNat]
            rfl
          · -- the bits above this group leave room for it
            have chunks : 2 ^ 64 = 2 ^ (64 - 7 * (i + 1)) * 2 ^ (7 * (i + 1)) := by
              rw [← Nat.pow_add]
              congr 1
              omega
            have less' : m < 2 ^ (64 - 7 * (i + 1)) := by
              rw [chunks] at less
              exact Nat.lt_of_mul_lt_mul_right less
            have most := Nat.mul_le_mul_right (2 ^ (7 * (i + 1))) (Nat.succ_le_of_lt less')
            rw [Nat.succ_mul, ← chunks] at most
            have group := Nat.mul_le_mul_right (2 ^ (7 * i)) (show byte.toNat % 128 ≤ 127 by omega)
            have positive := Nat.two_pow_pos (7 * i)
            omega

/-- A number whose encoding ends in a byte is as great as that byte is at its place. -/
theorem encodeUpTo_concat_le : ∀ {room n : Nat} {front : List UInt8} {last : UInt8},
    encodeUpTo room n = front ++ [last] → last.toNat < 128 → last.toNat * 128 ^ front.length ≤ n
  | 0, n, front, last, split, _ => by
      have length := congrArg List.length split
      simp [encodeUpTo] at length
  | room + 1, n, front, last, split, small => by
      rw [encodeUpTo] at split
      split at split
      · cases front with
        | nil =>
            obtain rfl := (List.cons.inj split).1
            rw [UInt8.toNat_ofNat', List.length_nil, Nat.pow_zero, Nat.mul_one]
            exact Nat.mod_le n _
        | cons b front =>
            have rest := (List.cons.inj split).2
            simp at rest
      · cases front with
        | nil =>
            obtain rfl := (List.cons.inj split).1
            rw [UInt8.toNat_ofNat'] at small
            omega
        | cons b front =>
            have tail : encodeUpTo room (n / 128) = front ++ [last] := (List.cons.inj split).2
            have high := encodeUpTo_concat_le tail small
            rw [List.length_cons, Nat.pow_succ, ← Nat.mul_assoc]
            exact (Nat.le_div_iff_mul_le (by decide)).mp high

/-- Bytes that go on and one that ends are read, if there is room. -/
theorem scanFrom_reads : ∀ {front : List UInt8} {room i acc : Nat} {last : UInt8} {rest : List UInt8},
    front.length < room → (∀ b ∈ front, 128 ≤ b.toNat) → 0 < last.toNat → last.toNat < 128 →
      ∃ n, scanFrom true room i acc (front ++ last :: rest) = .ok (n, rest)
  | [], room + 1, i, acc, last, rest, _, _, positive, small => by
      have nonzero : last ≠ 0 := by
        rintro rfl
        exact absurd positive (by decide)
      refine ⟨acc ||| (last.toNat % 128 * 2 ^ (7 * i)) % 2 ^ 64, ?_⟩
      rw [List.nil_append, scanFrom, if_pos small, if_neg (by simp [nonzero])]
  | b :: front, room + 1, i, acc, last, rest, fits, goes, positive, small => by
      have more := goes b List.mem_cons_self
      have fits' : front.length < room := by
        rw [List.length_cons] at fits
        omega
      obtain ⟨n, read⟩ := @scanFrom_reads front room (i + 1)
        (acc ||| (b.toNat % 128 * 2 ^ (7 * i)) % 2 ^ 64) last rest fits'
        (fun c member => goes c (List.mem_cons_of_mem b member)) positive small
      refine ⟨n, ?_⟩
      rw [List.cons_append, scanFrom, if_neg (by omega)]
      exact read
  | front, 0, _, _, _, _, fits, _, _, _ => absurd fits (Nat.not_lt_zero _)

/-- Reading finds exactly the encodings of 64-bit numbers, unless the tenth byte is too great. -/
theorem scan_iff (bytes : List UInt8) :
    (∀ n rest, scan true bytes = .ok (n, rest) ↔ n < 2 ^ 64 ∧ bytes = encode n ++ rest) ↔
      ¬ Overflows bytes := by
  constructor
  · rintro strict ⟨front, last, rest, rfl, length, goes, great, small⟩
    obtain ⟨n, read⟩ := @scanFrom_reads front 10 0 0 last rest (by omega) goes (by omega) small
    obtain ⟨fits, whole⟩ := (strict n rest).mp read
    have same : encodeUpTo 10 n = front ++ [last] := by
      rw [← List.singleton_append, ← List.append_assoc] at whole
      exact (List.append_cancel_right whole).symm
    have least := encodeUpTo_concat_le same small
    rw [length] at least
    omega
  · intro fits n rest
    constructor
    · intro read
      rcases encodeUpTo_of_scanFrom (i := 0) rfl (by decide) read with
        ⟨front, last, rfl, length, goes, great⟩ | ⟨m, whole, value, less, -⟩
      · exact absurd ⟨front, last, rest, rfl, length, goes, great⟩ fits
      · have same : n = m := by omega
        rw [same]
        exact ⟨by omega, whole⟩
    · rintro ⟨small, rfl⟩
      exact scan_encode true small rest

end Mnem.Theory.Leb128
