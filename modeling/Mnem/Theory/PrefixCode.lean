/-
# Theory.PrefixCode — self-delimiting codes, and packing them into numbers

A type has a prefix code when its values spell as lists of numbers that can be
read back off the front of any longer list.  Such codes compose: products, lists
and injective images of coded types are coded.  `pack` folds a list of numbers
into one number, injectively, and larger than each of them.  Together they give
an injective, computable numbering of any structured data in which a value is
always larger than the numbers it contains.
-/
import Mathlib.Data.Nat.Log
import Mathlib.Tactic.Ring
import Mnem.Theory.OrdMap

namespace Mnem.Theory

set_option autoImplicit false

/-- Values spell as lists of numbers that can be read off the front of any list. -/
class PrefixCode (α : Type) where
  enc : α → List ℕ
  cancel : ∀ {a b : α} {s t : List ℕ}, enc a ++ s = enc b ++ t → a = b ∧ s = t

namespace PrefixCode

variable {α β : Type}

theorem enc_injective [PrefixCode α] : Function.Injective (enc : α → List ℕ) := by
  intro a b same
  have padded : enc a ++ [] = enc b ++ [] := by rw [same]
  exact (cancel padded).1

/-- Code a type through an injection into a coded one. -/
@[reducible] def ofInjective [PrefixCode β] (f : α → β) (inj : Function.Injective f) :
    PrefixCode α where
  enc a := enc (f a)
  cancel same := (cancel same).imp_left fun h => inj h

instance : PrefixCode ℕ where
  enc n := [n]
  cancel same := List.cons.inj same

instance [PrefixCode α] [PrefixCode β] : PrefixCode (α × β) where
  enc p := enc p.1 ++ enc p.2
  cancel {p q s t} same := by
    rw [List.append_assoc, List.append_assoc] at same
    obtain ⟨first, rest⟩ := cancel same
    obtain ⟨second, rest⟩ := cancel rest
    exact ⟨Prod.ext first second, rest⟩

/-- A list spells as its length and then its elements. -/
def encAll [PrefixCode α] : List α → List ℕ
  | [] => []
  | a :: as => enc a ++ encAll as

theorem encAll_cancel [PrefixCode α] {as bs : List α} {s t : List ℕ}
    (len : as.length = bs.length) (same : encAll as ++ s = encAll bs ++ t) :
    as = bs ∧ s = t := by
  induction as generalizing bs with
  | nil =>
      cases bs with
      | nil => exact ⟨rfl, same⟩
      | cons b bs => simp at len
  | cons a as ih =>
      cases bs with
      | nil => simp at len
      | cons b bs =>
          simp only [encAll, List.append_assoc] at same
          obtain ⟨rfl, rest⟩ := cancel same
          obtain ⟨rfl, tails⟩ := ih (by simpa using len) rest
          exact ⟨rfl, tails⟩

instance [PrefixCode α] : PrefixCode (List α) where
  enc as := as.length :: encAll as
  cancel same := by
    obtain ⟨len, rest⟩ := List.cons.inj same
    exact encAll_cancel len rest

instance : PrefixCode Bool := ofInjective Bool.toNat fun a b => by cases a <;> cases b <;> simp

instance {n : ℕ} : PrefixCode (Fin n) := ofInjective Fin.val fun _ _ => Fin.ext

instance : PrefixCode UInt8 := ofInjective UInt8.toNat fun _ _ => UInt8.toNat.inj

instance : PrefixCode UInt32 := ofInjective UInt32.toNat fun _ _ => UInt32.toNat.inj

instance : PrefixCode UInt64 := ofInjective UInt64.toNat fun _ _ => UInt64.toNat.inj

instance : PrefixCode Char := ofInjective Char.toNat fun a b same => by
  have vals : a.val.toNat = b.val.toNat := same
  exact Char.ext (UInt32.toNat.inj vals)

instance : PrefixCode String := ofInjective String.toList fun _ _ => String.toList_injective

instance : PrefixCode Int :=
  ofInjective (fun i => (decide (i < 0), i.natAbs)) fun i j same => by
    obtain ⟨sign, size⟩ := Prod.mk.inj same
    rw [decide_eq_decide] at sign
    omega

instance [PrefixCode α] : PrefixCode (Option α) :=
  ofInjective Option.toList fun a b same => by
    cases a <;> cases b <;> simp_all

instance [LT α] [PrefixCode α] [PrefixCode β] : PrefixCode (OrdMap α β) :=
  ofInjective OrdMap.entries fun m n same => by
    cases m
    cases n
    cases same
    rfl

end PrefixCode

/-! ## Packing -/

/-- One number for a list of numbers: the size of the first in unary, its bits, and
the rest above them. -/
def pack : List ℕ → ℕ
  | [] => 0
  | x :: l => 2 ^ (Nat.log2 x + 1) * (2 * (x + 2 ^ (Nat.log2 x + 1) * pack l) + 1)

theorem lt_two_pow_size (x : ℕ) : x < 2 ^ (Nat.log2 x + 1) := Nat.lt_log2_self

/-- The unary prefix and what follows it can be told apart. -/
theorem two_pow_mul_odd_cancel {i j a b : ℕ} (same : 2 ^ i * (2 * a + 1) = 2 ^ j * (2 * b + 1)) :
    i = j ∧ a = b := by
  induction i generalizing j with
  | zero =>
      cases j with
      | zero => exact ⟨rfl, by omega⟩
      | succ j =>
          rw [pow_succ, pow_zero] at same
          have even : 2 ^ j * 2 * (2 * b + 1) = 2 * (2 ^ j * (2 * b + 1)) := by ring
          omega
  | succ i ih =>
      cases j with
      | zero =>
          rw [pow_succ, pow_zero] at same
          have even : 2 ^ i * 2 * (2 * a + 1) = 2 * (2 ^ i * (2 * a + 1)) := by ring
          omega
      | succ j =>
          have halves : 2 ^ i * (2 * a + 1) = 2 ^ j * (2 * b + 1) := by
            rw [pow_succ, pow_succ] at same
            have left : 2 ^ i * 2 * (2 * a + 1) = 2 * (2 ^ i * (2 * a + 1)) := by ring
            have right : 2 ^ j * 2 * (2 * b + 1) = 2 * (2 ^ j * (2 * b + 1)) := by ring
            omega
          obtain ⟨rfl, rfl⟩ := ih halves
          exact ⟨rfl, rfl⟩

/-- The low bits and the bits above them can be told apart. -/
theorem two_pow_split {n a b c d : ℕ} (a_lt : a < 2 ^ n) (b_lt : b < 2 ^ n)
    (same : a + 2 ^ n * c = b + 2 ^ n * d) : a = b ∧ c = d := by
  have low := congrArg (· % 2 ^ n) same
  simp only [Nat.add_mul_mod_self_left, Nat.mod_eq_of_lt a_lt, Nat.mod_eq_of_lt b_lt] at low
  subst low
  exact ⟨rfl, Nat.eq_of_mul_eq_mul_left (Nat.two_pow_pos _) (Nat.add_left_cancel same)⟩

theorem two_pow_mul_odd_pos (i a : ℕ) : 0 < 2 ^ i * (2 * a + 1) :=
  Nat.mul_pos (Nat.two_pow_pos _) (Nat.succ_pos _)

theorem pack_injective : Function.Injective pack := by
  intro l m same
  induction l generalizing m with
  | nil =>
      cases m with
      | nil => rfl
      | cons y m => exact absurd same (ne_of_lt (two_pow_mul_odd_pos _ _))
  | cons x l ih =>
      cases m with
      | nil => exact absurd same (ne_of_gt (two_pow_mul_odd_pos _ _))
      | cons y m =>
          obtain ⟨size, body⟩ := two_pow_mul_odd_cancel same
          rw [← size] at body
          have y_lt := lt_two_pow_size y
          rw [← size] at y_lt
          obtain ⟨rfl, high⟩ := two_pow_split (lt_two_pow_size x) y_lt body
          rw [ih high]

/-- A packed list is larger than its first number. -/
theorem lt_pack_cons (x : ℕ) (l : List ℕ) : x < pack (x :: l) :=
  (lt_two_pow_size x).trans_le (Nat.le_mul_of_pos_right _ (Nat.succ_pos _))

/-- The same with the size of the size in unary: hardly longer than the numbers themselves. -/
def packTight : List ℕ → ℕ
  | [] => 0
  | x :: l =>
      2 ^ (Nat.log2 (Nat.log2 x + 1) + 1) * (2 * ((Nat.log2 x + 1) +
        2 ^ (Nat.log2 (Nat.log2 x + 1) + 1) * (x + 2 ^ (Nat.log2 x + 1) * packTight l)) + 1)

theorem packTight_injective : Function.Injective packTight := by
  intro l m same
  induction l generalizing m with
  | nil =>
      cases m with
      | nil => rfl
      | cons y m => exact absurd same (ne_of_lt (two_pow_mul_odd_pos _ _))
  | cons x l ih =>
      cases m with
      | nil => exact absurd same (ne_of_gt (two_pow_mul_odd_pos _ _))
      | cons y m =>
          obtain ⟨mark, body⟩ := two_pow_mul_odd_cancel same
          rw [← mark] at body
          have size_lt := lt_two_pow_size (Nat.log2 y + 1)
          rw [← mark] at size_lt
          obtain ⟨size, inner⟩ := two_pow_split (lt_two_pow_size _) size_lt body
          rw [← size] at inner
          have y_lt := lt_two_pow_size y
          rw [← size] at y_lt
          obtain ⟨rfl, high⟩ := two_pow_split (lt_two_pow_size x) y_lt inner
          rw [ih high]

theorem lt_packTight_cons (x : ℕ) (l : List ℕ) : x < packTight (x :: l) := by
  have grow : ∀ (i a : ℕ), a < 2 ^ i * (2 * a + 1) := fun i a =>
    (by omega : a < 2 * a + 1).trans_le (Nat.le_mul_of_pos_left _ (Nat.two_pow_pos i))
  have inner : x ≤ (Nat.log2 x + 1) + 2 ^ (Nat.log2 (Nat.log2 x + 1) + 1) *
      (x + 2 ^ (Nat.log2 x + 1) * packTight l) :=
    ((Nat.le_add_right _ _).trans (Nat.le_mul_of_pos_left _ (Nat.two_pow_pos _))).trans
      (Nat.le_add_left _ _)
  exact inner.trans_lt (grow _ _)

/-! ## Packing, evaluated

`Nat.log2` unfolds once for each bit of a number, `Nat.log 2` once for each doubling
of their number. -/

def quickPack : List ℕ → ℕ
  | [] => 0
  | x :: l => 2 ^ (Nat.log 2 x + 1) * (2 * (x + 2 ^ (Nat.log 2 x + 1) * quickPack l) + 1)

theorem pack_eq_quickPack : pack = quickPack := by
  funext l
  induction l with
  | nil => rfl
  | cons x l ih => rw [pack, quickPack, Nat.log2_eq_log_two, ih]

def quickPackTight : List ℕ → ℕ
  | [] => 0
  | x :: l =>
      2 ^ (Nat.log 2 (Nat.log 2 x + 1) + 1) * (2 * ((Nat.log 2 x + 1) +
        2 ^ (Nat.log 2 (Nat.log 2 x + 1) + 1) * (x + 2 ^ (Nat.log 2 x + 1) * quickPackTight l)) + 1)

theorem packTight_eq_quickPackTight : packTight = quickPackTight := by
  funext l
  induction l with
  | nil => rfl
  | cons x l ih => simp only [packTight, quickPackTight, Nat.log2_eq_log_two, ih]

end Mnem.Theory
