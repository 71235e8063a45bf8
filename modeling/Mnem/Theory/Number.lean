/-
# Theory.Number — exact arithmetic with infinities and an undefined value

A `Number K` is a number of the ordered field `K`, an infinity, or undefined, as
what `∞ - ∞`, `0 * ∞` and `∞ / ∞` give.  Undefined values compare with nothing,
and `larger` passes over them.  There is no rounding and one zero.

* The larger of some values does not depend on their order (`larger_comm`,
  `larger_assoc`), and the defined values are in a linear order (`lt_total`).
* A finite amount added or taken away keeps what is defined and what is not, and
  takes different values apart (`sub_finite_inj`).
* What is near to a value stays near, or comes above it, when it grows
  (`near_lifts`).
-/
import Mathlib.Algebra.Order.Field.Basic
import Mathlib.Tactic.Linarith
import Mnem.Theory.Numerals

namespace Mnem.Theory

set_option autoImplicit false
set_option linter.unusedSectionVars false

inductive Number (K : Type) where
  | undefined
  | negInfinity
  | finite (x : K)
  | infinity
  deriving DecidableEq

namespace Number

variable {K : Type}

def IsDefined (a : Number K) : Prop := a ≠ .undefined

instance [DecidableEq K] (a : Number K) : Decidable a.IsDefined :=
  inferInstanceAs (Decidable (a ≠ .undefined))

@[simp] theorem isDefined_finite (x : K) : (Number.finite x).IsDefined := nofun
@[simp] theorem isDefined_infinity : (Number.infinity : Number K).IsDefined := nofun
@[simp] theorem isDefined_negInfinity : (Number.negInfinity : Number K).IsDefined := nofun
@[simp] theorem not_isDefined_undefined : ¬ (Number.undefined : Number K).IsDefined := fun h => h rfl

section Order

variable [LinearOrder K] {a b c : Number K} {x y : K}

/-- The greater value; an undefined one is passed over. -/
def larger : Number K → Number K → Number K
  | .undefined, b => b
  | a, .undefined => a
  | .negInfinity, b => b
  | a, .negInfinity => a
  | .finite x, .finite y => .finite (max x y)
  | _, _ => .infinity

def lt : Number K → Number K → Bool
  | .finite x, .finite y => decide (x < y)
  | .negInfinity, .finite _ => true
  | .negInfinity, .infinity => true
  | .finite _, .infinity => true
  | _, _ => false

def le (a b : Number K) : Bool := decide a.IsDefined && decide b.IsDefined && !lt b a

/-- Between two bounds; an undefined value stays. -/
def clamp (a lo hi : Number K) : Number K := if lt a lo then lo else if lt hi a then hi else a

@[simp] theorem larger_finite_finite :
    larger (.finite x) (.finite y) = .finite (max x y) := rfl

@[simp] theorem lt_finite_finite : lt (.finite x) (.finite y) = decide (x < y) := rfl

theorem larger_comm (a b : Number K) : larger a b = larger b a := by
  cases a <;> cases b <;> simp [larger, max_comm]

theorem larger_assoc (a b c : Number K) : larger (larger a b) c = larger a (larger b c) := by
  cases a <;> cases b <;> cases c <;> simp [larger, max_assoc]

theorem larger_infinity (a : Number K) : larger .infinity a = .infinity := by
  cases a <;> rfl

theorem lt_self (a : Number K) : lt a a = false := by
  cases a <;> simp [lt]

theorem lt_trans (below : lt a b = true) (above : lt b c = true) : lt a c = true := by
  cases a <;> cases b <;> cases c <;> simp [lt] at below above ⊢
  exact below.trans above

theorem lt_asymm (below : lt a b = true) : lt b a = false := by
  cases above : lt b a with
  | false => rfl
  | true =>
      have same := lt_trans below above
      rw [lt_self] at same
      cases same

/-- Any two defined values compare. -/
theorem lt_total (left : a.IsDefined) (right : b.IsDefined) :
    a = b ∨ lt a b = true ∨ lt b a = true := by
  cases a <;> cases b <;> simp [lt] at left right ⊢
  exact Decidable.em _

/-- A value between two numbers is a number between them, or undefined as before. -/
theorem clamp_cases (ordered : x ≤ y) (a : Number K) :
    (a = .undefined ∧ clamp a (.finite x) (.finite y) = .undefined) ∨
      ∃ z, x ≤ z ∧ z ≤ y ∧ clamp a (.finite x) (.finite y) = .finite z := by
  cases a with
  | undefined => exact .inl ⟨rfl, rfl⟩
  | negInfinity => exact .inr ⟨x, le_rfl, ordered, rfl⟩
  | infinity => exact .inr ⟨y, ordered, le_rfl, rfl⟩
  | finite w =>
      refine .inr ?_
      unfold clamp
      simp only [lt_finite_finite, decide_eq_true_eq]
      split
      · exact ⟨x, le_rfl, ordered, rfl⟩
      · split
        · exact ⟨y, ordered, le_rfl, rfl⟩
        · exact ⟨w, not_lt.mp ‹_›, not_lt.mp ‹_›, rfl⟩

end Order

section Arithmetic

variable [Field K] [LinearOrder K]

def neg : Number K → Number K
  | .undefined => .undefined
  | .negInfinity => .infinity
  | .finite x => .finite (-x)
  | .infinity => .negInfinity

def add : Number K → Number K → Number K
  | .undefined, _ => .undefined
  | _, .undefined => .undefined
  | .finite x, .finite y => .finite (x + y)
  | .infinity, .negInfinity => .undefined
  | .negInfinity, .infinity => .undefined
  | .infinity, _ => .infinity
  | .negInfinity, _ => .negInfinity
  | .finite _, b => b

def sub (a b : Number K) : Number K := add a (neg b)

/-- An infinity of the sign of `x`. -/
def infinite (x : K) : Number K :=
  if x = 0 then .undefined else if 0 < x then .infinity else .negInfinity

def mul : Number K → Number K → Number K
  | .undefined, _ => .undefined
  | _, .undefined => .undefined
  | .finite x, .finite y => .finite (x * y)
  | .finite x, .infinity => infinite x
  | .finite x, .negInfinity => infinite (-x)
  | .infinity, .finite y => infinite y
  | .negInfinity, .finite y => infinite (-y)
  | .infinity, .infinity => .infinity
  | .negInfinity, .negInfinity => .infinity
  | _, _ => .negInfinity

def div : Number K → Number K → Number K
  | .undefined, _ => .undefined
  | _, .undefined => .undefined
  | .finite x, .finite y => if y = 0 then infinite x else .finite (x / y)
  | .finite _, _ => .finite 0
  | .infinity, .finite y => if 0 ≤ y then .infinity else .negInfinity
  | .negInfinity, .finite y => if 0 ≤ y then .negInfinity else .infinity
  | _, _ => .undefined

def abs : Number K → Number K
  | .undefined => .undefined
  | .finite x => .finite |x|
  | _ => .infinity

/-- The square root, from one for the numbers of the field. -/
def sqrt (root : K → K) : Number K → Number K
  | .finite x => if x < 0 then .undefined else .finite (root x)
  | .infinity => .infinity
  | _ => .undefined

/-- Closer than `eps`; infinities are close to nothing. -/
def near (eps : K) (a b : Number K) : Bool := lt (abs (sub a b)) (.finite eps)

variable {a b c : Number K} {x y eps : K}

@[simp] theorem add_finite_finite : add (.finite x) (.finite y) = .finite (x + y) := rfl
@[simp] theorem sub_finite_finite : sub (.finite x) (.finite y) = .finite (x - y) := by
  rw [sub_eq_add_neg]
  rfl
@[simp] theorem mul_finite_finite : mul (.finite x) (.finite y) = .finite (x * y) := rfl

/-! ## What a finite amount does -/

@[simp] theorem add_finite_right (a : Number K) (y : K) :
    (add a (.finite y)).IsDefined ↔ a.IsDefined := by
  cases a <;> simp [add]

theorem sub_finite (a : Number K) (y : K) : sub a (.finite y) = add a (.finite (-y)) := rfl

@[simp] theorem sub_finite_right (a : Number K) (y : K) :
    (sub a (.finite y)).IsDefined ↔ a.IsDefined := by
  rw [sub_finite, add_finite_right]

theorem add_finite_cancel (a : Number K) (y : K) : add (add a (.finite y)) (.finite (-y)) = a := by
  cases a <;> simp [add]

theorem sub_finite_inj (same : sub a (.finite y) = sub b (.finite y)) : a = b := by
  have there := congrArg (fun d => add d (.finite (- -y))) same
  rwa [sub_finite, sub_finite, add_finite_cancel, add_finite_cancel] at there

@[simp] theorem sub_undefined_left (a : Number K) : sub .undefined a = .undefined := rfl

/-- What is near to a value stays near when it grows, or comes above the value. -/
theorem near_lifts [IsStrictOrderedRing K] (close : near eps a c = true) (grows : lt a b = true) :
    lt c b = true ∨ near eps b c = true := by
  cases a <;> cases c <;> simp [near, sub, add, neg, abs, lt] at close
  cases b <;> simp [lt] at grows ⊢
  rename_i x z y
  rcases lt_or_ge z y with above | below
  · exact .inl above
  · refine .inr ?_
    show decide (|y + -z| < eps) = true
    rw [decide_eq_true_eq, ← sub_eq_add_neg, abs_sub_comm, abs_of_nonneg (sub_nonneg.mpr below)]
    rw [← sub_eq_add_neg, abs_sub_comm, abs_of_nonneg (sub_nonneg.mpr (grows.le.trans below))] at close
    linarith

end Arithmetic

end Number

end Mnem.Theory
