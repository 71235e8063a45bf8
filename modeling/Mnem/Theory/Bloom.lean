/-
# Theory.Bloom — filters that set a list of bits for each item

A filter remembers the bits of the items put into it.  Which bits are set, and
so what it answers, depends on the set of the items alone (`mem_bitsOf`).  A
counter that goes up only when a bit changes does not: it falls behind as soon
as the bits of a new item are all set already (`count_eq_iff`).
-/
import Mnem.Theory.OrdMap
import Mathlib.Data.Finset.Card

namespace Mnem.Theory.Bloom

set_option autoImplicit false

variable {α : Type} (positions : α → List Nat)

/-- Whether all bits of an item are set. -/
def check (bits : OrdSet Nat) (a : α) : Bool := (positions a).all bits.contains

def set (bits : OrdSet Nat) (a : α) : OrdSet Nat := (positions a).foldl OrdSet.add bits

/-- The bits of some items. -/
def bitsOf (items : List α) : OrdSet Nat := items.foldl (set positions) OrdMap.empty

/-- Set an item's bits; count it if one of them was not set. -/
def insert (state : OrdSet Nat × Nat) (a : α) : OrdSet Nat × Nat :=
  (set positions state.1 a, if check positions state.1 a then state.2 else state.2 + 1)

/-- Each item that is new has a bit that no item before it has. -/
def Distinguished (earlier items : List α) : Prop :=
  ∀ before a after, items = before ++ a :: after → a ∉ earlier ++ before →
    ∃ p ∈ positions a, ∀ b ∈ earlier ++ before, p ∉ positions b

section Laws

variable {positions} {items earlier : List α} {a : α} {p : Nat}

theorem mem_foldl_set {bits : OrdSet Nat} :
    p ∈ items.foldl (set positions) bits ↔ p ∈ bits ∨ ∃ a ∈ items, p ∈ positions a := by
  induction items generalizing bits with
  | nil => simp
  | cons a items ih =>
      rw [List.foldl_cons, ih, set, OrdSet.mem_addAll]
      simp [or_left_comm, or_assoc]

theorem mem_bitsOf : p ∈ bitsOf positions items ↔ ∃ a ∈ items, p ∈ positions a := by
  rw [bitsOf, mem_foldl_set]
  simp

/-- The bits depend on the set of the items alone. -/
theorem bitsOf_congr {items' : List α} (same : ∀ a, a ∈ items ↔ a ∈ items') :
    bitsOf positions items = bitsOf positions items' :=
  OrdSet.ext_mem fun p => by simp only [mem_bitsOf, same]

theorem check_iff {bits : OrdSet Nat} : check positions bits a = true ↔ ∀ p ∈ positions a, p ∈ bits :=
  List.all_eq_true

/-- What was put in is found. -/
theorem check_of_mem (member : a ∈ items) : check positions (bitsOf positions items) a = true :=
  check_iff.mpr fun _ bit => mem_bitsOf.mpr ⟨a, member, bit⟩

theorem bitsOf_concat : bitsOf positions (items ++ [a]) = set positions (bitsOf positions items) a := by
  rw [bitsOf, List.foldl_append]
  rfl

/-- One more item is distinguished where the items so far leave it a bit. -/
theorem distinguished_cons : Distinguished positions earlier (a :: items) ↔
    (a ∉ earlier → ∃ p ∈ positions a, ∀ b ∈ earlier, p ∉ positions b) ∧
      Distinguished positions (earlier ++ [a]) items := by
  constructor
  · intro all
    refine ⟨fun fresh => ?_, ?_⟩
    · simpa using all [] a items rfl (by simpa using fresh)
    · rintro before b after rfl fresh
      have more := all (a :: before) b after rfl
      simp only [List.append_assoc, List.singleton_append] at fresh ⊢
      exact more fresh
  · rintro ⟨first, rest⟩ before b after split fresh
    cases before with
    | nil =>
        obtain ⟨rfl, rfl⟩ := List.cons.inj split
        simpa using first (by simpa using fresh)
    | cons c before =>
        obtain ⟨rfl, rfl⟩ := List.cons.inj split
        have more := rest before b after rfl
        simp only [List.append_assoc, List.singleton_append] at more
        exact more fresh

variable [DecidableEq α]

/-- Counting from the items so far: never more than the distinct items, and as many exactly where
each new item is distinguished. -/
theorem count_eq_iff (n : Nat) : ∃ m, items.foldl (insert positions) (bitsOf positions earlier, n) =
      (bitsOf positions (earlier ++ items), m) ∧
    m + earlier.toFinset.card ≤ n + (earlier ++ items).toFinset.card ∧
    (n + (earlier ++ items).toFinset.card ≤ m + earlier.toFinset.card ↔
      Distinguished positions earlier items) := by
  induction items generalizing earlier n with
  | nil =>
      refine ⟨n, by simp, by simp, iff_of_true (by simp) ?_⟩
      rintro before b after split
      simp at split
  | cons a items ih =>
      rw [List.foldl_cons, insert, ← bitsOf_concat, distinguished_cons]
      have whole : earlier ++ a :: items = (earlier ++ [a]) ++ items := by simp
      obtain ⟨m, run, most, least⟩ := @ih (earlier ++ [a])
        (if check positions (bitsOf positions earlier) a then n else n + 1)
      rw [whole]
      refine ⟨m, run, ?_⟩
      by_cases old : a ∈ earlier
      · have same : (earlier ++ [a]).toFinset = earlier.toFinset := by
          ext b
          simp only [List.mem_toFinset, List.mem_append, List.mem_singleton]
          exact or_iff_left_of_imp fun h => h ▸ old
        rw [if_pos (check_of_mem old), same] at most least
        exact ⟨most, least.trans (and_iff_right fun fresh => absurd old fresh).symm⟩
      · have one : (earlier ++ [a]).toFinset.card = earlier.toFinset.card + 1 := by
          have new : (earlier ++ [a]).toFinset = Insert.insert a earlier.toFinset := by
            ext b
            simp
          rw [new, Finset.card_insert_of_notMem (by simpa using old)]
        by_cases covered : check positions (bitsOf positions earlier) a = true
        · -- the new item changes no bit, so it is not counted
          rw [if_pos covered, one] at most least
          refine ⟨by omega, iff_of_false (by omega) fun both => ?_⟩
          obtain ⟨p, bit, free⟩ := both.1 old
          obtain ⟨b, member, bit'⟩ := mem_bitsOf.mp (check_iff.mp covered p bit)
          exact free b member bit'
        · rw [if_neg covered, one] at most least
          have free : ∃ p ∈ positions a, ∀ b ∈ earlier, p ∉ positions b := by
            by_contra none
            push Not at none
            refine covered (check_iff.mpr fun p bit => ?_)
            obtain ⟨b, member, bit'⟩ := none p bit
            exact mem_bitsOf.mpr ⟨b, member, bit'⟩
          refine ⟨by omega, Iff.trans ?_ (and_iff_right fun _ => free).symm⟩
          rw [← least]
          omega

end Laws

end Mnem.Theory.Bloom
