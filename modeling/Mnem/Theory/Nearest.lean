/-
# Theory.Nearest — the nearest position before another, and lines of ancestors

`Nearest p i j` says that `j` is the last position before `i` with the property
`p`.  There is at most one (`Nearest.unique`), and a search backwards either
finds it or leaves the property open nowhere (`nearest_succ`, `nearest_skip`).
A relation `parent` that gives each position at most one parent makes the line
of its ancestors unique (`Line.unique`).
-/
import Mathlib.Data.Nat.Init

namespace Mnem.Theory

set_option autoImplicit false

/-- The last position before `i` that has a property. -/
structure Nearest (p : Nat → Prop) (i j : Nat) : Prop where
  before : j < i
  holds : p j
  between : ∀ k, j < k → k < i → ¬ p k

section Nearest

variable {p : Nat → Prop} {i j k : Nat}

theorem Nearest.unique (first : Nearest p i j) (second : Nearest p i k) : j = k := by
  rcases Nat.lt_trichotomy j k with below | same | above
  · exact absurd second.holds (first.between k below second.before)
  · exact same
  · exact absurd first.holds (second.between j above first.before)

/-- A position with the property is the nearest to the next one. -/
theorem nearest_succ (here : p i) : Nearest p (i + 1) i :=
  ⟨Nat.lt_succ_self i, here, fun k above below => by omega⟩

/-- A position without it is passed by. -/
theorem nearest_skip (absent : ¬ p i) : Nearest p (i + 1) j ↔ Nearest p i j := by
  constructor
  · rintro ⟨before, holds, between⟩
    have other : j ≠ i := fun same => absent (same ▸ holds)
    exact ⟨by omega, holds, fun k above below => between k above (by omega)⟩
  · rintro ⟨before, holds, between⟩
    refine ⟨by omega, holds, fun k above below => ?_⟩
    by_cases last : k = i
    · exact last ▸ absent
    · exact between k above (by omega)

end Nearest

/-! ## Lines -/

/-- A position, its parent, the parent of that, up to one that has none. -/
inductive Line (parent : Nat → Nat → Prop) : Nat → List Nat → Prop where
  | top {i : Nat} (none : ∀ j, ¬ parent i j) : Line parent i [i]
  | up {i j : Nat} {line : List Nat} (step : parent i j) (rest : Line parent j line) :
      Line parent i (i :: line)

theorem Line.unique {parent : Nat → Nat → Prop}
    (one : ∀ i j k, parent i j → parent i k → j = k) {i : Nat} {line line' : List Nat}
    (first : Line parent i line) (second : Line parent i line') : line = line' := by
  induction first generalizing line' with
  | top none =>
      cases second with
      | top => rfl
      | up step => exact absurd step (none _)
  | up step _ ih =>
      cases second with
      | top none => exact absurd step (none _)
      | up step' rest' =>
          obtain rfl := one _ _ _ step step'
          rw [ih rest']

end Mnem.Theory
