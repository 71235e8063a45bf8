/-
# Theory.Orbit — iterating a function within finitely many values

The values that `f` takes, iterated from a start, are taken within as many steps
as there are different ones (`exists_iterate_lt`).
-/
import Mathlib.Data.Finset.Card
import Mathlib.Logic.Function.Iterate

namespace Mnem.Theory

set_option autoImplicit false

variable {α : Type}

/-- Two equal values cut a run short. -/
theorem iterate_shortcut {f : α → α} {x : α} {i j k : Nat} (le : j ≤ k)
    (same : f^[i] x = f^[j] x) : f^[k - j + i] x = f^[k] x := by
  rw [Function.iterate_add_apply, same, ← Function.iterate_add_apply, Nat.sub_add_cancel le]

/-- Whatever is met among the values of a list is met within as many steps as it has elements. -/
theorem exists_iterate_lt [DecidableEq α] (f : α → α) (x : α) (values : List α) (k : Nat)
    (inside : ∀ j ≤ k, f^[j] x ∈ values) : ∃ j < values.length, f^[j] x = f^[k] x := by
  induction k using Nat.strong_induction_on with
  | _ k ih =>
      by_cases short : k < values.length
      · exact ⟨k, short, rfl⟩
      · -- more steps than values: two steps meet
        have more : values.toFinset.card < (Finset.range (k + 1)).card := by
          rw [Finset.card_range]
          have few := values.toFinset_card_le
          omega
        obtain ⟨i, low, j, high, apart, same⟩ := Finset.exists_ne_map_eq_of_card_lt_of_maps_to more
          (f := fun j => f^[j] x) fun j m =>
            List.mem_toFinset.mpr (inside j (Nat.lt_succ_iff.mp (Finset.mem_range.mp m)))
        wlog less : i < j generalizing i j
        · exact this j high i low (Ne.symm apart) same.symm (by omega)
        · have le : j ≤ k := Nat.lt_succ_iff.mp (Finset.mem_range.mp high)
          have cut := iterate_shortcut le same
          obtain ⟨m, few, met⟩ := ih (k - j + i) (by omega) fun n small => inside n (by omega)
          exact ⟨m, few, met.trans cut⟩

end Mnem.Theory
