/-
# Theory.Rows — rows of one length in one list

A flat list is read in rows of `n`.  Rows of that length, laid one after the
other, are read back (`rows_flatten`).
-/
import Mathlib.Data.List.Basic
import Mathlib.Tactic.Ring

namespace Mnem.Theory

set_option autoImplicit false

variable {α : Type}

/-- The row at position `i`, in rows of `n`. -/
def rowAt (n : Nat) (data : List α) (i : Nat) : List α := (data.drop (i * n)).take n

/-- The first rows of `n`, `count` of them. -/
def rows (n count : Nat) (data : List α) : List (List α) := (List.range count).map (rowAt n data)

@[simp] theorem length_rows (n count : Nat) (data : List α) : (rows n count data).length = count := by
  simp [rows]

theorem rowAt_zero (n : Nat) {r : List α} (length : r.length = n) (rest : List α) :
    rowAt n (r ++ rest) 0 = r := by
  subst length
  simp [rowAt]

theorem rowAt_succ (n : Nat) {r : List α} (length : r.length = n) (rest : List α) (i : Nat) :
    rowAt n (r ++ rest) (i + 1) = rowAt n rest i := by
  subst length
  have past : (i + 1) * r.length = r.length + i * r.length := by ring
  rw [rowAt, past, List.drop_length_add_append, rowAt]

/-- **Rows of one length are read back.** -/
theorem rows_flatten {n : Nat} {rs : List (List α)} (length : ∀ r ∈ rs, r.length = n) :
    rows n rs.length rs.flatten = rs := by
  induction rs with
  | nil => rfl
  | cons r rs ih =>
      have first := length r List.mem_cons_self
      have rest := ih fun r' m => length r' (List.mem_cons_of_mem _ m)
      rw [rows] at rest
      rw [rows, List.length_cons, List.range_succ_eq_map, List.map_cons, List.map_map,
        List.flatten_cons, rowAt_zero n first]
      simp only [Function.comp_def, rowAt_succ n first, rest]

end Mnem.Theory
