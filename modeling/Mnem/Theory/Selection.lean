/-
# Theory.Selection — picking from a list in one pass

A pass over a list marks each element as taken or passed over.  `Greedy fits`
says how it decides: an element is taken exactly if it fits with those taken
before it.  The marks are then determined (`Greedy.unique`), and what holds of
nothing taken and is kept by every element that fits holds of all that is taken
(`Greedy.induct`).

A list that is cut before it is filtered holds fewer than if it were cut after,
unless all before the cut, or none behind it, pass (`length_filter_take_iff`).
-/
import Mathlib.Data.List.Induction

namespace Mnem.Theory

set_option autoImplicit false

variable {α : Type}

namespace Selection

/-- The elements that are marked. -/
def taken (marked : List (α × Bool)) : List α := (marked.filter Prod.snd).map Prod.fst

/-- The elements that are not. -/
def passed (marked : List (α × Bool)) : List α := (marked.filter fun m => !m.2).map Prod.fst

@[simp] theorem taken_nil : taken ([] : List (α × Bool)) = [] := rfl

@[simp] theorem passed_nil : passed ([] : List (α × Bool)) = [] := rfl

@[simp] theorem taken_append (xs ys : List (α × Bool)) : taken (xs ++ ys) = taken xs ++ taken ys := by
  simp [taken]

@[simp] theorem passed_append (xs ys : List (α × Bool)) :
    passed (xs ++ ys) = passed xs ++ passed ys := by
  simp [passed]

@[simp] theorem taken_true (c : α) : taken [(c, true)] = [c] := rfl

@[simp] theorem taken_false (c : α) : taken [(c, false)] = [] := rfl

@[simp] theorem passed_true (c : α) : passed [(c, true)] = [] := rfl

@[simp] theorem passed_false (c : α) : passed [(c, false)] = [c] := rfl

theorem length_taken_add_passed (marked : List (α × Bool)) :
    (taken marked).length + (passed marked).length = marked.length := by
  induction marked with
  | nil => rfl
  | cons m marked ih =>
      obtain ⟨c, mark⟩ := m
      cases mark <;> simp [taken, passed] at ih ⊢ <;> omega

/-- An element is taken exactly if it fits with those taken before it. -/
def Greedy (fits : List α → α → Prop) (marked : List (α × Bool)) : Prop :=
  ∀ before c mark after, marked = before ++ (c, mark) :: after →
    (mark = true ↔ fits (taken before) c)

variable {fits : List α → α → Prop}

theorem greedy_nil : Greedy fits ([] : List (α × Bool)) := by
  intro before c mark after split
  simp at split

/-- One more element, decided by what was taken before it. -/
theorem Greedy.snoc {marked : List (α × Bool)} (greedy : Greedy fits marked) {c : α} {mark : Bool}
    (decided : mark = true ↔ fits (taken marked) c) : Greedy fits (marked ++ [(c, mark)]) := by
  intro before d mark' after split
  rcases List.eq_nil_or_concat after with rfl | ⟨after, last, rfl⟩
  · obtain ⟨rfl, same⟩ := List.append_inj' split rfl
    cases same
    exact decided
  · rw [List.concat_eq_append, ← List.cons_append, ← List.append_assoc] at split
    exact greedy before d mark' after (List.append_inj' split rfl).1

theorem Greedy.init {marked : List (α × Bool)} {m : α × Bool} (greedy : Greedy fits (marked ++ [m])) :
    Greedy fits marked := by
  intro before c mark after split
  exact greedy before c mark (after ++ [m]) (by rw [split, List.append_assoc, List.cons_append])

/-- What holds of nothing and is kept by every element that fits holds of what is taken. -/
theorem Greedy.induct {p : List α → Prop} {marked : List (α × Bool)} (greedy : Greedy fits marked)
    (start : p []) (step : ∀ before c, p before → fits before c → p (before ++ [c])) :
    p (taken marked) := by
  induction marked using List.reverseRecOn with
  | nil => exact start
  | append_singleton marked m ih =>
      obtain ⟨c, mark⟩ := m
      have earlier := ih greedy.init
      have decided := greedy marked c mark [] rfl
      cases mark with
      | false => simpa using earlier
      | true =>
          rw [taken_append, taken_true]
          exact step _ c earlier (decided.mp rfl)

/-- The marks are determined by the list. -/
theorem Greedy.unique {xs ys : List (α × Bool)} (left : Greedy fits xs) (right : Greedy fits ys)
    (same : xs.map Prod.fst = ys.map Prod.fst) : xs = ys := by
  induction xs using List.reverseRecOn generalizing ys with
  | nil =>
      rw [List.map_nil, eq_comm, List.map_eq_nil_iff] at same
      exact same.symm
  | append_singleton xs m ih =>
      rcases List.eq_nil_or_concat ys with rfl | ⟨ys, m', rfl⟩
      · simp at same
      · rw [List.concat_eq_append] at same right ⊢
        rw [List.map_append, List.map_append] at same
        obtain ⟨before, last⟩ := List.append_inj' same rfl
        obtain rfl := ih left.init right.init before
        obtain ⟨c, mark⟩ := m
        obtain ⟨c', mark'⟩ := m'
        obtain rfl : c = c' := by simpa using last
        have agree : mark = true ↔ mark' = true :=
          (left xs c mark [] rfl).trans (right xs c mark' [] rfl).symm
        rw [Bool.eq_iff_iff.mpr agree]

/-! ## A cut before a filter -/

section Cut

variable (p : α → Bool) (n : Nat) (xs : List α)

theorem take_filter_eq : (xs.filter p).take n =
    (xs.take n).filter p ++ ((xs.drop n).filter p).take (n - ((xs.take n).filter p).length) := by
  have split : xs.filter p = (xs.take n).filter p ++ (xs.drop n).filter p := by
    rw [← List.filter_append, List.take_append_drop]
  have few : ((xs.take n).filter p).length ≤ n :=
    Nat.le_trans (List.length_filter_le _ _) (List.length_take_le _ _)
  rw [split, List.take_append, List.take_of_length_le few]

/-- Nothing is lost by cutting first if all before the cut pass, or none behind it. -/
theorem filter_take_eq
    (kept : (∀ x ∈ xs.take n, p x = true) ∨ ∀ x ∈ xs.drop n, p x = false) :
    (xs.take n).filter p = (xs.filter p).take n := by
  suffices nothing : ((xs.drop n).filter p).take (n - ((xs.take n).filter p).length) = [] by
    rw [take_filter_eq, nothing, List.append_nil]
  rcases kept with all | none_later
  · by_cases short : xs.length ≤ n
    · rw [List.drop_eq_nil_of_le short]
      exact List.take_nil
    · rw [List.filter_eq_self.mpr all, List.length_take_of_le (by omega), Nat.sub_self,
        List.take_zero]
  · have nothing : (xs.drop n).filter p = [] := by
      rw [List.filter_eq_nil_iff]
      intro x m
      simp [none_later x m]
    rw [nothing]
    exact List.take_nil

/-- And only then is as much kept. -/
theorem length_filter_take_iff :
    ((xs.take n).filter p).length = ((xs.filter p).take n).length ↔
      (∀ x ∈ xs.take n, p x = true) ∨ ∀ x ∈ xs.drop n, p x = false := by
  constructor
  · intro same
    rw [take_filter_eq, List.length_append] at same
    have nothing : min (n - ((xs.take n).filter p).length) ((xs.drop n).filter p).length = 0 := by
      rw [← List.length_take]
      omega
    by_cases later : ((xs.drop n).filter p).length = 0
    · right
      intro x m
      have refused := List.filter_eq_nil_iff.mp (List.length_eq_zero_iff.mp later) x m
      simpa using refused
    · left
      have most := List.length_take_le n xs
      have kept := List.length_filter_le p (xs.take n)
      exact List.length_filter_eq_length_iff.mp (by omega)
  · intro kept
    rw [filter_take_eq p n xs kept]

end Cut

end Selection

end Mnem.Theory
