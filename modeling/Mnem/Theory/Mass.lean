/-
# Theory.Mass — sums that are given out and added up

`give` adds shares at places of a list and keeps its total up to what is given
(`sum_give`).  A list of numbers, none negative and of total one, is a
`Distribution`; what is divided by its own total is one (`distribution_normalize`).
`addUp` adds numbers up under keys: a key holds the sum of what it was given
(`get?_addUp`), in whatever order, and all keys together hold the sum of it all
(`sum_addUp`).
-/
import Mnem.Theory.OrdMap
import Mathlib.Algebra.BigOperators.Group.List.Lemmas
import Mathlib.Algebra.BigOperators.Ring.List
import Mathlib.Algebra.Order.BigOperators.Group.List
import Mathlib.Algebra.Order.Field.Basic
import Mathlib.Algebra.BigOperators.Group.Finset.Piecewise

namespace Mnem.Theory

set_option autoImplicit false

/-! ## Shares -/

section Give

variable {K : Type*} [AddCommMonoid K]

/-- Add each share at its place. -/
def give (v : List K) (shares : List (Nat × K)) : List K :=
  shares.foldl (fun v c => v.modify c.1 (· + c.2)) v

@[simp] theorem give_nil (v : List K) : give v [] = v := rfl

theorem give_cons (v : List K) (c : Nat × K) (shares : List (Nat × K)) :
    give v (c :: shares) = give (v.modify c.1 (· + c.2)) shares := rfl

@[simp] theorem length_give (v : List K) (shares : List (Nat × K)) :
    (give v shares).length = v.length := by
  induction shares generalizing v with
  | nil => rfl
  | cons c shares ih => rw [give_cons, ih, List.length_modify]

theorem sum_modify (v : List K) {j : Nat} (inside : j < v.length) (x : K) :
    (v.modify j (· + x)).sum = v.sum + x := by
  induction v generalizing j with
  | nil => cases inside
  | cons y v ih =>
      cases j with
      | zero =>
          rw [List.modify_zero_cons, List.sum_cons, List.sum_cons]
          exact add_right_comm y x v.sum
      | succ j =>
          rw [List.modify_succ_cons, List.sum_cons, List.sum_cons,
            ih (Nat.lt_of_succ_lt_succ inside), add_assoc]

/-- The total grows by what is given. -/
theorem sum_give (v : List K) (shares : List (Nat × K)) (inside : ∀ c ∈ shares, c.1 < v.length) :
    (give v shares).sum = v.sum + (shares.map Prod.snd).sum := by
  induction shares generalizing v with
  | nil => exact (add_zero v.sum).symm
  | cons c shares ih =>
      rw [give_cons, ih _ fun d m => by
        rw [List.length_modify]
        exact inside d (List.mem_cons_of_mem _ m)]
      rw [sum_modify v (inside c List.mem_cons_self), List.map_cons, List.sum_cons, add_assoc]

end Give

theorem sum_map_div {K : Type*} [Field K] (v : List K) (t : K) :
    (v.map (· / t)).sum = v.sum / t := by
  simp only [div_eq_mul_inv]
  exact (List.sum_map_mul_right v id t⁻¹).trans (by rw [List.map_id])

theorem sum_map_mul {K : Type*} [Field K] (t : K) (v : List K) :
    (v.map (t * ·)).sum = t * v.sum :=
  (List.sum_map_mul_left v id t).trans (by rw [List.map_id])

section Order

variable {K : Type*} [Field K] [LinearOrder K] [IsStrictOrderedRing K]

theorem nonneg_modify {v : List K} (nonneg : ∀ x ∈ v, 0 ≤ x) (j : Nat) {y : K} (pos : 0 ≤ y) :
    ∀ x ∈ v.modify j (· + y), 0 ≤ x := by
  induction v generalizing j with
  | nil =>
      intro x m
      rw [List.modify_nil] at m
      cases m
  | cons z v ih =>
      intro x m
      have first := nonneg z List.mem_cons_self
      have rest := fun w m => nonneg w (List.mem_cons_of_mem z m)
      cases j with
      | zero =>
          rcases List.mem_cons.mp m with rfl | later
          · exact add_nonneg first pos
          · exact rest x later
      | succ j =>
          rcases List.mem_cons.mp m with rfl | later
          · exact first
          · exact ih rest j x later

theorem nonneg_give {v : List K} (nonneg : ∀ x ∈ v, 0 ≤ x) {shares : List (Nat × K)}
    (pos : ∀ c ∈ shares, 0 ≤ c.2) : ∀ x ∈ give v shares, 0 ≤ x := by
  induction shares generalizing v with
  | nil => exact nonneg
  | cons c shares ih =>
      exact ih (nonneg_modify nonneg c.1 (pos c List.mem_cons_self))
        fun d m => pos d (List.mem_cons_of_mem _ m)

/-- Numbers that are not negative and add up to one. -/
structure Distribution (v : List K) : Prop where
  nonneg : ∀ x ∈ v, 0 ≤ x
  sum : v.sum = 1

theorem distribution_normalize {v : List K} (nonneg : ∀ x ∈ v, 0 ≤ x) (pos : 0 < v.sum) :
    Distribution (v.map (· / v.sum)) where
  nonneg x m := by
    obtain ⟨y, inside, rfl⟩ := List.mem_map.mp m
    exact div_nonneg (nonneg y inside) pos.le
  sum := by
    rw [sum_map_div]
    exact div_self pos.ne'

theorem distribution_uniform {n : Nat} (pos : 0 < n) :
    Distribution (List.replicate n (1 / (n : K))) where
  nonneg x m := by
    rw [List.eq_of_mem_replicate m]
    exact div_nonneg zero_le_one (Nat.cast_nonneg n)
  sum := by
    rw [List.sum_replicate, nsmul_eq_mul]
    exact mul_one_div_cancel (Nat.cast_ne_zero.mpr pos.ne')

end Order

/-! ## Sums under keys -/

section AddUp

variable {J : Type*} [LinearOrder J] {K : Type*} [AddCommMonoid K]

/-- What a key is given altogether. -/
def givenTo (xs : List (J × K)) (j : J) : K := ((xs.filter fun x => x.1 = j).map Prod.snd).sum

theorem givenTo_cons (x : J × K) (xs : List (J × K)) (j : J) :
    givenTo (x :: xs) j = (if x.1 = j then x.2 else 0) + givenTo xs j := by
  by_cases same : x.1 = j <;> simp [givenTo, same]

theorem givenTo_perm {xs ys : List (J × K)} (perm : List.Perm xs ys) (j : J) :
    givenTo xs j = givenTo ys j := ((perm.filter _).map _).sum_eq

theorem givenTo_eq_zero {xs : List (J × K)} {j : J} (absent : j ∉ xs.map Prod.fst) :
    givenTo xs j = 0 := by
  have nothing : (xs.filter fun x => x.1 = j) = [] := by
    rw [List.filter_eq_nil_iff]
    intro x m same
    exact absent (List.mem_map.mpr ⟨x, m, of_decide_eq_true same⟩)
  rw [givenTo, nothing]
  rfl

theorem givenTo_append (xs ys : List (J × K)) (j : J) :
    givenTo (xs ++ ys) j = givenTo xs j + givenTo ys j := by
  rw [givenTo, givenTo, givenTo, List.filter_append, List.map_append, List.sum_append]

/-- In a map a key is given what it holds. -/
theorem givenTo_entries (m : OrdMap J K) (j : J) : givenTo m.entries j = (m.get? j).getD 0 := by
  have general : ∀ es : List (J × K), Entries.Ascending es →
      givenTo es j = (Entries.get? j es).getD 0 := by
    intro es
    induction es with
    | nil => exact fun _ => rfl
    | cons e es ih =>
        intro asc
        rw [givenTo_cons, Entries.get?_cons]
        by_cases here : e.1 = j
        · have later : givenTo es j = 0 := by
            refine givenTo_eq_zero fun inside => ?_
            obtain ⟨d, m, same⟩ := List.mem_map.mp inside
            exact absurd (here.trans same.symm) (asc.head_lt d m).ne
          rw [if_pos here, if_pos here, later, add_zero]
          rfl
        · rw [if_neg here, if_neg here, zero_add, ih asc.tail]
  exact general m.entries m.ascending

theorem givenTo_flatMap {α : Type*} (as : List α) (f : α → List (J × K)) (j : J) :
    givenTo (as.flatMap f) j = (as.map fun a => givenTo (f a) j).sum := by
  induction as with
  | nil => rfl
  | cons a as ih => rw [List.flatMap_cons, givenTo_append, ih, List.map_cons, List.sum_cons]

/-- All keys together are given all. -/
theorem sum_givenTo {xs : List (J × K)} {S : Finset J} (inside : ∀ x ∈ xs, x.1 ∈ S) :
    ∑ j ∈ S, givenTo xs j = (xs.map Prod.snd).sum := by
  induction xs with
  | nil => exact Finset.sum_eq_zero fun j _ => rfl
  | cons x xs ih =>
      simp only [givenTo_cons]
      rw [Finset.sum_add_distrib, Finset.sum_ite_eq, if_pos (inside x List.mem_cons_self),
        ih fun y m => inside y (List.mem_cons_of_mem x m), List.map_cons, List.sum_cons]

theorem givenTo_filter (xs : List (J × K)) (p : J → Bool) (j : J) :
    givenTo (xs.filter fun x => p x.1) j = if p j then givenTo xs j else 0 := by
  induction xs with
  | nil => exact (ite_self 0).symm
  | cons x xs ih =>
      rw [List.filter_cons, givenTo_cons]
      by_cases here : x.1 = j
      · subst here
        cases kept : p x.1 with
        | true =>
            rw [kept] at ih
            rw [if_pos rfl, givenTo_cons, ih, if_pos rfl, if_pos rfl, if_pos rfl]
        | false =>
            rw [kept] at ih
            exact ih
      · have skip : givenTo (if p x.1 = true then x :: xs.filter fun x => p x.1
            else xs.filter fun x => p x.1) j = givenTo (xs.filter fun x => p x.1) j := by
          split
          · rw [givenTo_cons, if_neg here, zero_add]
          · rfl
        rw [skip, ih, if_neg here, zero_add]

/-- Add each number to what its key holds. -/
def addUp (xs : List (J × K)) (m : OrdMap J K) : OrdMap J K :=
  xs.foldl (fun m x => m.modify x.1 fun w => w.getD 0 + x.2) m

theorem addUp_cons (x : J × K) (xs : List (J × K)) (m : OrdMap J K) :
    addUp (x :: xs) m = addUp xs (m.modify x.1 fun w => w.getD 0 + x.2) := rfl

theorem get?_addUp (xs : List (J × K)) (m : OrdMap J K) (j : J) :
    (addUp xs m).get? j =
      if j ∈ xs.map Prod.fst then some ((m.get? j).getD 0 + givenTo xs j) else m.get? j := by
  induction xs generalizing m with
  | nil => rfl
  | cons x xs ih =>
      rw [addUp_cons, ih, OrdMap.get?_modify, givenTo_cons]
      by_cases same : x.1 = j
      · rw [if_pos same, if_pos same, if_pos (show j ∈ (x :: xs).map Prod.fst by simp [same]), same]
        by_cases later : j ∈ xs.map Prod.fst
        · rw [if_pos later, Option.getD_some, add_assoc]
        · rw [if_neg later, givenTo_eq_zero later, add_zero]
      · have iff : j ∈ (x :: xs).map Prod.fst ↔ j ∈ xs.map Prod.fst := by
          simp [Ne.symm same]
        rw [if_neg same, if_neg same, zero_add]
        exact if_congr iff.symm rfl rfl

/-- The sums do not depend on the order. -/
theorem addUp_perm {xs ys : List (J × K)} (perm : List.Perm xs ys) (m : OrdMap J K) :
    addUp xs m = addUp ys m := by
  refine OrdMap.ext fun j => ?_
  rw [get?_addUp, get?_addUp, givenTo_perm perm]
  exact if_congr (perm.map _).mem_iff rfl rfl

theorem sum_insert {es : List (J × K)} (asc : Entries.Ascending es) (j : J) (x : K) :
    ((Entries.insert j ((Entries.get? j es).getD 0 + x) es).map Prod.snd).sum =
      (es.map Prod.snd).sum + x := by
  induction es with
  | nil =>
      show 0 + x + 0 = 0 + x
      exact add_zero _
  | cons e es ih =>
      have absent : j < e.1 → Entries.get? j es = none := by
        intro below
        rw [Entries.get?_eq_none_iff]
        intro d m same
        exact (below.trans (asc.head_lt d m)).ne' same
      rw [Entries.insert, Entries.get?_cons]
      by_cases below : j < e.1
      · rw [if_pos below, if_neg below.ne', absent below]
        simp only [Option.getD_none, List.map_cons, List.sum_cons, zero_add]
        exact add_comm x _
      · by_cases here : j = e.1
        · rw [if_neg below, if_pos here, if_pos here.symm]
          simp only [Option.getD_some, List.map_cons, List.sum_cons]
          exact add_right_comm e.2 x _
        · rw [if_neg below, if_neg here, if_neg (Ne.symm here)]
          rw [List.map_cons, List.sum_cons, ih asc.tail, List.map_cons, List.sum_cons, add_assoc]

theorem sum_addUp (xs : List (J × K)) (m : OrdMap J K) :
    (addUp xs m).values.sum = m.values.sum + (xs.map Prod.snd).sum := by
  induction xs generalizing m with
  | nil => exact (add_zero _).symm
  | cons x xs ih =>
      have one : (m.modify x.1 fun w => w.getD 0 + x.2).values.sum = m.values.sum + x.2 :=
        sum_insert m.ascending x.1 x.2
      rw [addUp_cons, ih, one, List.map_cons, List.sum_cons, add_assoc]

end AddUp

theorem sum_map_range {K : Type*} [AddCommMonoid K] (n : Nat) (f : Nat → K) :
    ((List.range n).map f).sum = ∑ u ∈ Finset.range n, f u := by
  induction n with
  | zero => rfl
  | succ n ih =>
      rw [List.range_succ, List.map_append, List.sum_append, ih, Finset.sum_range_succ]
      exact congrArg _ (add_zero _)

theorem sum_filter_range {K : Type*} [AddCommMonoid K] (n : Nat) (p : Nat → Bool) (f : Nat → K) :
    (((List.range n).filter p).map f).sum = ∑ u ∈ Finset.range n with p u = true, f u := by
  rw [Finset.sum_filter, ← sum_map_range]
  induction List.range n with
  | nil => rfl
  | cons u us ih =>
      rw [List.filter_cons, List.map_cons, List.sum_cons, ← ih]
      cases here : p u with
      | true => rw [if_pos rfl, if_pos rfl, List.map_cons, List.sum_cons]
      | false => rw [if_neg Bool.false_ne_true, if_neg Bool.false_ne_true, zero_add]

end Mnem.Theory
