/-
# Theory.Ascending — order statistics

`stat l k` is the `k`-th smallest entry of a list.  A later one is no smaller
(`stat_mono`), and a strictly monotone map that keeps zero commutes with it
(`stat_map`).
-/
import Mathlib.Order.Monotone.Basic
import Mathlib.Order.Lattice

namespace Mnem.Theory

set_option autoImplicit false

section Ascending

variable {K : Type} [LinearOrder K]

/-- The entries of a list, the smallest first. -/
def ascending (l : List K) : List K := l.mergeSort fun a b => decide (a ≤ b)

@[simp] theorem length_ascending (l : List K) : (ascending l).length = l.length :=
  List.length_mergeSort l

theorem ascending_of_pairwise {l : List K} (sorted : l.Pairwise (· ≤ ·)) : ascending l = l := by
  apply List.mergeSort_of_pairwise
  simpa using sorted

theorem pairwise_ascending (l : List K) : (ascending l).Pairwise (· ≤ ·) := by
  have sorted : (ascending l).Pairwise fun a b => decide (a ≤ b) = true := by
    refine List.pairwise_mergeSort (fun a b c ab bc => ?_) (fun a b => ?_) l
    · exact decide_eq_true ((of_decide_eq_true ab).trans (of_decide_eq_true bc))
    · simpa using le_total a b
  simpa only [decide_eq_true_eq] using sorted

theorem ascending_map {K' : Type} [LinearOrder K'] {f : K → K'} (mono : StrictMono f) (l : List K) :
    ascending (l.map f) = (ascending l).map f := by
  symm
  apply List.map_mergeSort
  intro a _ b _
  simp [mono.le_iff_le]

end Ascending

/-! ## Statistics -/

section Stat

variable {K : Type} [LinearOrder K] [Zero K]

/-- The `k`-th smallest entry, counted from zero; zero beyond the list. -/
def stat (l : List K) (k : Nat) : K := (ascending l)[k]?.getD 0

theorem getElem?_ascending {l : List K} {k : Nat} (inside : k < l.length) :
    (ascending l)[k]? = some (stat l k) := by
  have short : k < (ascending l).length := by simpa using inside
  rw [stat, List.getElem?_eq_getElem short]
  rfl

theorem stat_mono {l : List K} {i j : Nat} (le : i ≤ j) (inside : j < l.length) :
    stat l i ≤ stat l j := by
  rcases Nat.eq_or_lt_of_le le with rfl | lt
  · exact le_rfl
  · have short : j < (ascending l).length := by simpa using inside
    have short' : i < (ascending l).length := by omega
    have below := List.pairwise_iff_getElem.mp (pairwise_ascending l) i j short' short lt
    rw [stat, stat, List.getElem?_eq_getElem short, List.getElem?_eq_getElem short']
    exact below

theorem stat_map {K' : Type} [LinearOrder K'] [Zero K'] {f : K → K'} (mono : StrictMono f)
    (zero : f 0 = 0) (l : List K) (k : Nat) : stat (l.map f) k = f (stat l k) := by
  rw [stat, stat, ascending_map mono, List.getElem?_map]
  cases (ascending l)[k]? with
  | none => exact zero.symm
  | some a => rfl

end Stat

end Mnem.Theory
