/-
# Theory.Ranking — by score, then by name

`Before score` puts greater scores first and breaks ties by the order of what is
scored.  It is a strict total order, so a ranking of given elements is
determined (`IsRanking.unique`), and the place of an element is the number of
those before it (`IsRanking.idxOf_eq`).  Hence an element whose score rises while
no other does never falls in rank (`IsRanking.idxOf_le`).
-/
import Mathlib.Data.List.Sort

namespace Mnem.Theory

set_option autoImplicit false

variable {α K : Type} [LinearOrder α] [LinearOrder K]

def Before (score : α → K) (x y : α) : Prop :=
  score y < score x ∨ (score x = score y ∧ x < y)

instance (score : α → K) : DecidableRel (Before score) := fun x y =>
  inferInstanceAs (Decidable (score y < score x ∨ (score x = score y ∧ x < y)))

section Order

variable {score : α → K} {x y z : α}

theorem Before.irrefl : ¬ Before score x x := by
  rintro (less | ⟨-, less⟩)
  · exact lt_irrefl _ less
  · exact lt_irrefl _ less

theorem Before.trans (first : Before score x y) (second : Before score y z) : Before score x z := by
  rcases first with less | ⟨same, less⟩
  · rcases second with less' | ⟨same', -⟩
    · exact Or.inl (less'.trans less)
    · exact Or.inl (same' ▸ less)
  · rcases second with less' | ⟨same', less'⟩
    · exact Or.inl (same ▸ less')
    · exact Or.inr ⟨same.trans same', less.trans less'⟩

theorem Before.asymm (first : Before score x y) : ¬ Before score y x :=
  fun second => (first.trans second).irrefl

theorem Before.connected (apart : x ≠ y) : Before score x y ∨ Before score y x := by
  rcases lt_trichotomy (score x) (score y) with less | same | greater
  · exact Or.inr (Or.inl less)
  · rcases lt_or_gt_of_ne apart with below | above
    · exact Or.inl (Or.inr ⟨same, below⟩)
    · exact Or.inr (Or.inr ⟨same.symm, above⟩)
  · exact Or.inl (Or.inl greater)

end Order

instance (score : α → K) : Std.Irrefl (Before score) := ⟨fun _ => Before.irrefl⟩

instance (score : α → K) : Std.Antisymm (Before score) :=
  ⟨fun _ _ first second => absurd second first.asymm⟩

/-- The elements with a property, by their scores. -/
structure IsRanking (score : α → K) (p : α → Prop) (xs : List α) : Prop where
  mem : ∀ x, x ∈ xs ↔ p x
  sorted : xs.Pairwise (Before score)

namespace IsRanking

variable {score : α → K} {p : α → Prop} {xs ys : List α}

theorem nodup (ranking : IsRanking score p xs) : xs.Nodup :=
  ranking.sorted.nodup

/-- A ranking is determined by what it ranks and by the scores. -/
theorem unique (left : IsRanking score p xs) (right : IsRanking score p ys) : xs = ys :=
  left.sorted.eq_of_mem_iff right.sorted fun x => (left.mem x).trans (right.mem x).symm

/-- A ranking with other names for its scores and its property. -/
theorem congr (ranking : IsRanking score p xs) {score' : α → K} {p' : α → Prop}
    (same : ∀ x, score' x = score x) (both : ∀ x, p' x ↔ p x) : IsRanking score' p' xs := by
  obtain rfl : score' = score := funext same
  exact ⟨fun x => (ranking.mem x).trans (both x).symm, ranking.sorted⟩

/-- The place of an element is the number of those before it. -/
theorem idxOf_eq (ranking : IsRanking score p xs) {x : α} (m : x ∈ xs) :
    xs.idxOf x = xs.countP fun y => decide (Before score y x) := by
  obtain ⟨before, after, rfl⟩ := List.append_of_mem m
  obtain ⟨-, tail, apart⟩ := List.pairwise_append.mp ranking.sorted
  have fresh : x ∉ before := fun again =>
    Before.irrefl (apart x again x List.mem_cons_self)
  have all : before.countP (fun y => decide (Before score y x)) = before.length := by
    rw [List.countP_eq_length]
    intro y inside
    exact decide_eq_true (apart y inside x List.mem_cons_self)
  have none_after : (x :: after).countP (fun y => decide (Before score y x)) = 0 := by
    rw [List.countP_eq_zero]
    intro y inside known
    rcases List.mem_cons.mp inside with rfl | later
    · exact Before.irrefl (of_decide_eq_true known)
    · exact Before.asymm ((List.pairwise_cons.mp tail).1 y later) (of_decide_eq_true known)
  rw [List.idxOf_append_of_notMem fresh, List.idxOf_cons_self, List.countP_append, all, none_after]

/-- An element does not fall when its score rises and no other score does. -/
theorem idxOf_le {score' : α → K} {xs' : List α} (ranking : IsRanking score p xs)
    (ranking' : IsRanking score' p xs') {x : α} (ranked : p x) (rises : score x ≤ score' x)
    (others : ∀ y, y ≠ x → score' y ≤ score y) : xs'.idxOf x ≤ xs.idxOf x := by
  have perm : List.Perm xs' xs :=
    (List.perm_ext_iff_of_nodup ranking'.nodup ranking.nodup).mpr fun y =>
      (ranking'.mem y).trans (ranking.mem y).symm
  rw [ranking.idxOf_eq ((ranking.mem x).mpr ranked), ranking'.idxOf_eq ((ranking'.mem x).mpr ranked),
    perm.countP_eq]
  apply List.countP_mono_left
  intro y _ before
  apply decide_eq_true
  have apart : y ≠ x := fun same => Before.irrefl (same ▸ of_decide_eq_true before)
  have falls := others y apart
  rcases of_decide_eq_true before with less | ⟨same, less⟩
  · exact Or.inl (rises.trans_lt (less.trans_le falls))
  · rcases (rises.trans (same ▸ falls)).lt_or_eq with strictly | equal
    · exact Or.inl strictly
    · exact Or.inr ⟨equal.symm, less⟩

end IsRanking

/-! ## Sorting -/

/-- Before, or the same. -/
def NotAfter (score : α → K) (x y : α) : Prop :=
  score y < score x ∨ (score x = score y ∧ x ≤ y)

instance (score : α → K) : DecidableRel (NotAfter score) := fun x y =>
  inferInstanceAs (Decidable (score y < score x ∨ (score x = score y ∧ x ≤ y)))

theorem notAfter_iff {score : α → K} {x y : α} : NotAfter score x y ↔ x = y ∨ Before score x y := by
  constructor
  · rintro (less | ⟨same, below⟩)
    · exact Or.inr (Or.inl less)
    · rcases below.eq_or_lt with rfl | strictly
      · exact Or.inl rfl
      · exact Or.inr (Or.inr ⟨same, strictly⟩)
  · rintro (rfl | less | ⟨same, less⟩)
    · exact Or.inr ⟨rfl, le_refl _⟩
    · exact Or.inl less
    · exact Or.inr ⟨same, less.le⟩

instance (score : α → K) : Std.Total (NotAfter score) := ⟨fun x y => by
  rw [notAfter_iff, notAfter_iff]
  by_cases same : x = y
  · exact Or.inl (Or.inl same)
  · exact (Before.connected same).imp Or.inr Or.inr⟩

instance (score : α → K) : IsTrans α (NotAfter score) := ⟨fun x y z first second => by
  rw [notAfter_iff] at first second ⊢
  rcases first with rfl | first
  · exact second
  · rcases second with rfl | second
    · exact Or.inr first
    · exact Or.inr (first.trans second)⟩

/-- Distinct elements, sorted by their scores. -/
def ranked (score : α → K) (xs : List α) : List α := xs.insertionSort (NotAfter score)

theorem isRanking_ranked (score : α → K) {xs : List α} (nodup : xs.Nodup) :
    IsRanking score (· ∈ xs) (ranked score xs) where
  mem _ := List.mem_insertionSort _
  sorted := by
    have distinct : (ranked score xs).Nodup :=
      (List.perm_insertionSort _ xs).nodup_iff.mpr nodup
    refine (List.pairwise_insertionSort (NotAfter score) xs).imp₂ ?_ distinct
    intro x y before apart
    exact (notAfter_iff.mp before).resolve_left apart

end Mnem.Theory
