/-
# Graphrag.Calibration — the label of a score distribution and its scale

`distribution_shape` sorts the scores, reads five of them, and compares their
differences with each other and with an absolute epsilon.  The label survives a
change of scale exactly when the epsilon falls on the same side of the one
difference that decides (`distributionShape_scale_iff`).
-/
import Mnem.Theory.Ascending
import Mnem.Theory.Numerals
import Mathlib.Algebra.Order.Field.Basic
import Mathlib.Data.Rat.Cast.Order
import Mathlib.Tactic.Linarith
import Mathlib.Tactic.Positivity

namespace Mnem.Graphrag.Calibration

open Theory

set_option autoImplicit false

inductive ShapeLabel where
  | longTail
  | uniform
  | bimodal
  | insufficientSamples
  deriving DecidableEq

section Shape

variable {K : Type} [Field K] [LinearOrder K]

structure ScoreDistribution (K : Type) [Zero K] where
  min : K := 0
  max : K := 0
  median : K := 0
  iqr : K := 0
  shape : ShapeLabel := .insufficientSamples

/-- `f32::EPSILON`. -/
def epsilon : K := 1 / 2 ^ 23

/-- Some gap with two scores or more on each side is larger than half the range. -/
def bimodalGap (sorted : List K) (range : K) : Bool :=
  if sorted.length < 4 ∨ range ≤ epsilon then false
  else
    let threshold := range * (1 / 2)
    (sorted.zip sorted.tail).zipIdx.any fun (w, i) =>
      let below := i + 1
      let above := sorted.length - i - 1
      !(below < 2 || above < 2) && decide (threshold < w.2 - w.1)

/-- Nothing marks a panic: a read outside the scores. -/
def distributionShape (scores : List K) (gate : Nat) : Option (ScoreDistribution K) :=
  if scores.length < gate then some {}
  else do
    let sorted := ascending scores
    let n := sorted.length
    let min ← sorted[0]?
    let max ← sorted[n - 1]?
    let median ← sorted[n / 2]?
    let q1 ← sorted[n / 4]?
    let q3 ← sorted[3 * n / 4]?
    let iqr := Max.max (q3 - q1) epsilon
    let range := max - min
    -- the gap first: two clusters often have a long tail as well
    let shape :=
      if bimodalGap sorted range then ShapeLabel.bimodal
      else if 2 * iqr < max - median then .longTail
      else .uniform
    return { min, max, median, iqr, shape }

/-! ## The statistics that decide -/

/-- From the smallest score to the greatest. -/
def range (scores : List K) : K := stat scores (scores.length - 1) - stat scores 0

/-- From the median to the greatest score. -/
def rise (scores : List K) : K := stat scores (scores.length - 1) - stat scores (scores.length / 2)

/-- Between the quartiles. -/
def spread (scores : List K) : K :=
  stat scores (3 * scores.length / 4) - stat scores (scores.length / 4)

/-- Two neighbours with two scores or more on each side are further apart than half the range. -/
def Parted (scores : List K) : Prop :=
  ∃ i, 1 ≤ i ∧ i + 3 ≤ scores.length ∧ range scores * (1 / 2) < stat scores (i + 1) - stat scores i

theorem bimodalGap_iff (scores : List K) (r : K) :
    bimodalGap (ascending scores) r = true ↔ epsilon < r ∧
      ∃ i, 1 ≤ i ∧ i + 3 ≤ scores.length ∧ r * (1 / 2) < stat scores (i + 1) - stat scores i := by
  unfold bimodalGap
  rw [length_ascending]
  by_cases few : scores.length < 4 ∨ r ≤ epsilon
  · rw [if_pos few]
    constructor
    · intro h; cases h
    · rintro ⟨wide, i, low, high, -⟩
      rcases few with few | narrow
      · omega
      · exact absurd wide (not_lt.mpr narrow)
  · rw [if_neg few, List.any_eq_true]
    obtain ⟨-, wide⟩ := not_or.mp few
    constructor
    · rintro ⟨⟨⟨a, b⟩, i⟩, member, passes⟩
      rw [List.mem_zipIdx_iff_getElem?, List.getElem?_zip_eq_some, List.getElem?_tail] at member
      obtain ⟨left, right⟩ := member
      simp only [Bool.and_eq_true, Bool.not_eq_true', Bool.or_eq_false_iff, decide_eq_false_iff_not,
        decide_eq_true_eq] at passes
      obtain ⟨⟨low, high⟩, gap⟩ := passes
      refine ⟨not_le.mp wide, i, by omega, by omega, ?_⟩
      dsimp only at left right
      rw [stat, stat, left, right]
      exact gap
    · rintro ⟨-, i, low, high, gap⟩
      refine ⟨((stat scores i, stat scores (i + 1)), i), ?_, ?_⟩
      · rw [List.mem_zipIdx_iff_getElem?, List.getElem?_zip_eq_some, List.getElem?_tail]
        exact ⟨getElem?_ascending (by omega), getElem?_ascending (by omega)⟩
      · simp only [Bool.and_eq_true, Bool.not_eq_true', Bool.or_eq_false_iff, decide_eq_false_iff_not,
          decide_eq_true_eq]
        exact ⟨⟨by omega, by omega⟩, gap⟩

/-- The label of scores that are enough. -/
def label (scores : List K) : ShapeLabel :=
  if bimodalGap (ascending scores) (range scores) then .bimodal
  else if 2 * max (spread scores) epsilon < rise scores then .longTail
  else .uniform

/-- With a score and enough of them, the statistics and the label. -/
theorem distributionShape_eq {scores : List K} {gate : Nat} (enough : gate ≤ scores.length)
    (nonempty : scores ≠ []) : ∃ out, distributionShape scores gate = some out ∧
      out.min = stat scores 0 ∧ out.max = stat scores (scores.length - 1) ∧
      out.median = stat scores (scores.length / 2) ∧ out.shape = label scores := by
  have some_score : 0 < scores.length := List.length_pos_iff.mpr nonempty
  have read : ∀ {k}, k < scores.length → (ascending scores)[k]? = some (stat scores k) :=
    getElem?_ascending
  refine ⟨⟨stat scores 0, stat scores (scores.length - 1), stat scores (scores.length / 2),
    max (spread scores) epsilon, label scores⟩, ?_, rfl, rfl, rfl, rfl⟩
  unfold distributionShape
  rw [if_neg (Nat.not_lt.mpr enough)]
  dsimp only
  rw [length_ascending, read some_score, read (by omega), read (by omega), read (by omega),
    read (by omega)]
  rfl

theorem distributionShape_nil_zero : distributionShape ([] : List K) 0 = none := by
  have empty : ascending ([] : List K) = [] := ascending_of_pairwise .nil
  rw [distributionShape, if_neg (Nat.not_lt_zero _), empty]
  rfl

theorem distributionShape_few {scores : List K} {gate : Nat} (few : scores.length < gate) :
    distributionShape scores gate = some {} := if_pos few

section Ordered

variable [IsStrictOrderedRing K]

theorem epsilon_pos : (0 : K) < epsilon := by
  unfold epsilon
  positivity

theorem rise_le_range {scores : List K} (nonempty : scores ≠ []) : rise scores ≤ range scores := by
  have some_score : 0 < scores.length := List.length_pos_iff.mpr nonempty
  exact sub_le_sub_left (stat_mono (Nat.zero_le _) (by omega)) _

/-- Where a gap parts the scores, the range decides. -/
theorem label_parted {scores : List K} (nonempty : scores ≠ []) (parted : Parted scores) :
    label scores = if epsilon < range scores then .bimodal else .uniform := by
  unfold label
  by_cases wide : epsilon < range scores
  · rw [if_pos wide, if_pos ((bimodalGap_iff scores _).mpr ⟨wide, parted⟩)]
  · have short : ¬ 2 * max (spread scores) epsilon < rise scores := by
      have least : epsilon ≤ max (spread scores) epsilon := le_max_right _ _
      have below := rise_le_range nonempty
      have positive : (0 : K) < epsilon := epsilon_pos
      linarith
    rw [if_neg wide, if_neg fun gap => wide ((bimodalGap_iff scores _).mp gap).1, if_neg short]

/-- Elsewhere the tail decides. -/
theorem label_unparted {scores : List K} (whole : ¬ Parted scores) : label scores =
    if 2 * spread scores < rise scores ∧ 2 * epsilon < rise scores then .longTail else .uniform := by
  unfold label
  rw [if_neg fun gap => whole ((bimodalGap_iff scores _).mp gap).2]
  refine if_congr ?_ rfl rfl
  rw [mul_max_of_nonneg _ _ zero_le_two, max_lt_iff]

/-! ## Scale -/

variable {c : K}

theorem stat_scaled (positive : 0 < c) (scores : List K) (k : Nat) :
    stat (scores.map (c * ·)) k = c * stat scores k :=
  stat_map (fun _ _ lt => mul_lt_mul_of_pos_left lt positive) (mul_zero c) scores k

theorem range_scaled (positive : 0 < c) (scores : List K) :
    range (scores.map (c * ·)) = c * range scores := by
  rw [range, range, stat_scaled positive, stat_scaled positive, List.length_map, mul_sub]

theorem rise_scaled (positive : 0 < c) (scores : List K) :
    rise (scores.map (c * ·)) = c * rise scores := by
  rw [rise, rise, stat_scaled positive, stat_scaled positive, List.length_map, mul_sub]

theorem spread_scaled (positive : 0 < c) (scores : List K) :
    spread (scores.map (c * ·)) = c * spread scores := by
  rw [spread, spread, stat_scaled positive, stat_scaled positive, List.length_map, mul_sub]

theorem parted_scaled (positive : 0 < c) (scores : List K) :
    Parted (scores.map (c * ·)) ↔ Parted scores := by
  unfold Parted
  rw [List.length_map, range_scaled positive]
  refine exists_congr fun i => and_congr_right fun _ => and_congr_right fun _ => ?_
  rw [stat_scaled positive, stat_scaled positive, ← mul_sub, mul_assoc, mul_lt_mul_iff_right₀ positive]

/-- The label is kept when the epsilon is on the same side of the difference that decides. -/
theorem label_scaled_iff (positive : 0 < c) {scores : List K} (nonempty : scores ≠ []) :
    label (scores.map (c * ·)) = label scores ↔
      (Parted scores → (epsilon < c * range scores ↔ epsilon < range scores)) ∧
      (¬ Parted scores → 2 * spread scores < rise scores →
        (2 * epsilon < c * rise scores ↔ 2 * epsilon < rise scores)) := by
  by_cases parted : Parted scores
  · rw [label_parted nonempty parted, label_parted (by simpa using nonempty)
      ((parted_scaled positive scores).mpr parted), range_scaled positive]
    simp only [parted, true_imp_iff, not_true, false_imp_iff, and_true]
    by_cases wide : epsilon < range scores <;> by_cases wide' : epsilon < c * range scores <;>
      simp [wide, wide']
  · have tail : 2 * (c * spread scores) < c * rise scores ↔ 2 * spread scores < rise scores := by
      rw [mul_left_comm, mul_lt_mul_iff_right₀ positive]
    rw [label_unparted parted, label_unparted (mt (parted_scaled positive scores).mp parted),
      rise_scaled positive, spread_scaled positive]
    simp only [tail, parted, false_imp_iff, true_and, not_false_iff, true_imp_iff]
    by_cases long : 2 * spread scores < rise scores
    · by_cases far : 2 * epsilon < rise scores <;> by_cases far' : 2 * epsilon < c * rise scores <;>
        simp [long, far, far']
    · simp [long]

/-- **When the label is free of scale.**  Scores and their multiples by a positive constant have
one label, and scaled statistics, exactly when they are fewer than the gate, or there are some and
the epsilon is on the same side of the range where a gap parts them, and of half the rise above the
median where none does and the rise is more than twice the spread. -/
theorem distributionShape_scale_iff (scores : List K) (gate : Nat) (positive : 0 < c) :
    (∃ out out', distributionShape scores gate = some out ∧
      distributionShape (scores.map (c * ·)) gate = some out' ∧ out'.shape = out.shape ∧
      out'.min = c * out.min ∧ out'.max = c * out.max ∧ out'.median = c * out.median) ↔
    scores.length < gate ∨ scores ≠ [] ∧
      (Parted scores → (epsilon < c * range scores ↔ epsilon < range scores)) ∧
      (¬ Parted scores → 2 * spread scores < rise scores →
        (2 * epsilon < c * rise scores ↔ 2 * epsilon < rise scores)) := by
  rcases Nat.lt_or_ge scores.length gate with few | enough
  · have few' : (scores.map (c * ·)).length < gate := by rwa [List.length_map]
    refine ⟨fun _ => .inl few, fun _ => ⟨_, _, distributionShape_few few, distributionShape_few few', ?_⟩⟩
    exact ⟨rfl, (mul_zero c).symm, (mul_zero c).symm, (mul_zero c).symm⟩
  by_cases nonempty : scores = []
  · subst nonempty
    obtain rfl := Nat.le_zero.mp enough
    constructor
    · rintro ⟨out, -, ran, -⟩
      rw [distributionShape_nil_zero] at ran
      cases ran
    · rintro (few | ⟨some_score, -⟩)
      · exact absurd few (Nat.not_lt_zero _)
      · exact absurd rfl some_score
  · obtain ⟨out, ran, least, greatest, middle, shape⟩ := distributionShape_eq enough nonempty
    have enough' : gate ≤ (scores.map (c * ·)).length := by rwa [List.length_map]
    have nonempty' : scores.map (c * ·) ≠ [] := by simpa using nonempty
    obtain ⟨out', ran', least', greatest', middle', shape'⟩ := distributionShape_eq enough' nonempty'
    rw [List.length_map] at greatest' middle'
    have labels := label_scaled_iff positive nonempty
    constructor
    · rintro ⟨one, two, first, second, same, -⟩
      obtain rfl := Option.some.inj (ran.symm.trans first)
      obtain rfl := Option.some.inj (ran'.symm.trans second)
      rw [shape, shape'] at same
      exact .inr ⟨nonempty, labels.mp same⟩
    · rintro (few | ⟨-, kept⟩)
      · omega
      · refine ⟨out, out', ran, ran', ?_, ?_, ?_, ?_⟩
        · rw [shape, shape', labels.mpr kept]
        · rw [least, least', stat_scaled positive]
        · rw [greatest, greatest', stat_scaled positive]
        · rw [middle, middle', stat_scaled positive]

end Ordered

end Shape

/-! ## Two clusters -/

def clusters : List ℚ := [0, 0, 1, 1]

theorem ascending_clusters : ascending clusters = clusters :=
  ascending_of_pairwise (by decide)

theorem parted_clusters : Parted clusters := by
  refine ⟨1, Nat.le_refl _, Nat.le_refl _, ?_⟩
  unfold range stat
  rw [ascending_clusters]
  norm_num [clusters]

theorem range_clusters : range clusters = 1 := by
  unfold range stat
  rw [ascending_clusters]
  norm_num [clusters]

/-- Twice the scores have the same label. -/
theorem distributionShape_scale_doubled : ∃ out out', distributionShape clusters 4 = some out ∧
    distributionShape (clusters.map (2 * ·)) 4 = some out' ∧ out'.shape = out.shape ∧
    out'.min = 2 * out.min ∧ out'.max = 2 * out.max ∧ out'.median = 2 * out.median := by
  refine (distributionShape_scale_iff clusters 4 two_pos).mpr (.inr ⟨by decide, fun _ => ?_, ?_⟩)
  · rw [range_clusters]
    norm_num [epsilon]
  · exact fun whole => absurd parted_clusters whole

/-- The scores in units of half the epsilon are no longer two clusters, and no scores at all panic
where the gate lets them in. -/
theorem distributionShape_not_scale_free :
    (∃ out out', distributionShape clusters 4 = some out ∧ out.shape = .bimodal ∧
      distributionShape (clusters.map (1 / 2 ^ 24 * ·)) 4 = some out' ∧ out'.shape = .uniform) ∧
    distributionShape ([] : List ℚ) 0 = none := by
  have small : (0 : ℚ) < 1 / 2 ^ 24 := by norm_num
  have parted' := (parted_scaled small clusters).mpr parted_clusters
  have enough : 4 ≤ clusters.length := by decide
  have enough' : 4 ≤ (clusters.map (1 / 2 ^ 24 * ·)).length := by simp [clusters]
  obtain ⟨out, ran, -, -, -, shape⟩ := distributionShape_eq enough (by decide)
  obtain ⟨out', ran', -, -, -, shape'⟩ := distributionShape_eq enough' (by simp [clusters])
  refine ⟨⟨out, out', ran, ?_, ran', ?_⟩, distributionShape_nil_zero⟩
  · rw [shape, label_parted (by decide) parted_clusters, range_clusters]
    norm_num [epsilon]
  · rw [shape', label_parted (by simp [clusters]) parted', range_scaled small, range_clusters]
    norm_num [epsilon]

end Mnem.Graphrag.Calibration
