/-
# Theory.Modularity — partitions that are scored by pairs

A partition gives each element of a finite set a label.  Its score adds up what
each pair under one label is worth.  Moving one element changes the score by
twice what the element gains (`together_update`).  For modularity the worth of a
pair is its weight, less what is expected by the degrees; the score is then the
sum over the labels of the weight inside and the square of the degrees
(`modularity_eq`), and lies between -1 and 1.

A label may have no weight inside.  If none of its elements gains more than `ε` by
moving to a neighbour's label, the label's degrees are small
(`square_of_stuck`): an element gains something from all its neighbours' labels
together.
-/
import Mathlib.Algebra.BigOperators.Field
import Mathlib.Algebra.Order.BigOperators.Group.Finset
import Mathlib.Algebra.Order.Field.Basic
import Mathlib.Tactic.FieldSimp
import Mathlib.Tactic.Ring
import Mathlib.Tactic.Linarith
import Mnem.Theory.Numerals

namespace Mnem.Theory

open Finset

set_option autoImplicit false

section Pairs

variable {ι L K : Type*} [DecidableEq L] [Field K]

/-- What the pairs under one label are worth. -/
def together (V : Finset ι) (b : ι → ι → K) (p : ι → L) : K :=
  ∑ u ∈ V, ∑ v ∈ V, if p u = p v then b u v else 0

/-- The score depends only on which elements share a label. -/
theorem together_congr {L' : Type*} [DecidableEq L'] {V : Finset ι} (b : ι → ι → K) {p : ι → L}
    {q : ι → L'} (same : ∀ u ∈ V, ∀ v ∈ V, (p u = p v ↔ q u = q v)) :
    together V b p = together V b q :=
  sum_congr rfl fun u m => sum_congr rfl fun v m' => if_congr (same u m v m') rfl rfl

/-- The score, label by label. -/
theorem together_labels (V : Finset ι) (b : ι → ι → K) (p : ι → L) : together V b p =
    ∑ c ∈ V.image p, ∑ u ∈ V with p u = c, ∑ v ∈ V with p v = c, b u v := by
  unfold together
  rw [← sum_fiberwise_of_maps_to fun u m => mem_image_of_mem p m]
  refine sum_congr rfl fun c _ => sum_congr rfl fun u m => ?_
  rw [sum_filter]
  exact sum_congr rfl fun v _ => if_congr (by rw [(mem_filter.mp m).2]; exact eq_comm) rfl rfl

variable [DecidableEq ι]

/-- What an element is worth to the others under a label. -/
def pull (V : Finset ι) (b : ι → ι → K) (p : ι → L) (v : ι) (c : L) : K :=
  ∑ u ∈ V.erase v, if p u = c then b v u else 0

theorem together_split {V : Finset ι} {b : ι → ι → K} (symm : ∀ u v, b u v = b v u) (p : ι → L)
    {v : ι} (inside : v ∈ V) : together V b p =
      together (V.erase v) b p + 2 * pull V b p v (p v) + b v v := by
  have column : ∑ u ∈ V.erase v, (if p u = p v then b u v else 0) = pull V b p v (p v) :=
    sum_congr rfl fun u _ => by rw [symm u v]
  have row : ∑ u ∈ V.erase v, (if p v = p u then b v u else 0) = pull V b p v (p v) :=
    sum_congr rfl fun u _ => if_congr eq_comm rfl rfl
  unfold together
  rw [← add_sum_erase V _ inside, ← add_sum_erase V (fun u => if p v = p u then b v u else 0) inside,
    if_pos rfl, row]
  have rest : ∑ u ∈ V.erase v, ∑ u' ∈ V, (if p u = p u' then b u u' else 0) =
      ∑ u ∈ V.erase v, ((if p u = p v then b u v else 0) +
        ∑ u' ∈ V.erase v, if p u = p u' then b u u' else 0) :=
    sum_congr rfl fun u _ => (add_sum_erase V _ inside).symm
  rw [rest, sum_add_distrib, column]
  ring

theorem pull_update (V : Finset ι) (b : ι → ι → K) (p : ι → L) (v : ι) (c d : L) :
    pull V b (Function.update p v c) v d = pull V b p v d :=
  sum_congr rfl fun u m => by rw [Function.update_of_ne (ne_of_mem_erase m)]

/-- Moving one element changes the score by twice what it gains. -/
theorem together_update {V : Finset ι} {b : ι → ι → K} (symm : ∀ u v, b u v = b v u) (p : ι → L)
    {v : ι} (inside : v ∈ V) (c : L) : together V b (Function.update p v c) =
      together V b p + 2 * (pull V b p v c - pull V b p v (p v)) := by
  have others : together (V.erase v) b (Function.update p v c) = together (V.erase v) b p :=
    sum_congr rfl fun u m => sum_congr rfl fun u' m' => by
      rw [Function.update_of_ne (ne_of_mem_erase m), Function.update_of_ne (ne_of_mem_erase m')]
  rw [together_split symm (Function.update p v c) inside, together_split symm p inside, others,
    Function.update_self, pull_update]
  ring

end Pairs

/-! ## Modularity -/

section Modularity

variable {ι L K : Type*} [DecidableEq L] [Field K]

def degree (V : Finset ι) (w : ι → ι → K) (u : ι) : K := ∑ v ∈ V, w u v

def total (V : Finset ι) (w : ι → ι → K) : K := ∑ u ∈ V, degree V w u

/-- The weight under a label, counted from both ends. -/
def innerWeight (V : Finset ι) (w : ι → ι → K) (p : ι → L) (c : L) : K :=
  ∑ u ∈ V with p u = c, ∑ v ∈ V with p v = c, w u v

/-- The degrees under a label. -/
def volume (V : Finset ι) (w : ι → ι → K) (p : ι → L) (c : L) : K :=
  ∑ u ∈ V with p u = c, degree V w u

/-- The weight of a pair, less what is expected, in units of `m`. -/
def excessBy (m : K) (V : Finset ι) (w : ι → ι → K) (u v : ι) : K :=
  w u v / m - degree V w u * degree V w v / m ^ 2

/-- The weight of a pair, less what is expected. -/
def excess (V : Finset ι) (w : ι → ι → K) (u v : ι) : K :=
  w u v / total V w - degree V w u * degree V w v / total V w ^ 2

theorem excessBy_total (V : Finset ι) (w : ι → ι → K) : excessBy (total V w) V w = excess V w := rfl

theorem excessBy_symm (m : K) (V : Finset ι) {w : ι → ι → K} (symm : ∀ u v, w u v = w v u) (u v : ι) :
    excessBy m V w u v = excessBy m V w v u := by
  rw [excessBy, excessBy, symm u v, mul_comm]

/-- **The score by excess is modularity.** -/
theorem modularityBy_eq (m : K) (V : Finset ι) (w : ι → ι → K) (p : ι → L) :
    together V (excessBy m V w) p =
      ∑ c ∈ V.image p, (innerWeight V w p c / m - (volume V w p c / m) ^ 2) := by
  rw [together_labels]
  refine sum_congr rfl fun c _ => ?_
  unfold excessBy innerWeight volume
  simp only [sum_sub_distrib, sum_div, pow_two, sum_mul_sum, div_mul_div_comm]

theorem modularity_eq (V : Finset ι) (w : ι → ι → K) (p : ι → L) : together V (excess V w) p =
    ∑ c ∈ V.image p, (innerWeight V w p c / total V w - (volume V w p c / total V w) ^ 2) :=
  modularityBy_eq (total V w) V w p

section Moves

variable [DecidableEq ι]

/-- What an element is worth to a label that is not its own. -/
theorem pull_excessBy (m : K) (V : Finset ι) (w : ι → ι → K) (p : ι → L) {v : ι} {c : L}
    (other : p v ≠ c) : pull V (excessBy m V w) p v c =
      (∑ u ∈ V with p u = c, w v u) / m - degree V w v * volume V w p c / m ^ 2 := by
  have all : pull V (excessBy m V w) p v c = ∑ u ∈ V with p u = c, excessBy m V w v u := by
    rw [sum_filter]
    refine sum_erase V ?_
    rw [if_neg other]
  rw [all]
  unfold excessBy volume
  rw [sum_sub_distrib, ← sum_div, ← sum_div, ← mul_sum]

/-- And to its own label. -/
theorem pull_excessBy_own (m : K) (V : Finset ι) (w : ι → ι → K) (p : ι → L) {v : ι}
    (inside : v ∈ V) : pull V (excessBy m V w) p v (p v) =
      ((∑ u ∈ V with p u = p v, w v u) - w v v) / m -
        degree V w v * (volume V w p (p v) - degree V w v) / m ^ 2 := by
  have all := add_sum_erase V (fun u => if p u = p v then excessBy m V w v u else 0) inside
  have weights : ∑ u ∈ V, (if p u = p v then excessBy m V w v u else 0) =
      ∑ u ∈ V with p u = p v, excessBy m V w v u := (sum_filter _ _).symm
  rw [weights, if_pos rfl] at all
  have sum : pull V (excessBy m V w) p v (p v) =
      ∑ u ∈ V with p u = p v, excessBy m V w v u - excessBy m V w v v := by
    rw [← all, add_sub_cancel_left]
    rfl
  rw [sum]
  unfold excessBy volume
  rw [sum_sub_distrib, ← sum_div, ← sum_div, ← mul_sum]
  ring

/-- What an element without a weight to itself gains by a label that is not its own. -/
theorem pull_sub_pull {m : K} (nonzero : m ≠ 0) (V : Finset ι) (w : ι → ι → K) (p : ι → L) {v : ι}
    {c : L} (inside : v ∈ V) (other : p v ≠ c) (loopless : w v v = 0) :
    2 * (pull V (excessBy m V w) p v c - pull V (excessBy m V w) p v (p v)) =
      ((∑ u ∈ V with p u = c, w v u) - ∑ u ∈ V with p u = p v, w v u) / (m / 2) +
        degree V w v * (volume V w p (p v) - volume V w p c - degree V w v) / (m * m / 2) := by
  rw [pull_excessBy m V w p other, pull_excessBy_own m V w p inside, loopless]
  field_simp
  ring

end Moves

theorem volume_update [DecidableEq ι] (V : Finset ι) (w : ι → ι → K) (p : ι → L) {v : ι}
    (inside : v ∈ V) (c d : L) : volume V w (Function.update p v c) d =
      volume V w p d - (if p v = d then degree V w v else 0) +
        if c = d then degree V w v else 0 := by
  have others : ∑ u ∈ V.erase v, (if Function.update p v c u = d then degree V w u else 0) =
      ∑ u ∈ V.erase v, if p u = d then degree V w u else 0 :=
    sum_congr rfl fun u m => by rw [Function.update_of_ne (ne_of_mem_erase m)]
  unfold volume
  rw [sum_filter, sum_filter, ← add_sum_erase V _ inside, others, Function.update_self,
    ← add_sum_erase V (fun u => if p u = d then degree V w u else 0) inside]
  ring

variable [LinearOrder K] [IsStrictOrderedRing K]

/-- No partition scores more than all pairs are worth without their signs. -/
theorem together_le (V : Finset ι) (b : ι → ι → K) (p : ι → L) :
    together V b p ≤ ∑ u ∈ V, ∑ v ∈ V, |b u v| := by
  refine sum_le_sum fun u _ => sum_le_sum fun v _ => ?_
  split
  · exact le_abs_self _
  · exact abs_nonneg _

/-- Modularity lies between -1 and 1. -/
theorem modularity_bounds {V : Finset ι} {w : ι → ι → K} (nonneg : ∀ u v, 0 ≤ w u v)
    (some : 0 < total V w) (p : ι → L) :
    -1 ≤ together V (excess V w) p ∧ together V (excess V w) p ≤ 1 := by
  have degrees : ∀ u, 0 ≤ degree V w u := fun u => sum_nonneg fun v _ => nonneg u v
  have parts : together V (excess V w) p = together V (fun u v => w u v / total V w) p -
      together V (fun u v => degree V w u * degree V w v / total V w ^ 2) p := by
    unfold together
    rw [← sum_sub_distrib]
    refine sum_congr rfl fun u _ => ?_
    rw [← sum_sub_distrib]
    refine sum_congr rfl fun v _ => ?_
    split
    · rfl
    · exact (sub_zero 0).symm
  have within : ∀ b : ι → ι → K, (∀ u v, 0 ≤ b u v) → ∑ u ∈ V, ∑ v ∈ V, b u v = 1 →
      0 ≤ together V b p ∧ together V b p ≤ 1 := by
    intro b pos whole
    refine ⟨sum_nonneg fun u _ => sum_nonneg fun v _ => ?_, ?_⟩
    · split
      · exact pos u v
      · exact le_refl 0
    · rw [← whole]
      refine sum_le_sum fun u _ => sum_le_sum fun v _ => ?_
      split
      · exact le_refl _
      · exact pos u v
  obtain ⟨low, high⟩ := within (fun u v => w u v / total V w)
    (fun u v => div_nonneg (nonneg u v) some.le) (by
      simp only [← sum_div]
      exact div_self some.ne')
  obtain ⟨low', high'⟩ := within (fun u v => degree V w u * degree V w v / total V w ^ 2)
    (fun u v => div_nonneg (mul_nonneg (degrees u) (degrees v)) (sq_nonneg _)) (by
      simp only [← sum_div, ← mul_sum, ← sum_mul]
      rw [pow_two]
      exact div_self (mul_pos some some).ne')
  rw [parts]
  exact ⟨by linarith, by linarith⟩

/-! ## Labels without weight inside -/

section Stuck

variable [DecidableEq ι]

/-- The elements that an element has a weight to. -/
def neighbours (V : Finset ι) (w : ι → ι → K) (v : ι) : Finset ι := V.filter fun u => 0 < w v u

/-- An element without a neighbour under its own label gains from all its neighbours' labels
together: they have all its weight, and not all the degrees. -/
theorem volume_of_stuck {V : Finset ι} {w : ι → ι → K} (nonneg : ∀ u v, 0 ≤ w u v)
    (some : 0 < total V w) {p : ι → L} {v : ι} (inside : v ∈ V)
    (alone : ∀ u ∈ V, p u = p v → w v u = 0) {ε : K} (tiny : 0 ≤ ε)
    (stuck : ∀ u ∈ neighbours V w v,
      2 * (pull V (excess V w) p v (p u) - pull V (excess V w) p v (p v)) ≤ ε) :
    degree V w v * volume V w p (p v) / total V w ^ 2 ≤ (neighbours V w v).card * (ε / 2) := by
  have degrees : ∀ u, 0 ≤ degree V w u := fun u => sum_nonneg fun v _ => nonneg u v
  have own : pull V (excess V w) p v (p v) ≤ 0 := by
    have mine : degree V w v ≤ volume V w p (p v) :=
      single_le_sum (fun u _ => degrees u) (mem_filter.mpr ⟨inside, rfl⟩)
    have nothing : ∑ u ∈ V with p u = p v, w v u = 0 :=
      sum_eq_zero fun u m => alone u (mem_filter.mp m).1 (mem_filter.mp m).2
    rw [← excessBy_total, pull_excessBy_own _ V w p inside, nothing, alone v inside rfl, sub_zero, zero_div, zero_sub]
    exact neg_nonpos.mpr (div_nonneg (mul_nonneg (degrees v) (sub_nonneg.mpr mine)) (sq_nonneg _))
  have labels : ∀ c ∈ (neighbours V w v).image p,
      pull V (excess V w) p v c ≤ ε / 2 ∧ p v ≠ c := by
    intro c m
    obtain ⟨u, near, rfl⟩ := mem_image.mp m
    obtain ⟨inV, pos⟩ := mem_filter.mp near
    refine ⟨by have gain := stuck u near; linarith, fun same => pos.ne' (alone u inV same.symm)⟩
  have weights : ∑ c ∈ (neighbours V w v).image p, ∑ u ∈ V with p u = c, w v u = degree V w v := by
    have all : ∑ u ∈ V with p u ∈ (neighbours V w v).image p, w v u = degree V w v := by
      refine sum_filter_of_ne fun u inV nonzero => ?_
      exact mem_image_of_mem p (mem_filter.mpr ⟨inV, lt_of_le_of_ne (nonneg v u) nonzero.symm⟩)
    rw [← all, ← sum_fiberwise_of_maps_to fun u m => (mem_filter.mp m).2]
    refine sum_congr rfl fun c m => sum_congr ?_ fun _ _ => rfl
    ext u
    simp only [mem_filter]
    constructor
    · rintro ⟨inV, rfl⟩
      exact ⟨⟨inV, m⟩, rfl⟩
    · rintro ⟨⟨inV, -⟩, same⟩
      exact ⟨inV, same⟩
  have volumes : ∑ c ∈ (neighbours V w v).image p, volume V w p c ≤
      total V w - volume V w p (p v) := by
    have whole : total V w = ∑ c ∈ V.image p, volume V w p c :=
      (sum_fiberwise_of_maps_to (fun u m => mem_image_of_mem p m) _).symm
    have mine := add_sum_erase (V.image p) (volume V w p) (mem_image_of_mem p inside)
    have part : (neighbours V w v).image p ⊆ (V.image p).erase (p v) := by
      intro c m
      refine mem_erase.mpr ⟨(labels c m).2.symm, ?_⟩
      exact image_subset_image (filter_subset _ V) m
    have less := sum_le_sum_of_subset_of_nonneg (f := volume V w p) part
      fun c _ _ => sum_nonneg fun u _ => degrees u
    rw [whole]
    linarith
  have gains : degree V w v * volume V w p (p v) / total V w ^ 2 ≤
      ∑ c ∈ (neighbours V w v).image p, pull V (excess V w) p v c := by
    have each : ∑ c ∈ (neighbours V w v).image p, pull V (excess V w) p v c =
        degree V w v / total V w -
          degree V w v * (∑ c ∈ (neighbours V w v).image p, volume V w p c) / total V w ^ 2 := by
      rw [mul_sum, sum_div, ← weights, sum_div, weights, ← sum_sub_distrib]
      exact sum_congr rfl fun c m => pull_excessBy _ V w p (labels c m).2
    have bound := div_le_div_of_nonneg_right (mul_le_mul_of_nonneg_left volumes (degrees v))
      (sq_nonneg (total V w))
    have split : degree V w v * (total V w - volume V w p (p v)) / total V w ^ 2 =
        degree V w v / total V w - degree V w v * volume V w p (p v) / total V w ^ 2 := by
      rw [mul_sub, sub_div, pow_two, mul_div_mul_right _ _ some.ne']
    rw [each]
    linarith
  have most := sum_le_card_nsmul _ _ _ fun c m => (labels c m).1
  have fewer : (((neighbours V w v).image p).card : K) ≤ (neighbours V w v).card :=
    Nat.cast_le.mpr card_image_le
  rw [nsmul_eq_mul] at most
  exact gains.trans (most.trans (mul_le_mul_of_nonneg_right fewer (div_nonneg tiny zero_le_two)))

/-- **The degrees under labels without weight inside are small**, if no element gains more than `ε`
by a move. -/
theorem squares_of_stuck {V : Finset ι} {w : ι → ι → K} (nonneg : ∀ u v, 0 ≤ w u v)
    (some : 0 < total V w) {p : ι → L} {ε : K} (tiny : 0 ≤ ε)
    (stuck : ∀ v ∈ V, ∀ u ∈ neighbours V w v, p u ≠ p v →
      2 * (pull V (excess V w) p v (p u) - pull V (excess V w) p v (p v)) ≤ ε)
    {S : Finset L} (bare : ∀ c ∈ S, ∀ u ∈ V, ∀ v ∈ V, p u = c → p v = c → w v u = 0) :
    ∑ c ∈ S, (volume V w p c / total V w) ^ 2 ≤
      (∑ v ∈ V, ((neighbours V w v).card : K)) * (ε / 2) := by
  have each : ∀ c ∈ S, (volume V w p c / total V w) ^ 2 ≤
      ∑ v ∈ V with p v = c, (neighbours V w v).card * (ε / 2) := by
    intro c m
    have square : (volume V w p c / total V w) ^ 2 =
        ∑ v ∈ V with p v = c, degree V w v * volume V w p c / total V w ^ 2 := by
      rw [div_pow, ← sum_div, ← sum_mul, pow_two (volume V w p c)]
      rfl
    rw [square]
    refine sum_le_sum fun v inLabel => ?_
    obtain ⟨inV, rfl⟩ := mem_filter.mp inLabel
    have alone : ∀ u ∈ V, p u = p v → w v u = 0 := fun u inV' same =>
      bare _ m u inV' v inV same rfl
    refine volume_of_stuck nonneg some inV alone tiny fun u near => stuck v inV u near fun same => ?_
    obtain ⟨inV', pos⟩ := mem_filter.mp near
    exact pos.ne' (alone u inV' same)
  have disjoint : ∑ c ∈ S, ∑ v ∈ V with p v = c, ((neighbours V w v).card : K) * (ε / 2) ≤
      ∑ v ∈ V, ((neighbours V w v).card : K) * (ε / 2) := by
    have fibers := sum_fiberwise_of_maps_to (s := V.filter fun v => p v ∈ S) (t := S) (g := p)
      (fun v m => (mem_filter.mp m).2) fun v => ((neighbours V w v).card : K) * (ε / 2)
    have same : ∀ c ∈ S, (V.filter fun v => p v ∈ S).filter (fun v => p v = c) =
        V.filter fun v => p v = c := by
      intro c m
      ext v
      simp only [mem_filter]
      constructor
      · rintro ⟨⟨inV, -⟩, at_c⟩
        exact ⟨inV, at_c⟩
      · rintro ⟨inV, rfl⟩
        exact ⟨⟨inV, m⟩, rfl⟩
    rw [← sum_congr rfl fun c m => by rw [same c m]] at fibers
    refine (le_of_eq fibers).trans (sum_le_sum_of_subset_of_nonneg (filter_subset _ V) ?_)
    intro v _ _
    exact mul_nonneg (Nat.cast_nonneg _) (div_nonneg tiny zero_le_two)
  rw [sum_mul]
  exact (sum_le_sum each).trans disjoint

end Stuck

end Modularity

end Mnem.Theory
