/-
# Retrieve.Exact — scores in exact arithmetic

The scores of a retrieval are floats.  Here they are the numbers of an ordered
field, with the two infinities that a search for the least and the greatest
score starts from.  What is computed from numbers is exact; a quotient by zero,
and anything computed from an infinity, is left undefined, and what is undefined
compares with nothing.  Scores that are added up under their ids are tallied; a
tally, sorted, is the ranking by the sums (`ranking_of_tally`).
-/
import Mnem.Retrieve.Candidates
import Mnem.Theory.Ranking
import Mathlib.Algebra.BigOperators.Group.List.Basic
import Mathlib.Algebra.Order.Field.Basic
import Mnem.Theory.Numerals

namespace Mnem.Retrieve

open Theory

set_option autoImplicit false

inductive Extended (K : Type) where
  | undefined
  | negInfinity
  | finite (x : K)
  | infinity
  deriving DecidableEq

namespace Extended

variable {K : Type}

/-- An operation on numbers. -/
def lift (f : K → K → K) : Extended K → Extended K → Extended K
  | .finite x, .finite y => .finite (f x y)
  | _, _ => .undefined

section Order

variable [LinearOrder K]

def min : Extended K → Extended K → Extended K
  | .finite x, .finite y => .finite (Min.min x y)
  | .infinity, x => x
  | x, .infinity => x
  | .negInfinity, _ => .negInfinity
  | _, .negInfinity => .negInfinity
  | .undefined, x => x
  | x, .undefined => x

def max : Extended K → Extended K → Extended K
  | .finite x, .finite y => .finite (Max.max x y)
  | .negInfinity, x => x
  | x, .negInfinity => x
  | .infinity, _ => .infinity
  | _, .infinity => .infinity
  | .undefined, x => x
  | x, .undefined => x

def lt : Extended K → Extended K → Bool
  | .finite x, .finite y => decide (x < y)
  | .negInfinity, .finite _ => true
  | .negInfinity, .infinity => true
  | .finite _, .infinity => true
  | _, _ => false

def le : Extended K → Extended K → Bool
  | .finite x, .finite y => decide (x ≤ y)
  | .negInfinity, .finite _ => true
  | .negInfinity, .negInfinity => true
  | .negInfinity, .infinity => true
  | .finite _, .infinity => true
  | .infinity, .infinity => true
  | _, _ => false

end Order

/-- A number with a property. -/
def holds (p : K → Bool) : Extended K → Bool
  | .finite x => p x
  | _ => false

end Extended

/-- The numbers of a field, as scores. -/
def Arith.exact (K : Type) [Field K] [LinearOrder K] : Arith (Extended K) where
  zero := .finite 0
  half := .finite (1 / 2)
  one := .finite 1
  infinity := .infinity
  negInfinity := .negInfinity
  ofNat n := .finite n
  add := Extended.lift (· + ·)
  sub := Extended.lift (· - ·)
  mul := Extended.lift (· * ·)
  div x y := if y = .finite 0 then .undefined else Extended.lift (· / ·) x y
  min := Extended.min
  max := Extended.max
  lt := Extended.lt
  le := Extended.le
  isZero := Extended.holds fun x => decide (x = 0)
  isTiny := Extended.holds fun x => decide (|x| < 1 / 10 ^ 12)

/-! ## On numbers -/

section Numbers

variable {K : Type} [Field K] [LinearOrder K] (x y : K)

open Arith

@[simp] theorem exact_zero : (exact K).zero = .finite 0 := rfl
@[simp] theorem exact_half : (exact K).half = .finite (1 / 2) := rfl
@[simp] theorem exact_one : (exact K).one = .finite 1 := rfl
@[simp] theorem exact_ofNat (n : Nat) : (exact K).ofNat n = .finite n := rfl

@[simp] theorem exact_add : (exact K).add (.finite x) (.finite y) = .finite (x + y) := rfl
@[simp] theorem exact_sub : (exact K).sub (.finite x) (.finite y) = .finite (x - y) := rfl
@[simp] theorem exact_mul : (exact K).mul (.finite x) (.finite y) = .finite (x * y) := rfl

theorem exact_div (nonzero : y ≠ 0) :
    (exact K).div (.finite x) (.finite y) = .finite (x / y) := by
  show (if Extended.finite y = .finite 0 then _ else _) = _
  rw [if_neg (by simpa using nonzero)]
  rfl

@[simp] theorem exact_min : (exact K).min (.finite x) (.finite y) = .finite (min x y) := rfl
@[simp] theorem exact_max : (exact K).max (.finite x) (.finite y) = .finite (max x y) := rfl
@[simp] theorem exact_min_infinity : (exact K).min (exact K).infinity (.finite x) = .finite x := rfl

@[simp] theorem exact_max_negInfinity :
    (exact K).max (exact K).negInfinity (.finite x) = .finite x := rfl

@[simp] theorem exact_lt : (exact K).lt (.finite x) (.finite y) = decide (x < y) := rfl
@[simp] theorem exact_le : (exact K).le (.finite x) (.finite y) = decide (x ≤ y) := rfl
@[simp] theorem exact_isZero : (exact K).isZero (.finite x) = decide (x = 0) := rfl

@[simp] theorem exact_isTiny : (exact K).isTiny (.finite x) = decide (|x| < 1 / 10 ^ 12) := rfl

end Numbers

/-- Scores compare strictly; some may not compare at all, as a NaN. -/
structure Arith.Strict {F : Type} (a : Arith F) : Prop where
  irrefl : ∀ x, a.lt x x = false
  trans : ∀ x y z, a.lt x y = true → a.lt y z = true → a.lt x z = true

theorem exact_strict (K : Type) [Field K] [LinearOrder K] : (Arith.exact K).Strict where
  irrefl x := by
    show Extended.lt x x = false
    cases x <;> simp [Extended.lt]
  trans x y z below above := by
    change Extended.lt x y = true at below
    change Extended.lt y z = true at above
    show Extended.lt x z = true
    cases x <;> cases y <;> cases z <;> simp [Extended.lt] at below above ⊢
    exact below.trans above

/-- A list of scores that are numbers. -/
theorem exists_finite {K : Type} (es : List (NodeId × Extended K))
    (each : ∀ e ∈ es, ∃ y, e.2 = .finite y) :
    ∃ xs : List (NodeId × K), es = xs.map fun e => (e.1, Extended.finite e.2) := by
  induction es with
  | nil => exact ⟨[], rfl⟩
  | cons e es ih =>
      obtain ⟨y, same⟩ := each e List.mem_cons_self
      obtain ⟨xs, rest⟩ := ih fun e' m => each e' (List.mem_cons_of_mem _ m)
      exact ⟨(e.1, y) :: xs, by rw [rest, List.map_cons, ← same]⟩

/-! ## Tallies -/

section Tally

variable {K : Type} [Field K]

/-- The sum of what an id is given. -/
def sumAt (xs : List (NodeId × K)) (id : NodeId) : K :=
  ((xs.filter fun x => x.1 == id).map Prod.snd).sum

@[simp] theorem sumAt_nil (id : NodeId) : sumAt ([] : List (NodeId × K)) id = 0 := rfl

@[simp] theorem sumAt_append (xs ys : List (NodeId × K)) (id : NodeId) :
    sumAt (xs ++ ys) id = sumAt xs id + sumAt ys id := by
  simp [sumAt]

theorem sumAt_cons (x : NodeId × K) (xs : List (NodeId × K)) (id : NodeId) :
    sumAt (x :: xs) id = (if x.1 = id then x.2 else 0) + sumAt xs id := by
  by_cases same : x.1 = id <;> simp [sumAt, same]

theorem sumAt_eq_zero {xs : List (NodeId × K)} {id : NodeId} (absent : id ∉ xs.map Prod.fst) :
    sumAt xs id = 0 := by
  have nothing : (xs.filter fun x => x.1 == id) = [] := by
    rw [List.filter_eq_nil_iff]
    intro x m same
    exact absent (List.mem_map.mpr ⟨x, m, beq_iff_eq.mp same⟩)
  rw [sumAt, nothing]
  rfl

theorem sumAt_flatMap {β : Type} (bs : List β) (f : β → List (NodeId × K)) (id : NodeId) :
    sumAt (bs.flatMap f) id = (bs.map fun b => sumAt (f b) id).sum := by
  induction bs with
  | nil => rfl
  | cons b bs ih => rw [List.flatMap_cons, sumAt_append, ih, List.map_cons, List.sum_cons]

theorem sumAt_perm {xs ys : List (NodeId × K)} (perm : List.Perm xs ys) (id : NodeId) :
    sumAt xs id = sumAt ys id :=
  ((perm.filter _).map _).sum_eq

variable [LinearOrder K]

/-- Add up what the ids are given. -/
def tally (xs : List (NodeId × K)) (totals : OrdMap NodeId (Extended K)) :
    OrdMap NodeId (Extended K) :=
  xs.foldl (fun totals x => (Arith.exact K).addTo totals x.1 (.finite x.2)) totals

theorem tally_append (xs ys : List (NodeId × K)) (totals : OrdMap NodeId (Extended K)) :
    tally (xs ++ ys) totals = tally ys (tally xs totals) :=
  List.foldl_append

/-- A loop over lanes that tallies what each gives. -/
theorem foldl_tally {β γ : Type} (given : β → List (NodeId × K)) (embed : β → γ)
    (step : OrdMap NodeId (Extended K) → γ → OrdMap NodeId (Extended K)) (lanes : List β)
    (each : ∀ lane ∈ lanes, ∀ totals, step totals (embed lane) = tally (given lane) totals)
    (totals : OrdMap NodeId (Extended K)) :
    (lanes.map embed).foldl step totals = tally (lanes.flatMap given) totals := by
  induction lanes generalizing totals with
  | nil => rfl
  | cons lane lanes ih =>
      rw [List.map_cons, List.foldl_cons, each lane List.mem_cons_self,
        ih fun lane' m => each lane' (List.mem_cons_of_mem _ m), List.flatMap_cons, tally_append]

/-- The totals hold the sums of what was given, for the ids that were given something. -/
def Tallied (xs : List (NodeId × K)) (totals : OrdMap NodeId (Extended K)) : Prop :=
  ∀ id, totals.get? id = if id ∈ xs.map Prod.fst then some (.finite (sumAt xs id)) else none

theorem Tallied.addTo {xs : List (NodeId × K)} {totals : OrdMap NodeId (Extended K)}
    (tallied : Tallied xs totals) (id : NodeId) (x : K) :
    Tallied (xs ++ [(id, x)]) ((Arith.exact K).addTo totals id (.finite x)) := by
  intro j
  unfold Arith.addTo
  rw [OrdMap.get?_modify, tallied id, tallied j]
  by_cases same : j = id
  · subst same
    have given : j ∈ (xs ++ [(j, x)]).map Prod.fst := by simp
    rw [if_pos rfl, if_pos given, sumAt_append]
    by_cases known : j ∈ xs.map Prod.fst
    · rw [if_pos known]
      simp [sumAt_cons]
    · rw [if_neg known, sumAt_eq_zero known]
      simp [sumAt_cons]
  · have given : j ∈ (xs ++ [(id, x)]).map Prod.fst ↔ j ∈ xs.map Prod.fst := by simp [same]
    have sum : sumAt (xs ++ [(id, x)]) j = sumAt xs j := by simp [sumAt_cons, Ne.symm same]
    rw [if_neg (Ne.symm same), sum]
    by_cases known : j ∈ xs.map Prod.fst
    · rw [if_pos known, if_pos (given.mpr known)]
    · rw [if_neg known, if_neg fun inside => known (given.mp inside)]

theorem tallied_tally (ys : List (NodeId × K)) {xs : List (NodeId × K)}
    {totals : OrdMap NodeId (Extended K)} (tallied : Tallied xs totals) :
    Tallied (xs ++ ys) (tally ys totals) := by
  induction ys generalizing xs totals with
  | nil => simpa [tally] using tallied
  | cons y ys ih =>
      have later := ih (tallied.addTo y.1 y.2)
      rwa [List.append_assoc] at later

/-- From nothing. -/
theorem tallied_all (ys : List (NodeId × K)) : Tallied ys (tally ys .empty) := by
  have start : Tallied ([] : List (NodeId × K)) .empty := fun id => rfl
  exact tallied_tally ys start

theorem ranksBefore_exact (score : NodeId → K) (x y : NodeId) :
    (Arith.exact K).ranksBefore (x, .finite (score x)) (y, .finite (score y)) = true ↔
      NotAfter score x y := by
  unfold Arith.ranksBefore NotAfter
  rw [exact_lt, exact_lt]
  rcases lt_trichotomy (score x) (score y) with less | same | greater
  · simp [less, less.not_gt, less.ne]
  · simp [same]
  · simp [greater]

/-- **A tally, sorted, is the ranking by the sums.** -/
theorem ranking_of_tallied {xs : List (NodeId × K)} {totals : OrdMap NodeId (Extended K)}
    (tallied : Tallied xs totals) :
    ∃ ids, (Arith.exact K).sortRanked totals.entries =
        ids.map (fun id => (id, .finite (sumAt xs id))) ∧
      IsRanking (sumAt xs) (· ∈ xs.map Prod.fst) ids := by
  have entries : totals.entries = totals.keys.map fun id => (id, .finite (sumAt xs id)) := by
    unfold OrdMap.keys
    rw [List.map_map]
    refine (List.map_id _).symm.trans (List.map_congr_left fun e m => ?_)
    have found := totals.get?_eq_some_iff.mpr m
    rw [tallied e.1] at found
    split at found
    · exact Prod.ext rfl (Option.some.inj found).symm
    · cases found
  have mem : ∀ id, id ∈ totals.keys ↔ id ∈ xs.map Prod.fst := by
    intro id
    rw [totals.mem_keys_iff, tallied id]
    by_cases known : id ∈ xs.map Prod.fst
    · simp [known]
    · rw [if_neg known]
      simpa using known
  refine ⟨ranked (sumAt xs) totals.keys, ?_,
    (isRanking_ranked (sumAt xs) totals.ascending.nodup).congr (fun _ => rfl) fun id =>
      (mem id).symm⟩
  unfold Arith.sortRanked ranked
  rw [entries]
  exact (List.map_insertionSort _ _ _ _ fun x _ y _ => (ranksBefore_exact _ x y).symm).symm

end Tally

end Mnem.Retrieve
