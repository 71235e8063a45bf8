/-
# Retrieve.Fusion — the lanes of a retrieval as one ranking

Both fusions tally what the lanes give to their nodes and sort the totals.  In
exact arithmetic each is therefore the ranking of the nodes that occur in a lane
of some weight by the sum of their shares, and the order of the lanes does not
matter.  A share of reciprocal rank fusion falls with the rank as long as `k` is
above `-1`, so a node that moves up in one lane does not fall in the ranking
(`fusion_law`).
-/
import Mnem.Retrieve.Exact
import Mathlib.Algebra.BigOperators.Group.List.Lemmas
import Mathlib.Algebra.Order.Field.Basic
import Mathlib.Tactic.Linarith
import Mathlib.Tactic.NormNum
import Mathlib.Tactic.Positivity

namespace Mnem.Retrieve

open Theory Prolly Repo Index

set_option autoImplicit false

set_option linter.unusedSectionVars false

variable {K : Type} [Field K] [LinearOrder K] [IsStrictOrderedRing K]

/-! ## Shares -/

/-- What a lane adds to the score of a node, by the rank of the node. -/
def rrfShare (k : K) (lane : List NodeId × K) (id : NodeId) : K :=
  if id ∈ lane.1 then lane.2 / (k + lane.1.idxOf id + 1) else 0

def rrfScore (k : K) (lanes : List (List NodeId × K)) (id : NodeId) : K :=
  (lanes.map fun lane => rrfShare k lane id).sum

/-- A score among the scores of its lane, from 0 for the least to 1 for the greatest. -/
def normalised (scores : List K) (score : K) : K :=
  let least := scores.min?.getD 0
  let greatest := scores.max?.getD 0
  if |greatest - least| < 1 / 10 ^ 12 then 1 / 2 else (score - least) / (greatest - least)

/-- What a lane adds to the score of a node, by the score that the node has in it. -/
def convexShare (lane : List (NodeId × K) × K) (id : NodeId) : K :=
  (Entries.get? id lane.1).elim 0 fun score => lane.2 * normalised (lane.1.map Prod.snd) score

def convexScore (lanes : List (List (NodeId × K) × K)) (id : NodeId) : K :=
  (lanes.map fun lane => convexShare lane id).sum

/-- The fusions of lanes whose scores and weights are numbers. -/
def exactRrf (k : K) (lanes : List (List NodeId × K)) : List (NodeId × Extended K) :=
  (Arith.exact K).weightedReciprocalRankFusion (lanes.map fun lane => (lane.1, .finite lane.2))
    (.finite k)

def exactConvex (lanes : List (List (NodeId × K) × K)) : List (NodeId × Extended K) :=
  (Arith.exact K).convexMinMaxFusion
    (lanes.map fun lane => (lane.1.map fun p => (p.1, .finite p.2), .finite lane.2))

/-! ## The loops are tallies -/

/-- What one lane gives, entry by entry. -/
def rrfGiven (k : K) (lane : List NodeId × K) : List (NodeId × K) :=
  if lane.2 = 0 then [] else lane.1.zipIdx.map fun p => (p.1, lane.2 / (k + p.2 + 1))

def convexGiven (lane : List (NodeId × K) × K) : List (NodeId × K) :=
  if lane.2 = 0 then []
  else lane.1.map fun p => (p.1, lane.2 * normalised (lane.1.map Prod.snd) p.2)

theorem exactRrf_eq {k : K} (defined : ∀ n : ℕ, k + n + 1 ≠ 0) (lanes : List (List NodeId × K)) :
    exactRrf k lanes =
      (Arith.exact K).sortRanked (tally (lanes.flatMap (rrfGiven k)) .empty).entries := by
  unfold exactRrf Arith.weightedReciprocalRankFusion
  dsimp only
  congr 2
  refine foldl_tally (rrfGiven k) _ _ lanes (fun lane _ totals => ?_) _
  dsimp only
  unfold rrfGiven tally
  rw [exact_isZero]
  by_cases zero : lane.2 = 0
  · rw [if_pos zero, if_pos (decide_eq_true zero)]
    rfl
  · rw [if_neg zero, if_neg (by simpa using zero), List.foldl_map]
    congr 1
    funext totals p
    rw [exact_ofNat, exact_add, exact_one, exact_add, exact_div _ _ (defined p.2)]

/-- The least and the greatest score, found from the infinities. -/
theorem foldl_min (p : NodeId × K) (ps : List (NodeId × K)) :
    ((p :: ps).map fun p => (p.1, Extended.finite p.2)).foldl
      (fun lo p => (Arith.exact K).min lo p.2) (Arith.exact K).infinity =
      .finite ((((p :: ps).map Prod.snd).min?).getD 0) := by
  rw [List.map_cons, List.foldl_cons, exact_min_infinity, List.map_cons, List.min?_cons']
  show _ = Extended.finite ((ps.map Prod.snd).foldl min p.2)
  generalize p.2 = lo
  induction ps generalizing lo with
  | nil => rfl
  | cons q ps ih => exact ih (min lo q.2)

theorem foldl_max (p : NodeId × K) (ps : List (NodeId × K)) :
    ((p :: ps).map fun p => (p.1, Extended.finite p.2)).foldl
      (fun hi p => (Arith.exact K).max hi p.2) (Arith.exact K).negInfinity =
      .finite ((((p :: ps).map Prod.snd).max?).getD 0) := by
  rw [List.map_cons, List.foldl_cons, exact_max_negInfinity, List.map_cons, List.max?_cons']
  show _ = Extended.finite ((ps.map Prod.snd).foldl max p.2)
  generalize p.2 = hi
  induction ps generalizing hi with
  | nil => rfl
  | cons q ps ih => exact ih (max hi q.2)

theorem exactConvex_eq (lanes : List (List (NodeId × K) × K)) :
    exactConvex lanes =
      (Arith.exact K).sortRanked (tally (lanes.flatMap convexGiven) .empty).entries := by
  unfold exactConvex Arith.convexMinMaxFusion
  dsimp only
  congr 2
  refine foldl_tally convexGiven _ _ lanes (fun lane _ totals => ?_) _
  obtain ⟨hits, weight⟩ := lane
  dsimp only
  unfold convexGiven tally
  rw [exact_isZero]
  by_cases zero : weight = 0
  · rw [if_pos zero, if_pos (by simp [zero])]
    rfl
  · rw [if_neg zero]
    cases hits with
    | nil => rfl
    | cons p ps =>
        rw [if_neg (by simp [zero]), foldl_min, foldl_max, List.foldl_map, List.foldl_map]
        congr 1
        funext totals q
        rw [exact_sub, exact_isTiny, exact_half, exact_sub]
        unfold normalised
        dsimp only
        split
        · next tiny =>
            rw [if_pos (of_decide_eq_true tiny), exact_mul]
        · next large =>
            have wide : ¬ |(((p :: ps).map Prod.snd).max?).getD 0 -
                (((p :: ps).map Prod.snd).min?).getD 0| < 1 / 10 ^ 12 := by simpa using large
            rw [if_neg wide, exact_div, exact_mul]
            intro same
            apply wide
            rw [same, abs_zero]
            positivity

/-! ## The totals are the scores -/

/-- Of entries with distinct ids, each gives its own. -/
theorem sumAt_of_mem {xs : List (NodeId × K)} (nodup : (xs.map Prod.fst).Nodup) {id : NodeId} {x : K}
    (m : (id, x) ∈ xs) : sumAt xs id = x := by
  induction xs with
  | nil => cases m
  | cons y ys ih =>
      rw [List.map_cons, List.nodup_cons] at nodup
      rw [sumAt_cons]
      rcases List.mem_cons.mp m with rfl | later
      · rw [if_pos rfl, sumAt_eq_zero nodup.1, add_zero]
      · have apart : y.1 ≠ id := fun same => nodup.1 (List.mem_map.mpr ⟨_, later, same.symm⟩)
        rw [if_neg apart, zero_add, ih nodup.2 later]

theorem keys_rrfGiven (k : K) {lane : List NodeId × K} (weighs : lane.2 ≠ 0) :
    (rrfGiven k lane).map Prod.fst = lane.1 := by
  rw [rrfGiven, if_neg weighs, List.map_map]
  exact List.zipIdx_map_fst 0 lane.1

theorem keys_convexGiven {lane : List (NodeId × K) × K} (weighs : lane.2 ≠ 0) :
    (convexGiven lane).map Prod.fst = lane.1.map Prod.fst := by
  rw [convexGiven, if_neg weighs, List.map_map]
  rfl

theorem sumAt_rrfGiven (k : K) {lane : List NodeId × K} (distinct : lane.1.Nodup) (id : NodeId) :
    sumAt (rrfGiven k lane) id = rrfShare k lane id := by
  by_cases zero : lane.2 = 0
  · rw [rrfGiven, if_pos zero, rrfShare, zero, zero_div, ite_self]
    rfl
  · have keys := keys_rrfGiven k zero
    unfold rrfShare
    by_cases m : id ∈ lane.1
    · have given : (id, lane.2 / (k + lane.1.idxOf id + 1)) ∈ rrfGiven k lane := by
        rw [rrfGiven, if_neg zero]
        refine List.mem_map.mpr ⟨(id, lane.1.idxOf id), ?_, rfl⟩
        rw [List.mem_zipIdx_iff_getElem?]
        exact List.getElem?_idxOf m
      rw [if_pos m, sumAt_of_mem (keys.symm ▸ distinct) given]
    · rw [if_neg m, sumAt_eq_zero (keys.symm ▸ m)]

theorem sumAt_convexGiven {lane : List (NodeId × K) × K} (distinct : (lane.1.map Prod.fst).Nodup)
    (id : NodeId) : sumAt (convexGiven lane) id = convexShare lane id := by
  unfold convexShare
  by_cases zero : lane.2 = 0
  · rw [convexGiven, if_pos zero, zero]
    cases Entries.get? id lane.1 <;> simp
  · have keys := keys_convexGiven zero
    cases found : Entries.get? id lane.1 with
    | none =>
        have absent : id ∉ lane.1.map Prod.fst := by
          intro inside
          obtain ⟨e, m, same⟩ := List.mem_map.mp inside
          exact Entries.get?_eq_none_iff.mp found e m same
        exact sumAt_eq_zero (keys.symm ▸ absent)
    | some score =>
        have given : (id, lane.2 * normalised (lane.1.map Prod.snd) score) ∈ convexGiven lane := by
          rw [convexGiven, if_neg zero]
          exact List.mem_map.mpr ⟨_, Entries.mem_of_get? found, rfl⟩
        exact sumAt_of_mem (keys.symm ▸ distinct) given

/-- A tally over lanes is a ranking by the sums of their shares. -/
theorem ranking_of_lanes {β : Type} (lanes : List β) (given : β → List (NodeId × K))
    (share : β → NodeId → K) (shares : ∀ lane ∈ lanes, ∀ id, sumAt (given lane) id = share lane id) :
    ∃ ids, (Arith.exact K).sortRanked (tally (lanes.flatMap given) .empty).entries =
        ids.map (fun id => (id, .finite (lanes.map fun lane => share lane id).sum)) ∧
      IsRanking (fun id => (lanes.map fun lane => share lane id).sum)
        (fun id => ∃ lane ∈ lanes, id ∈ (given lane).map Prod.fst) ids := by
  have tallied := tallied_all (lanes.flatMap given)
  obtain ⟨ids, sorted, ranking⟩ := ranking_of_tallied tallied
  have sums : sumAt (lanes.flatMap given) = fun id => (lanes.map fun lane => share lane id).sum := by
    funext id
    rw [sumAt_flatMap]
    exact congrArg List.sum (List.map_congr_left fun lane m => shares lane m id)
  rw [sums] at sorted ranking
  refine ⟨ids, sorted, ranking.congr (fun _ => rfl) fun id => ?_⟩
  rw [List.map_flatMap, List.mem_flatMap]

theorem rrf_ranking {k : K} (defined : ∀ n : ℕ, k + n + 1 ≠ 0) {lanes : List (List NodeId × K)}
    (distinct : ∀ lane ∈ lanes, lane.1.Nodup) :
    ∃ ids, exactRrf k lanes = ids.map (fun id => (id, .finite (rrfScore k lanes id))) ∧
      IsRanking (rrfScore k lanes) (fun id => ∃ lane ∈ lanes, lane.2 ≠ 0 ∧ id ∈ lane.1) ids := by
  rw [exactRrf_eq defined]
  obtain ⟨ids, sorted, ranking⟩ := ranking_of_lanes lanes (rrfGiven k) (rrfShare k)
    fun lane m id => sumAt_rrfGiven k (distinct lane m) id
  refine ⟨ids, sorted, ranking.congr (fun _ => rfl) fun id => ?_⟩
  constructor
  · rintro ⟨lane, m, weighs, inside⟩
    exact ⟨lane, m, keys_rrfGiven k weighs ▸ inside⟩
  · rintro ⟨lane, m, inside⟩
    by_cases zero : lane.2 = 0
    · rw [rrfGiven, if_pos zero] at inside
      cases inside
    · exact ⟨lane, m, zero, keys_rrfGiven k zero ▸ inside⟩

theorem convex_ranking {lanes : List (List (NodeId × K) × K)}
    (distinct : ∀ lane ∈ lanes, (lane.1.map Prod.fst).Nodup) :
    ∃ ids, exactConvex lanes = ids.map (fun id => (id, .finite (convexScore lanes id))) ∧
      IsRanking (convexScore lanes)
        (fun id => ∃ lane ∈ lanes, lane.2 ≠ 0 ∧ id ∈ lane.1.map Prod.fst) ids := by
  rw [exactConvex_eq]
  obtain ⟨ids, sorted, ranking⟩ := ranking_of_lanes lanes convexGiven convexShare
    fun lane m id => sumAt_convexGiven (distinct lane m) id
  refine ⟨ids, sorted, ranking.congr (fun _ => rfl) fun id => ?_⟩
  constructor
  · rintro ⟨lane, m, weighs, inside⟩
    exact ⟨lane, m, keys_convexGiven weighs ▸ inside⟩
  · rintro ⟨lane, m, inside⟩
    by_cases zero : lane.2 = 0
    · rw [convexGiven, if_pos zero] at inside
      cases inside
    · exact ⟨lane, m, zero, keys_convexGiven zero ▸ inside⟩

/-! ## Moving up in a lane -/

section Swap

variable {k w : K} {x y : NodeId} {pre post : List NodeId}

/-- A better rank gives a greater share. -/
theorem rrfShare_le (above : -1 < k) (weight : 0 ≤ w) {xs ys : List NodeId} {id : NodeId}
    (same : id ∈ xs ↔ id ∈ ys) (rank : ys.idxOf id ≤ xs.idxOf id) :
    rrfShare k (xs, w) id ≤ rrfShare k (ys, w) id := by
  unfold rrfShare
  dsimp only
  by_cases m : id ∈ xs
  · rw [if_pos m, if_pos (same.mp m)]
    have least : (0 : K) ≤ ys.idxOf id := Nat.cast_nonneg _
    have ranks : (ys.idxOf id : K) ≤ xs.idxOf id := Nat.cast_le.mpr rank
    apply div_le_div_of_nonneg_left weight
    · linarith
    · linarith
  · rw [if_neg m, if_neg fun inside => m (same.mpr inside)]

/-- Swapping two neighbours moves the second up, and no other node. -/
theorem idxOf_swap (distinct : (pre ++ y :: x :: post).Nodup) :
    (pre ++ x :: y :: post).idxOf x ≤ (pre ++ y :: x :: post).idxOf x ∧
      ∀ z, z ≠ x → (pre ++ y :: x :: post).idxOf z ≤ (pre ++ x :: y :: post).idxOf z := by
  have apart : y ≠ x := by
    rintro rfl
    have twice := (List.nodup_append.mp distinct).2.1
    exact (List.nodup_cons.mp twice).1 List.mem_cons_self
  constructor
  · rw [List.idxOf_append, List.idxOf_append, List.idxOf_cons_self]
    split
    · exact le_refl _
    · omega
  · intro z other
    rw [List.idxOf_append, List.idxOf_append]
    split
    · exact le_refl _
    · rw [List.idxOf_cons_ne _ (Ne.symm other)]
      by_cases same : y = z
      · subst same
        rw [List.idxOf_cons_self, List.idxOf_cons_self]
        omega
      · rw [List.idxOf_cons_ne _ same, List.idxOf_cons_ne _ (Ne.symm other),
          List.idxOf_cons_ne _ same]

theorem rrfScore_swap (above : -1 < k) (weight : 0 ≤ w) (front back : List (List NodeId × K))
    (distinct : (pre ++ y :: x :: post).Nodup) :
    rrfScore k (front ++ (pre ++ y :: x :: post, w) :: back) x ≤
        rrfScore k (front ++ (pre ++ x :: y :: post, w) :: back) x ∧
      ∀ z, z ≠ x → rrfScore k (front ++ (pre ++ x :: y :: post, w) :: back) z ≤
        rrfScore k (front ++ (pre ++ y :: x :: post, w) :: back) z := by
  obtain ⟨up, others⟩ := idxOf_swap distinct
  have members : ∀ z, z ∈ pre ++ y :: x :: post ↔ z ∈ pre ++ x :: y :: post := by
    intro z
    simp only [List.mem_append, List.mem_cons]
    tauto
  unfold rrfScore
  simp only [List.map_append, List.map_cons, List.sum_append, List.sum_cons]
  constructor
  · have share := rrfShare_le above weight (members x) up
    linarith
  · intro z other
    have share := rrfShare_le above weight (members z).symm (others z other)
    linarith

theorem exists_mem_middle {β : Type} {p : β → Prop} {front back : List β} {a b : β}
    (same : p a ↔ p b) : (∃ c ∈ front ++ a :: back, p c) ↔ ∃ c ∈ front ++ b :: back, p c := by
  simp only [List.mem_append, List.mem_cons, or_and_right, exists_or, exists_eq_left, same]

/-- The ids of a fusion. -/
theorem map_fst_ranking (ids : List NodeId) (score : NodeId → K) :
    (ids.map fun id => (id, Extended.finite (score id))).map Prod.fst = ids := by
  rw [List.map_map]
  exact List.map_id ids

theorem exactRrf_swap (above : -1 < k) (weight : 0 ≤ w) (front back : List (List NodeId × K))
    (distinct : ∀ lane ∈ front ++ (pre ++ y :: x :: post, w) :: back, lane.1.Nodup) :
    ((exactRrf k (front ++ (pre ++ x :: y :: post, w) :: back)).map Prod.fst).idxOf x ≤
      ((exactRrf k (front ++ (pre ++ y :: x :: post, w) :: back)).map Prod.fst).idxOf x := by
  have defined : ∀ n : ℕ, k + n + 1 ≠ 0 := fun n same => by
    have least : (0 : K) ≤ n := Nat.cast_nonneg n
    linarith
  rcases weight.eq_or_lt with rfl | positive
  · -- a lane of no weight is passed over
    rw [exactRrf_eq defined, exactRrf_eq defined]
    simp [rrfGiven]
  · have perm : List.Perm (pre ++ x :: y :: post) (pre ++ y :: x :: post) :=
      (List.Perm.swap _ _ _).append_left pre
    have own : (pre ++ y :: x :: post).Nodup :=
      distinct (pre ++ y :: x :: post, w) (List.mem_append_right _ List.mem_cons_self)
    have distinct' : ∀ lane ∈ front ++ (pre ++ x :: y :: post, w) :: back, lane.1.Nodup := by
      intro lane m
      rcases List.mem_append.mp m with earlier | later
      · exact distinct lane (List.mem_append_left _ earlier)
      · rcases List.mem_cons.mp later with rfl | last
        · exact perm.nodup_iff.mpr own
        · exact distinct lane (List.mem_append_right _ (List.mem_cons_of_mem _ last))
    obtain ⟨ids, fused, ranking⟩ := rrf_ranking defined distinct
    obtain ⟨ids', fused', ranking'⟩ := rrf_ranking defined distinct'
    obtain ⟨rises, others⟩ := rrfScore_swap above weight front back own
    rw [fused, fused', map_fst_ranking, map_fst_ranking]
    refine ranking.idxOf_le (ranking'.congr (fun _ => rfl) fun id => ?_) ?_ rises others
    · exact exists_mem_middle (and_congr_right' perm.symm.mem_iff)
    · exact ⟨_, List.mem_append_right _ List.mem_cons_self, positive.ne', by simp⟩

end Swap

/-- What is a ranking for lanes in any order does not depend on their order. -/
theorem fused_perm {L : Type} {lanes lanes' : List L} (same : List.Perm lanes' lanes)
    {fuse : List L → List (NodeId × Extended K)} {score : List L → NodeId → K}
    {holds : L → NodeId → Prop} (scores : score lanes' = score lanes)
    (ranked : ∀ ls, List.Perm ls lanes →
      ∃ ids, fuse ls = ids.map (fun id => (id, .finite (score ls id))) ∧
        IsRanking (score ls) (fun id => ∃ lane ∈ ls, holds lane id) ids) :
    fuse lanes' = fuse lanes := by
  obtain ⟨ids, fused, ranking⟩ := ranked lanes (List.Perm.refl _)
  obtain ⟨ids', fused', ranking'⟩ := ranked lanes' same
  have both : ids' = ids := IsRanking.unique (ranking'.congr (fun id => by rw [scores])
    fun id => exists_congr fun lane => and_congr_left' same.symm.mem_iff) ranking
  rw [fused, fused', both, scores]

/-! ## The law -/

/-- **Fusion is a set-and-order law.**  Lanes list distinct nodes and have any weights.  Reciprocal
rank fusion, where no rank divides by zero, and min-max fusion each return the nodes of the lanes
whose weight is not zero, every one once, with the sum of the shares that the lanes give it, the
greatest first and ties by id; the order of the lanes does not matter.  If `k` is above `-1` and the
weight of a lane is not negative, a node that moves up one rank in it does not fall. -/
theorem fusion_law (K : Type) [Field K] [LinearOrder K] [IsStrictOrderedRing K] :
    (∀ (k : K) (lanes : List (List NodeId × K)), (∀ n : ℕ, k + n + 1 ≠ 0) →
      (∀ lane ∈ lanes, lane.1.Nodup) →
      (∃ ids, exactRrf k lanes = ids.map (fun id => (id, .finite (rrfScore k lanes id))) ∧
        IsRanking (rrfScore k lanes) (fun id => ∃ lane ∈ lanes, lane.2 ≠ 0 ∧ id ∈ lane.1) ids) ∧
      ∀ lanes', List.Perm lanes' lanes → exactRrf k lanes' = exactRrf k lanes) ∧
    (∀ lanes : List (List (NodeId × K) × K), (∀ lane ∈ lanes, (lane.1.map Prod.fst).Nodup) →
      (∃ ids, exactConvex lanes = ids.map (fun id => (id, .finite (convexScore lanes id))) ∧
        IsRanking (convexScore lanes)
          (fun id => ∃ lane ∈ lanes, lane.2 ≠ 0 ∧ id ∈ lane.1.map Prod.fst) ids) ∧
      ∀ lanes', List.Perm lanes' lanes → exactConvex lanes' = exactConvex lanes) ∧
    ∀ (k w : K) (front back : List (List NodeId × K)) (pre post : List NodeId) (x y : NodeId),
      -1 < k → 0 ≤ w →
      (∀ lane ∈ front ++ (pre ++ y :: x :: post, w) :: back, lane.1.Nodup) →
      ((exactRrf k (front ++ (pre ++ x :: y :: post, w) :: back)).map Prod.fst).idxOf x ≤
        ((exactRrf k (front ++ (pre ++ y :: x :: post, w) :: back)).map Prod.fst).idxOf x := by
  refine ⟨fun k lanes defined distinct => ?_, fun lanes distinct => ?_,
    fun k w front back pre post x y above weight distinct => ?_⟩
  · refine ⟨rrf_ranking defined distinct, fun lanes' same => ?_⟩
    have scores : rrfScore k lanes' = rrfScore k lanes := funext fun id => (same.map _).sum_eq
    exact fused_perm same scores fun ls perm =>
      rrf_ranking defined fun lane m => distinct lane (perm.mem_iff.mp m)
  · refine ⟨convex_ranking distinct, fun lanes' same => ?_⟩
    have scores : convexScore lanes' = convexScore lanes := funext fun id => (same.map _).sum_eq
    exact fused_perm same scores fun ls perm =>
      convex_ranking fun lane m => distinct lane (perm.mem_iff.mp m)
  · exact exactRrf_swap above weight front back distinct

/-! ### Two lanes over three nodes -/

theorem fusion_law_three :
    ((exactRrf (60 : ℚ) [([1, 3, 2], 1), ([2], 0)]).map Prod.fst).idxOf 3 ≤
      ((exactRrf (60 : ℚ) [([1, 2, 3], 1), ([2], 0)]).map Prod.fst).idxOf 3 :=
  (fusion_law ℚ).2.2 60 1 [] [([2], 0)] [1] [] 3 2 (by norm_num) (by norm_num) (by simp)

/-- **Not every lane is normalised, and not every `k` is monotone.**  Two scores closer than `1e-12`
count as one, and under a `k` of `-3/2` the node that moves up to the first rank falls. -/
theorem fusion_exceptions :
    exactConvex [([(1, (1 : ℚ) / 10 ^ 13), (2, 0)], 1)] = [(1, .finite (1 / 2)), (2, .finite (1 / 2))] ∧
      ((exactRrf (-3 / 2 : ℚ) [([1, 2], 1)]).map Prod.fst).idxOf 1 = 1 ∧
      ((exactRrf (-3 / 2 : ℚ) [([2, 1], 1)]).map Prod.fst).idxOf 1 = 0 := by
  decide +kernel

end Mnem.Retrieve
