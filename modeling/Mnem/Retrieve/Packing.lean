/-
# Retrieve.Packing — what fits a budget of tokens

The pack stage goes once through the candidates.  It is a greedy selection:
a candidate is taken exactly if fewer than the limit are taken and its tokens
fit with those taken before it.  All sums and counts are `u32` and stop at
`u32::MAX`, so a budget of `u32::MAX`, which also stands for no budget, refuses
nothing, and under any other the tokens are the true sum (`pack_greedy`).
-/
import Mnem.Retrieve.Retriever
import Mnem.Theory.Selection

namespace Mnem.Retrieve

open Theory Selection Prolly Repo Index

set_option autoImplicit false
set_option linter.unusedSectionVars false

variable {Cid F : Type} {H : Hashing Cid} [LinearOrder Cid]

namespace Retriever

variable (q : Retriever Cid F)

/-- The pack stage, on the candidates that the stages before it left. -/
def packed (skipped : Bool) (cs : List (Candidate Cid F)) (laneScores : LaneScores F) :
    RetrievalResult Cid F :=
  q.pack cs laneScores
    { items := []
      tokensUsed := 0
      tokensBudget := q.tokenBudget.getD u32Max
      dropped := 0
      candidatesSeen := min cs.length u32Max
      pprSizeGateSkipped := skipped }

/-- A retrieval that succeeds is a pack stage. -/
theorem run_packed {a : Arith F} {s : Store H} {r : ReadonlyRepo Cid}
    {result : RetrievalResult Cid F} (ran : q.run a s r = .ok result) :
    ∃ cs laneScores, result = q.packed q.pprSkipped cs laneScores := by
  unfold run at ran
  obtain ⟨vector, -, ran⟩ := Exec.bind_eq_ok.mp ran
  obtain ⟨sparse, -, ran⟩ := Exec.bind_eq_ok.mp ran
  obtain ⟨candidates, -, ran⟩ := Exec.bind_eq_ok.mp ran
  obtain ⟨pool, -, ran⟩ := Exec.bind_eq_ok.mp ran
  cases ran
  exact ⟨_, _, rfl⟩

/-- What the estimator says of a candidate. -/
def tokens (c : Candidate Cid F) : Nat := q.estimate (q.renderNode c.node)

/-- The tokens of a list of candidates, without a bound. -/
def total (cs : List (Candidate Cid F)) : Nat := (cs.map q.tokens).sum

/-- What an item carries over from its candidate. -/
def contents (c : Candidate Cid F) : Node Cid × String × Nat × F :=
  (c.node, q.renderNode c.node, q.tokens c, c.score)

def belowLimit (n : Nat) : Prop := ∀ cap, q.limit = some cap → n < cap

/-- There is room under the limit, and the tokens, up to `u32::MAX`, are within the budget. -/
def fits (before : List (Candidate Cid F)) (c : Candidate Cid F) : Prop :=
  q.belowLimit before.length ∧ min (q.total before + q.tokens c) u32Max ≤ q.tokenBudget.getD u32Max

/-- How far the pass has come, with `marked` behind it. -/
structure Packs (marked : List (Candidate Cid F × Bool)) (result : RetrievalResult Cid F) :
    Prop where
  greedy : Greedy q.fits marked
  items : (result.items.map fun i => (i.node, i.rendered, i.tokens, i.score)) =
    (taken marked).map q.contents
  used : result.tokensUsed = min (q.total (taken marked)) u32Max
  budget : result.tokensBudget = q.tokenBudget.getD u32Max
  dropped : result.dropped = min (passed marked).length u32Max

variable {q}

@[simp] theorem total_nil : q.total [] = 0 := rfl

@[simp] theorem total_append (cs ds : List (Candidate Cid F)) :
    q.total (cs ++ ds) = q.total cs + q.total ds := by
  simp [total]

@[simp] theorem total_singleton (c : Candidate Cid F) : q.total [c] = q.tokens c := by
  simp [total]

theorem saturatingAdd_min (x y : Nat) : saturatingAdd (min x u32Max) y = min (x + y) u32Max := by
  unfold saturatingAdd
  omega

/-- A candidate is passed over. -/
theorem Packs.drop {marked : List (Candidate Cid F × Bool)} {result : RetrievalResult Cid F}
    (packs : Packs q marked result) {c : Candidate Cid F} (refused : ¬ q.fits (taken marked) c) :
    Packs q (marked ++ [(c, false)])
      { result with dropped := saturatingAdd result.dropped 1 } where
  greedy := packs.greedy.snoc (by simp [refused])
  items := by simpa using packs.items
  used := by simpa using packs.used
  budget := packs.budget
  dropped := by
    rw [packs.dropped, saturatingAdd_min, passed_append, passed_false, List.length_append,
      List.length_singleton]

/-- A candidate is taken. -/
theorem Packs.take {marked : List (Candidate Cid F × Bool)} {result : RetrievalResult Cid F}
    (packs : Packs q marked result) {c : Candidate Cid F} (fitting : q.fits (taken marked) c)
    (scores : List (Lane × F)) :
    Packs q (marked ++ [(c, true)])
      { result with
        items := result.items ++
          [⟨c.node, q.renderNode c.node, q.estimate (q.renderNode c.node), c.score, scores⟩]
        tokensUsed := saturatingAdd result.tokensUsed (q.estimate (q.renderNode c.node)) } where
  greedy := packs.greedy.snoc (by simp [fitting])
  items := by
    rw [List.map_append, packs.items, taken_append, taken_true, List.map_append]
    rfl
  used := by
    rw [packs.used, saturatingAdd_min, taken_append, taken_true, total_append, total_singleton]
    rfl
  budget := packs.budget
  dropped := by simpa using packs.dropped

theorem Packs.length_items {marked : List (Candidate Cid F × Bool)}
    {result : RetrievalResult Cid F} (packs : Packs q marked result) :
    result.items.length = (taken marked).length := by
  simpa using congrArg List.length packs.items

theorem belowLimit_iff (n : Nat) :
    q.belowLimit n ↔ ¬ (q.limit.any fun cap => decide (cap ≤ n)) = true := by
  unfold belowLimit
  cases q.limit with
  | none => simp
  | some cap => simp

/-- The whole pass, from anywhere in the list. -/
theorem packs_of_pack (cs : List (Candidate Cid F)) {marked : List (Candidate Cid F × Bool)}
    {result : RetrievalResult Cid F} (packs : Packs q marked result) (laneScores : LaneScores F) :
    ∃ rest, rest.map Prod.fst = cs ∧ Packs q (marked ++ rest) (q.pack cs laneScores result) ∧
      (q.pack cs laneScores result).candidatesSeen = result.candidatesSeen := by
  induction cs generalizing marked result laneScores with
  | nil => exact ⟨[], rfl, by simpa [pack] using packs, rfl⟩
  | cons c cs ih =>
      unfold pack
      dsimp only
      have later : ∀ {mark result' laneScores'}, Packs q (marked ++ [(c, mark)]) result' →
          result'.candidatesSeen = result.candidatesSeen →
          ∃ rest, rest.map Prod.fst = c :: cs ∧
            Packs q (marked ++ rest) (q.pack cs laneScores' result') ∧
            (q.pack cs laneScores' result').candidatesSeen = result.candidatesSeen := by
        intro mark result' laneScores' one sameSeen
        obtain ⟨rest, covers, all, seen⟩ := ih one laneScores'
        refine ⟨(c, mark) :: rest, by rw [List.map_cons, covers], ?_, seen.trans sameSeen⟩
        rwa [List.append_assoc] at all
      have limited := belowLimit_iff (q := q) result.items.length
      rw [packs.length_items] at limited ⊢
      split
      · next full =>
          refine later (packs.drop fun fitting => ?_) rfl
          exact limited.mp fitting.1 full
      · next room =>
          have next : saturatingAdd result.tokensUsed (q.estimate (q.renderNode c.node)) =
              min (q.total (taken marked) + q.tokens c) u32Max := by
            rw [packs.used, saturatingAdd_min]
            rfl
          split
          · next large =>
              refine later (packs.drop fun fitting => ?_) rfl
              have within := fitting.2
              rw [next, packs.budget] at large
              omega
          · next small =>
              refine later (packs.take ⟨limited.mpr room, ?_⟩ _) rfl
              rw [next, packs.budget] at small
              omega

/-- **Packing is greedy.**  The items are a selection from the candidates, in order: a candidate is
taken exactly if fewer items than the limit were taken before it and its tokens, added to theirs,
are within the budget, where sums stop at `u32::MAX`.  The tokens used are the sum of the items'
tokens up to `u32::MAX`, never more than the budget, and the sum itself unless the budget is
`u32::MAX`.  The items are no more than the limit, and with those that were dropped they are the
candidates that were seen, as long as these can be counted. -/
theorem pack_greedy (q : Retriever Cid F) (skipped : Bool) (cs : List (Candidate Cid F))
    (laneScores : LaneScores F) :
    ∃ marked : List (Candidate Cid F × Bool), marked.map Prod.fst = cs ∧
      ((q.packed skipped cs laneScores).items.map fun i => (i.node, i.rendered, i.tokens, i.score)) =
        (taken marked).map q.contents ∧
      (q.packed skipped cs laneScores).tokensUsed = min (q.total (taken marked)) u32Max ∧
      (q.packed skipped cs laneScores).tokensUsed ≤ q.tokenBudget.getD u32Max ∧
      (q.tokenBudget.getD u32Max < u32Max →
        (q.packed skipped cs laneScores).tokensUsed = q.total (taken marked)) ∧
      (∀ cap, q.limit = some cap → (q.packed skipped cs laneScores).items.length ≤ cap) ∧
      (q.packed skipped cs laneScores).dropped = min (passed marked).length u32Max ∧
      (q.packed skipped cs laneScores).candidatesSeen = min cs.length u32Max ∧
      (cs.length ≤ u32Max →
        (q.packed skipped cs laneScores).items.length + (q.packed skipped cs laneScores).dropped =
          (q.packed skipped cs laneScores).candidatesSeen) ∧
      (∀ before c after, marked = before ++ (c, true) :: after →
        (∀ cap, q.limit = some cap → (taken before).length < cap) ∧
        min (q.total (taken before) + q.tokens c) u32Max ≤ q.tokenBudget.getD u32Max) ∧
      ∀ before c after, marked = before ++ (c, false) :: after →
        (∃ cap, q.limit = some cap ∧ cap ≤ (taken before).length) ∨
        q.tokenBudget.getD u32Max < min (q.total (taken before) + q.tokens c) u32Max := by
  have start : Packs q []
      { items := [], tokensUsed := 0, tokensBudget := q.tokenBudget.getD u32Max, dropped := 0,
        candidatesSeen := min cs.length u32Max, pprSizeGateSkipped := skipped } :=
    ⟨greedy_nil, rfl, rfl, rfl, rfl⟩
  obtain ⟨marked, covers, packs, seen⟩ := packs_of_pack cs start laneScores
  rw [List.nil_append] at packs
  change Packs q marked (q.packed skipped cs laneScores) at packs
  change (q.packed skipped cs laneScores).candidatesSeen = min cs.length u32Max at seen
  have counted : (taken marked).length + (passed marked).length = cs.length := by
    rw [length_taken_add_passed, ← covers, List.length_map]
  have within : min (q.total (taken marked)) u32Max ≤ q.tokenBudget.getD u32Max :=
    packs.greedy.induct (p := fun before => min (q.total before) u32Max ≤ q.tokenBudget.getD u32Max)
      (by simp) fun before c _ fitting => by simpa using fitting.2
  refine ⟨marked, covers, packs.items, packs.used, packs.used ▸ within, fun finite => ?_, ?_,
    packs.dropped, seen, fun countable => ?_, fun before c after split => ?_,
    fun before c after split => ?_⟩
  · rw [packs.used]
    omega
  · intro cap limited
    rw [packs.length_items]
    refine packs.greedy.induct (p := fun before => before.length ≤ cap) (Nat.zero_le _) ?_
    intro before c _ fitting
    have room := fitting.1 cap limited
    rw [List.length_append, List.length_singleton]
    omega
  · rw [packs.length_items, packs.dropped, seen]
    omega
  · exact (packs.greedy before c true after split).mp rfl
  · have refused : ¬ q.fits (taken before) c := fun fitting => by
      have := (packs.greedy before c false after split).mpr fitting
      cases this
    by_cases room : q.belowLimit (taken before).length
    · right
      by_contra small
      exact refused ⟨room, by omega⟩
    · left
      unfold belowLimit at room
      push Not at room
      exact room

/-- No budget, and an estimator that gives every text the greatest number. -/
def wordy : Retriever ℕ ℕ where
  filters := {}
  rrfK := 60
  vectorWeight := 1
  sparseWeight := 1
  renderNode n := n.ntype
  estimate _ := u32Max
  communityFilterCfg := { decay := 1 }

/-- **Without a budget the tokens used need not be the sum of the items' tokens**, nor that sum
within the budget. -/
theorem packed_saturates :
    let result := wordy.packed false
      [⟨1, 5, { id := 1, ntype := "Person" }⟩, ⟨2, 4, { id := 2, ntype := "Person" }⟩] .empty
    result.tokensUsed < (result.items.map RetrievedItem.tokens).sum ∧
      result.tokensBudget < (result.items.map RetrievedItem.tokens).sum := by
  decide

end Retriever

end Mnem.Retrieve
