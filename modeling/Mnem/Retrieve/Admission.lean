/-
# Retrieve.Admission — which neighbours an expansion takes in

Both expansions rank the nodes they scored, drop the tombstoned and the system's,
cut the list, and look up what is left under the label and the times.  The last
two filters come after the cut, so a neighbour that they refuse has taken a
place.  The best admissible neighbours are taken in exactly if, before the last
filters, all up to the cut are admissible or none behind it is
(`expand_best_iff`).
-/
import Mnem.Retrieve.Retriever
import Mnem.Theory.Selection

namespace Mnem.Retrieve

open Theory Selection Prolly Repo Index

set_option autoImplicit false
set_option linter.unusedSectionVars false

variable {Cid F : Type} {H : Hashing Cid} [LinearOrder Cid]

variable (s : Store H) (r : ReadonlyRepo Cid) (f : Filters Cid)

/-- Neither tombstoned nor the system's, unless these are asked for. -/
def isLive (e : NodeId × F) : Bool := f.onTombstone r e.1 && f.onSystem e.1

/-- It has a node, with the label and within the times. -/
def isMatching (e : NodeId × F) : Bool :=
  Exec.okAnd (r.lookupNode s e.1) fun found => found.any fun node => f.onLabel node && f.onTime node

/-- Every filter lets it through. -/
def isAdmissible (e : NodeId × F) : Bool := isLive r f e && isMatching s r f e

/-- The best admissible of some scored nodes. -/
def bestAdmissible (maxExpand : Nat) (ranked : List (NodeId × F)) : List (NodeId × F) :=
  (ranked.filter (isAdmissible s r f)).take maxExpand

/-- The candidates after an expansion are those before it and what was added, sorted. -/
def Adds (a : Arith F) (before after : List (Candidate Cid F)) (added : List (NodeId × F)) : Prop :=
  ∃ cs : List (Candidate Cid F), cs.map (fun c => (c.id, c.score)) = added ∧
    (∀ c ∈ cs, r.lookupNode s c.id = .ok (some c.node)) ∧ after = a.sortCandidates (before ++ cs)

/-- No place is lost: up to the cut all live nodes match, or behind it none does. -/
def NoPlaceLost (maxExpand : Nat) (ranked : List (NodeId × F)) : Prop :=
  (∀ e ∈ (ranked.filter (isLive r f)).take maxExpand, isMatching s r f e = true) ∨
    ∀ e ∈ (ranked.filter (isLive r f)).drop maxExpand, isMatching s r f e = false

instance (maxExpand : Nat) (ranked : List (NodeId × F)) :
    Decidable (NoPlaceLost s r f maxExpand ranked) :=
  inferInstanceAs (Decidable (_ ∨ _))

variable {s r f}

/-! ## What is taken in -/

theorem isMatching_of_lookup {e : NodeId × F} {found : Option (Node Cid)}
    (looked : r.lookupNode s e.1 = .ok found) :
    isMatching s r f e = found.any fun node => f.onLabel node && f.onTime node := by
  unfold isMatching
  rw [looked]
  rfl

/-- One new id joins exactly if it matches. -/
theorem joinNeighbor_adds {pool pool' : Pool Cid F} {e : NodeId × F}
    (ran : joinNeighbor s r f pool e = .ok pool') :
    ∃ cs : List (Candidate Cid F), pool'.candidates = pool.candidates ++ cs ∧
      cs.map (fun c => (c.id, c.score)) = [e].filter (isMatching s r f) ∧
      ∀ c ∈ cs, r.lookupNode s c.id = .ok (some c.node) := by
  unfold joinNeighbor at ran
  obtain ⟨found, looked, ran⟩ := Exec.bind_eq_ok.mp ran
  have matching := isMatching_of_lookup (f := f) looked
  cases found with
  | none =>
      cases ran
      refine ⟨[], (List.append_nil _).symm, ?_, fun c m => by cases m⟩
      rw [List.filter_cons_of_neg (by simp [matching])]
      rfl
  | some node =>
      rw [Option.any_some] at matching
      dsimp only at ran
      split at ran
      · next kept =>
          cases ran
          refine ⟨[⟨e.1, e.2, node⟩], rfl, ?_, fun c m => ?_⟩
          · rw [List.filter_cons_of_pos (matching.trans kept)]
            rfl
          · rw [List.mem_singleton.mp m]
            exact looked
      · next refused =>
          cases ran
          refine ⟨[], (List.append_nil _).symm, ?_, fun c m => by cases m⟩
          rw [List.filter_cons_of_neg (by rw [matching]; exact refused)]
          rfl

theorem foldlM_joinNeighbor_adds (es : List (NodeId × F)) {pool pool' : Pool Cid F}
    (ran : es.foldlM (joinNeighbor s r f) pool = .ok pool') :
    ∃ cs : List (Candidate Cid F), pool'.candidates = pool.candidates ++ cs ∧
      cs.map (fun c => (c.id, c.score)) = es.filter (isMatching s r f) ∧
      ∀ c ∈ cs, r.lookupNode s c.id = .ok (some c.node) := by
  induction es generalizing pool with
  | nil =>
      cases ran
      exact ⟨[], (List.append_nil _).symm, rfl, fun c m => by cases m⟩
  | cons e es ih =>
      rw [List.foldlM_cons] at ran
      obtain ⟨pool₁, first, later⟩ := Exec.bind_eq_ok.mp ran
      obtain ⟨one, grown, ids, found⟩ := joinNeighbor_adds first
      obtain ⟨cs, grown', ids', found'⟩ := ih later
      refine ⟨one ++ cs, by rw [grown', grown, List.append_assoc], ?_, fun c m => ?_⟩
      · rw [List.map_append, ids, ids', ← List.filter_append, List.singleton_append]
      · rcases List.mem_append.mp m with here | there
        · exact found c here
        · exact found' c there

theorem live_filter (ranked : List (NodeId × F)) :
    ((ranked.filter fun e => f.onTombstone r e.1).filter fun e => f.onSystem e.1) =
      ranked.filter (isLive r f) := by
  rw [List.filter_filter]
  exact List.filter_congr fun e _ => Bool.and_comm _ _

/-- **The best admissible join exactly if no place is lost.** -/
theorem adds_iff_of_join (a : Arith F) {maxExpand : Nat} {ranked : List (NodeId × F)}
    {pool pool' : Pool Cid F} (ran : joinNeighbors s r f maxExpand ranked pool = .ok pool') :
    Adds s r a pool.candidates (a.sortCandidates pool'.candidates)
        (bestAdmissible s r f maxExpand ranked) ↔
      NoPlaceLost s r f maxExpand ranked := by
  unfold joinNeighbors at ran
  rw [live_filter] at ran
  obtain ⟨cs, grown, ids, found⟩ := foldlM_joinNeighbor_adds _ ran
  have best : bestAdmissible s r f maxExpand ranked =
      ((ranked.filter (isLive r f)).filter (isMatching s r f)).take maxExpand := by
    unfold bestAdmissible
    rw [List.filter_filter]
    exact congrArg (List.take maxExpand) (List.filter_congr fun e _ => Bool.and_comm _ _)
  constructor
  · rintro ⟨ds, added, -, sorted⟩
    have perm : List.Perm (pool.candidates ++ cs) (pool.candidates ++ ds) := by
      rw [← grown]
      exact ((List.perm_insertionSort _ _).symm.trans (List.Perm.of_eq sorted)).trans
        (List.perm_insertionSort _ _)
    have same := ((List.perm_append_left_iff _).mp perm).length_eq
    refine (length_filter_take_iff _ _ _).mp ?_
    rw [← ids, ← best, ← added, List.length_map, List.length_map, same]
  · intro kept
    refine ⟨cs, ?_, found, by rw [grown]⟩
    rw [ids, best]
    exact filter_take_eq _ _ _ kept

/-- **An expansion keeps the best admissible neighbours exactly if no place is lost.**  In either
mode it succeeds by scoring nodes that are no candidates; what it adds to the candidates is the best
of them that every filter lets through, up to its bound, if and only if before the filters on label
and time either all up to the cut match or none behind it does. -/
theorem expand_best_iff (a : Arith F) (pool pool' : Pool Cid F) :
    (∀ ge : GraphExpand F, a.expandDecay s r f ge pool = .ok pool' →
      ∃ scores, a.hops s r ge ge.depth (pool.candidates.map Candidate.id) .empty
          (OrdMap.ofList (pool.candidates.map fun c => (c.id, c.score))) = .ok scores ∧
        (∀ c ∈ pool.candidates, scores.get? c.id = none) ∧
        (Adds s r a pool.candidates pool'.candidates
            (bestAdmissible s r f ge.maxExpand (a.sortRanked scores.entries)) ↔
          NoPlaceLost s r f ge.maxExpand (a.sortRanked scores.entries))) ∧
    ∀ (maxExpand : Nat) (ppr : OrdMap NodeId F → OrdMap NodeId F),
      a.expandPpr s r f maxExpand ppr pool = .ok pool' →
        let ranked := (a.sortRanked (ppr (a.personalization pool.candidates)).entries).filter
          fun e => !(pool.candidates.map Candidate.id).contains e.1
        (Adds s r a pool.candidates pool'.candidates (bestAdmissible s r f maxExpand ranked) ↔
          NoPlaceLost s r f maxExpand ranked) := by
  constructor
  · intro ge ran
    unfold Arith.expandDecay at ran
    obtain ⟨scores, walked, ran⟩ := Exec.bind_eq_ok.mp ran
    obtain ⟨joined, ranJoin, ended⟩ := Exec.bind_eq_ok.mp ran
    cases ended
    have unscored := fresh_of_hops a ge.depth (fun id _ => rfl) (List.Subset.refl _) walked
    have seeds : (pool.candidates.map fun c => (c.id, c.score)).map Prod.fst =
        pool.candidates.map Candidate.id := by
      rw [List.map_map]
      rfl
    rw [seeds] at walked unscored
    exact ⟨scores, walked, fun c m => unscored c.id (List.mem_map_of_mem m),
      adds_iff_of_join a ranJoin⟩
  · intro maxExpand ppr ran
    unfold Arith.expandPpr at ran
    obtain ⟨joined, ranJoin, ended⟩ := Exec.bind_eq_ok.mp ran
    cases ended
    exact adds_iff_of_join a ranJoin

/-! ### A person who knows a robot and a person -/

def crowded : WorldM shortHashing (ReadonlyRepo ℕ) :=
  seeded [.addNode { id := 1, ntype := "Person" }, .addNode { id := 2, ntype := "Robot" },
    .addNode { id := 3, ntype := "Person" },
    .addEdge { id := 1, etype := "knows", src := 1, dst := 2 },
    .addEdge { id := 2, etype := "knows", src := 1, dst := 3 }]

def onlyPeople : Filters ℕ := { label := some "Person" }

def fromFirst : Pool ℕ ℕ := ⟨[⟨1, 5, { id := 1, ntype := "Person" }⟩], .empty⟩

/-- Some neighbours of the first person, on the repository of a world. -/
def expandFirst (w : World shortHashing) (r : ReadonlyRepo ℕ) (maxExpand : Nat) :
    Except (Error ℕ) (Pool ℕ ℕ) :=
  Retriever.natArith.expandDecay w.store r onlyPeople { maxExpand := maxExpand, decay := 1 }
    fromFirst

def scoresFirst (w : World shortHashing) (r : ReadonlyRepo ℕ) :
    Except (Error ℕ) (OrdMap NodeId ℕ) :=
  Retriever.natArith.hops w.store r { maxExpand := 1, decay := 1 } 1 [1] .empty
    (OrdMap.ofList [(1, 5)])

theorem crowded_check : crowded.check {} (fun r w =>
    (Exec.okAnd (expandFirst w r 1) fun pool => decide (pool.candidates.length = 1)) &&
    (Exec.okAnd (expandFirst w r 2) fun pool => decide (pool.candidates.length = 2)) &&
    Exec.okAnd (scoresFirst w r) fun scores =>
      decide (bestAdmissible w.store r onlyPeople 1 (Retriever.natArith.sortRanked scores.entries) =
        [(3, 5)]) &&
      decide (NoPlaceLost w.store r onlyPeople 2 (Retriever.natArith.sortRanked scores.entries))) =
    true := by
  decide +kernel

/-- With room for two, the other person is added. -/
theorem expand_best_iff_crowded : ∃ (r : ReadonlyRepo ℕ) (w : World shortHashing)
    (pool : Pool ℕ ℕ) (scores : OrdMap NodeId ℕ), expandFirst w r 2 = .ok pool ∧
      Adds w.store r Retriever.natArith fromFirst.candidates pool.candidates
        (bestAdmissible w.store r onlyPeople 2 (Retriever.natArith.sortRanked scores.entries)) := by
  obtain ⟨r, w, -, passed⟩ := Exec.exists_of_check crowded_check
  obtain ⟨passed, scored⟩ := Bool.and_eq_true_iff.mp passed
  obtain ⟨-, two⟩ := Bool.and_eq_true_iff.mp passed
  obtain ⟨pool, expanded, -⟩ := Exec.exists_of_okAnd two
  obtain ⟨scores', walked', passed⟩ := Exec.exists_of_okAnd scored
  obtain ⟨-, kept⟩ := Bool.and_eq_true_iff.mp passed
  obtain ⟨scores, walked, -, exactly⟩ :=
    (expand_best_iff Retriever.natArith fromFirst pool).1 _ expanded
  obtain rfl : scores' = scores := Except.ok.inj (walked'.symm.trans walked)
  exact ⟨r, w, pool, scores', expanded, exactly.mpr (of_decide_eq_true kept)⟩

/-- **The robot takes the place of the person.**  With room for one nothing is added, though a
person is known. -/
theorem expandDecay_crowds_out : ∃ (r : ReadonlyRepo ℕ) (w : World shortHashing)
    (pool : Pool ℕ ℕ) (scores : OrdMap NodeId ℕ), expandFirst w r 1 = .ok pool ∧
      scoresFirst w r = .ok scores ∧
      ¬ Adds w.store r Retriever.natArith fromFirst.candidates pool.candidates
        (bestAdmissible w.store r onlyPeople 1 (Retriever.natArith.sortRanked scores.entries)) := by
  obtain ⟨r, w, -, passed⟩ := Exec.exists_of_check crowded_check
  obtain ⟨passed, scored⟩ := Bool.and_eq_true_iff.mp passed
  obtain ⟨one, -⟩ := Bool.and_eq_true_iff.mp passed
  obtain ⟨pool, expanded, single⟩ := Exec.exists_of_okAnd one
  obtain ⟨scores, walked, passed⟩ := Exec.exists_of_okAnd scored
  obtain ⟨best, -⟩ := Bool.and_eq_true_iff.mp passed
  refine ⟨r, w, pool, scores, expanded, walked, ?_⟩
  rintro ⟨cs, added, -, sorted⟩
  rw [of_decide_eq_true best] at added
  have count : pool.candidates.length = 1 := of_decide_eq_true single
  have two : pool.candidates.length = (fromFirst.candidates ++ cs).length := by
    rw [sorted]
    exact List.length_insertionSort _ _
  have more : cs.length = 1 := by simpa using congrArg List.length added
  rw [List.length_append, more] at two
  have base : fromFirst.candidates.length = 1 := rfl
  omega

end Mnem.Retrieve
