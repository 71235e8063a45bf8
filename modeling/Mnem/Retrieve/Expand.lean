/-
# Retrieve.Expand — candidates along the edges

The candidates of a retrieval bring in nodes near them: by a walk of some hops
along authored edges, or by PageRank over an adjacency index.  Either way new
ids with scores come out, and `joinNeighbors` filters, cuts and looks them up.
It asks every filter that the first candidates were asked, so a clean list
stays clean if the new ids are distinct and none was there (`clean_of_join`).
The walk finds such ids because the candidates are marked as seen from the start
(`fresh_of_hops`).
-/
import Mnem.Retrieve.Candidates

namespace Mnem.Retrieve

open Theory Prolly Repo Index

set_option autoImplicit false
set_option linter.unusedSectionVars false

variable {Cid F : Type} {H : Hashing Cid} [LinearOrder Cid]

inductive GraphExpandDirection where
  | outgoing
  | incoming
  | both
  deriving DecidableEq

inductive GraphExpandMode (F : Type) where
  | decay
  | ppr (damping : F) (maxIter : Nat) (eps : F)

structure GraphExpand (F : Type) where
  maxExpand : Nat := 20
  decay : F
  etypeFilter : Option (List String) := none
  depth : Nat := 1
  edgeWeight : OrdMap String F := .empty
  maxPerSeed : Option Nat := none
  maxFrontier : Nat := 5000
  direction : GraphExpandDirection := .outgoing
  mode : GraphExpandMode F := .decay

/-- Where a score of an item comes from. -/
inductive Lane where
  | vector
  | sparse
  | graphExpand
  | rerank
  deriving DecidableEq

/-- The place of a lane in the scores of an item. -/
def Lane.rank : Lane → Nat
  | .vector => 0
  | .sparse => 1
  | .graphExpand => 2
  | .rerank => 3

abbrev LaneScores (F : Type) := OrdMap NodeId (List (Lane × F))

def LaneScores.push (scores : LaneScores F) (id : NodeId) (lane : Lane) (score : F) :
    LaneScores F := scores.modify id fun old => old.getD [] ++ [(lane, score)]

/-- The candidates of a retrieval, and the scores of the lanes. -/
structure Pool (Cid F : Type) where
  candidates : List (Candidate Cid F)
  laneScores : LaneScores F

def Arith.sortCandidates (a : Arith F) (cs : List (Candidate Cid F)) : List (Candidate Cid F) :=
  cs.insertionSort fun x y => a.ranksBefore (x.id, x.score) (y.id, y.score) = true

/-! ## New ids become candidates -/

/-- Look up one id and take it in, if the label and the times let it. -/
def joinNeighbor (s : Store H) (r : ReadonlyRepo Cid) (f : Filters Cid) (pool : Pool Cid F)
    (e : NodeId × F) : Except (Error Cid) (Pool Cid F) := do
  match ← r.lookupNode s e.1 with
  | none => return pool
  | some node =>
      if f.onLabel node && f.onTime node then
        return ⟨pool.candidates ++ [⟨e.1, e.2, node⟩], pool.laneScores.push e.1 .graphExpand e.2⟩
      else return pool

/-- The best new ids that are neither tombstoned nor the system's. -/
def joinNeighbors (s : Store H) (r : ReadonlyRepo Cid) (f : Filters Cid) (maxExpand : Nat)
    (ranked : List (NodeId × F)) (pool : Pool Cid F) : Except (Error Cid) (Pool Cid F) :=
  (((ranked.filter fun e => f.onTombstone r e.1).filter fun e => f.onSystem e.1).take
    maxExpand).foldlM (joinNeighbor s r f) pool

/-! ## The walk -/

/-- Whether an edge is walked from its source, and from its target. -/
def GraphExpandDirection.walks : GraphExpandDirection → Bool × Bool
  | .outgoing => (true, false)
  | .incoming => (false, true)
  | .both => (true, true)

def capped {α : Type} (cap : Option Nat) (xs : List α) : List α := cap.elim xs fun n => xs.take n

/-- The far ends of the edges at a node, with the edge types. -/
def neighbors (s : Store H) (r : ReadonlyRepo Cid) (ge : GraphExpand F) (src : NodeId) :
    Except (Error Cid) (List (NodeId × String)) := do
  let out ← if ge.direction.walks.1 then r.outgoingEdges s src ge.etypeFilter else .ok []
  let inc ← if ge.direction.walks.2 then r.incomingEdges s src ge.etypeFilter else .ok []
  return (capped ge.maxPerSeed out).map (fun e => (e.dst, e.etype)) ++
    (capped ge.maxPerSeed inc).map fun e => (e.src, e.etype)

/-- The best scores so far, and those that this hop made. -/
structure Hop (F : Type) where
  scores : OrdMap NodeId F
  next : OrdMap NodeId F

namespace Arith

variable (a : Arith F)

/-- Reach a neighbour: a better score than before is kept, and goes to the next hop. -/
def reach (ge : GraphExpand F) (seen : List NodeId) (srcScore : F) (h : Hop F)
    (nbr : NodeId × String) : Hop F :=
  if seen.contains nbr.1 then h
  else
    let expanded := a.mul (a.mul srcScore ge.decay) ((ge.edgeWeight.get? nbr.2).getD a.one)
    if (h.scores.get? nbr.1).any fun prev => a.le expanded prev then h
    else
      { scores := h.scores.insert nbr.1 expanded
        next := h.next.modify nbr.1 fun old =>
          old.elim expanded fun x => if a.lt x expanded then expanded else x }

/-- One hop from every node of the frontier. -/
def hop (s : Store H) (r : ReadonlyRepo Cid) (ge : GraphExpand F) (seen : List NodeId)
    (scores frontier : OrdMap NodeId F) : Except (Error Cid) (Hop F) :=
  frontier.entries.foldlM (fun h e => do
    let nbrs ← neighbors s r ge e.1
    return nbrs.foldl (a.reach ge seen e.2) h) ⟨scores, .empty⟩

/-- The hops; a frontier that is too large ends the walk. -/
def hops (s : Store H) (r : ReadonlyRepo Cid) (ge : GraphExpand F) :
    Nat → List NodeId → OrdMap NodeId F → OrdMap NodeId F →
      Except (Error Cid) (OrdMap NodeId F)
  | 0, _, scores, _ => .ok scores
  | depth + 1, seen, scores, frontier => do
      let h ← a.hop s r ge seen scores frontier
      if ge.maxFrontier < h.next.entries.length then return h.scores
      else if h.next.entries.isEmpty then return h.scores
      else hops s r ge depth (seen ++ h.next.keys) h.scores h.next

def expandDecay (s : Store H) (r : ReadonlyRepo Cid) (f : Filters Cid) (ge : GraphExpand F)
    (pool : Pool Cid F) : Except (Error Cid) (Pool Cid F) := do
  let seeds := pool.candidates.map fun c => (c.id, c.score)
  let scores ← a.hops s r ge ge.depth (seeds.map Prod.fst) .empty (OrdMap.ofList seeds)
  let pool ← joinNeighbors s r f ge.maxExpand (a.sortRanked scores.entries) pool
  return { pool with candidates := a.sortCandidates pool.candidates }

/-! ## PageRank -/

/-- The positive scores of the candidates. -/
def personalization (cs : List (Candidate Cid F)) : OrdMap NodeId F :=
  cs.foldl (fun pers c =>
    let w := a.max c.score a.zero
    if a.lt a.zero w then pers.insert c.id w else pers) .empty

def expandPpr (s : Store H) (r : ReadonlyRepo Cid) (f : Filters Cid) (maxExpand : Nat)
    (ppr : OrdMap NodeId F → OrdMap NodeId F) (pool : Pool Cid F) :
    Except (Error Cid) (Pool Cid F) := do
  let seen := pool.candidates.map Candidate.id
  let ranked := (a.sortRanked (ppr (a.personalization pool.candidates)).entries).filter fun e =>
    !seen.contains e.1
  let pool ← joinNeighbors s r f maxExpand ranked pool
  return { pool with candidates := a.sortCandidates pool.candidates }

end Arith

/-! ## Clean lists stay clean -/

section Clean

variable {s : Store H} {r : ReadonlyRepo Cid} {f : Filters Cid}

/-- One new id: what it adds, if anything, passes. -/
theorem joinNeighbor_cases {pool pool' : Pool Cid F} {e : NodeId × F}
    (live : f.onTombstone r e.1 = true) (user : f.onSystem e.1 = true)
    (ran : joinNeighbor s r f pool e = .ok pool') :
    pool' = pool ∨ ∃ node, Passes s r f ⟨e.1, e.2, node⟩ ∧
      pool'.candidates = pool.candidates ++ [⟨e.1, e.2, node⟩] := by
  unfold joinNeighbor at ran
  obtain ⟨found, looked, ran⟩ := Exec.bind_eq_ok.mp ran
  cases found with
  | none =>
      cases ran
      exact Or.inl rfl
  | some node =>
      by_cases kept : (f.onLabel node && f.onTime node) = true
      · dsimp only at ran
        rw [if_pos kept] at ran
        cases ran
        obtain ⟨labelled, timely⟩ := Bool.and_eq_true_iff.mp kept
        exact Or.inr ⟨node, ⟨⟨looked, labelled⟩, live, user, timely⟩, rfl⟩
      · dsimp only at ran
        rw [if_neg kept] at ran
        cases ran
        exact Or.inl rfl

theorem clean_of_foldlM (es : List (NodeId × F)) {pool pool' : Pool Cid F}
    (clean : Clean s r f pool.candidates) (nodup : (es.map Prod.fst).Nodup)
    (fresh : ∀ e ∈ es, ∀ c ∈ pool.candidates, c.id ≠ e.1)
    (asked : ∀ e ∈ es, f.onTombstone r e.1 = true ∧ f.onSystem e.1 = true)
    (ran : es.foldlM (joinNeighbor s r f) pool = .ok pool') : Clean s r f pool'.candidates := by
  induction es generalizing pool with
  | nil =>
      cases ran
      exact clean
  | cons e es ih =>
      rw [List.foldlM_cons] at ran
      obtain ⟨pool₁, first, later⟩ := Exec.bind_eq_ok.mp ran
      rw [List.map_cons, List.nodup_cons] at nodup
      obtain ⟨live, user⟩ := asked e List.mem_cons_self
      have laterAsked := fun d m => asked d (List.mem_cons_of_mem e m)
      have laterFresh := fun d m => fresh d (List.mem_cons_of_mem e m)
      rcases joinNeighbor_cases live user first with same | ⟨node, passes, grown⟩
      · rw [same] at later
        exact ih clean nodup.2 laterFresh laterAsked later
      · have one : Clean s r f [(⟨e.1, e.2, node⟩ : Candidate Cid F)] := by
          refine ⟨List.nodup_singleton _, fun c m => ?_⟩
          rw [List.mem_singleton.mp m]
          exact passes
        refine ih ?_ nodup.2 ?_ laterAsked later
        · rw [grown]
          refine clean.append one fun c m d m' => ?_
          rw [List.mem_singleton.mp m']
          exact fresh e List.mem_cons_self c m
        · intro d m c inPool
          rw [grown] at inPool
          rcases List.mem_append.mp inPool with old | new
          · exact laterFresh d m c old
          · rw [List.mem_singleton.mp new]
            intro same
            exact nodup.1 (List.mem_map.mpr ⟨d, m, same.symm⟩)

/-- **New ids that are distinct and not there keep the list clean.** -/
theorem clean_of_join {maxExpand : Nat} {ranked : List (NodeId × F)} {pool pool' : Pool Cid F}
    (clean : Clean s r f pool.candidates) (nodup : (ranked.map Prod.fst).Nodup)
    (fresh : ∀ e ∈ ranked, ∀ c ∈ pool.candidates, c.id ≠ e.1)
    (ran : joinNeighbors s r f maxExpand ranked pool = .ok pool') :
    Clean s r f pool'.candidates := by
  have kept : List.Sublist (((ranked.filter fun e => f.onTombstone r e.1).filter
      fun e => f.onSystem e.1).take maxExpand) ranked :=
    (List.take_sublist _ _).trans (List.filter_sublist.trans List.filter_sublist)
  refine clean_of_foldlM _ clean (nodup.sublist (kept.map _))
    (fun e m => fresh e (kept.subset m)) (fun e m => ?_) ran
  obtain ⟨inner, user⟩ := List.mem_filter.mp (List.mem_of_mem_take m)
  exact ⟨(List.mem_filter.mp inner).2, user⟩

theorem Clean.sortCandidates {cs : List (Candidate Cid F)} (clean : Clean s r f cs)
    (a : Arith F) : Clean s r f (a.sortCandidates cs) :=
  Distinct.perm clean (List.perm_insertionSort _ _)

theorem nodup_sortRanked (a : Arith F) (m : OrdMap NodeId F) :
    ((a.sortRanked m.entries).map Prod.fst).Nodup :=
  ((List.perm_insertionSort _ m.entries).map Prod.fst).nodup_iff.mpr m.ascending.nodup

/-! ### The walk -/

variable (a : Arith F)

/-- None of the ids has a score. -/
def Unscored (ids : List NodeId) (scores : OrdMap NodeId F) : Prop :=
  ∀ id ∈ ids, scores.get? id = none

variable {ids seen : List NodeId} {ge : GraphExpand F}

theorem unscored_reach {h : Hop F} (unscored : Unscored ids h.scores) (inSeen : ids ⊆ seen)
    (srcScore : F) (nbr : NodeId × String) :
    Unscored ids (a.reach ge seen srcScore h nbr).scores := by
  unfold Arith.reach
  by_cases known : seen.contains nbr.1 = true
  · rw [if_pos known]
    exact unscored
  · rw [if_neg known]
    dsimp only
    split
    · exact unscored
    · intro id m
      rw [OrdMap.get?_insert, if_neg, unscored id m]
      rintro rfl
      apply known
      simpa using inSeen m

theorem unscored_foldl {h : Hop F} (inSeen : ids ⊆ seen) (srcScore : F)
    (nbrs : List (NodeId × String)) (unscored : Unscored ids h.scores) :
    Unscored ids (nbrs.foldl (a.reach ge seen srcScore) h).scores := by
  induction nbrs generalizing h with
  | nil => exact unscored
  | cons nbr nbrs ih => exact ih (unscored_reach a unscored inSeen srcScore nbr)

theorem unscored_hop {scores frontier : OrdMap NodeId F} {h : Hop F}
    (unscored : Unscored ids scores) (inSeen : ids ⊆ seen)
    (ran : a.hop s r ge seen scores frontier = .ok h) : Unscored ids h.scores := by
  have step : ∀ (es : List (NodeId × F)) (h₀ h : Hop F), Unscored ids h₀.scores →
      es.foldlM (fun h e => do
        let nbrs ← neighbors s r ge e.1
        return nbrs.foldl (a.reach ge seen e.2) h) h₀ = .ok h → Unscored ids h.scores := by
    intro es
    induction es with
    | nil =>
        intro h₀ h unscored ran
        cases ran
        exact unscored
    | cons e es ih =>
        intro h₀ h unscored ran
        rw [List.foldlM_cons] at ran
        obtain ⟨h₁, first, ran⟩ := Exec.bind_eq_ok.mp ran
        obtain ⟨nbrs, -, done⟩ := Exec.bind_eq_ok.mp first
        cases done
        exact ih _ h (unscored_foldl a inSeen e.2 nbrs unscored) ran
  exact step _ ⟨scores, .empty⟩ h unscored ran

/-- **The walk never scores what it started from**: the ids are seen from the start. -/
theorem fresh_of_hops (depth : Nat) {scores frontier found : OrdMap NodeId F} {seen : List NodeId}
    (unscored : Unscored ids scores) (inSeen : ids ⊆ seen)
    (ran : a.hops s r ge depth seen scores frontier = .ok found) : Unscored ids found := by
  induction depth generalizing seen scores frontier with
  | zero =>
      cases ran
      exact unscored
  | succ depth ih =>
      unfold Arith.hops at ran
      obtain ⟨h, first, ran⟩ := Exec.bind_eq_ok.mp ran
      have after := unscored_hop a unscored inSeen first
      split at ran
      · cases ran
        exact after
      · split at ran
        · cases ran
          exact after
        · exact ih after (fun id m => List.mem_append_left _ (inSeen m)) ran

/-- A decay walk keeps the list clean. -/
theorem clean_of_expandDecay {pool pool' : Pool Cid F} (clean : Clean s r f pool.candidates)
    (ran : a.expandDecay s r f ge pool = .ok pool') : Clean s r f pool'.candidates := by
  unfold Arith.expandDecay at ran
  obtain ⟨scores, walked, ran⟩ := Exec.bind_eq_ok.mp ran
  obtain ⟨joined, ranJoin, done⟩ := Exec.bind_eq_ok.mp ran
  cases done
  have unscored := fresh_of_hops a ge.depth (fun id _ => rfl) (List.Subset.refl _) walked
  refine Clean.sortCandidates (clean_of_join clean (nodup_sortRanked a scores) ?_ ranJoin) a
  intro e m c inPool same
  have scored : scores.get? e.1 = some e.2 :=
    scores.get?_eq_some_iff.mpr ((List.mem_insertionSort _).mp m)
  rw [← same, unscored c.id (List.mem_map.mpr ⟨(c.id, c.score),
    List.mem_map.mpr ⟨c, inPool, rfl⟩, rfl⟩)] at scored
  cases scored

/-- PageRank keeps the list clean, whatever it scores. -/
theorem clean_of_expandPpr {maxExpand : Nat} {ppr : OrdMap NodeId F → OrdMap NodeId F}
    {pool pool' : Pool Cid F} (clean : Clean s r f pool.candidates)
    (ran : a.expandPpr s r f maxExpand ppr pool = .ok pool') : Clean s r f pool'.candidates := by
  unfold Arith.expandPpr at ran
  obtain ⟨joined, ranJoin, done⟩ := Exec.bind_eq_ok.mp ran
  cases done
  refine Clean.sortCandidates (clean_of_join clean ?_ ?_ ranJoin) a
  · exact (nodup_sortRanked a _).sublist (List.filter_sublist.map _)
  · intro e m c inPool same
    obtain ⟨-, unseen⟩ := List.mem_filter.mp m
    rw [← same] at unseen
    have inSeen : c.id ∈ pool.candidates.map Candidate.id := List.mem_map_of_mem inPool
    simp [inSeen] at unseen

end Clean

end Mnem.Retrieve
