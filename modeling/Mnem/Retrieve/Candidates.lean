/-
# Retrieve.Candidates — from the hits of the lanes to a list of nodes

The lanes rank node ids; their lists are fused, siblings of the best ids may be
added, and the nodes are looked up.  `Passes` is what every stage after that
keeps of each candidate: it is the head's node of its id, and the label, the
tombstones, the system nodes and the temporal filter have been asked.  A list
is `Clean` when all its candidates pass and no id is twice in it.
-/
import Mnem.Index.Query
import Mathlib.Data.List.Sort

namespace Mnem.Retrieve

open Theory Prolly Repo Index

set_option autoImplicit false
set_option linter.unusedSectionVars false

variable {Cid F : Type} {H : Hashing Cid} [LinearOrder Cid]

/-- The arithmetic of scores (`f32`); nothing is assumed of it. -/
structure Arith (F : Type) where
  zero : F
  half : F
  one : F
  infinity : F
  negInfinity : F
  ofNat : Nat → F
  add : F → F → F
  sub : F → F → F
  mul : F → F → F
  div : F → F → F
  min : F → F → F
  max : F → F → F
  lt : F → F → Bool
  le : F → F → Bool
  isZero : F → Bool
  /-- Closer to zero than `1e-12`. -/
  isTiny : F → Bool

namespace Arith

variable (a : Arith F)

/-- The order of every ranking: greater scores first, then lower ids.  Scores that do not
compare count as equal. -/
def ranksBefore (x y : NodeId × F) : Bool :=
  if a.lt y.2 x.2 then true else if a.lt x.2 y.2 then false else decide (x.1 ≤ y.1)

def sortRanked (xs : List (NodeId × F)) : List (NodeId × F) :=
  xs.insertionSort fun x y => a.ranksBefore x y = true

def clamp (x lo hi : F) : F := if a.lt x lo then lo else if a.lt hi x then hi else x

/-! ## Fusion -/

/-- `*entry(id).or_insert(0.0) += x`. -/
def addTo (totals : OrdMap NodeId F) (id : NodeId) (x : F) : OrdMap NodeId F :=
  totals.modify id fun old => a.add (old.getD a.zero) x

def weightedReciprocalRankFusion (lists : List (List NodeId × F)) (k : F) : List (NodeId × F) :=
  let scores := lists.foldl (fun scores lane =>
    if a.isZero lane.2 then scores
    else lane.1.zipIdx.foldl (fun scores p =>
      a.addTo scores p.1 (a.div lane.2 (a.add (a.add k (a.ofNat p.2)) a.one))) scores) .empty
  a.sortRanked scores.entries

def convexMinMaxFusion (lanes : List (List (NodeId × F) × F)) : List (NodeId × F) :=
  let totals := lanes.foldl (fun totals lane =>
    if lane.1.isEmpty || a.isZero lane.2 then totals
    else
      let least := lane.1.foldl (fun lo p => a.min lo p.2) a.infinity
      let greatest := lane.1.foldl (fun hi p => a.max hi p.2) a.negInfinity
      let range := a.sub greatest least
      lane.1.foldl (fun totals p =>
        let norm := if a.isTiny range then a.half else a.div (a.sub p.2 least) range
        a.addTo totals p.1 (a.mul lane.2 norm)) totals) .empty
  a.sortRanked totals.entries

end Arith

/-! ## Communities -/

structure CommunityFilterCfg (F : Type) where
  enabled : Bool := false
  expandSeeds : Nat := 3
  maxPerCommunity : Nat := 10
  decay : F

structure CommunityLookup where
  communityOf : NodeId → Option Nat
  membersOf : Nat → List NodeId

namespace Arith

variable (a : Arith F)

/-- The best score of each seed community, in the order the communities turn up. -/
def seedScores (lookup : CommunityLookup) : List (NodeId × F) → List (Nat × F) → List (Nat × F)
  | [], found => found
  | (id, score) :: seeds, found =>
      match lookup.communityOf id with
      | none => seedScores lookup seeds found
      | some c =>
          if found.any fun e => e.1 == c then
            seedScores lookup seeds
              (found.map fun e => if e.1 == c && a.lt e.2 score then (c, score) else e)
          else seedScores lookup seeds (found ++ [(c, score)])

/-- The members of a community that are new, up to a number of them. -/
def newMembers (existing : List NodeId) : Nat → List NodeId → List NodeId → List NodeId
  | 0, _, _ => []
  | _, _, [] => []
  | room + 1, appended, m :: ms =>
      if existing.contains m || appended.contains m then
        newMembers existing (room + 1) appended ms
      else m :: newMembers existing room (appended ++ [m]) ms

def applyCommunityFilter (candidates : List (NodeId × F)) (lookup : CommunityLookup)
    (cfg : CommunityFilterCfg F) : List (NodeId × F) :=
  if !cfg.enabled || candidates.isEmpty || cfg.expandSeeds == 0 || cfg.maxPerCommunity == 0 then
    candidates
  else
    let existing := candidates.map Prod.fst
    let decay := a.clamp cfg.decay a.zero a.one
    let added := (a.seedScores lookup (candidates.take cfg.expandSeeds) []).foldl
      (fun added (seed : Nat × F) =>
        added ++ (newMembers existing cfg.maxPerCommunity (added.map Prod.fst)
          (lookup.membersOf seed.1)).map fun m => (m, a.mul seed.2 decay)) []
    candidates ++ added

end Arith

/-! ## The temporal filter -/

/-- Half-open bounds on the times that a node is stamped with. -/
structure TemporalFilter where
  createdAfter : Option Nat := none
  createdBefore : Option Nat := none
  updatedAfter : Option Nat := none
  updatedBefore : Option Nat := none

/-- A property that is an integer within `u64`. -/
def stamp (node : Node Cid) (prop : String) : Option Nat :=
  match node.props.get? prop with
  | some (.integer i) => if 0 ≤ i ∧ i < 2 ^ 64 then some i.toNat else none
  | _ => none

namespace TemporalFilter

variable (f : TemporalFilter)

def isEmpty : Bool :=
  f.createdAfter.isNone && f.createdBefore.isNone && f.updatedAfter.isNone &&
    f.updatedBefore.isNone

/-- A bound that is not set, and a time that is not stamped, let the node pass. -/
def holds (bound time : Option Nat) (p : Nat → Nat → Bool) : Bool :=
  bound.all fun t => time.all fun c => p t c

def matchesNode (node : Node Cid) : Bool :=
  let created := stamp node "mnem:created_at"
  let updated := stamp node "mnem:updated_at"
  holds f.createdAfter created (fun t c => decide (t ≤ c)) &&
    holds f.createdBefore created (fun t c => decide (c < t)) &&
    holds f.updatedAfter updated (fun t u => decide (t ≤ u)) &&
    holds f.updatedBefore updated (fun t u => decide (u < t))

theorem matchesNode_of_isEmpty (empty : f.isEmpty = true) (node : Node Cid) :
    f.matchesNode node = true := by
  simp only [isEmpty, Bool.and_eq_true, Option.isNone_iff_eq_none] at empty
  obtain ⟨⟨⟨h₁, h₂⟩, h₃⟩, h₄⟩ := empty
  simp [matchesNode, holds, h₁, h₂, h₃, h₄]

end TemporalFilter

/-! ## Candidates -/

/-- An id, its score so far, and its node. -/
structure Candidate (Cid F : Type) where
  id : NodeId
  score : F
  node : Node Cid

/-- What a retrieval is filtered by. -/
structure Filters (Cid : Type) where
  label : Option String := none
  propFilter : Option (String × Ipld Cid) := none
  temporalFilter : Option TemporalFilter := none
  includeTombstoned : Bool := false
  includeSystem : Bool := false

namespace Filters

variable (f : Filters Cid)

def onLabel (node : Node Cid) : Bool := f.label.all fun l => node.ntype == l

/-- The temporal filter, asked when it has a bound. -/
def onTime (node : Node Cid) : Bool :=
  f.temporalFilter.all fun tf => tf.isEmpty || tf.matchesNode node

def onTombstone (r : ReadonlyRepo Cid) (id : NodeId) : Bool :=
  f.includeTombstoned || !r.isTombstoned id

def onSystem (id : NodeId) : Bool := f.includeSystem || !(id == anchorNodeId)

theorem onLabel_iff (node : Node Cid) : f.onLabel node = true ↔
    ∀ l, f.label = some l → node.ntype = l := by
  unfold onLabel
  cases f.label with
  | none => simp
  | some l =>
      rw [Option.all_some, beq_iff_eq]
      constructor
      · rintro same l' ⟨⟩
        exact same
      · intro same
        exact same l rfl

theorem onTime_iff (node : Node Cid) : f.onTime node = true ↔
    ∀ tf, f.temporalFilter = some tf → tf.matchesNode node = true := by
  unfold onTime
  cases f.temporalFilter with
  | none => simp
  | some tf =>
      rw [Option.all_some, Bool.or_eq_true]
      constructor
      · rintro (empty | passes) tf' ⟨⟩
        · exact tf.matchesNode_of_isEmpty empty node
        · exact passes
      · intro passes
        exact Or.inr (passes tf rfl)

end Filters

/-- Look up the nodes of a ranking, each id once, under the label and the property. -/
def prefetchAndFilter (s : Store H) (r : ReadonlyRepo Cid) (f : Filters Cid) :
    List NodeId → List (NodeId × F) → Except (Error Cid) (List (Candidate Cid F))
  | _, [] => .ok []
  | seen, (id, score) :: ranked =>
      if seen.contains id then prefetchAndFilter s r f seen ranked
      else do
        let found ← r.lookupNode s id
        let rest ← prefetchAndFilter s r f (id :: seen) ranked
        match found with
        | none => return rest
        | some node =>
            if f.onLabel node && f.propFilter.all fun p => Query.hasValue node p.1 p.2 then
              return ⟨id, score, node⟩ :: rest
            else return rest

/-! ### Clean lists -/

/-- The head's node of its id, with the label. -/
structure Found (s : Store H) (r : ReadonlyRepo Cid) (f : Filters Cid) (c : Candidate Cid F) :
    Prop where
  lookup : r.lookupNode s c.id = .ok (some c.node)
  label : f.onLabel c.node = true

/-- Found, and let through by every other filter. -/
structure Passes (s : Store H) (r : ReadonlyRepo Cid) (f : Filters Cid) (c : Candidate Cid F) :
    Prop extends Found s r f c where
  live : f.onTombstone r c.id = true
  user : f.onSystem c.id = true
  timely : f.onTime c.node = true

/-- All of them have a property, and none is twice in the list. -/
structure Distinct (p : Candidate Cid F → Prop) (cs : List (Candidate Cid F)) : Prop where
  ids : (cs.map Candidate.id).Nodup
  each : ∀ c ∈ cs, p c

abbrev Clean (s : Store H) (r : ReadonlyRepo Cid) (f : Filters Cid) :
    List (Candidate Cid F) → Prop := Distinct (Passes s r f)

theorem Distinct.sublist {p : Candidate Cid F → Prop} {cs ds : List (Candidate Cid F)}
    (distinct : Distinct p cs) (sub : List.Sublist ds cs) : Distinct p ds where
  ids := distinct.ids.sublist (sub.map _)
  each c m := distinct.each c (sub.subset m)

theorem Distinct.perm {p : Candidate Cid F → Prop} {cs ds : List (Candidate Cid F)}
    (distinct : Distinct p cs) (same : List.Perm ds cs) : Distinct p ds where
  ids := (same.map _).nodup_iff.mpr distinct.ids
  each c m := distinct.each c (same.mem_iff.mp m)

theorem Distinct.append {p : Candidate Cid F → Prop} {cs ds : List (Candidate Cid F)}
    (first : Distinct p cs) (second : Distinct p ds)
    (apart : ∀ c ∈ cs, ∀ d ∈ ds, c.id ≠ d.id) : Distinct p (cs ++ ds) where
  ids := by
    rw [List.map_append]
    refine List.Nodup.append first.ids second.ids fun id left right => ?_
    obtain ⟨c, inFirst, rfl⟩ := List.mem_map.mp left
    obtain ⟨d, inSecond, same⟩ := List.mem_map.mp right
    exact apart c inFirst d inSecond same.symm
  each c m := by
    rcases List.mem_append.mp m with left | right
    · exact first.each c left
    · exact second.each c right

theorem prefetch_aux {s : Store H} {r : ReadonlyRepo Cid} {f : Filters Cid}
    (ranked : List (NodeId × F)) {seen : List NodeId} {cs : List (Candidate Cid F)}
    (ran : prefetchAndFilter s r f seen ranked = .ok cs) :
    Distinct (Found s r f) cs ∧ ∀ c ∈ cs, c.id ∉ seen := by
  induction ranked generalizing seen cs with
  | nil =>
      cases ran
      exact ⟨⟨List.nodup_nil, fun c m => by cases m⟩, fun c m => by cases m⟩
  | cons e ranked ih =>
      obtain ⟨id, score⟩ := e
      unfold prefetchAndFilter at ran
      by_cases known : seen.contains id = true
      · rw [if_pos known] at ran
        exact ih ran
      · rw [if_neg known] at ran
        obtain ⟨found, looked, ran⟩ := Exec.bind_eq_ok.mp ran
        obtain ⟨rest, ranRest, ran⟩ := Exec.bind_eq_ok.mp ran
        obtain ⟨distinct, fresh⟩ := ih ranRest
        have skipped : Distinct (Found s r f) rest ∧ ∀ c ∈ rest, c.id ∉ seen :=
          ⟨distinct, fun c m inSeen => fresh c m (List.mem_cons_of_mem _ inSeen)⟩
        cases found with
        | none =>
            cases ran
            exact skipped
        | some node =>
            by_cases kept : (f.onLabel node &&
                f.propFilter.all fun p => Query.hasValue node p.1 p.2) = true
            · dsimp only at ran
              rw [if_pos kept] at ran
              cases ran
              have labelled : f.onLabel node = true := (Bool.and_eq_true_iff.mp kept).1
              refine ⟨⟨?_, ?_⟩, ?_⟩
              · rw [List.map_cons, List.nodup_cons]
                refine ⟨fun twice => ?_, distinct.ids⟩
                obtain ⟨c, inRest, same⟩ := List.mem_map.mp twice
                exact fresh c inRest (same ▸ List.mem_cons_self)
              · intro c m
                rcases List.mem_cons.mp m with rfl | inRest
                · exact ⟨looked, labelled⟩
                · exact distinct.each c inRest
              · intro c m
                rcases List.mem_cons.mp m with rfl | inRest
                · simpa using known
                · exact skipped.2 c inRest
            · dsimp only at ran
              rw [if_neg kept] at ran
              cases ran
              exact skipped

/-- The nodes of a ranking, each once. -/
theorem distinct_of_prefetch {s : Store H} {r : ReadonlyRepo Cid} {f : Filters Cid}
    {ranked : List (NodeId × F)} {cs : List (Candidate Cid F)}
    (ran : prefetchAndFilter s r f [] ranked = .ok cs) : Distinct (Found s r f) cs :=
  (prefetch_aux ranked ran).1

end Mnem.Retrieve
