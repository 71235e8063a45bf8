/-
# Retrieve.Community — siblings of the best candidates

The expander adds, after the candidates, members of the communities that the
first of them belong to.  What it adds comes in groups, one for each community
in the order the communities turn up; the members of a group are the first in
the order of the lookup that are neither candidates nor in an earlier group, and
all of them have the best score that a seed of their community has, decayed
(`applyCommunityFilter_additive`).  The decay is brought into the unit interval
first.
-/
import Mnem.Retrieve.Exact
import Mathlib.Algebra.Order.BigOperators.Group.List
import Mathlib.Tactic.NormNum

namespace Mnem.Retrieve

open Theory Prolly Repo Index

set_option autoImplicit false

variable {F : Type}

/-- What one community brings in. -/
structure Group (F : Type) where
  community : Nat
  score : F
  members : List NodeId

/-! ## The members of a group -/

theorem newMembers_eq (existing : List NodeId) (room : Nat) (appended ms : List NodeId) :
    Arith.newMembers existing room appended ms =
      ((ms.filter fun m => !existing.contains m && !appended.contains m).eraseDups).take room := by
  induction ms generalizing room appended with
  | nil => cases room <;> simp [Arith.newMembers]
  | cons m ms ih =>
      cases room with
      | zero => simp [Arith.newMembers]
      | succ room =>
          unfold Arith.newMembers
          by_cases known : (existing.contains m || appended.contains m) = true
          · have dropped : (!existing.contains m && !appended.contains m) = false := by
              rw [← Bool.not_or, known]
              rfl
            rw [if_pos known, ih, List.filter_cons_of_neg (by simpa using dropped)]
          · have kept : (!existing.contains m && !appended.contains m) = true := by
              rw [← Bool.not_or, Bool.eq_false_iff.mpr known]
              rfl
            have later : (ms.filter fun x => !existing.contains x && !(appended ++ [m]).contains x) =
                (ms.filter fun x => !existing.contains x && !appended.contains x).filter
                  fun x => !x == m := by
              rw [List.filter_filter]
              apply List.filter_congr
              intro x _
              by_cases same : x = m <;> simp [same]
            rw [if_neg known, ih, List.filter_cons, if_pos kept, List.eraseDups_cons,
              List.take_succ_cons, later]

/-- The new members of a community, in its order, each once. -/
structure Fresh (existing appended ms new : List NodeId) : Prop where
  sub : List.Sublist new ms
  nodup : new.Nodup
  unseen : ∀ m ∈ new, m ∉ existing ∧ m ∉ appended

theorem fresh_newMembers (existing : List NodeId) (room : Nat) (appended ms : List NodeId) :
    Fresh existing appended ms (Arith.newMembers existing room appended ms) := by
  induction ms generalizing room appended with
  | nil =>
      cases room <;> exact ⟨List.Sublist.slnil, List.nodup_nil, fun m inside => by cases inside⟩
  | cons m ms ih =>
      cases room with
      | zero => exact ⟨List.nil_sublist _, List.nodup_nil, fun m inside => by cases inside⟩
      | succ room =>
          unfold Arith.newMembers
          split
          · obtain ⟨sub, nodup, unseen⟩ := ih (room + 1) appended
            exact ⟨sub.cons m, nodup, unseen⟩
          · next unknown =>
              obtain ⟨sub, nodup, unseen⟩ := ih room (appended ++ [m])
              have first : m ∉ existing ∧ m ∉ appended := by simpa using unknown
              refine ⟨sub.cons_cons m, List.nodup_cons.mpr ⟨fun again => ?_, nodup⟩, fun x inside => ?_⟩
              · exact (unseen m again).2 (List.mem_append_right _ (List.mem_singleton.mpr rfl))
              · rcases List.mem_cons.mp inside with rfl | later
                · exact first
                · obtain ⟨fresh, apart⟩ := unseen x later
                  exact ⟨fresh, fun known => apart (List.mem_append_left _ known)⟩

/-- The groups of some communities, when some ids are there already. -/
def groupsOf (lookup : CommunityLookup) (existing : List NodeId) (room : Nat) :
    List NodeId → List (Nat × F) → List (Group F)
  | _, [] => []
  | appended, (c, score) :: seeds =>
      let members := Arith.newMembers existing room appended (lookup.membersOf c)
      ⟨c, score, members⟩ :: groupsOf lookup existing room (appended ++ members) seeds

section Groups

variable (lookup : CommunityLookup) (existing : List NodeId) (room : Nat)

theorem groupsOf_communities (appended : List NodeId) (seeds : List (Nat × F)) :
    (groupsOf lookup existing room appended seeds).map (fun g => (g.community, g.score)) = seeds := by
  induction seeds generalizing appended with
  | nil => rfl
  | cons seed seeds ih =>
      show (seed.1, seed.2) :: _ = seed :: seeds
      rw [ih]

/-- The members of each group, by what the groups before it hold. -/
theorem groupsOf_members {appended : List NodeId} {seeds : List (Nat × F)}
    {before after : List (Group F)} {g : Group F}
    (split : groupsOf lookup existing room appended seeds = before ++ g :: after) :
    g.members = Arith.newMembers existing room (appended ++ before.flatMap Group.members)
      (lookup.membersOf g.community) := by
  induction seeds generalizing appended before with
  | nil => simp [groupsOf] at split
  | cons seed seeds ih =>
      unfold groupsOf at split
      cases before with
      | nil =>
          rw [List.nil_append, List.cons.injEq] at split
          obtain ⟨rfl, -⟩ := split
          simp
      | cons first before =>
          rw [List.cons_append, List.cons.injEq] at split
          obtain ⟨rfl, split⟩ := split
          rw [ih split, List.flatMap_cons, List.append_assoc]

/-- The loop over the communities appends the groups. -/
theorem foldl_groupsOf (a : Arith F) (decay : F) (seeds : List (Nat × F)) (added : List (NodeId × F)) :
    seeds.foldl (fun added (seed : Nat × F) =>
        added ++ (Arith.newMembers existing room (added.map Prod.fst) (lookup.membersOf seed.1)).map
          fun m => (m, a.mul seed.2 decay)) added =
      added ++ (groupsOf lookup existing room (added.map Prod.fst) seeds).flatMap
        fun g => g.members.map fun m => (m, a.mul g.score decay) := by
  induction seeds generalizing added with
  | nil => simp [groupsOf]
  | cons seed seeds ih =>
      obtain ⟨c, score⟩ := seed
      rw [List.foldl_cons, ih, groupsOf, List.flatMap_cons, List.append_assoc, List.map_append,
        List.map_map]
      simp [Function.comp_def]

end Groups

/-! ## The seeds -/

/-- The communities of some seeds, each with the best score among its seeds. -/
structure Scored (a : Arith F) (lookup : CommunityLookup) (seeds : List (NodeId × F))
    (found : List (Nat × F)) : Prop where
  nodup : (found.map Prod.fst).Nodup
  complete : ∀ p ∈ seeds, ∀ c, lookup.communityOf p.1 = some c → c ∈ found.map Prod.fst
  reached : ∀ e ∈ found, ∃ p ∈ seeds, lookup.communityOf p.1 = some e.1 ∧ p.2 = e.2
  best : ∀ e ∈ found, ∀ p ∈ seeds, lookup.communityOf p.1 = some e.1 → a.lt e.2 p.2 = false
  count : found.length ≤ seeds.length

section Seeds

variable {a : Arith F} {lookup : CommunityLookup} {seeds : List (NodeId × F)}
  {found : List (Nat × F)} {id : NodeId} {score : F}

theorem scored_nil : Scored a lookup [] [] where
  nodup := List.nodup_nil
  complete p m := by cases m
  reached e m := by cases m
  best e m := by cases m
  count := le_refl _

/-- A seed of no community. -/
theorem Scored.stray (scored : Scored a lookup seeds found) (none_of : lookup.communityOf id = none) :
    Scored a lookup (seeds ++ [(id, score)]) found where
  nodup := scored.nodup
  complete p m c within := by
    rcases List.mem_append.mp m with old | new
    · exact scored.complete p old c within
    · rw [List.mem_singleton.mp new, none_of] at within
      cases within
  reached e m := by
    obtain ⟨p, inSeeds, own⟩ := scored.reached e m
    exact ⟨p, List.mem_append_left _ inSeeds, own⟩
  best e m p inSeeds within := by
    rcases List.mem_append.mp inSeeds with old | new
    · exact scored.best e m p old within
    · rw [List.mem_singleton.mp new, none_of] at within
      cases within
  count := by
    rw [List.length_append]
    exact scored.count.trans (Nat.le_add_right _ _)

/-- The first seed of its community. -/
theorem Scored.fresh (strict : a.Strict) (scored : Scored a lookup seeds found) {c : Nat}
    (within : lookup.communityOf id = some c) (unknown : c ∉ found.map Prod.fst) :
    Scored a lookup (seeds ++ [(id, score)]) (found ++ [(c, score)]) where
  nodup := by
    rw [List.map_append]
    refine List.Nodup.append scored.nodup (List.nodup_singleton _) fun c' old new => ?_
    rw [List.map_singleton, List.mem_singleton] at new
    have same : c' = c := new
    exact unknown (same ▸ old)
  complete p m c' own := by
    rw [List.map_append]
    rcases List.mem_append.mp m with old | new
    · exact List.mem_append_left _ (scored.complete p old c' own)
    · rw [List.mem_singleton.mp new, within] at own
      cases own
      exact List.mem_append_right _ (List.mem_singleton.mpr rfl)
  reached e m := by
    rcases List.mem_append.mp m with old | new
    · obtain ⟨p, inSeeds, own⟩ := scored.reached e old
      exact ⟨p, List.mem_append_left _ inSeeds, own⟩
    · rw [List.mem_singleton.mp new]
      exact ⟨(id, score), List.mem_append_right _ (List.mem_singleton.mpr rfl), within, rfl⟩
  best e m p inSeeds own := by
    rcases List.mem_append.mp m with old | new
    · rcases List.mem_append.mp inSeeds with earlier | last
      · exact scored.best e old p earlier own
      · rw [List.mem_singleton.mp last, within] at own
        cases own
        exact absurd (List.mem_map_of_mem old) unknown
    · rw [List.mem_singleton.mp new] at own ⊢
      rcases List.mem_append.mp inSeeds with earlier | last
      · exact absurd (scored.complete p earlier c own) unknown
      · rw [List.mem_singleton.mp last]
        exact strict.irrefl score
  count := by
    rw [List.length_append, List.length_append]
    exact Nat.add_le_add_right scored.count 1

/-- The best score of a community, after one more of its seeds. -/
def Arith.raise (a : Arith F) (c : Nat) (score : F) (e : Nat × F) : Nat × F :=
  if e.1 == c && a.lt e.2 score then (c, score) else e

theorem fst_raise (a : Arith F) (c : Nat) (score : F) (e : Nat × F) : (a.raise c score e).1 = e.1 := by
  unfold Arith.raise
  split
  · next better => exact (beq_iff_eq.mp (Bool.and_eq_true_iff.mp better).1).symm
  · rfl

/-- One more seed of a community that is there. -/
theorem Scored.again (strict : a.Strict) (scored : Scored a lookup seeds found) {c : Nat}
    (within : lookup.communityOf id = some c) (known : c ∈ found.map Prod.fst) :
    Scored a lookup (seeds ++ [(id, score)]) (found.map (a.raise c score)) := by
  have keys : (found.map (a.raise c score)).map Prod.fst = found.map Prod.fst := by
    rw [List.map_map]
    exact List.map_congr_left fun e _ => fst_raise a c score e
  refine ⟨keys ▸ scored.nodup, fun p m c' own => ?_, fun e m => ?_, fun e m p inSeeds own => ?_, ?_⟩
  · rw [keys]
    rcases List.mem_append.mp m with old | new
    · exact scored.complete p old c' own
    · rw [List.mem_singleton.mp new, within] at own
      cases own
      exact known
  · obtain ⟨e, inFound, rfl⟩ := List.mem_map.mp m
    unfold Arith.raise
    split
    · exact ⟨(id, score), List.mem_append_right _ (List.mem_singleton.mpr rfl), within, rfl⟩
    · obtain ⟨p, inSeeds, own⟩ := scored.reached e inFound
      exact ⟨p, List.mem_append_left _ inSeeds, own⟩
  · obtain ⟨e, inFound, rfl⟩ := List.mem_map.mp m
    rw [fst_raise] at own
    have earlier := fun old => scored.best e inFound p old own
    unfold Arith.raise
    split
    · next better =>
        obtain ⟨-, greater⟩ := Bool.and_eq_true_iff.mp better
        rcases List.mem_append.mp inSeeds with old | new
        · rw [← Bool.not_eq_true]
          intro above
          rw [← Bool.not_eq_true] at earlier
          exact earlier old (strict.trans _ _ _ greater above)
        · rw [List.mem_singleton.mp new]
          exact strict.irrefl score
    · next kept =>
        rcases List.mem_append.mp inSeeds with old | new
        · exact earlier old
        · rw [List.mem_singleton.mp new] at own ⊢
          have same : e.1 = c := by
            rw [within] at own
            exact (Option.some.inj own).symm
          simpa [same] using kept
  · rw [List.length_map, List.length_append]
    exact scored.count.trans (Nat.le_add_right _ _)

/-- The loop over the seeds. -/
theorem scored_seedScores (strict : a.Strict) (rest : List (NodeId × F))
    (scored : Scored a lookup seeds found) :
    Scored a lookup (seeds ++ rest) (a.seedScores lookup rest found) := by
  induction rest generalizing seeds found with
  | nil => simpa [Arith.seedScores] using scored
  | cons p rest ih =>
      obtain ⟨id, score⟩ := p
      have one : ∀ found', Scored a lookup (seeds ++ [(id, score)]) found' →
          Scored a lookup (seeds ++ (id, score) :: rest) (a.seedScores lookup rest found') := by
        intro found' scored'
        have all := ih scored'
        rwa [List.append_assoc] at all
      unfold Arith.seedScores
      cases within : lookup.communityOf id with
      | none => exact one _ (scored.stray within)
      | some c =>
          have known_iff : (found.any fun e => e.1 == c) = true ↔ c ∈ found.map Prod.fst := by
            simp
          dsimp only
          split
          · next known => exact one _ (scored.again strict within (known_iff.mp known))
          · next unknown =>
              exact one _ (scored.fresh strict within fun known => unknown (known_iff.mpr known))

end Seeds

/-- Groups that each hold new ids hold no id twice. -/
theorem nodup_members {existing : List NodeId} {groups : List (Group F)} {ms : Group F → List NodeId}
    (fresh : ∀ before g after, groups = before ++ g :: after →
      Fresh existing (before.flatMap Group.members) (ms g) g.members) :
    (groups.flatMap Group.members).Nodup := by
  induction groups using List.reverseRecOn with
  | nil => exact List.nodup_nil
  | append_singleton groups g ih =>
      obtain ⟨-, nodup, unseen⟩ := fresh groups g [] rfl
      have earlier := ih fun before g' after split =>
        fresh before g' (after ++ [g]) (by rw [split, List.append_assoc, List.cons_append])
      rw [List.flatMap_append, List.flatMap_singleton]
      exact List.Nodup.append earlier nodup fun m old new => (unseen m new).2 old

/-! ## The expander -/

/-- An expander that is on appends the groups of its seeds. -/
theorem applyCommunityFilter_eq (a : Arith F) (candidates : List (NodeId × F))
    (lookup : CommunityLookup) {cfg : CommunityFilterCfg F} (enabled : cfg.enabled = true) :
    a.applyCommunityFilter candidates lookup cfg = candidates ++
      (groupsOf lookup (candidates.map Prod.fst) cfg.maxPerCommunity []
        (a.seedScores lookup (candidates.take cfg.expandSeeds) [])).flatMap fun g =>
          g.members.map fun m => (m, a.mul g.score (a.clamp cfg.decay a.zero a.one)) := by
  generalize seeded : a.seedScores lookup (candidates.take cfg.expandSeeds) [] = seeds
  unfold Arith.applyCommunityFilter
  split
  · next idle =>
      suffices nothing : (groupsOf lookup (candidates.map Prod.fst) cfg.maxPerCommunity []
          seeds).flatMap (fun g => g.members.map fun m =>
            (m, a.mul g.score (a.clamp cfg.decay a.zero a.one))) = [] by
        rw [nothing, List.append_nil]
      by_cases full : cfg.maxPerCommunity = 0
      · rw [full, List.flatMap_eq_nil_iff]
        intro g m
        obtain ⟨before, after, split⟩ := List.append_of_mem m
        rw [groupsOf_members lookup _ _ split, newMembers_eq, List.take_zero, List.map_nil]
      · have none_taken : candidates.take cfg.expandSeeds = [] := by
          simp only [enabled, full, Bool.not_true, Bool.false_or, Bool.or_eq_true,
            List.isEmpty_iff, beq_iff_eq, or_false] at idle
          rcases idle with rfl | zero
          · exact List.take_nil
          · rw [zero, List.take_zero]
        rw [none_taken] at seeded
        rw [← seeded]
        rfl
  · dsimp only
    rw [seeded, foldl_groupsOf, List.nil_append]
    rfl

/-- Groups of bounded size hold boundedly many ids. -/
theorem length_members_le {groups : List (Group F)} {count size : Nat}
    (few : groups.length ≤ count) (bounded : ∀ g ∈ groups, g.members.length ≤ size) :
    (groups.flatMap Group.members).length ≤ count * size := by
  rw [List.length_flatMap]
  have sum := List.sum_le_card_nsmul (groups.map fun g => g.members.length) size fun n m => by
    obtain ⟨g, inGroups, rfl⟩ := List.mem_map.mp m
    exact bounded g inGroups
  rw [List.length_map, nsmul_eq_mul, Nat.cast_id] at sum
  exact sum.trans (Nat.mul_le_mul_right _ few)

/-- **The expander is additive and bounded.**  The candidates come first, unchanged; what follows
comes in groups, one for each community of the first `expandSeeds` candidates, none if the expander
is off.  The new ids are distinct, no candidate is among them, and a group has at most
`maxPerCommunity`: the first members of its community, in the lookup's order, that are neither
candidates nor in an earlier group.  The score of a group is the best one that a seed of its
community has, by the decay within the unit interval. -/
theorem applyCommunityFilter_additive (a : Arith F) (strict : a.Strict)
    (candidates : List (NodeId × F)) (lookup : CommunityLookup) (cfg : CommunityFilterCfg F) :
    ∃ groups : List (Group F),
      a.applyCommunityFilter candidates lookup cfg = candidates ++ groups.flatMap (fun g =>
        g.members.map fun m => (m, a.mul g.score (a.clamp cfg.decay a.zero a.one))) ∧
      (groups.flatMap Group.members).Nodup ∧
      (∀ m ∈ groups.flatMap Group.members, m ∉ candidates.map Prod.fst) ∧
      (∀ g ∈ groups, g.members ⊆ lookup.membersOf g.community) ∧
      (∀ g ∈ groups, g.members.length ≤ cfg.maxPerCommunity) ∧
      (groups.flatMap Group.members).length ≤ cfg.expandSeeds * cfg.maxPerCommunity ∧
      (groups.map Group.community).Nodup ∧
      (∀ c, c ∈ groups.map Group.community ↔ cfg.enabled = true ∧
        ∃ p ∈ candidates.take cfg.expandSeeds, lookup.communityOf p.1 = some c) ∧
      (∀ g ∈ groups,
        (∃ p ∈ candidates.take cfg.expandSeeds,
          lookup.communityOf p.1 = some g.community ∧ p.2 = g.score) ∧
        ∀ p ∈ candidates.take cfg.expandSeeds,
          lookup.communityOf p.1 = some g.community → a.lt g.score p.2 = false) ∧
      ∀ before g after, groups = before ++ g :: after →
        g.members = (((lookup.membersOf g.community).filter fun m =>
          !(candidates.map Prod.fst).contains m &&
            !(before.flatMap Group.members).contains m).eraseDups).take cfg.maxPerCommunity := by
  have scored := scored_seedScores strict (candidates.take cfg.expandSeeds)
    (scored_nil : Scored a lookup [] [])
  rw [List.nil_append] at scored
  by_cases enabled : cfg.enabled = true
  · generalize seeded : a.seedScores lookup (candidates.take cfg.expandSeeds) [] = seeds at scored
    have whole := groupsOf_communities lookup (candidates.map Prod.fst) cfg.maxPerCommunity [] seeds
    have each := fun before g after (split : groupsOf lookup (candidates.map Prod.fst)
        cfg.maxPerCommunity [] seeds = before ++ g :: after) =>
      groupsOf_members lookup (candidates.map Prod.fst) cfg.maxPerCommunity split
    have ran := applyCommunityFilter_eq a candidates lookup enabled
    rw [seeded] at ran
    generalize groupsOf lookup (candidates.map Prod.fst) cfg.maxPerCommunity [] seeds = groups
      at whole each ran
    have fresh : ∀ before g after, groups = before ++ g :: after →
        Fresh (candidates.map Prod.fst) (before.flatMap Group.members)
          (lookup.membersOf g.community) g.members := by
      intro before g after split
      rw [each before g after split]
      exact fresh_newMembers _ _ _ _
    have eachFresh : ∀ g ∈ groups, ∃ appended, Fresh (candidates.map Prod.fst) appended
        (lookup.membersOf g.community) g.members := by
      intro g m
      obtain ⟨before, after, split⟩ := List.append_of_mem m
      exact ⟨_, fresh before g after split⟩
    have bounded : ∀ g ∈ groups, g.members.length ≤ cfg.maxPerCommunity := by
      intro g m
      obtain ⟨before, after, split⟩ := List.append_of_mem m
      rw [each before g after split, newMembers_eq]
      exact List.length_take_le _ _
    have keys : groups.map Group.community = seeds.map Prod.fst := by
      rw [← whole, List.map_map]
      rfl
    have inSeeds : ∀ g ∈ groups, (g.community, g.score) ∈ seeds := fun g m =>
      whole ▸ List.mem_map_of_mem m
    refine ⟨groups, ran, nodup_members fresh, fun m inside known => ?_, fun g m => ?_, bounded, ?_,
      keys ▸ scored.nodup, fun c => ?_, fun g m => ⟨scored.reached _ (inSeeds g m),
        scored.best _ (inSeeds g m)⟩, fun before g after split => ?_⟩
    · obtain ⟨g, inGroups, inMembers⟩ := List.mem_flatMap.mp inside
      obtain ⟨appended, -, -, unseen⟩ := eachFresh g inGroups
      exact (unseen m inMembers).1 known
    · obtain ⟨appended, sub, -, -⟩ := eachFresh g m
      exact sub.subset
    · have few : groups.length ≤ cfg.expandSeeds := by
        have same : groups.length = seeds.length := by simpa using congrArg List.length whole
        have count := scored.count
        rw [List.length_take] at count
        omega
      exact length_members_le few bounded
    · rw [keys]
      constructor
      · intro inside
        obtain ⟨e, m, rfl⟩ := List.mem_map.mp inside
        obtain ⟨p, inTake, own, -⟩ := scored.reached e m
        exact ⟨enabled, p, inTake, own⟩
      · rintro ⟨-, p, inTake, own⟩
        exact scored.complete p inTake c own
    · rw [each before g after split, newMembers_eq]
      rfl
  · refine ⟨[], ?_, List.nodup_nil, ?_⟩
    · simp [Arith.applyCommunityFilter, enabled]
    · simp [enabled]

/-! ### Two siblings -/

/-- Nodes 1 and 2 are a community. -/
def siblings : CommunityLookup where
  communityOf id := if id = 1 ∨ id = 2 then some 0 else none
  membersOf c := if c = 0 then [1, 2] else []

/-- The only candidate is a seed, and brings in its sibling. -/
theorem applyCommunityFilter_additive_siblings : ∃ groups : List (Group (Extended ℚ)),
    (Arith.exact ℚ).applyCommunityFilter [(1, .finite 1)] siblings
        { enabled := true, decay := .finite (1 / 2) } =
      [(1, .finite 1)] ++ groups.flatMap (fun g => g.members.map fun m =>
        (m, (Arith.exact ℚ).mul g.score (.finite (1 / 2)))) ∧
    (groups.flatMap Group.members).Nodup := by
  obtain ⟨groups, same, nodup, -⟩ := applyCommunityFilter_additive (Arith.exact ℚ) (exact_strict ℚ)
    [(1, .finite 1)] siblings { enabled := true, decay := .finite (1 / 2) }
  refine ⟨groups, same.trans ?_, nodup⟩
  have decay : (Arith.exact ℚ).clamp (.finite (1 / 2)) (Arith.exact ℚ).zero (Arith.exact ℚ).one =
      .finite (1 / 2) := by
    norm_num [Arith.clamp]
  rw [decay]

/-- **A decay beyond 1 is not applied**: the sibling has the score of the seed, not twice that. -/
theorem applyCommunityFilter_undecayed :
    (2, Extended.finite (1 : ℚ)) ∈ (Arith.exact ℚ).applyCommunityFilter [(1, .finite 1)] siblings
        { enabled := true, decay := .finite 2 } ∧
      ∀ seed ∈ [((1 : NodeId), Extended.finite (1 : ℚ))],
        Extended.finite 1 ≠ (Arith.exact ℚ).mul seed.2 (.finite 2) := by
  decide +kernel

end Mnem.Retrieve
