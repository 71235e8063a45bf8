/-
# Repo.TombstoneConflicts — which tombstones block a merge

A tombstone blocks a merge when one side has it and the other side changed the
node.  The detector with views decides this in three places: with the
tombstones that each side's operation added, by raising an entry when exactly
one view has a tombstone, and by adding an entry for every tombstone of a view
whose node is still in both trees.  The last ignores the ancestor's tree and the
other view.
-/
import Mnem.Repo.ThreeWayLaw
import Mnem.Repo.Session

namespace Mnem.Repo

open Theory Prolly Index

set_option autoImplicit false
set_option linter.unusedSectionVars false

variable {Cid : Type} {H : Hashing Cid} [LinearOrder Cid]

/-! ## What the detector looks at -/

/-- The nodes of a commit. -/
def nodesOf (s : Store H) (cid : Cid) : Except (Error Cid) (OrdMap ProllyKey Cid) := do
  let commit ← s.decodeFromStore (Commit Cid) cid
  collectProlly s commit.nodes

/-- The trees of the sides and of the ancestor, and the tombstones that the sides added. -/
structure Differing (Cid : Type) where
  left : OrdMap ProllyKey Cid
  right : OrdMap ProllyKey Cid
  base : OrdMap ProllyKey Cid
  leftAdded : OrdSet NodeId
  rightAdded : OrdSet NodeId

/-- What the detector reads of two commits and their common ancestor. -/
structure ReadsDiffering (w : World H) (l r : Cid) (lca : Option Cid) (d : Differing Cid) :
    Prop where
  left : nodesOf w.store l = .ok d.left
  right : nodesOf w.store r = .ok d.right
  base : collectLca (nodesOf w.store) OrdMap.empty lca = .ok d.base
  leftAdded : tombstonesForCommit w l = .ok d.leftAdded
  rightAdded : tombstonesForCommit w r = .ok d.rightAdded

/-- A side has the node, with another CID than the ancestor. -/
def Modified (side base : OrdMap ProllyKey Cid) (id : NodeId) : Prop :=
  side.get? id ≠ none ∧ side.get? id ≠ base.get? id

/-- One side tombstoned the node, the other side modified it. -/
def Explained (leftTs rightTs : OrdSet NodeId) (d : Differing Cid) (id : NodeId) : Prop :=
  (id ∈ leftTs ∧ id ∉ rightTs ∧ Modified d.right d.base id) ∨
    (id ∈ rightTs ∧ id ∉ leftTs ∧ Modified d.left d.base id)

/-- Both sides tombstoned the node, or the side that did not left it as the ancestor has it. -/
def Settled (leftTs rightTs : OrdSet NodeId) (d : Differing Cid) (id : NodeId) : Prop :=
  (id ∈ leftTs ∧ id ∈ rightTs) ∨
    (id ∈ leftTs ∧ id ∉ rightTs ∧ d.right.get? id = d.base.get? id) ∨
    (id ∈ rightTs ∧ id ∉ leftTs ∧ d.left.get? id = d.base.get? id)

/-- A record reports the tombstone conflicts of two sides. -/
structure TombstonesExact (leftTs rightTs : OrdSet NodeId) (d : Differing Cid)
    (conflicts : List (Conflict Cid)) : Prop where
  explained : ∀ c ∈ conflicts, c.category = .tombstoneVsModify → ∀ id, c.nodeId = some id →
    Explained leftTs rightTs d id
  settled : ∀ id, Settled leftTs rightTs d id → ∀ c ∈ conflicts, c.nodeId ≠ some id

/-- The tombstones of the sides' operations give no entry for a node, and its own tombstone,
if any, gives none. -/
def Unreported (leftTs rightTs : OrdSet NodeId) (d : Differing Cid) (id : NodeId) : Prop :=
  ¬ Explained d.leftAdded d.rightAdded d id ∧
    (id ∈ leftTs ∨ id ∈ rightTs → d.left.get? id = none ∨ d.right.get? id = none)

/-! ## Entries of a node -/

/-- Some entry is about the node. -/
def HasEntry (conflicts : List (Conflict Cid)) (id : NodeId) : Prop :=
  ∃ c ∈ conflicts, c.nodeId = some id

/-- Some entry is about a tombstone of the node. -/
def HasTombstoneEntry (conflicts : List (Conflict Cid)) (id : NodeId) : Prop :=
  ∃ c ∈ conflicts, c.nodeId = some id ∧ c.category = .tombstoneVsModify

/-- Both trees have the node. -/
def InBoth (left right : OrdMap ProllyKey Cid) (id : NodeId) : Prop :=
  left.get? id ≠ none ∧ right.get? id ≠ none

variable {policy : ConflictPolicy} {left right : OrdMap ProllyKey Cid} {side : Side}

/-! ### Emitted entries -/

theorem exists_emitFor_iff {id : NodeId} :
    (∃ c, emitFor policy left right side id = some c) ↔ InBoth left right id := by
  unfold emitFor InBoth
  cases left.get? id <;> cases right.get? id <;> simp

theorem emitFor_eq_some {id : NodeId} {c : Conflict Cid}
    (emitted : emitFor policy left right side id = some c) :
    c.nodeId = some id ∧ c.category = .tombstoneVsModify := by
  unfold emitFor at emitted
  split at emitted
  · cases emitted
    exact ⟨rfl, rfl⟩
  · cases emitted

/-- One tombstone adds an entry when there is none and both trees have the node. -/
theorem mem_emitOne {conflicts : List (Conflict Cid)} {id : NodeId} {c : Conflict Cid} :
    c ∈ emitAll policy left right side conflicts [id] ↔
      c ∈ conflicts ∨
        ¬ HasEntry conflicts id ∧ emitFor policy left right side id = some c := by
  show c ∈ (if conflicts.any fun c => c.nodeId = some id then conflicts
    else conflicts ++ (emitFor policy left right side id).toList) ↔ _
  have any : (conflicts.any fun c => c.nodeId = some id) = true ↔ HasEntry conflicts id := by
    simp [HasEntry]
  by_cases there : HasEntry conflicts id
  · rw [if_pos (any.mpr there)]
    simp [there]
  · rw [if_neg (mt any.mp there)]
    simp [there]

/-- The entries after all tombstones of a side: what was there, and one for each tombstone that
had none. -/
theorem mem_emitAll {conflicts : List (Conflict Cid)} {ids : List NodeId} {c : Conflict Cid} :
    c ∈ emitAll policy left right side conflicts ids ↔
      c ∈ conflicts ∨ ∃ id ∈ ids, ¬ HasEntry conflicts id ∧
        emitFor policy left right side id = some c := by
  induction ids generalizing conflicts with
  | nil => simp [emitAll]
  | cons first ids ih =>
      show c ∈ emitAll policy left right side (emitAll policy left right side conflicts [first])
        ids ↔ _
      rw [ih, mem_emitOne]
      constructor
      · rintro ((old | ⟨absent, emitted⟩) | ⟨id, member, absent, emitted⟩)
        · exact .inl old
        · exact .inr ⟨first, List.mem_cons_self, absent, emitted⟩
        · refine .inr ⟨id, List.mem_cons_of_mem _ member, fun there => absent ?_, emitted⟩
          obtain ⟨c', old, about⟩ := there
          exact ⟨c', mem_emitOne.mpr (.inl old), about⟩
      · rintro (old | ⟨id, member, absent, emitted⟩)
        · exact .inl (.inl old)
        · by_cases same : id = first
          · subst same
            exact .inl (.inr ⟨absent, emitted⟩)
          · refine .inr ⟨id, (List.mem_cons.mp member).resolve_left same, ?_, emitted⟩
            rintro ⟨c', there, about⟩
            rcases mem_emitOne.mp there with old | ⟨-, other⟩
            · exact absent ⟨c', old, about⟩
            · have owner := (emitFor_eq_some other).1
              exact same (Option.some.inj (about.symm.trans owner))

theorem hasEntry_emitAll {conflicts : List (Conflict Cid)} {ids : List NodeId} {id : NodeId} :
    HasEntry (emitAll policy left right side conflicts ids) id ↔
      HasEntry conflicts id ∨ id ∈ ids ∧ InBoth left right id := by
  constructor
  · rintro ⟨c, member, about⟩
    rcases mem_emitAll.mp member with old | ⟨id', inIds, -, emitted⟩
    · exact .inl ⟨c, old, about⟩
    · obtain rfl := Option.some.inj (about.symm.trans (emitFor_eq_some emitted).1)
      exact .inr ⟨inIds, exists_emitFor_iff.mp ⟨c, emitted⟩⟩
  · intro given
    by_cases there : HasEntry conflicts id
    · obtain ⟨c, old, about⟩ := there
      exact ⟨c, mem_emitAll.mpr (.inl old), about⟩
    · obtain ⟨inIds, both⟩ := given.resolve_left there
      obtain ⟨c, emitted⟩ := (@exists_emitFor_iff _ _ policy _ _ side _).mpr both
      exact ⟨c, mem_emitAll.mpr (.inr ⟨id, inIds, there, emitted⟩), (emitFor_eq_some emitted).1⟩

theorem hasTombstoneEntry_emitAll {conflicts : List (Conflict Cid)} {ids : List NodeId}
    {id : NodeId} :
    HasTombstoneEntry (emitAll policy left right side conflicts ids) id ↔
      HasTombstoneEntry conflicts id ∨
        ¬ HasEntry conflicts id ∧ id ∈ ids ∧ InBoth left right id := by
  constructor
  · rintro ⟨c, member, about, category⟩
    rcases mem_emitAll.mp member with old | ⟨id', inIds, absent, emitted⟩
    · exact .inl ⟨c, old, about, category⟩
    · obtain rfl := Option.some.inj (about.symm.trans (emitFor_eq_some emitted).1)
      exact .inr ⟨absent, inIds, exists_emitFor_iff.mp ⟨c, emitted⟩⟩
  · rintro (⟨c, old, here⟩ | ⟨absent, inIds, both⟩)
    · exact ⟨c, mem_emitAll.mpr (.inl old), here⟩
    · obtain ⟨c, emitted⟩ := (@exists_emitFor_iff _ _ policy _ _ side _).mpr both
      exact ⟨c, mem_emitAll.mpr (.inr ⟨id, inIds, absent, emitted⟩), emitFor_eq_some emitted⟩

/-! ### Raised entries -/

section Upgrade

variable {leftTs rightTs : OrdSet NodeId}

theorem upgrade_nodeId (c : Conflict Cid) :
    (upgrade policy leftTs rightTs c).nodeId = c.nodeId := by
  unfold upgrade
  split
  · rfl
  · split <;> rfl

/-- An entry is raised when exactly one view has a tombstone of its node. -/
theorem upgrade_category {c : Conflict Cid} {id : NodeId} (about : c.nodeId = some id) :
    (upgrade policy leftTs rightTs c).category = .tombstoneVsModify ↔
      c.category = .tombstoneVsModify ∨ ¬ (id ∈ leftTs ↔ id ∈ rightTs) := by
  have one : (leftTs.contains id != rightTs.contains id) = true ↔
      ¬ (id ∈ leftTs ↔ id ∈ rightTs) := by
    show _ ↔ ¬ (leftTs.contains id = true ↔ rightTs.contains id = true)
    cases leftTs.contains id <;> cases rightTs.contains id <;> simp
  simp only [upgrade, about]
  split
  · rename_i exactly
    simp [one.mp exactly]
  · rename_i both
    have even := mt one.mpr both
    tauto

theorem hasEntry_map_upgrade {conflicts : List (Conflict Cid)} {id : NodeId} :
    HasEntry (conflicts.map (upgrade policy leftTs rightTs)) id ↔ HasEntry conflicts id := by
  simp [HasEntry, upgrade_nodeId]

theorem hasTombstoneEntry_map_upgrade {conflicts : List (Conflict Cid)} {id : NodeId} :
    HasTombstoneEntry (conflicts.map (upgrade policy leftTs rightTs)) id ↔
      HasTombstoneEntry conflicts id ∨
        HasEntry conflicts id ∧ ¬ (id ∈ leftTs ↔ id ∈ rightTs) := by
  constructor
  · rintro ⟨_, member, about, category⟩
    obtain ⟨c, old, rfl⟩ := List.mem_map.mp member
    rw [upgrade_nodeId] at about
    rcases (upgrade_category about).mp category with already | one
    · exact .inl ⟨c, old, about, already⟩
    · exact .inr ⟨⟨c, old, about⟩, one⟩
  · rintro (⟨c, old, about, already⟩ | ⟨⟨c, old, about⟩, one⟩)
    · exact ⟨_, List.mem_map_of_mem old, (upgrade_nodeId c).trans about,
        (upgrade_category about).mpr (.inl already)⟩
    · exact ⟨_, List.mem_map_of_mem old, (upgrade_nodeId c).trans about,
        (upgrade_category about).mpr (.inr one)⟩

end Upgrade

/-! ### The entries of the first pass -/

section FirstPass

variable {d : Differing Cid} {id : NodeId}

theorem nodeConflict_of_explained (explained : Explained d.leftAdded d.rightAdded d id) :
    ∃ c, nodeConflict policy id (d.leftAdded.contains id) (d.rightAdded.contains id)
        (d.left.get? id) (d.right.get? id) (d.base.get? id) = some c ∧
      c.nodeId = some id ∧ c.category = .tombstoneVsModify := by
  unfold nodeConflict
  rcases explained with ⟨tombed, clear, here, changed⟩ | ⟨tombed, clear, here, changed⟩
  · have tombed : d.leftAdded.contains id = true := tombed
    have clear : d.rightAdded.contains id = false := Bool.not_eq_true _ ▸ clear
    have here := Option.isSome_iff_ne_none.mpr here
    simp [tombed, clear, here, changed]
  · have tombed : d.rightAdded.contains id = true := tombed
    have clear : d.leftAdded.contains id = false := Bool.not_eq_true _ ▸ clear
    have here := Option.isSome_iff_ne_none.mpr here
    simp [tombed, clear, here, changed]

/-- Where the added tombstones explain nothing they do not matter. -/
theorem nodeConflict_of_not_explained (plain : ¬ Explained d.leftAdded d.rightAdded d id) :
    nodeConflict policy id (d.leftAdded.contains id) (d.rightAdded.contains id)
        (d.left.get? id) (d.right.get? id) (d.base.get? id) =
      nodeConflict policy id false false (d.left.get? id) (d.right.get? id) (d.base.get? id) := by
  have notLeft : ¬ (d.leftAdded.contains id && ((d.right.get? id).isSome &&
      d.right.get? id != d.base.get? id) && !d.rightAdded.contains id) = true := by
    intro all
    simp only [Bool.and_eq_true, bne_iff_ne, Bool.not_eq_true'] at all
    obtain ⟨⟨tombed, here, changed⟩, clear⟩ := all
    exact plain (.inl ⟨tombed, Bool.not_eq_true _ ▸ clear, Option.isSome_iff_ne_none.mp here,
      changed⟩)
  have notRight : ¬ (d.rightAdded.contains id && ((d.left.get? id).isSome &&
      d.left.get? id != d.base.get? id) && !d.leftAdded.contains id) = true := by
    intro all
    simp only [Bool.and_eq_true, bne_iff_ne, Bool.not_eq_true'] at all
    obtain ⟨⟨tombed, here, changed⟩, clear⟩ := all
    exact plain (.inr ⟨tombed, Bool.not_eq_true _ ▸ clear, Option.isSome_iff_ne_none.mp here,
      changed⟩)
  unfold nodeConflict
  dsimp only
  rw [if_neg notLeft, if_neg notRight, if_neg (by simp), if_neg (by simp)]

/-- What a node's key gives in the first pass. -/
theorem nodeConflict_eq {c : Conflict Cid}
    (found : nodeConflict policy id (d.leftAdded.contains id) (d.rightAdded.contains id)
      (d.left.get? id) (d.right.get? id) (d.base.get? id) = some c) :
    c.nodeId = some id ∧
      (c.category = .tombstoneVsModify ↔ Explained d.leftAdded d.rightAdded d id) ∧
      (Explained d.leftAdded d.rightAdded d id ∨
        NodeDiverges (d.left.get? id) (d.right.get? id) (d.base.get? id)) := by
  by_cases explained : Explained d.leftAdded d.rightAdded d id
  · obtain ⟨c', gave, about, category⟩ := @nodeConflict_of_explained _ _ policy _ _ explained
    obtain rfl := Option.some.inj (gave.symm.trans found)
    exact ⟨about, ⟨fun _ => explained, fun _ => category⟩, .inl explained⟩
  · rw [nodeConflict_of_not_explained explained] at found
    obtain ⟨category, about, diverges⟩ := nodeConflict_eq_some found
    refine ⟨about, ⟨fun raised => ?_, fun here => absurd here explained⟩, .inr diverges⟩
    rw [category] at raised
    cases raised

theorem exists_nodeConflict_iff :
    (∃ c, nodeConflict policy id (d.leftAdded.contains id) (d.rightAdded.contains id)
      (d.left.get? id) (d.right.get? id) (d.base.get? id) = some c) ↔
      Explained d.leftAdded d.rightAdded d id ∨
        NodeDiverges (d.left.get? id) (d.right.get? id) (d.base.get? id) := by
  constructor
  · rintro ⟨c, found⟩
    exact (nodeConflict_eq found).2.2
  · intro reason
    by_cases explained : Explained d.leftAdded d.rightAdded d id
    · obtain ⟨c, found, -⟩ := @nodeConflict_of_explained _ _ policy _ _ explained
      exact ⟨c, found⟩
    · rw [nodeConflict_of_not_explained explained]
      apply Option.ne_none_iff_exists'.mp
      intro none
      exact nodeConflict_eq_none.mp none (reason.resolve_left explained)

/-- The entries before the views are looked at. -/
def firstPass (policy : ConflictPolicy) (d : Differing Cid) (edges : List (Conflict Cid)) :
    List (Conflict Cid) :=
  sortConflicts (nodeConflicts policy d.leftAdded d.rightAdded d.left d.right d.base ++ edges)

/-- An entry of the first pass about a node is what the node's key gave. -/
theorem mem_firstPass {edges : List (Conflict Cid)} (noNodes : ∀ c ∈ edges, c.nodeId = none)
    {c : Conflict Cid} :
    c ∈ firstPass policy d edges ∧ c.nodeId = some id ↔
      nodeConflict policy id (d.leftAdded.contains id) (d.rightAdded.contains id)
        (d.left.get? id) (d.right.get? id) (d.base.get? id) = some c := by
  rw [firstPass, mem_sortConflicts, List.mem_append]
  constructor
  · rintro ⟨atNode | atEdge, about⟩
    · obtain ⟨key, -, found⟩ := List.mem_filterMap.mp atNode
      obtain rfl := Option.some.inj ((nodeConflict_eq found).1.symm.trans about)
      exact found
    · rw [noNodes c atEdge] at about
      cases about
  · intro found
    obtain ⟨about, -, reason⟩ := nodeConflict_eq found
    refine ⟨.inl (List.mem_filterMap.mpr ⟨id, mem_allKeys.mpr ?_, found⟩), about⟩
    rcases reason with (⟨-, -, here, -⟩ | ⟨-, -, here, -⟩) | ⟨lc, rc, atLeft, -⟩
    · exact .inr (Option.isSome_iff_ne_none.mpr here)
    · exact .inl (Option.isSome_iff_ne_none.mpr here)
    · rw [atLeft]
      exact .inl rfl

theorem hasEntry_firstPass {edges : List (Conflict Cid)}
    (noNodes : ∀ c ∈ edges, c.nodeId = none) :
    HasEntry (firstPass policy d edges) id ↔
      Explained d.leftAdded d.rightAdded d id ∨
        NodeDiverges (d.left.get? id) (d.right.get? id) (d.base.get? id) := by
  show (∃ c, c ∈ firstPass policy d edges ∧ c.nodeId = some id) ↔ _
  simp only [mem_firstPass noNodes]
  exact exists_nodeConflict_iff

theorem hasTombstoneEntry_firstPass {edges : List (Conflict Cid)}
    (noNodes : ∀ c ∈ edges, c.nodeId = none) :
    HasTombstoneEntry (firstPass policy d edges) id ↔
      Explained d.leftAdded d.rightAdded d id := by
  constructor
  · rintro ⟨c, member, about, category⟩
    exact (nodeConflict_eq ((mem_firstPass noNodes).mp ⟨member, about⟩)).2.1.mp category
  · intro explained
    obtain ⟨c, found, about, category⟩ := @nodeConflict_of_explained _ _ policy _ _ explained
    exact ⟨c, ((mem_firstPass noNodes).mpr found).1, about, category⟩

end FirstPass

/-! ## The entries that are reported -/

/-- The entries after the views were looked at. -/
def secondPass (policy : ConflictPolicy) (leftTs rightTs : OrdSet NodeId)
    (left right : OrdMap ProllyKey Cid) (first : List (Conflict Cid)) : List (Conflict Cid) :=
  emitAll policy left right .right
    (emitAll policy left right .left (first.map (upgrade policy leftTs rightTs)) leftTs.keys)
    rightTs.keys

section Report

variable {leftTs rightTs : OrdSet NodeId} {d : Differing Cid} {id : NodeId}
  {edges : List (Conflict Cid)}

theorem NodeDiverges.inBoth (diverges : NodeDiverges (d.left.get? id) (d.right.get? id)
    (d.base.get? id)) : InBoth d.left d.right id := by
  obtain ⟨lc, rc, atLeft, atRight, -⟩ := diverges
  exact ⟨by simp [atLeft], by simp [atRight]⟩

/-- **Which nodes have an entry**: those that the added tombstones explain, those that diverge,
and those with a tombstone that both trees still have. -/
theorem hasEntry_secondPass (noNodes : ∀ c ∈ edges, c.nodeId = none) :
    HasEntry (secondPass policy leftTs rightTs d.left d.right (firstPass policy d edges)) id ↔
      Explained d.leftAdded d.rightAdded d id ∨
        NodeDiverges (d.left.get? id) (d.right.get? id) (d.base.get? id) ∨
        (id ∈ leftTs ∨ id ∈ rightTs) ∧ InBoth d.left d.right id := by
  rw [secondPass, hasEntry_emitAll, hasEntry_emitAll, hasEntry_map_upgrade,
    hasEntry_firstPass noNodes, OrdSet.mem_keys, OrdSet.mem_keys]
  tauto

/-- **Which nodes have an entry about a tombstone**. -/
theorem hasTombstoneEntry_secondPass (noNodes : ∀ c ∈ edges, c.nodeId = none) :
    HasTombstoneEntry (secondPass policy leftTs rightTs d.left d.right
        (firstPass policy d edges)) id ↔
      Explained d.leftAdded d.rightAdded d id ∨
        NodeDiverges (d.left.get? id) (d.right.get? id) (d.base.get? id) ∧
          ¬ (id ∈ leftTs ↔ id ∈ rightTs) ∨
        ¬ NodeDiverges (d.left.get? id) (d.right.get? id) (d.base.get? id) ∧
          (id ∈ leftTs ∨ id ∈ rightTs) ∧ InBoth d.left d.right id := by
  rw [secondPass, hasTombstoneEntry_emitAll, hasTombstoneEntry_emitAll, hasEntry_emitAll,
    hasTombstoneEntry_map_upgrade, hasEntry_map_upgrade, hasEntry_firstPass noNodes,
    hasTombstoneEntry_firstPass noNodes, OrdSet.mem_keys, OrdSet.mem_keys]
  tauto

theorem Explained.not_settled (explained : Explained leftTs rightTs d id) :
    ¬ Settled leftTs rightTs d id := by
  rintro (⟨onLeft, onRight⟩ | ⟨onLeft, offRight, same⟩ | ⟨onRight, offLeft, same⟩)
  · rcases explained with ⟨-, offRight, -⟩ | ⟨-, offLeft, -⟩
    · exact offRight onRight
    · exact offLeft onLeft
  · rcases explained with ⟨-, -, changed⟩ | ⟨onRight, -⟩
    · exact changed.2 same
    · exact offRight onRight
  · rcases explained with ⟨onLeft, -⟩ | ⟨-, -, changed⟩
    · exact offLeft onLeft
    · exact changed.2 same

theorem Settled.tombstoned (settled : Settled leftTs rightTs d id) :
    id ∈ leftTs ∨ id ∈ rightTs := by
  rcases settled with ⟨onLeft, -⟩ | ⟨onLeft, -⟩ | ⟨onRight, -⟩
  · exact .inl onLeft
  · exact .inl onLeft
  · exact .inr onRight

/-- A tombstone whose node is in both trees is explained or settled. -/
theorem settled_of_inBoth (tombed : id ∈ leftTs ∨ id ∈ rightTs) (both : InBoth d.left d.right id)
    (plain : ¬ Explained leftTs rightTs d id) : Settled leftTs rightTs d id := by
  by_cases onLeft : id ∈ leftTs <;> by_cases onRight : id ∈ rightTs
  · exact .inl ⟨onLeft, onRight⟩
  · refine .inr (.inl ⟨onLeft, onRight, ?_⟩)
    by_contra changed
    exact plain (.inl ⟨onLeft, onRight, both.2, changed⟩)
  · refine .inr (.inr ⟨onRight, onLeft, ?_⟩)
    by_contra changed
    exact plain (.inr ⟨onRight, onLeft, both.1, changed⟩)
  · exact absurd tombed (not_or.mpr ⟨onLeft, onRight⟩)

theorem unreported_iff : Unreported leftTs rightTs d id ↔
    ¬ Explained d.leftAdded d.rightAdded d id ∧
      (id ∈ leftTs ∨ id ∈ rightTs → ¬ InBoth d.left d.right id) := by
  unfold Unreported InBoth
  simp only [ne_eq, not_and_or, not_not]

/-- **When the reported tombstones are exact**, node by node. -/
theorem tombstonesExact_iff (noNodes : ∀ c ∈ edges, c.nodeId = none) :
    TombstonesExact leftTs rightTs d
        (secondPass policy leftTs rightTs d.left d.right (firstPass policy d edges)) ↔
      ∀ id, Explained leftTs rightTs d id ∨ Unreported leftTs rightTs d id := by
  have asEntries : TombstonesExact leftTs rightTs d
      (secondPass policy leftTs rightTs d.left d.right (firstPass policy d edges)) ↔
      ∀ id, (HasTombstoneEntry (secondPass policy leftTs rightTs d.left d.right
          (firstPass policy d edges)) id → Explained leftTs rightTs d id) ∧
        (Settled leftTs rightTs d id → ¬ HasEntry (secondPass policy leftTs rightTs d.left d.right
          (firstPass policy d edges)) id) := by
    constructor
    · rintro ⟨explained, settled⟩ id
      refine ⟨?_, ?_⟩
      · rintro ⟨c, member, about, category⟩
        exact explained c member category id about
      · rintro quiet ⟨c, member, about⟩
        exact settled id quiet c member about
    · intro each
      refine ⟨fun c member category id about => ?_, fun id quiet c member about => ?_⟩
      · exact (each id).1 ⟨c, member, about, category⟩
      · exact (each id).2 quiet ⟨c, member, about⟩
  rw [asEntries]
  apply forall_congr'
  intro id
  rw [hasTombstoneEntry_secondPass noNodes, hasEntry_secondPass noNodes, unreported_iff]
  by_cases explained : Explained leftTs rightTs d id
  · exact ⟨fun _ => .inl explained, fun _ => ⟨fun _ => explained, fun settled =>
      absurd settled explained.not_settled⟩⟩
  constructor
  · rintro ⟨raised, silent⟩
    refine .inr ⟨fun added => explained (raised (.inl added)), fun tombed both => ?_⟩
    exact silent (settled_of_inBoth tombed both explained) (.inr (.inr ⟨tombed, both⟩))
  · intro given
    obtain ⟨notAdded, gone⟩ := given.resolve_left explained
    refine ⟨?_, fun settled => ?_⟩
    · rintro (added | ⟨diverges, odd⟩ | ⟨-, tombed, both⟩)
      · exact absurd added notAdded
      · have tombed : id ∈ leftTs ∨ id ∈ rightTs := by tauto
        exact absurd diverges.inBoth (gone tombed)
      · exact absurd both (gone tombed)
    · have missing := gone settled.tombstoned
      rintro (added | diverges | ⟨-, both⟩)
      · exact notAdded added
      · exact missing diverges.inBoth
      · exact missing both

end Report

/-! ## Detection with views -/

theorem edgeConflicts_nodeId {leftWinsLex : Bool} {left right base : OrdMap EdgeKey (Props Cid)} :
    ∀ c ∈ edgeConflicts leftWinsLex left right base, c.nodeId = none := by
  intro c member
  obtain ⟨key, -, found⟩ := List.mem_filterMap.mp member
  exact (edgeConflict_eq_some found).2.1

section Detection

variable {w : World H} {l r : Cid} {lca : Option Cid} {mc : MergeConflicts Cid}

/-- What the detector without views returns. -/
theorem detectConflictsWithPolicy_reads
    (ran : detectConflictsWithPolicy w l r lca policy = .ok mc) :
    ∃ d edges, ReadsDiffering w l r lca d ∧ (∀ c ∈ edges, c.nodeId = none) ∧
      mc.conflicts = firstPass policy d edges := by
  unfold detectConflictsWithPolicy at ran
  simp only [Exec.bind_eq_ok] at ran
  obtain ⟨lc, leftLoads, rc, rightLoads, bc, baseLoads, la, leftAdded, ra, rightAdded, ln, leftNodes,
    rn, rightNodes, bn, baseNodes, le, -, re, -, be, -, made⟩ := ran
  refine ⟨⟨ln, rn, bn, la, ra⟩, _, ⟨?_, ?_, ?_, leftAdded, rightAdded⟩, edgeConflicts_nodeId,
    (congrArg MergeConflicts.conflicts (Except.ok.inj made)).symm⟩
  · exact Exec.bind_eq_ok.mpr ⟨lc, leftLoads, leftNodes⟩
  · exact Exec.bind_eq_ok.mpr ⟨rc, rightLoads, rightNodes⟩
  · cases lca with
    | none =>
        obtain rfl := Except.ok.inj baseLoads
        exact baseNodes
    | some cid =>
        obtain ⟨b, loads, rfl⟩ := Exec.map_eq_ok.mp baseLoads
        exact Exec.bind_eq_ok.mpr ⟨b, loads, baseNodes⟩

/-- What the detector with views returns. -/
theorem detectConflictsWithViews_reads {lv rv : View Cid}
    (ran : detectConflictsWithViews w l r lca lv rv policy = .ok mc) :
    ∃ d edges, ReadsDiffering w l r lca d ∧ (∀ c ∈ edges, c.nodeId = none) ∧
      mc.conflicts = sortConflicts (secondPass policy (tombstoneSet lv) (tombstoneSet rv) d.left
        d.right (firstPass policy d edges)) := by
  unfold detectConflictsWithViews at ran
  simp only [Exec.bind_eq_ok] at ran
  obtain ⟨first, detected, lc, leftLoads, rc, rightLoads, ln, leftNodes, rn, rightNodes, made⟩ := ran
  obtain ⟨d, edges, reads, noNodes, entries⟩ := detectConflictsWithPolicy_reads detected
  have atLeft : nodesOf w.store l = .ok ln := Exec.bind_eq_ok.mpr ⟨lc, leftLoads, leftNodes⟩
  have atRight : nodesOf w.store r = .ok rn := Exec.bind_eq_ok.mpr ⟨rc, rightLoads, rightNodes⟩
  obtain rfl := Except.ok.inj (reads.left.symm.trans atLeft)
  obtain rfl := Except.ok.inj (reads.right.symm.trans atRight)
  refine ⟨d, edges, reads, noNodes, ?_⟩
  rw [← entries]
  exact (congrArg MergeConflicts.conflicts (Except.ok.inj made)).symm

/-- The order of the entries does not matter. -/
theorem tombstonesExact_sort {leftTs rightTs : OrdSet NodeId} {d : Differing Cid}
    {conflicts : List (Conflict Cid)} :
    TombstonesExact leftTs rightTs d (sortConflicts conflicts) ↔
      TombstonesExact leftTs rightTs d conflicts := by
  constructor
  · rintro ⟨explained, settled⟩
    exact ⟨fun c member => explained c (mem_sortConflicts.mpr member),
      fun id quiet c member => settled id quiet c (mem_sortConflicts.mpr member)⟩
  · rintro ⟨explained, settled⟩
    exact ⟨fun c member => explained c (mem_sortConflicts.mp member),
      fun id quiet c member => settled id quiet c (mem_sortConflicts.mp member)⟩

/-- **When detection with views is exact about tombstones**: each node is either tombstoned on
one side and modified on the other, or unreported. -/
theorem detectConflictsWithViews_exact_iff {lv rv : View Cid}
    (ran : detectConflictsWithViews w l r lca lv rv policy = .ok mc) :
    ∃ d, ReadsDiffering w l r lca d ∧
      (TombstonesExact (tombstoneSet lv) (tombstoneSet rv) d mc.conflicts ↔
        ∀ id, Explained (tombstoneSet lv) (tombstoneSet rv) d id ∨
          Unreported (tombstoneSet lv) (tombstoneSet rv) d id) := by
  obtain ⟨d, edges, reads, noNodes, entries⟩ := detectConflictsWithViews_reads ran
  refine ⟨d, reads, ?_⟩
  rw [entries, tombstonesExact_sort]
  exact tombstonesExact_iff noNodes

end Detection

/-- The left branch tombstones a person, the right branch adds another one. -/
def tombstonedAndLeft : WorldM shortHashing (ReadonlyRepo ℕ × ReadonlyRepo ℕ × ReadonlyRepo ℕ) :=
  fork [.addNode (person 1 "a")] [.tombstoneNode 1 "gone"] [.addNode (person 2 "b")]

/-- The detector reports the person that only one branch touched. -/
theorem tombstonedAndLeft_reports : ∃ (w : World shortHashing) (left right base : ℕ)
    (lv rv : View ℕ) (mc : MergeConflicts ℕ),
    detectConflictsWithViews w left right (some base) lv rv {} = .ok mc ∧
      1 ∈ tombstoneSet lv ∧ 1 ∉ tombstoneSet rv ∧
      (∃ rn, nodesOf w.store right = .ok rn ∧ ∃ bn, nodesOf w.store base = .ok bn ∧
        rn.get? 1 = bn.get? 1) ∧
      ∃ c ∈ mc.conflicts, c.nodeId = some 1 := by
  have passed : tombstonedAndLeft.check {} (fun repos w => repos.1.onlyHead fun base =>
      repos.2.1.onlyHead fun left => repos.2.2.onlyHead fun right =>
        Exec.okAnd (detectConflictsWithViews w left right (some base) repos.2.1.view
          repos.2.2.view {}) (fun mc => mc.conflicts.any fun c => c.nodeId = some 1) &&
        ((tombstoneSet repos.2.1.view).contains 1 && !(tombstoneSet repos.2.2.view).contains 1) &&
        (Exec.okAnd (nodesOf w.store right) fun rn => Exec.okAnd (nodesOf w.store base) fun bn =>
          decide (rn.get? 1 = bn.get? 1))) = true := by decide +kernel
  obtain ⟨⟨b, l, r⟩, w, -, passed⟩ := Exec.exists_of_check passed
  obtain ⟨base, -, passed⟩ := ReadonlyRepo.exists_of_onlyHead passed
  obtain ⟨left, -, passed⟩ := ReadonlyRepo.exists_of_onlyHead passed
  obtain ⟨right, -, passed⟩ := ReadonlyRepo.exists_of_onlyHead passed
  simp only [Bool.and_eq_true] at passed
  obtain ⟨⟨reported, onLeft, offRight⟩, trees⟩ := passed
  obtain ⟨mc, ran, entry⟩ := Exec.exists_of_okAnd reported
  obtain ⟨rn, atRight, trees⟩ := Exec.exists_of_okAnd trees
  obtain ⟨bn, atBase, same⟩ := Exec.exists_of_okAnd trees
  refine ⟨w, left, right, base, l.view, r.view, mc, ran, onLeft,
    OrdSet.not_contains_iff.mp offRight, ⟨rn, atRight, bn, atBase, of_decide_eq_true same⟩, ?_⟩
  simpa using entry

theorem detectConflictsWithViews_reports_unchanged : ∃ (w : World shortHashing)
    (left right base : ℕ) (lv rv : View ℕ) (mc : MergeConflicts ℕ) (d : Differing ℕ),
      detectConflictsWithViews w left right (some base) lv rv {} = .ok mc ∧
      ReadsDiffering w left right (some base) d ∧
      ¬ TombstonesExact (tombstoneSet lv) (tombstoneSet rv) d mc.conflicts := by
  obtain ⟨w, left, right, base, lv, rv, mc, ran, onLeft, offRight, ⟨rn, atRight, bn, atBase, same⟩,
    c, member, about⟩ := tombstonedAndLeft_reports
  obtain ⟨d, edges, reads, -⟩ := detectConflictsWithViews_reads ran
  refine ⟨w, left, right, base, lv, rv, mc, d, ran, reads, fun agrees => ?_⟩
  have rightTree : d.right = rn := Except.ok.inj (reads.right.symm.trans atRight)
  have baseTree : d.base = bn := Except.ok.inj (reads.base.symm.trans atBase)
  have unchanged : d.right.get? 1 = d.base.get? 1 := by rw [rightTree, baseTree, same]
  exact agrees.settled 1 (.inr (.inl ⟨onLeft, offRight, unchanged⟩)) c member about

theorem detectConflictsWithViews_exact_iff_left : ∃ (w : World shortHashing)
    (left right base : ℕ) (lv rv : View ℕ) (mc : MergeConflicts ℕ),
      detectConflictsWithViews w left right (some base) lv rv {} = .ok mc ∧
      ∃ d, ReadsDiffering w left right (some base) d ∧
        (TombstonesExact (tombstoneSet lv) (tombstoneSet rv) d mc.conflicts ↔
          ∀ id, Explained (tombstoneSet lv) (tombstoneSet rv) d id ∨
            Unreported (tombstoneSet lv) (tombstoneSet rv) d id) := by
  obtain ⟨w, left, right, base, lv, rv, mc, ran, -⟩ := tombstonedAndLeft_reports
  exact ⟨w, left, right, base, lv, rv, mc, ran, detectConflictsWithViews_exact_iff ran⟩

end Mnem.Repo
