/-
# Repo.ThreeWay — merging two branches

`merge_three_way` finds the lowest common ancestor of two commits, returns the
later one if one is the other's ancestor, runs the conflict detector on a
repository that is synthesised for it, and then either reports the conflicts or
writes a merge commit.  The trees of that commit are unions, which do not
consult the base: at a key that both sides have, the strategy picks.
-/
import Mnem.Repo.Merge
import Mnem.Repo.Conflict

namespace Mnem.Repo

open Theory Theory.Groups Prolly Index

set_option autoImplicit false
set_option linter.unusedSectionVars false

variable {Cid : Type} {H : Hashing Cid} [LinearOrder Cid]

inductive MergeStrategy where
  | manual
  | ours
  | theirs
  deriving DecidableEq

inductive MergeOutcome (Cid : Type) where
  | fastForward (cid : Cid)
  | clean (cid : Cid)
  | conflicts (record : MergeConflicts Cid)

/-! ## Trees by strategy -/

/-- The side that wins a key at which both have a value. -/
def MergeStrategy.pick : MergeStrategy → Cid → Cid → Cid
  | .ours, l, _ => l
  | .theirs, _, r => r
  | .manual, l, r => if r ≤ l then l else r

/-- The value of a merged tree at a key. -/
def MergeStrategy.choose (strategy : MergeStrategy) : Option Cid → Option Cid → Option Cid
  | some l, some r => if l = r then some l else some (strategy.pick l r)
  | some l, none => some l
  | none, some r => some r
  | none, none => none

/-- The entries of the merged tree. -/
def strategyMap (strategy : MergeStrategy) (left right : OrdMap ProllyKey Cid) :
    OrdMap ProllyKey Cid :=
  (allKeys left right).keys.foldl (fun merged k =>
    match strategy.choose (left.get? k) (right.get? k) with
    | some winner => merged.insert k winner
    | none => merged) OrdMap.empty

/-- The keys at which the sides differ. -/
def strategyConflicts (left right : OrdMap ProllyKey Cid) : OrdMap ProllyKey (List Cid) :=
  (allKeys left right).keys.foldl (fun conflicts k =>
    match left.get? k, right.get? k with
    | some l, some r => if l = r then conflicts else conflicts.insert k (sortDedup [l, r])
    | _, _ => conflicts) OrdMap.empty

def strategyUnionProllyTrees (leftRoot rightRoot : Cid) (strategy : MergeStrategy) :
    StoreM H (UnionOutcome Cid) := do
  let left ← Exec.read fun s => collectProlly s leftRoot
  let right ← Exec.read fun s => collectProlly s rightRoot
  let root ← buildTree (strategyMap strategy left right).entries
  return ⟨root, strategyConflicts left right⟩

/-- The commit that merges two parents into trees that are already there. -/
def buildMergeCommitFromTrees (left right : Cid × Commit Cid) (nodes edges : Cid) :
    StoreM H Cid := do
  let schema := if left.1 ≤ right.1 then left.2.schema else right.2.schema
  let idx ← mergedIndexes [left.2, right.2] nodes edges
  putObject (mergeCommitOf H [left, right] schema nodes edges idx OrdMap.empty)

/-! ## The merge -/

def detectionView (commit : Cid) : View Cid := { heads := [commit] }

def detectionOperation (viewCid : Cid) : Operation Cid :=
  { view := viewCid, author := mergeAuthor, time := 0, description := "merge-detect" }

/-- A repository at a commit, for the detector: a view and an operation are written for it. -/
def buildDetectionRepo (commit : Cid) : StoreM H (ReadonlyRepo Cid) := do
  let viewCid ← putObject (detectionView commit)
  let opCid ← putObject (detectionOperation viewCid)
  Exec.read fun s => ReadonlyRepo.loadAt s opCid

/-- The two commits, and the conflicts that the detector finds with empty views. -/
def detectForMerge (left right lca : Cid) :
    StoreM H (Commit Cid × Commit Cid × MergeConflicts Cid) := do
  let leftCommit ← Exec.read fun s => s.decodeFromStore (Commit Cid) left
  let rightCommit ← Exec.read fun s => s.decodeFromStore (Commit Cid) right
  let _ ← buildDetectionRepo left
  let mc ← Exec.read fun s =>
    detectConflictsWithViews { store := s } left right (some lca) {} {} {}
  return (leftCommit, rightCommit, mc)

/-- Write the merge commit: by the strategy where it can make a difference, by the plain
union otherwise. -/
def writeMergeCommit (left right : Cid × Commit Cid) (strategy : MergeStrategy)
    (conflicting : Bool) : StoreM H Cid := do
  if strategy ≠ .manual ∧
      (conflicting ∨ left.2.nodes ≠ right.2.nodes ∨ left.2.edges ≠ right.2.edges) then
    let nodes ← strategyUnionProllyTrees left.2.nodes right.2.nodes strategy
    let edges ← strategyUnionProllyTrees left.2.edges right.2.edges strategy
    buildMergeCommitFromTrees left right nodes.root edges.root
  else
    match ← buildMergeCommit [some left, some right] with
    | some cid => pure cid
    | none => throw .noCommonAncestor

/-- The merge of two commits that are no ancestors of each other. -/
def mergeDiverged (left right lca : Cid) (strategy : MergeStrategy) :
    StoreM H (MergeOutcome Cid) := do
  let (leftCommit, rightCommit, mc) ← detectForMerge left right lca
  if !mc.conflicts.isEmpty ∧ strategy = .manual then return .conflicts mc
  else do
    let cid ← writeMergeCommit (left, leftCommit) (right, rightCommit) strategy
      (!mc.conflicts.isEmpty)
    return .clean cid

def mergeThreeWay (left right : Cid) (strategy : MergeStrategy) : StoreM H (MergeOutcome Cid) := do
  match ← Exec.read fun s => findCommitLca s left right with
  | none => throw .noCommonAncestor
  | some lca =>
      if lca = right then return .fastForward left
      else if lca = left then return .fastForward right
      else mergeDiverged left right lca strategy

/-! ## What the strategies build -/

section Trees

variable {strategy : MergeStrategy} {left right : OrdMap ProllyKey Cid}

theorem get?_strategyMap (k : ProllyKey) :
    (strategyMap strategy left right).get? k = strategy.choose (left.get? k) (right.get? k) := by
  refine (OrdMap.get?_foldl_insert (fun k => strategy.choose (left.get? k) (right.get? k))
    (allKeys left right).keys OrdMap.empty k).trans ?_
  simp only [mem_allKeys, OrdMap.get?_empty, Option.or_none]
  split
  · rfl
  · rename_i absent
    cases atLeft : left.get? k with
    | some l => simp [atLeft] at absent
    | none =>
        cases atRight : right.get? k with
        | some r => simp [atRight] at absent
        | none => rfl

@[simp] theorem MergeStrategy.choose_self (v : Option Cid) : strategy.choose v v = v := by
  cases v with
  | none => rfl
  | some c => exact if_pos rfl

theorem strategyMap_self (m : OrdMap ProllyKey Cid) : strategyMap strategy m m = m := by
  ext k : 1
  rw [get?_strategyMap, MergeStrategy.choose_self]

/-- The plain union of two trees is the union by the manual strategy. -/
theorem unionMap_pair (left right : OrdMap ProllyKey Cid) :
    unionMap [left, right] = strategyMap .manual left right := by
  ext k w
  rw [get?_unionMap, get?_strategyMap, Winner]
  have values : {v | ∃ m ∈ [left, right], m.get? k = some v} =
      {v | left.get? k = some v ∨ right.get? k = some v} := by
    ext v
    simp
  have alone : ∀ v : Cid, IsGreatest {v' | v = v'} w ↔ v = w := fun v => by
    rw [Set.ofPred_eq_eq_singleton']
    exact ⟨fun h => isGreatest_singleton.unique h, fun h => h ▸ isGreatest_singleton⟩
  rw [values]
  cases left.get? k with
  | none =>
      cases right.get? k with
      | none => simp [MergeStrategy.choose, IsGreatest]
      | some r => simpa [MergeStrategy.choose] using alone r
  | some l =>
      cases right.get? k with
      | none => simpa [MergeStrategy.choose] using alone l
      | some r =>
          have pair : {v | some l = some v ∨ some r = some v} = {l, r} := by
            ext v
            simp [eq_comm]
          have greatest : IsGreatest {l, r} (max l r) := isGreatest_pair
          rw [pair]
          have picked : MergeStrategy.manual.choose (some l) (some r) = some (max l r) := by
            unfold MergeStrategy.choose MergeStrategy.pick
            dsimp only
            split
            · rename_i same
              rw [same, max_self]
            · rw [max_def']
          rw [picked, Option.some.injEq]
          exact ⟨fun h => greatest.unique h, fun h => h ▸ greatest⟩

variable {s : Store H} {leftRoot rightRoot : Cid}

theorem strategyUnionProllyTrees_succeeds (leftTree : IsTree s leftRoot left)
    (rightTree : IsTree s rightRoot right) :
    (strategyUnionProllyTrees leftRoot rightRoot strategy : StoreM H _).Succeeds s fun out s' =>
      out.root = treeRoot H (strategyMap strategy left right).entries ∧ s ≤ s' ∧
        IsTree s' out.root (strategyMap strategy left right) := by
  refine Exec.succeeds_read_bind (collectProlly_of_isTree leftTree) ?_
  refine Exec.succeeds_read_bind (collectProlly_of_isTree rightTree) ?_
  refine Exec.succeeds_bind (buildTree_succeeds _ s) ?_
  rintro root s₁ ⟨written, le, tree⟩
  exact Exec.succeeds_pure ⟨written, le, tree⟩

end Trees

/-! ## The merge commit -/

section MergeCommit

variable {s s' : Store H} {strategy : MergeStrategy} {left right : Cid × Commit Cid}
  {ln rn le re : OrdMap ProllyKey Cid}

/-- The trees of a commit hold these maps. -/
structure HoldsTrees (s : Store H) (commit : Commit Cid) (nodes edges : OrdMap ProllyKey Cid) :
    Prop where
  nodes : IsTree s commit.nodes nodes
  edges : IsTree s commit.edges edges

theorem HoldsTrees.mono {commit : Commit Cid} {nodes edges : OrdMap ProllyKey Cid}
    (holds : HoldsTrees s commit nodes edges) (le : s ≤ s') : HoldsTrees s' commit nodes edges :=
  ⟨holds.nodes.mono le, holds.edges.mono le⟩

theorem HoldsTrees.unique {commit : Commit Cid} {nodes edges nodes' edges' : OrdMap ProllyKey Cid}
    (holds : HoldsTrees s commit nodes edges) (holds' : HoldsTrees s' commit nodes' edges') :
    nodes = nodes' ∧ edges = edges' :=
  ⟨holds.nodes.unique holds'.nodes, holds.edges.unique holds'.edges⟩

/-- The index set that a merge of two commits into some trees gets: that of the first parent
with these trees, or the one that covers them. -/
def IndexChoice (s : Store H) (parents : List (Commit Cid)) (nodes edges : OrdMap ProllyKey Cid)
    (idx : Cid) : Prop :=
  ∀ nodeRows edgeRows, ReadsRows s nodes.entries nodeRows → ReadsRows s edges.entries edgeRows →
    idx = (reusedIndexes parents (treeRoot H nodes.entries) (treeRoot H edges.entries)).getD
      ((contentsOf H nodeRows edgeRows).cid H)

theorem IndexChoice.mono {parents : List (Commit Cid)} {nodes edges : OrdMap ProllyKey Cid}
    {idx : Cid} (choice : IndexChoice s' parents nodes edges idx) (le : s ≤ s') :
    IndexChoice s parents nodes edges idx :=
  fun nodeRows edgeRows nodesRead edgesRead =>
    choice nodeRows edgeRows (nodesRead.mono le) (edgesRead.mono le)

theorem mergedIndexes_returns {parents : List (Commit Cid)} {nodes edges : OrdMap ProllyKey Cid}
    {idx : Cid} (nodeTree : IsTree s (treeRoot H nodes.entries) nodes)
    (edgeTree : IsTree s (treeRoot H edges.entries) edges)
    (ran : (mergedIndexes parents (treeRoot H nodes.entries) (treeRoot H edges.entries) :
      StoreM H Cid).Returns s idx s') : s ≤ s' ∧ IndexChoice s parents nodes edges idx := by
  unfold mergedIndexes at ran
  split at ran
  · rename_i reused found
    obtain ⟨rfl, rfl⟩ := Exec.returns_pure.mp ran
    refine ⟨le_refl s, fun _ _ _ _ => ?_⟩
    rw [reusedIndexes, found]
    rfl
  · rename_i nothing
    refine ⟨(buildIndexSet_grows _ _).of_returns ran, fun nodeRows edgeRows nodesRead edgesRead => ?_⟩
    rw [reusedIndexes, nothing]
    exact ((buildIndexSet_succeeds nodeTree edgeTree nodesRead edgesRead).of_returns ran).1

/-- The schema of a merge of two commits: that of the parent with the smaller CID. -/
def mergedSchema (left right : Cid × Commit Cid) : Cid :=
  if left.1 ≤ right.1 then left.2.schema else right.2.schema

theorem parentPairs_pair (left right : Cid × Commit Cid) :
    parentPairs [left, right] = if left.1 ≤ right.1 then [left, right] else [right, left] := rfl

/-- What a merge commit of two parents is. -/
structure Merged (s s' : Store H) (left right : Cid × Commit Cid)
    (nodes edges : OrdMap ProllyKey Cid) (extra : Props Cid) (cid idx : Cid) : Prop where
  grows : s ≤ s'
  loads : s'.Loads cid (mergeCommitOf H [left, right] (mergedSchema left right)
    (treeRoot H nodes.entries) (treeRoot H edges.entries) idx extra)
  nodeTree : IsTree s' (treeRoot H nodes.entries) nodes
  edgeTree : IsTree s' (treeRoot H edges.entries) edges
  index : IndexChoice s [left.2, right.2] nodes edges idx

theorem buildMergeCommitFromTrees_returns {nodes edges : OrdMap ProllyKey Cid} {cid : Cid}
    (nodeTree : IsTree s (treeRoot H nodes.entries) nodes)
    (edgeTree : IsTree s (treeRoot H edges.entries) edges)
    (ran : (buildMergeCommitFromTrees left right (treeRoot H nodes.entries)
      (treeRoot H edges.entries) : StoreM H Cid).Returns s cid s') :
    ∃ idx, Merged s s' left right nodes edges OrdMap.empty cid idx := by
  obtain ⟨idx, s₁, index, put⟩ := Exec.returns_bind.mp ran
  obtain ⟨le₁, choice⟩ := mergedIndexes_returns nodeTree edgeTree index
  obtain ⟨-, le₂, loads⟩ := putObject_returns put
  have le := le₁.trans le₂
  exact ⟨idx, le, loads, nodeTree.mono le, edgeTree.mono le, choice⟩

/-- The plain union of two commits. -/
theorem buildMergeCommit_pair_returns {out : Option Cid} (distinct : left.1 ≠ right.1)
    (leftHolds : HoldsTrees s left.2 ln le) (rightHolds : HoldsTrees s right.2 rn re)
    (ran : (buildMergeCommit [some left, some right] : StoreM H _).Returns s out s') :
    ∃ cid idx, out = some cid ∧ Merged s s' left right (strategyMap .manual ln rn)
      (strategyMap .manual le re)
      (conflictExtra (unionConflictMap [ln, rn]) (unionConflictMap [le, re])) cid idx := by
  unfold buildMergeCommit at ran
  dsimp only [List.filterMap_cons, id, List.filterMap_nil] at ran
  rw [if_neg (by simpa using Ne.symm distinct)] at ran
  obtain ⟨⟨nodes, nodeConflicts⟩, s₁, unionNodes, ran⟩ := Exec.returns_bind.mp ran
  obtain ⟨⟨edges, edgeConflicts⟩, s₂, unionEdges, ran⟩ := Exec.returns_bind.mp ran
  obtain ⟨idx, s₃, index, ran⟩ := Exec.returns_bind.mp ran
  obtain ⟨cid, s₄, put, done⟩ := Exec.returns_bind.mp ran
  obtain ⟨rfl, rfl⟩ := Exec.returns_pure.mp done
  have nodeTrees : List.Forall₂ (IsTree s) [left.2.nodes, right.2.nodes] [ln, rn] :=
    .cons leftHolds.nodes (.cons rightHolds.nodes .nil)
  obtain ⟨rfl, rfl, le₁, nodeTree⟩ := (unionProllyTrees_succeeds nodeTrees).of_returns unionNodes
  have edgeTrees : List.Forall₂ (IsTree s₁) [left.2.edges, right.2.edges] [le, re] :=
    .cons (leftHolds.edges.mono le₁) (.cons (rightHolds.edges.mono le₁) .nil)
  obtain ⟨rfl, rfl, le₂, edgeTree⟩ := (unionProllyTrees_succeeds edgeTrees).of_returns unionEdges
  simp only [unionMap_pair] at nodeTree edgeTree index put
  have nodeTree' := nodeTree.mono le₂
  obtain ⟨le₃, choice⟩ := mergedIndexes_returns nodeTree' edgeTree index
  obtain ⟨-, le₄, loads⟩ := putObject_returns put
  have from₂ := le₃.trans le₄
  have schema : ((parentPairs [left, right]).head?.getD left).2.schema =
      mergedSchema left right := by
    rw [parentPairs_pair, mergedSchema]
    split <;> rfl
  rw [schema] at loads
  exact ⟨cid, idx, rfl, (le₁.trans le₂).trans from₂, loads, nodeTree'.mono from₂,
    edgeTree.mono from₂, choice.mono (le₁.trans le₂)⟩

/-- What is recorded of the keys with several values: nothing by a strategy. -/
def mergedExtra (strategy : MergeStrategy) (ln rn le re : OrdMap ProllyKey Cid) : Props Cid :=
  if strategy = .manual then conflictExtra (unionConflictMap [ln, rn]) (unionConflictMap [le, re])
  else OrdMap.empty

theorem conflictExtra_self (m m' : OrdMap ProllyKey Cid) :
    conflictExtra (unionConflictMap [m, m]) (unionConflictMap [m', m']) =
      (OrdMap.empty : Props Cid) := by
  have none : ∀ m : OrdMap ProllyKey Cid, unionConflictMap [m, m] = OrdMap.empty := by
    intro m
    refine unionConflictMap_eq_empty_iff.mpr fun k a ma b mb v v' found found' => ?_
    obtain rfl : a = m := by simpa using ma
    obtain rfl : b = a := by simpa using mb
    rw [found] at found'
    exact Option.some.inj found'
  rw [none, none]
  rfl

/-- **What the merge commit of two different commits is**, whichever way it is written. -/
theorem writeMergeCommit_returns {conflicting : Bool} {cid : Cid} (distinct : left.1 ≠ right.1)
    (leftHolds : HoldsTrees s left.2 ln le) (rightHolds : HoldsTrees s right.2 rn re)
    (ran : (writeMergeCommit left right strategy conflicting : StoreM H Cid).Returns s cid s') :
    ∃ idx, Merged s s' left right (strategyMap strategy ln rn) (strategyMap strategy le re)
      (mergedExtra strategy ln rn le re) cid idx := by
  unfold writeMergeCommit at ran
  split at ran
  · rename_i chosen
    obtain ⟨nodes, s₁, unionNodes, ran⟩ := Exec.returns_bind.mp ran
    obtain ⟨edges, s₂, unionEdges, ran⟩ := Exec.returns_bind.mp ran
    obtain ⟨nodesRoot, le₁, nodeTree⟩ := (strategyUnionProllyTrees_succeeds leftHolds.nodes
      rightHolds.nodes).of_returns unionNodes
    obtain ⟨edgesRoot, le₂, edgeTree⟩ := (strategyUnionProllyTrees_succeeds
      (leftHolds.edges.mono le₁) (rightHolds.edges.mono le₁)).of_returns unionEdges
    rw [nodesRoot] at nodeTree ran
    rw [edgesRoot] at edgeTree ran
    have merged := buildMergeCommitFromTrees_returns (nodeTree.mono le₂) edgeTree ran
    obtain ⟨idx, le₃, loads, nodes, edges, index⟩ := merged
    rw [mergedExtra, if_neg chosen.1]
    exact ⟨idx, (le₁.trans le₂).trans le₃, loads, nodes, edges, index.mono (le₁.trans le₂)⟩
  · rename_i plain
    obtain ⟨out, s₁, build, ran⟩ := Exec.returns_bind.mp ran
    obtain ⟨cid', idx, rfl, merged⟩ :=
      buildMergeCommit_pair_returns distinct leftHolds rightHolds build
    obtain ⟨rfl, rfl⟩ := Exec.returns_pure.mp ran
    by_cases manual : strategy = .manual
    · subst manual
      exact ⟨idx, merged⟩
    · -- the two commits have the same trees, so every strategy builds these
      have same : left.2.nodes = right.2.nodes ∧ left.2.edges = right.2.edges := by
        simp only [not_and, not_or, not_not] at plain
        exact (plain manual).2
      obtain ⟨rfl, rfl⟩ : ln = rn ∧ le = re :=
        leftHolds.unique ⟨same.1 ▸ rightHolds.nodes, same.2 ▸ rightHolds.edges⟩
      rw [conflictExtra_self] at merged
      rw [mergedExtra, if_neg manual]
      simp only [strategyMap_self] at merged ⊢
      exact ⟨idx, merged.grows, merged.loads, merged.nodeTree, merged.edgeTree, merged.index⟩

end MergeCommit

/-! ## What a merge does -/

section Run

variable {s s' : Store H} {left right : Cid} {strategy : MergeStrategy}

/-- The store after the detector's repository was written. -/
def detectionStore (s : Store H) (commit : Cid) : Store H :=
  (s.insert (.view (detectionView commit)) rfl).insert
    (.operation (detectionOperation (H.cidOf (.view (detectionView commit))))) rfl

theorem le_detectionStore (s : Store H) (commit : Cid) : s ≤ detectionStore s commit :=
  (s.le_insert _ _).trans (Store.le_insert _ _ _)

theorem buildDetectionRepo_returns {commit : Cid} {r : ReadonlyRepo Cid}
    (ran : (buildDetectionRepo commit : StoreM H _).Returns s r s') :
    s' = detectionStore s commit := by
  obtain ⟨viewCid, s₁, putView, ran⟩ := Exec.returns_bind.mp ran
  obtain ⟨opCid, s₂, putOp, load⟩ := Exec.returns_bind.mp ran
  obtain ⟨-, rfl⟩ := Exec.returns_read.mp load
  cases Exec.returns_update.mp putView
  cases Exec.returns_update.mp putOp
  rfl

/-- Two commits that are no ancestors of each other, as the detector reads them. -/
structure Diverged (s : Store H) (left right lca : Cid) (l r b : Commit Cid) (sides : Sides Cid) :
    Prop where
  ancestor : findCommitLca s left right = .ok (some lca)
  notRight : lca ≠ right
  notLeft : lca ≠ left
  leftLoads : s.Loads left l
  rightLoads : s.Loads right r
  lcaLoads : (detectionStore s left).Loads lca b
  reads : ReadsSides (detectionStore s left) l r b sides

theorem Diverged.distinct {lca : Cid} {l r b : Commit Cid} {sides : Sides Cid}
    (diverged : Diverged s left right lca l r b sides) : left ≠ right := by
  rintro rfl
  have ancestor := diverged.ancestor
  rw [findCommitLca, if_pos rfl] at ancestor
  exact diverged.notLeft (Option.some.inj (Except.ok.inj ancestor)).symm

/-- Everything a merge that returns can have done. -/
inductive MergeRun (s : Store H) (left right : Cid) (strategy : MergeStrategy) :
    MergeOutcome Cid → Store H → Prop where
  | keepLeft (lca : findCommitLca s left right = .ok (some right)) :
      MergeRun s left right strategy (.fastForward left) s
  | takeRight (lca : findCommitLca s left right = .ok (some left)) :
      MergeRun s left right strategy (.fastForward right) s
  | conflicts {lca : Cid} {l r b : Commit Cid} {sides : Sides Cid}
      (diverged : Diverged s left right lca l r b sides) (manual : strategy = .manual)
      (found : foundConflicts {} left right sides ≠ []) :
      MergeRun s left right strategy (.conflicts (recordOf {} left right lca sides))
        (detectionStore s left)
  | clean {lca : Cid} {l r b : Commit Cid} {sides : Sides Cid}
      (diverged : Diverged s left right lca l r b sides)
      (passed : strategy = .manual → foundConflicts {} left right sides = []) {cid : Cid}
      {s' : Store H}
      (wrote : (writeMergeCommit (left, l) (right, r) strategy
        (!(recordOf {} left right lca sides).conflicts.isEmpty) : StoreM H Cid).Returns
          (detectionStore s left) cid s') :
      MergeRun s left right strategy (.clean cid) s'

theorem detectForMerge_returns {lca : Cid} {out : Commit Cid × Commit Cid × MergeConflicts Cid}
    (ran : (detectForMerge left right lca : StoreM H _).Returns s out s') :
    s' = detectionStore s left ∧ s.Loads left out.1 ∧ s.Loads right out.2.1 ∧
      ∃ b sides, s'.Loads lca (b : Commit Cid) ∧ ReadsSides s' out.1 out.2.1 b sides ∧
        out.2.2 = recordOf {} left right lca sides := by
  obtain ⟨l, s₁, readLeft, ran⟩ := Exec.returns_bind.mp ran
  obtain ⟨r, s₂, readRight, ran⟩ := Exec.returns_bind.mp ran
  obtain ⟨repo, s₃, build, ran⟩ := Exec.returns_bind.mp ran
  obtain ⟨mc, s₄, detect, done⟩ := Exec.returns_bind.mp ran
  obtain ⟨rfl, rfl⟩ := Exec.returns_pure.mp done
  obtain ⟨decodedLeft, rfl⟩ := Exec.returns_read.mp readLeft
  obtain ⟨decodedRight, rfl⟩ := Exec.returns_read.mp readRight
  have leftLoads : s.Loads left l := decodedLeft
  have rightLoads : s.Loads right r := decodedRight
  obtain rfl := buildDetectionRepo_returns build
  obtain ⟨detected, rfl⟩ := Exec.returns_read.mp detect
  obtain ⟨l', r', b, sides, leftLoads', rightLoads', lcaLoads, reads, rfl⟩ :=
    detectConflictsWithViews_eq_ok.mp detected
  have le := le_detectionStore s left
  obtain rfl := (leftLoads.mono le).unique leftLoads'
  obtain rfl := (rightLoads.mono le).unique rightLoads'
  exact ⟨rfl, leftLoads, rightLoads, b, sides, lcaLoads, reads, rfl⟩

theorem sortConflicts_isEmpty {conflicts : List (Conflict Cid)} :
    (sortConflicts conflicts).isEmpty = true ↔ conflicts = [] := by
  rw [List.isEmpty_iff]
  constructor
  · intro sorted
    refine List.eq_nil_iff_forall_not_mem.mpr fun c m => ?_
    have member := mem_sortConflicts.mpr m
    rw [sorted] at member
    cases member
  · rintro rfl
    rfl

/-- **What a merge can do**, said once. -/
theorem mergeThreeWay_returns {out : MergeOutcome Cid}
    (ran : (mergeThreeWay left right strategy : StoreM H _).Returns s out s') :
    MergeRun s left right strategy out s' := by
  obtain ⟨lca, s₁, read, ran⟩ := Exec.returns_bind.mp ran
  obtain ⟨found, rfl⟩ := Exec.returns_read.mp read
  cases lca with
  | none => exact absurd ran Exec.returns_throw
  | some lca =>
      dsimp only at ran
      split at ran
      · rename_i atRight
        obtain ⟨rfl, rfl⟩ := Exec.returns_pure.mp ran
        exact .keepLeft (atRight ▸ found)
      · rename_i notRight
        split at ran
        · rename_i atLeft
          obtain ⟨rfl, rfl⟩ := Exec.returns_pure.mp ran
          exact .takeRight (atLeft ▸ found)
        · rename_i notLeft
          obtain ⟨⟨l, r, mc⟩, s₂, detect, ran⟩ := Exec.returns_bind.mp ran
          obtain ⟨rfl, leftLoads, rightLoads, b, sides, lcaLoads, reads, rfl⟩ :=
            detectForMerge_returns detect
          have diverged : Diverged s left right lca l r b sides :=
            ⟨found, notRight, notLeft, leftLoads, rightLoads, lcaLoads, reads⟩
          have empty : (recordOf {} left right lca sides).conflicts.isEmpty = true ↔
              foundConflicts {} left right sides = [] := sortConflicts_isEmpty
          dsimp only at ran
          split at ran
          · rename_i stop
            obtain ⟨rfl, rfl⟩ := Exec.returns_pure.mp ran
            refine .conflicts diverged stop.2 fun none => ?_
            rw [empty.mpr none] at stop
            exact absurd stop.1 (by decide)
          · rename_i goOn
            obtain ⟨cid, s₃, wrote, done⟩ := Exec.returns_bind.mp ran
            obtain ⟨rfl, rfl⟩ := Exec.returns_pure.mp done
            refine .clean diverged (fun manual => ?_) wrote
            by_contra some
            exact goOn ⟨by simpa [Bool.not_eq_true] using fun h => some (empty.mp h), manual⟩

end Run

/-! ## A merge only adds -/

theorem strategyUnionProllyTrees_grows (left right : Cid) (strategy : MergeStrategy) :
    Exec.Grows (strategyUnionProllyTrees left right strategy : StoreM H _) :=
  Exec.grows_bind (Exec.grows_read _) fun _ => Exec.grows_bind (Exec.grows_read _) fun _ =>
    Exec.grows_bind (buildTree_grows _) fun _ => Exec.grows_pure _

theorem writeMergeCommit_grows (left right : Cid × Commit Cid) (strategy : MergeStrategy)
    (conflicting : Bool) :
    Exec.Grows (writeMergeCommit left right strategy conflicting : StoreM H Cid) := by
  unfold writeMergeCommit
  split
  · exact Exec.grows_bind (strategyUnionProllyTrees_grows _ _ _) fun _ =>
      Exec.grows_bind (strategyUnionProllyTrees_grows _ _ _) fun _ =>
      Exec.grows_bind (mergedIndexes_grows _ _ _) fun _ => putObject_grows _
  · refine Exec.grows_bind (buildMergeCommit_grows _) fun out => ?_
    cases out with
    | some cid => exact Exec.grows_pure cid
    | none => exact Exec.grows_throw _

theorem MergeRun.grows {s s' : Store H} {left right : Cid} {strategy : MergeStrategy}
    {out : MergeOutcome Cid} (run : MergeRun s left right strategy out s') : s ≤ s' := by
  cases run with
  | keepLeft _ => exact le_refl s
  | takeRight _ => exact le_refl s
  | conflicts _ _ _ => exact le_detectionStore s left
  | clean _ _ wrote =>
      exact (le_detectionStore s left).trans ((writeMergeCommit_grows _ _ _ _).of_returns wrote)

end Mnem.Repo
