/-
# Repo.Convergence — one merge commit on every path

Two branches whose conflict detection is empty can be merged by each strategy,
in either order, and by the plain union of the operation-head path.  All of
these write the same commit exactly when the two sides agree wherever both have
a value (`Converges`): the unions do not consult the base, so a key that one
side changed is a divergence for them though the detector calls it clean.  A
fast-forward has no merge commit at all.
-/
import Mnem.Repo.ThreeWayLaw

namespace Mnem.Repo

open Theory Theory.Groups Prolly Index

set_option autoImplicit false
set_option linter.unusedSectionVars false

variable {Cid : Type} {H : Hashing Cid} [LinearOrder Cid]

/-! ## Either order -/

section Swap

variable {s : Store H} {left right : Cid}

theorem findCommitLca_swap {lca : Option Cid} (found : findCommitLca s left right = .ok lca) :
    findCommitLca s right left = .ok lca := by
  unfold findCommitLca at found ⊢
  by_cases same : left = right
  · rw [if_pos same] at found
    rw [if_pos same.symm, ← same]
    exact found
  · rw [if_neg same] at found
    rw [if_neg (Ne.symm same)]
    obtain ⟨leftAnc, leftRan, found⟩ := Exec.bind_eq_ok.mp found
    obtain ⟨rightAnc, rightRan, found⟩ := Exec.bind_eq_ok.mp found
    refine Exec.bind_eq_ok.mpr ⟨rightAnc, rightRan, Exec.bind_eq_ok.mpr ⟨leftAnc, leftRan, ?_⟩⟩
    have common : (rightAnc.filterKeys fun c => c ∈ leftAnc : OrdSet Cid) =
        leftAnc.filterKeys fun c => c ∈ rightAnc := by
      refine OrdSet.ext_mem fun c => ?_
      simp only [OrdSet.mem_filterKeys, decide_eq_true_eq]
      exact and_comm
    rw [common]
    exact found

theorem NodeDiverges.swap {l r b : Option Cid} (diverges : NodeDiverges l r b) :
    NodeDiverges r l b := by
  obtain ⟨lc, rc, atLeft, atRight, differ, notLeft, notRight⟩ := diverges
  exact ⟨rc, lc, atRight, atLeft, Ne.symm differ, notRight, notLeft⟩

theorem propsEq_comm (p q : Props Cid) : propsEq p q = propsEq q p := Ipld.eqMap_comm _ _

theorem EdgeCollides.swap {l r b : Option (Props Cid)} (collides : EdgeCollides l r b) :
    EdgeCollides r l b := by
  obtain ⟨lp, rp, atLeft, atRight, differ, changed⟩ := collides
  rw [propsEq_comm] at differ
  exact ⟨rp, lp, atRight, atLeft, differ, fun p atBase => (changed p atBase).symm⟩

def Sides.swap (sides : Sides Cid) : Sides Cid where
  leftNodes := sides.rightNodes
  rightNodes := sides.leftNodes
  baseNodes := sides.baseNodes
  leftEdges := sides.rightEdges
  rightEdges := sides.leftEdges
  baseEdges := sides.baseEdges

theorem ReadsSides.swap {l r b : Commit Cid} {sides : Sides Cid} (reads : ReadsSides s l r b sides) :
    ReadsSides s r l b sides.swap where
  leftNodes := reads.rightNodes
  rightNodes := reads.leftNodes
  baseNodes := reads.baseNodes
  leftEdges := reads.rightEdges
  rightEdges := reads.leftEdges
  baseEdges := reads.baseEdges

/-- The detector finds something in one order if it does in the other. -/
theorem foundConflicts_swap {policy : ConflictPolicy} {sides : Sides Cid}
    (nothing : foundConflicts policy left right sides = []) :
    foundConflicts policy right left sides.swap = [] := by
  obtain ⟨nodes, edges⟩ := foundConflicts_eq_nil.mp nothing
  exact foundConflicts_eq_nil.mpr ⟨fun k diverges => nodes k diverges.swap,
    fun key collides => edges key collides.swap⟩

end Swap

/-! ## Trees on which all strategies agree -/

/-- Wherever both maps have a value, it is one value. -/
def Agreeing (left right : OrdMap ProllyKey Cid) : Prop :=
  ∀ k a b, left.get? k = some a → right.get? k = some b → a = b

section Agree

variable {strategy : MergeStrategy} {left right : OrdMap ProllyKey Cid}

theorem Agreeing.swap (agree : Agreeing left right) : Agreeing right left :=
  fun k a b atRight atLeft => (agree k b a atLeft atRight).symm

theorem MergeStrategy.choose_of_agree {l r : Option Cid}
    (agree : ∀ a b, l = some a → r = some b → a = b) : strategy.choose l r = l.or r := by
  cases l with
  | none => cases r <;> rfl
  | some a =>
      cases r with
      | none => rfl
      | some b =>
          obtain rfl := agree a b rfl rfl
          exact strategy.choose_self (some a)

/-- The tree that every strategy builds of two agreeing ones. -/
theorem get?_strategyMap_of_agree (agree : Agreeing left right) (k : ProllyKey) :
    (strategyMap strategy left right).get? k = (left.get? k).or (right.get? k) := by
  rw [get?_strategyMap]
  exact MergeStrategy.choose_of_agree (agree k)

theorem strategyMap_of_agree (agree : Agreeing left right) :
    strategyMap strategy left right = strategyMap .manual left right := by
  ext k : 1
  rw [get?_strategyMap_of_agree agree, get?_strategyMap_of_agree agree]

/-- The plain union does not depend on the order. -/
theorem strategyMap_manual_swap (left right : OrdMap ProllyKey Cid) :
    strategyMap .manual left right = strategyMap .manual right left := by
  rw [← unionMap_pair, ← unionMap_pair]
  refine unionMap_congr fun m => ?_
  simp only [List.mem_cons, List.not_mem_nil, or_false]
  exact or_comm

/-- The strategies that take opposite sides build one tree only of agreeing ones. -/
theorem agreeing_of_strategyMap (same : strategyMap .ours left right = strategyMap .theirs left right) :
    Agreeing left right := by
  intro k a b atLeft atRight
  have at_k := congrArg (fun m => m.get? k) same
  simp only [get?_strategyMap, atLeft, atRight] at at_k
  by_contra differ
  simp only [MergeStrategy.choose, if_neg differ, MergeStrategy.pick] at at_k
  exact differ (Option.some.inj at_k)

theorem agreeing_iff : Agreeing left right ↔ unionConflictMap [left, right] = OrdMap.empty := by
  refine Iff.trans ?_ unionConflictMap_eq_empty_iff.symm
  constructor
  · intro agree k m inPair m' inPair' v v' found found'
    simp only [List.mem_cons, List.not_mem_nil, or_false] at inPair inPair'
    rcases inPair with rfl | rfl <;> rcases inPair' with rfl | rfl
    · exact Option.some.inj (found.symm.trans found')
    · exact agree k v v' found found'
    · exact (agree k v' v found' found).symm
    · exact Option.some.inj (found.symm.trans found')
  · intro all k a b atLeft atRight
    exact all k left (by simp) right (by simp) a b atLeft atRight

theorem mergedExtra_of_agree {le re : OrdMap ProllyKey Cid} (nodes : Agreeing left right)
    (edges : Agreeing le re) : mergedExtra strategy left right le re = OrdMap.empty := by
  unfold mergedExtra
  split
  · rw [agreeing_iff.mp nodes, agreeing_iff.mp edges]
    rfl
  · rfl

end Agree

/-! ## The merge commit can always be written -/

section Writes

variable {s : Store H} {strategy : MergeStrategy} {left right : Cid × Commit Cid}
  {gl gr : Graph Cid}

theorem CommitHolds.holdsTrees {p : Cid × Commit Cid} {h : Cid × Graph Cid}
    (holds : CommitHolds s p h) : HoldsTrees s p.2 h.2.nodes h.2.edges :=
  ⟨holds.stands.nodes.tree, holds.stands.edges.tree⟩

theorem CommitHolds.mono {s' : Store H} {p : Cid × Commit Cid} {h : Cid × Graph Cid}
    (holds : CommitHolds s p h) (le : s ≤ s') : CommitHolds s' p h :=
  ⟨holds.cid, holds.loads.mono le, holds.stands.mono le⟩

/-- What a strategy builds comes from one of the two. -/
theorem source_of_strategyMap {m₁ m₂ : OrdMap ProllyKey Cid} {k : ProllyKey} {cid : Cid}
    (found : (strategyMap strategy m₁ m₂).get? k = some cid) :
    m₁.get? k = some cid ∨ m₂.get? k = some cid := by
  rw [get?_strategyMap] at found
  cases atLeft : m₁.get? k with
  | none =>
      cases atRight : m₂.get? k with
      | none => simp [atLeft, atRight, MergeStrategy.choose] at found
      | some b => simpa [atLeft, atRight, MergeStrategy.choose] using found
  | some a =>
      cases atRight : m₂.get? k with
      | none => simpa [atLeft, atRight, MergeStrategy.choose] using found
      | some b =>
          rw [atLeft, atRight] at found
          unfold MergeStrategy.choose at found
          dsimp only at found
          split at found
          · exact .inl found
          · cases strategy with
            | ours => exact .inl found
            | theirs => exact .inr found
            | manual =>
                simp only [MergeStrategy.pick] at found
                split at found
                · exact .inl found
                · exact .inr found

/-- Objects filed in two maps are filed in the tree that a strategy builds. -/
theorem table_strategyMap {α : Type} [Object Cid α] {idOf : α → ProllyKey} {r₁ r₂ root : Cid}
    {m₁ m₂ : OrdMap ProllyKey Cid} (first : Table idOf s r₁ m₁) (second : Table idOf s r₂ m₂)
    (tree : IsTree s root (strategyMap strategy m₁ m₂)) :
    Table idOf s root (strategyMap strategy m₁ m₂) := by
  refine ⟨tree, fun k cid found => ?_⟩
  rcases source_of_strategyMap found with atLeft | atRight
  · exact first.filed k cid atLeft
  · exact second.filed k cid atRight

theorem exists_rows_strategyMap (strategy : MergeStrategy) {α : Type} [Object Cid α]
    {idOf : α → ProllyKey} {r₁ r₂ : Cid} {m₁ m₂ : OrdMap ProllyKey Cid} (first : Table idOf s r₁ m₁) (second : Table idOf s r₂ m₂) :
    ∃ rows : List (Row Cid α), ReadsRows s (strategyMap strategy m₁ m₂).entries rows := by
  refine exists_rows fun e m => ?_
  rcases source_of_strategyMap ((OrdMap.get?_eq_some_iff _).mpr m) with atLeft | atRight
  · obtain ⟨a, loads, -⟩ := first.filed _ _ atLeft
    exact ⟨a, loads⟩
  · obtain ⟨a, loads, -⟩ := second.filed _ _ atRight
    exact ⟨a, loads⟩

/-- Merging two stored commits into two trees that are there returns. -/
theorem buildMergeCommitFromTrees_succeeds {nodes edges : Cid} {g : Graph Cid}
    (leftHolds : CommitHolds s left (left.1, gl)) (rightHolds : CommitHolds s right (right.1, gr))
    (nodeTable : NodeTable s nodes g.nodes) (edgeTable : EdgeTable s edges g.edges) :
    (buildMergeCommitFromTrees left right nodes edges : StoreM H Cid).Succeeds s
      fun _ _ => True := by
  have parents : List.Forall₂ (CommitHolds s) [left, right] [(left.1, gl), (right.1, gr)] :=
    .cons leftHolds (.cons rightHolds .nil)
  refine Exec.succeeds_bind (mergedIndexes_succeeds parents nodeTable edgeTable) ?_
  rintro idx s₁ -
  refine (putObject_succeeds ?_ s₁).mono fun _ _ _ => trivial
  rfl

/-- Writing the merge commit of two different stored commits returns. -/
theorem writeMergeCommit_succeeds {conflicting : Bool}
    (leftHolds : CommitHolds s left (left.1, gl)) (rightHolds : CommitHolds s right (right.1, gr)) :
    (writeMergeCommit left right strategy conflicting : StoreM H Cid).Succeeds s
      fun _ _ => True := by
  unfold writeMergeCommit
  split
  · refine Exec.succeeds_bind (strategyUnionProllyTrees_succeeds leftHolds.stands.nodes.tree
      rightHolds.stands.nodes.tree) ?_
    rintro nodes s₁ ⟨-, le₁, nodeTree⟩
    refine Exec.succeeds_bind (strategyUnionProllyTrees_succeeds
      (leftHolds.stands.edges.tree.mono le₁) (rightHolds.stands.edges.tree.mono le₁)) ?_
    rintro edges s₂ ⟨-, le₂, edgeTree⟩
    have le := le₁.trans le₂
    let merged : Graph Cid := { nodes := strategyMap strategy gl.nodes gr.nodes,
                                edges := strategyMap strategy gl.edges gr.edges }
    have nodeTable : NodeTable s₂ nodes.root merged.nodes := table_strategyMap
      (leftHolds.stands.nodes.mono le) (rightHolds.stands.nodes.mono le) (nodeTree.mono le₂)
    have edgeTable : EdgeTable s₂ edges.root merged.edges := table_strategyMap
      (leftHolds.stands.edges.mono le) (rightHolds.stands.edges.mono le) edgeTree
    exact buildMergeCommitFromTrees_succeeds (leftHolds.mono le) (rightHolds.mono le) nodeTable
      edgeTable
  · have parents : List.Forall₂ (CommitHolds s) ([some left, some right].filterMap id)
        [(left.1, gl), (right.1, gr)] := .cons leftHolds (.cons rightHolds .nil)
    refine Exec.succeeds_bind (buildMergeCommit_succeeds parents) ?_
    rintro out s₁ ⟨-, result, -⟩
    cases result with
    | empty nothing => cases nothing
    | same _ _ _ _ => exact Exec.succeeds_pure trivial
    | union _ _ _ _ _ _ _ _ => exact Exec.succeeds_pure trivial

end Writes

/-! ## A detection that finds nothing -/

section Passes

variable {s : Store H} {strategy : MergeStrategy} {left right base : Cid} {l r b : Commit Cid}
  {gl gr gb : Graph Cid}

/-- Two stored commits and their stored lowest common ancestor. -/
structure Pair (s : Store H) (left right base : Cid) (l r b : Commit Cid) (gl gr gb : Graph Cid) :
    Prop where
  ancestor : findCommitLca s left right = .ok (some base)
  atLeft : CommitHolds s (left, l) (left, gl)
  atRight : CommitHolds s (right, r) (right, gr)
  atBase : CommitHolds s (base, b) (base, gb)

theorem Pair.swap (pair : Pair s left right base l r b gl gr gb) :
    Pair s right left base r l b gr gl gb :=
  ⟨findCommitLca_swap pair.ancestor, pair.atRight, pair.atLeft, pair.atBase⟩

/-- What the detector reads of stored commits, in every later store. -/
theorem Pair.exists_sides (pair : Pair s left right base l r b gl gr gb) :
    ∃ sides, ∀ s', s ≤ s' → ReadsSides s' l r b sides := by
  obtain ⟨leftRows, leftReads, -⟩ := pair.atLeft.stands.edges.rows
  obtain ⟨rightRows, rightReads, -⟩ := pair.atRight.stands.edges.rows
  obtain ⟨baseRows, baseReads, -⟩ := pair.atBase.stands.edges.rows
  refine ⟨⟨gl.nodes, gr.nodes, gb.nodes, edgeProps leftRows, edgeProps rightRows,
    edgeProps baseRows⟩, fun s' le => ?_⟩
  exact {
    leftNodes := collectProlly_of_isTree (pair.atLeft.stands.nodes.tree.mono le)
    rightNodes := collectProlly_of_isTree (pair.atRight.stands.nodes.tree.mono le)
    baseNodes := collectProlly_of_isTree (pair.atBase.stands.nodes.tree.mono le)
    leftEdges := collectEdges_of_isTree (pair.atLeft.stands.edges.tree.mono le) (leftReads.mono le)
    rightEdges := collectEdges_of_isTree (pair.atRight.stands.edges.tree.mono le)
      (rightReads.mono le)
    baseEdges := collectEdges_of_isTree (pair.atBase.stands.edges.tree.mono le)
      (baseReads.mono le) }

/-- The detector, run on the branches with empty views, reports nothing. -/
def FindsNothing (s : Store H) (left right : Cid) (lca : Option Cid) : Prop :=
  ∃ record, detectConflictsWithViews ({ store := s } : World H) left right lca {} {} {} =
    .ok record ∧ record.conflicts = []

/-- What the detector reads of the two branches holds no conflict. -/
theorem Pair.nothing_found (pair : Pair s left right base l r b gl gr gb)
    (nothing : FindsNothing s left right (some base)) :
    ∃ sides, (∀ s', s ≤ s' → ReadsSides s' l r b sides) ∧ foundConflicts {} left right sides = [] := by
  obtain ⟨sides, reads⟩ := pair.exists_sides
  refine ⟨sides, reads, ?_⟩
  obtain ⟨record, detected, none⟩ := nothing
  have here : detectConflictsWithViews ({ store := s } : World H) left right (some base) {} {} {} =
      .ok (recordOf {} left right base sides) :=
    detectConflictsWithViews_eq_ok.mpr ⟨l, r, b, sides, pair.atLeft.loads, pair.atRight.loads,
      pair.atBase.loads, reads s (le_refl s), rfl⟩
  obtain rfl := Except.ok.inj (detected.symm.trans here)
  exact sortConflicts_isEmpty.mp (by rw [List.isEmpty_iff]; exact none)

theorem Pair.finds_nothing_swap (pair : Pair s left right base l r b gl gr gb)
    (nothing : FindsNothing s left right (some base)) : FindsNothing s right left (some base) := by
  obtain ⟨sides, reads, none⟩ := pair.nothing_found nothing
  refine ⟨recordOf {} right left base sides.swap, detectConflictsWithViews_eq_ok.mpr ⟨r, l, b,
    sides.swap, pair.atRight.loads, pair.atLeft.loads, pair.atBase.loads,
    (reads s (le_refl s)).swap, rfl⟩, ?_⟩
  exact List.isEmpty_iff.mp (sortConflicts_isEmpty.mpr (foundConflicts_swap none))

/-- The detector's repository can be built at every stored commit. -/
theorem buildDetectionRepo_succeeds (holds : CommitHolds s (left, l) (left, gl)) :
    (buildDetectionRepo left : StoreM H _).Succeeds s fun _ s' => s' = detectionStore s left := by
  have ran : (buildDetectionRepo left : StoreM H _).Succeeds s fun _ _ => True := by
    refine Exec.succeeds_bind (putObject_succeeds rfl s) ?_
    rintro viewCid s₁ ⟨-, le₁, viewLoads⟩
    refine Exec.succeeds_bind (putObject_succeeds rfl s₁) ?_
    rintro opCid s₂ ⟨-, le₂, opLoads⟩
    have good : GoodOp (fun _ => True) s₂ opCid := by
      refine .intro _ _ opLoads (viewLoads.mono le₂) (fun h m => ?_) nofun
      obtain rfl := List.mem_singleton.mp m
      have le := le₁.trans le₂
      exact ⟨l, gl, holds.loads.mono le, holds.stands.mono le, trivial⟩
    obtain ⟨repo, _, loaded, -⟩ := loadAt_of_good good
    exact Exec.succeeds_read loaded trivial
  obtain ⟨repo, s', returns, -⟩ := ran
  exact ⟨repo, s', returns, buildDetectionRepo_returns returns⟩

/-- A merge whose detection finds nothing writes a commit. -/
theorem mergeThreeWay_writes (pair : Pair s left right base l r b gl gr gb) (notRight : base ≠ right)
    (notLeft : base ≠ left) (nothing : FindsNothing s left right (some base)) (strategy : MergeStrategy) :
    ∃ cid s', (mergeThreeWay left right strategy : StoreM H _).Returns s (.clean cid) s' := by
  obtain ⟨sides, reads, none⟩ := pair.nothing_found nothing
  have le := le_detectionStore s left
  have empty : (recordOf {} left right base sides).conflicts.isEmpty = true :=
    sortConflicts_isEmpty.mpr none
  obtain ⟨repo, _, built, rfl⟩ := buildDetectionRepo_succeeds pair.atLeft
  have writes : (writeMergeCommit (left, l) (right, r) strategy
      (!(recordOf {} left right base sides).conflicts.isEmpty) : StoreM H Cid).Succeeds
        (detectionStore s left) fun _ _ => True :=
    writeMergeCommit_succeeds (pair.atLeft.mono le) (pair.atRight.mono le)
  obtain ⟨cid, s', wrote, -⟩ := writes
  refine ⟨cid, s', ?_⟩
  have detected : detectConflictsWithViews ({ store := detectionStore s left } : World H) left right
      (some base) {} {} {} = .ok (recordOf {} left right base sides) :=
    detectConflictsWithViews_eq_ok.mpr ⟨l, r, b, sides, pair.atLeft.loads.mono le,
      pair.atRight.loads.mono le, pair.atBase.loads.mono le, reads _ le, rfl⟩
  have detect : (detectForMerge left right base : StoreM H _).Returns s
      (l, r, recordOf {} left right base sides) (detectionStore s left) := by
    refine Exec.returns_bind.mpr ⟨l, s, Exec.returns_read.mpr ⟨pair.atLeft.loads, rfl⟩, ?_⟩
    refine Exec.returns_bind.mpr ⟨r, s, Exec.returns_read.mpr ⟨pair.atRight.loads, rfl⟩, ?_⟩
    refine Exec.returns_bind.mpr ⟨repo, _, built, ?_⟩
    exact Exec.returns_bind.mpr ⟨_, _, Exec.returns_read.mpr ⟨detected, rfl⟩,
      Exec.returns_pure.mpr ⟨rfl, rfl⟩⟩
  refine Exec.returns_bind.mpr ⟨some base, s, Exec.returns_read.mpr ⟨pair.ancestor, rfl⟩, ?_⟩
  dsimp only
  rw [if_neg notRight, if_neg notLeft]
  refine Exec.returns_bind.mpr ⟨_, _, detect, ?_⟩
  dsimp only
  rw [if_neg (by rw [empty]; simp)]
  exact Exec.returns_bind.mpr ⟨cid, s', wrote, Exec.returns_pure.mpr ⟨rfl, rfl⟩⟩

/-- The plain union of two different stored commits writes a commit. -/
theorem buildMergeCommit_writes (pair : Pair s left right base l r b gl gr gb) :
    ∃ cid s', (buildMergeCommit [some (left, l), some (right, r)] : StoreM H _).Returns s
      (some cid) s' := by
  have parents : List.Forall₂ (CommitHolds s) ([some (left, l), some (right, r)].filterMap id)
      [(left, gl), (right, gr)] := .cons pair.atLeft (.cons pair.atRight .nil)
  obtain ⟨out, s', ran, -, result, -⟩ := buildMergeCommit_succeeds parents
  cases result with
  | empty nothing => cases nothing
  | same _ _ _ _ => exact ⟨_, s', ran⟩
  | union _ _ _ _ _ _ _ _ => exact ⟨_, s', ran⟩

end Passes

/-! ## One commit -/

section One

variable {s : Store H} {strategy : MergeStrategy} {left right base : Cid} {l r b : Commit Cid}
  {gl gr gb : Graph Cid} {cid : Cid}

/-- The sides agree, and have one index set if they have the same trees. -/
structure Converges (H : Hashing Cid) (l r : Commit Cid) (gl gr : Graph Cid) : Prop where
  nodes : Agreeing gl.nodes gr.nodes
  edges : Agreeing gl.edges gr.edges
  indexes : l.nodes = treeRoot H gl.nodes.entries → l.edges = treeRoot H gl.edges.entries →
    r.nodes = l.nodes → r.edges = l.edges → r.indexes = l.indexes

/-- `cid` is the address of a merge of the two commits by the strategy. -/
def Written (s : Store H) (left right : Cid × Commit Cid) (gl gr : Graph Cid)
    (strategy : MergeStrategy) (cid : Cid) : Prop :=
  ∃ t t' idx, s ≤ t ∧ Merged t t' left right (strategyMap strategy gl.nodes gr.nodes)
    (strategyMap strategy gl.edges gr.edges)
    (mergedExtra strategy gl.nodes gr.nodes gl.edges gr.edges) cid idx

theorem Pair.written_of_merge (pair : Pair s left right base l r b gl gr gb) {s' : Store H}
    (ran : (mergeThreeWay left right strategy : StoreM H _).Returns s (.clean cid) s') :
    Written s (left, l) (right, r) gl gr strategy cid := by
  obtain ⟨idx, merged⟩ := mergeThreeWay_merged ran pair.atLeft.loads pair.atRight.loads
    pair.atLeft.holdsTrees pair.atRight.holdsTrees
  exact ⟨_, s', idx, le_detectionStore s left, merged⟩

theorem Pair.written_of_union (pair : Pair s left right base l r b gl gr gb) (differ : left ≠ right)
    {s' : Store H} (ran : (buildMergeCommit [some (left, l), some (right, r)] : StoreM H _).Returns s
      (some cid) s') : Written s (left, l) (right, r) gl gr .manual cid := by
  obtain ⟨cid', idx, same, merged⟩ := buildMergeCommit_pair_returns differ pair.atLeft.holdsTrees
    pair.atRight.holdsTrees ran
  obtain rfl := Option.some.inj same
  exact ⟨s, s', idx, le_refl s, merged⟩

/-- The index set of a merge, over rows of the merged trees. -/
def chosenIndexes (H : Hashing Cid) (parents : List (Commit Cid)) (nodes edges : OrdMap ProllyKey Cid)
    (nodeRows : List (Row Cid (Node Cid))) (edgeRows : List (Row Cid (Edge Cid))) : Cid :=
  (reusedIndexes parents (treeRoot H nodes.entries) (treeRoot H edges.entries)).getD
    ((contentsOf H nodeRows edgeRows).cid H)

/-- The merge commit that every path writes, if they write one. -/
def plainMerge (H : Hashing Cid) (left right : Cid × Commit Cid) (gl gr : Graph Cid)
    (nodeRows : List (Row Cid (Node Cid))) (edgeRows : List (Row Cid (Edge Cid))) : Commit Cid :=
  mergeCommitOf H [left, right] (mergedSchema left right)
    (treeRoot H (strategyMap .manual gl.nodes gr.nodes).entries)
    (treeRoot H (strategyMap .manual gl.edges gr.edges).entries)
    (chosenIndexes H [left.2, right.2] (strategyMap .manual gl.nodes gr.nodes)
      (strategyMap .manual gl.edges gr.edges) nodeRows edgeRows) OrdMap.empty

/-- Rows of the merged trees. -/
structure MergedRows (s : Store H) (gl gr : Graph Cid) (nodeRows : List (Row Cid (Node Cid)))
    (edgeRows : List (Row Cid (Edge Cid))) : Prop where
  nodes : ReadsRows s (strategyMap .manual gl.nodes gr.nodes).entries nodeRows
  edges : ReadsRows s (strategyMap .manual gl.edges gr.edges).entries edgeRows

variable {nodeRows : List (Row Cid (Node Cid))} {edgeRows : List (Row Cid (Edge Cid))}

theorem Pair.exists_rows (pair : Pair s left right base l r b gl gr gb) :
    ∃ nodeRows edgeRows, MergedRows s gl gr nodeRows edgeRows := by
  obtain ⟨nodeRows, nodesRead⟩ := exists_rows_strategyMap .manual pair.atLeft.stands.nodes
    pair.atRight.stands.nodes
  obtain ⟨edgeRows, edgesRead⟩ := exists_rows_strategyMap .manual pair.atLeft.stands.edges
    pair.atRight.stands.edges
  exact ⟨nodeRows, edgeRows, nodesRead, edgesRead⟩

theorem MergedRows.swap (rows : MergedRows s gl gr nodeRows edgeRows) :
    MergedRows s gr gl nodeRows edgeRows := by
  obtain ⟨nodes, edges⟩ := rows
  rw [strategyMap_manual_swap gl.nodes] at nodes
  rw [strategyMap_manual_swap gl.edges] at edges
  exact ⟨nodes, edges⟩

/-- What is written of two agreeing sides. -/
theorem Written.eq_plain (nodes : Agreeing gl.nodes gr.nodes) (edges : Agreeing gl.edges gr.edges)
    (rows : MergedRows s gl gr nodeRows edgeRows)
    (written : Written s (left, l) (right, r) gl gr strategy cid) :
    cid = H.cidOf (Object.toBlock (plainMerge H (left, l) (right, r) gl gr nodeRows edgeRows)) := by
  obtain ⟨t, t', idx, le, merged⟩ := written
  rw [strategyMap_of_agree nodes, strategyMap_of_agree edges, mergedExtra_of_agree nodes edges]
    at merged
  have index := merged.index nodeRows edgeRows (rows.nodes.mono le) (rows.edges.mono le)
  rw [← merged.loads.cidOf, index]
  rfl

theorem parentPairs_swap {left right : Cid × Commit Cid} (differ : left.1 ≠ right.1) :
    parentPairs [right, left] = parentPairs [left, right] := by
  rw [parentPairs_pair, parentPairs_pair]
  rcases lt_or_gt_of_ne differ with below | above
  · rw [if_pos (le_of_lt below), if_neg (not_le.mpr below)]
  · rw [if_neg (not_le.mpr above), if_pos (le_of_lt above)]

theorem mergedSchema_swap {left right : Cid × Commit Cid} (differ : left.1 ≠ right.1) :
    mergedSchema right left = mergedSchema left right := by
  unfold mergedSchema
  rcases lt_or_gt_of_ne differ with below | above
  · rw [if_pos (le_of_lt below), if_neg (not_le.mpr below)]
  · rw [if_neg (not_le.mpr above), if_pos (le_of_lt above)]

/-- Only the index set can depend on the order of the parents. -/
theorem plainMerge_swap_iff (differ : left ≠ right) :
    plainMerge H (right, r) (left, l) gr gl nodeRows edgeRows =
        plainMerge H (left, l) (right, r) gl gr nodeRows edgeRows ↔
      chosenIndexes H [r, l] (strategyMap .manual gl.nodes gr.nodes)
          (strategyMap .manual gl.edges gr.edges) nodeRows edgeRows =
        chosenIndexes H [l, r] (strategyMap .manual gl.nodes gr.nodes)
          (strategyMap .manual gl.edges gr.edges) nodeRows edgeRows := by
  unfold plainMerge
  rw [strategyMap_manual_swap gr.nodes, strategyMap_manual_swap gr.edges]
  have time : mergeTime [r.time, l.time] = mergeTime [l.time, r.time] := by
    simp [mergeTime, max_comm]
  constructor
  · intro same
    have indexes := congrArg Commit.indexes same
    exact Option.some.inj indexes
  · intro same
    have pairs : parentPairs [(right, r), (left, l)] = parentPairs [(left, l), (right, r)] :=
      parentPairs_swap differ
    have schema : mergedSchema (right, r) (left, l) = mergedSchema (left, l) (right, r) :=
      mergedSchema_swap differ
    unfold mergeCommitOf
    simp only [pairs, schema, List.map_cons, List.map_nil, time, same]

theorem eq_of_treeRoot {m m' : OrdMap ProllyKey Cid} (tree : IsTree s (treeRoot H m.entries) m') :
    m' = m := by
  obtain ⟨root, s', -, rfl, -, built⟩ := buildTree_succeeds (H := H) m {}
  exact tree.unique built

/-- Both roots are that of the union exactly when they are one root, of its map. -/
theorem roots_merged_iff {lr rr : Cid} {m m' : OrdMap ProllyKey Cid} (leftTree : IsTree s lr m)
    (rightTree : IsTree s rr m') :
    (lr = treeRoot H (strategyMap .manual m m').entries ∧
        rr = treeRoot H (strategyMap .manual m m').entries) ↔
      lr = treeRoot H m.entries ∧ rr = lr := by
  constructor
  · rintro ⟨rfl, rfl⟩
    rw [← eq_of_treeRoot leftTree]
    exact ⟨rfl, rfl⟩
  · rintro ⟨root, rfl⟩
    obtain rfl := rightTree.unique leftTree
    rw [strategyMap_self]
    exact ⟨root, root⟩

/-- The order of the parents changes the index set only if both have the merged trees. -/
theorem chosenIndexes_swap_iff (pair : Pair s left right base l r b gl gr gb) :
    chosenIndexes H [r, l] (strategyMap .manual gl.nodes gr.nodes)
          (strategyMap .manual gl.edges gr.edges) nodeRows edgeRows =
        chosenIndexes H [l, r] (strategyMap .manual gl.nodes gr.nodes)
          (strategyMap .manual gl.edges gr.edges) nodeRows edgeRows ↔
      (l.nodes = treeRoot H gl.nodes.entries → l.edges = treeRoot H gl.edges.entries →
        r.nodes = l.nodes → r.edges = l.edges → r.indexes = l.indexes) := by
  obtain ⟨_, _, lc, _, _, leftIndexed⟩ := pair.atLeft.stands.indexed
  obtain ⟨_, _, rc, _, _, rightIndexed⟩ := pair.atRight.stands.indexed
  have leftRoot : l.indexes = some (lc.cid H) := leftIndexed.root
  have rightRoot : r.indexes = some (rc.cid H) := rightIndexed.root
  have nodes := roots_merged_iff pair.atLeft.stands.nodes.tree pair.atRight.stands.nodes.tree
  have edges := roots_merged_iff pair.atLeft.stands.edges.tree pair.atRight.stands.edges.tree
  have premises : (l.nodes = treeRoot H gl.nodes.entries → l.edges = treeRoot H gl.edges.entries →
      r.nodes = l.nodes → r.edges = l.edges → r.indexes = l.indexes) ↔
      ((l.nodes = treeRoot H gl.nodes.entries ∧ r.nodes = l.nodes) ∧
        (l.edges = treeRoot H gl.edges.entries ∧ r.edges = l.edges) → r.indexes = l.indexes) :=
    ⟨fun h both => h both.1.1 both.2.1 both.1.2 both.2.2,
      fun h atNodes atEdges nodes edges => h ⟨⟨atNodes, nodes⟩, atEdges, edges⟩⟩
  rw [premises, ← nodes, ← edges]
  unfold chosenIndexes reusedIndexes
  generalize treeRoot H (strategyMap .manual gl.nodes gr.nodes).entries = n
  generalize treeRoot H (strategyMap .manual gl.edges gr.edges).entries = e
  simp only [List.findSome?_cons, List.findSome?_nil, leftRoot, rightRoot]
  by_cases atLeft : l.nodes = n ∧ l.edges = e
  · by_cases atRight : r.nodes = n ∧ r.edges = e
    · simp [atLeft, atRight]
    · simp only [if_pos atLeft, if_neg atRight]
      exact iff_of_true trivial fun both => absurd ⟨both.1.2, both.2.2⟩ atRight
  · refine iff_of_true ?_ fun both => absurd ⟨both.1.1, both.2.1⟩ atLeft
    rw [if_neg atLeft]

/-- The commit that a merge ends at. -/
def MergeOutcome.commit? : MergeOutcome Cid → Option Cid
  | .fastForward cid => some cid
  | .clean cid => some cid
  | .conflicts _ => none

/-- Every strategy and the plain union end at one commit, in both orders. -/
structure OnEveryPath (s : Store H) (left right : Cid) (l r : Commit Cid) (cid : Cid) : Prop where
  merge : ∀ strategy, ∃ out s',
    (mergeThreeWay left right strategy : StoreM H _).Returns s out s' ∧ out.commit? = some cid
  swapped : ∀ strategy, ∃ out s',
    (mergeThreeWay right left strategy : StoreM H _).Returns s out s' ∧ out.commit? = some cid
  union : ∃ s', (buildMergeCommit [some (left, l), some (right, r)] : StoreM H _).Returns s
    (some cid) s'
  unionSwapped : ∃ s', (buildMergeCommit [some (right, r), some (left, l)] : StoreM H _).Returns s
    (some cid) s'

/-- Where all paths end at one commit, the sides converge. -/
theorem converges_of_one (pair : Pair s left right base l r b gl gr gb) (notRight : base ≠ right)
    (notLeft : base ≠ left) (differ : left ≠ right) (nothing : FindsNothing s left right (some base))
    (one : OnEveryPath s left right l r cid) : Converges H l r gl gr := by
  have written : ∀ strategy, Written s (left, l) (right, r) gl gr strategy cid := by
    intro strategy
    obtain ⟨cid', s', wrote⟩ := mergeThreeWay_writes pair notRight notLeft nothing strategy
    obtain ⟨out, s'', ran, at_cid⟩ := one.merge strategy
    obtain ⟨rfl, rfl⟩ := ran.unique wrote
    obtain rfl : cid' = cid := Option.some.inj at_cid
    exact pair.written_of_merge wrote
  obtain ⟨t₁, t₁', idx₁, le₁, ours⟩ := written .ours
  obtain ⟨t₂, t₂', idx₂, le₂, theirs⟩ := written .theirs
  have same := ours.loads.same theirs.loads
  have nodes : Agreeing gl.nodes gr.nodes :=
    agreeing_of_strategyMap (treeRoot_injective (congrArg Commit.nodes same))
  have edges : Agreeing gl.edges gr.edges :=
    agreeing_of_strategyMap (treeRoot_injective (congrArg Commit.edges same))
  refine ⟨nodes, edges, ?_⟩
  obtain ⟨nodeRows, edgeRows, rows⟩ := pair.exists_rows
  obtain ⟨s', ranUnion⟩ := one.union
  obtain ⟨s'', ranSwapped⟩ := one.unionSwapped
  have plain := (pair.written_of_union differ ranUnion).eq_plain nodes edges rows
  have swapped := (pair.swap.written_of_union (Ne.symm differ) ranSwapped).eq_plain nodes.swap
    edges.swap rows.swap
  have commits := Store.toBlock_injective (H.cidOf_injective (swapped.symm.trans plain))
  exact (chosenIndexes_swap_iff pair).mp ((plainMerge_swap_iff differ).mp commits)

/-- Where the sides converge, all paths end at one commit. -/
theorem one_of_converges (pair : Pair s left right base l r b gl gr gb) (notRight : base ≠ right)
    (notLeft : base ≠ left) (differ : left ≠ right) (nothing : FindsNothing s left right (some base))
    (converges : Converges H l r gl gr) : ∃ cid, OnEveryPath s left right l r cid := by
  obtain ⟨nodes, edges, indexes⟩ := converges
  obtain ⟨nodeRows, edgeRows, rows⟩ := pair.exists_rows
  have commits : plainMerge H (right, r) (left, l) gr gl nodeRows edgeRows =
      plainMerge H (left, l) (right, r) gl gr nodeRows edgeRows :=
    (plainMerge_swap_iff differ).mpr ((chosenIndexes_swap_iff pair).mpr indexes)
  have plain : ∀ {strategy cid}, Written s (left, l) (right, r) gl gr strategy cid →
      cid = H.cidOf (Object.toBlock (plainMerge H (left, l) (right, r) gl gr nodeRows edgeRows)) :=
    fun written => written.eq_plain nodes edges rows
  have swapped : ∀ {strategy cid}, Written s (right, r) (left, l) gr gl strategy cid →
      cid = H.cidOf (Object.toBlock (plainMerge H (left, l) (right, r) gl gr nodeRows edgeRows)) :=
    fun written => commits ▸ written.eq_plain nodes.swap edges.swap rows.swap
  refine ⟨H.cidOf (Object.toBlock (plainMerge H (left, l) (right, r) gl gr nodeRows edgeRows)),
    fun strategy => ?_, fun strategy => ?_, ?_, ?_⟩
  · obtain ⟨cid, s', wrote⟩ := mergeThreeWay_writes pair notRight notLeft nothing strategy
    exact ⟨_, s', wrote, congrArg some (plain (pair.written_of_merge wrote))⟩
  · obtain ⟨cid, s', wrote⟩ := mergeThreeWay_writes pair.swap notLeft notRight
      (pair.finds_nothing_swap nothing) strategy
    exact ⟨_, s', wrote, congrArg some (swapped (pair.swap.written_of_merge wrote))⟩
  · obtain ⟨cid, s', wrote⟩ := buildMergeCommit_writes pair
    exact ⟨s', plain (pair.written_of_union differ wrote) ▸ wrote⟩
  · obtain ⟨cid, s', wrote⟩ := buildMergeCommit_writes pair.swap
    exact ⟨s', swapped (pair.swap.written_of_union (Ne.symm differ) wrote) ▸ wrote⟩

/-- A union of two different commits ends at neither of them. -/
theorem union_ne_parent (pair : Pair s left right base l r b gl gr gb) (differ : left ≠ right)
    {s' : Store H} (ran : (buildMergeCommit [some (left, l), some (right, r)] : StoreM H _).Returns s
      (some cid) s') : cid ≠ left ∧ cid ≠ right := by
  obtain ⟨t, t', idx, -, merged⟩ := pair.written_of_union differ ran
  have parents : left ∈ (parentPairs [(left, l), (right, r)]).map Prod.fst ∧
      right ∈ (parentPairs [(left, l), (right, r)]).map Prod.fst := by
    rw [parentPairs_pair]
    split <;> simp
  have notParent : ∀ p ∈ (parentPairs [(left, l), (right, r)]).map Prod.fst, cid ≠ p := by
    rintro p member rfl
    exact not_mem_commit_parents merged.loads member
  exact ⟨notParent left parents.1, notParent right parents.2⟩

/-- A merge with an ancestor keeps the other side, whatever the strategy. -/
theorem mergeThreeWay_keepLeft (ancestor : findCommitLca s left right = .ok (some right)) :
    (mergeThreeWay left right strategy : StoreM H _).Returns s (.fastForward left) s := by
  refine Exec.returns_bind.mpr ⟨some right, s, Exec.returns_read.mpr ⟨ancestor, rfl⟩, ?_⟩
  dsimp only
  rw [if_pos rfl]
  exact Exec.returns_pure.mpr ⟨rfl, rfl⟩

theorem mergeThreeWay_takeRight (differ : left ≠ right)
    (ancestor : findCommitLca s left right = .ok (some left)) :
    (mergeThreeWay left right strategy : StoreM H _).Returns s (.fastForward right) s := by
  refine Exec.returns_bind.mpr ⟨some left, s, Exec.returns_read.mpr ⟨ancestor, rfl⟩, ?_⟩
  dsimp only
  rw [if_neg differ, if_pos rfl]
  exact Exec.returns_pure.mpr ⟨rfl, rfl⟩

/-- **One commit on every path**: of two stored commits whose detection reports no conflict, all
strategies in both orders and the plain union give one commit if and only if the two are one
commit, or neither is an ancestor of the other and they converge. -/
theorem one_commit_iff {lca : Option Cid} (ancestor : findCommitLca s left right = .ok lca)
    (atLeft : CommitHolds s (left, l) (left, gl)) (atRight : CommitHolds s (right, r) (right, gr))
    (atBase : ∀ base, lca = some base → ∃ b gb, CommitHolds s (base, b) (base, gb))
    (nothing : FindsNothing s left right lca) :
    (∃ cid, OnEveryPath s left right l r cid) ↔
      left = right ∨ ∃ base, lca = some base ∧ base ≠ left ∧ base ≠ right ∧
        Converges H l r gl gr := by
  by_cases same : left = right
  · subst same
    obtain rfl := atLeft.loads.unique atRight.loads
    refine iff_of_true ⟨left, ?_⟩ (.inl rfl)
    have found : findCommitLca s left left = .ok (some left) := if_pos rfl
    have merge : ∀ strategy, ∃ out s', (mergeThreeWay left left strategy : StoreM H _).Returns s out s' ∧
        out.commit? = some left := fun strategy => ⟨_, s, mergeThreeWay_keepLeft found, rfl⟩
    have union : (buildMergeCommit [some (left, l), some (left, l)] : StoreM H _).Returns s
        (some left) s := by
      unfold buildMergeCommit
      dsimp only [List.filterMap_cons, id, List.filterMap_nil]
      rw [if_pos (by simp)]
      exact Exec.returns_pure.mpr ⟨rfl, rfl⟩
    exact ⟨merge, merge, ⟨s, union⟩, s, union⟩
  · refine Iff.trans ?_ (or_iff_right same).symm
    cases lca with
    | none =>
        refine iff_of_false (fun ⟨cid, one⟩ => ?_) (by simp)
        obtain ⟨out, s', ran, -⟩ := one.merge .manual
        obtain ⟨lca, s₁, read, ran⟩ := Exec.returns_bind.mp ran
        obtain ⟨found, rfl⟩ := Exec.returns_read.mp read
        obtain rfl := Except.ok.inj (found.symm.trans ancestor)
        exact Exec.returns_throw ran
    | some base =>
        obtain ⟨b, gb, baseHolds⟩ := atBase base rfl
        have pair : Pair s left right base l r b gl gr gb := ⟨ancestor, atLeft, atRight, baseHolds⟩
        constructor
        · rintro ⟨cid, one⟩
          obtain ⟨out, s', ran, at_cid⟩ := one.merge .manual
          obtain ⟨s'', union⟩ := one.union
          obtain ⟨notLeft, notRight⟩ := union_ne_parent pair same union
          have apart : base ≠ left ∧ base ≠ right := by
            refine ⟨?_, ?_⟩
            · rintro rfl
              obtain ⟨rfl, rfl⟩ := ran.unique (mergeThreeWay_takeRight same ancestor)
              exact notRight (Option.some.inj at_cid).symm
            · rintro rfl
              obtain ⟨rfl, rfl⟩ := ran.unique (mergeThreeWay_keepLeft ancestor)
              exact notLeft (Option.some.inj at_cid).symm
          exact ⟨base, rfl, apart.1, apart.2,
            converges_of_one pair apart.2 apart.1 same nothing one⟩
        · rintro ⟨_, ⟨⟩, notLeft, notRight, converges⟩
          exact one_of_converges pair notRight notLeft same nothing converges

end One

/-! ## Two forks -/

/-- The heads of a fork, their lowest common ancestor, and what the detector reports. -/
def forkAndDetect (base left right : List (Transaction.Call Cid)) :
    WorldM H (Branches Cid × MergeConflicts Cid) := do
  let (b, l, r) ← fork base left right
  match b.view.heads.head?, l.view.heads.head?, r.view.heads.head? with
  | some baseCid, some leftCid, some rightCid => do
      let lca ← onStore (Exec.read fun s => findCommitLca s leftCid rightCid)
      let record ← onStore (Exec.read fun s =>
        detectConflictsWithViews { store := s } leftCid rightCid lca {} {} {})
      return (⟨baseCid, leftCid, rightCid, lca⟩, record)
  | _, _, _ => throw .uninitialized

theorem forkAndDetect_returns {base left right : List (Transaction.Call Cid)}
    {at_ : Branches Cid} {record : MergeConflicts Cid} {w : World H}
    (ran : (forkAndDetect base left right : WorldM H _).Returns {} (at_, record) w) :
    (detectConflictsWithViews ({ store := w.store } : World H) at_.left at_.right at_.lca {} {} {} =
      .ok record) ∧ ∃ b l r gb gl gr, Forked w.store at_ b l r gb gl gr := by
  obtain ⟨⟨b, l, r⟩, w₁, forked, ran⟩ := Exec.returns_bind.mp ran
  obtain ⟨⟨c₁, b', gb, atBase⟩, ⟨c₂, l', gl, atLeft⟩, c₃, r', gr, atRight⟩ := fork_returns forked
  dsimp only at ran
  rw [atBase.head, atLeft.head, atRight.head] at ran
  obtain ⟨lca, w₂, read, ran⟩ := Exec.returns_bind.mp ran
  obtain ⟨record', w₃, detect, done⟩ := Exec.returns_bind.mp ran
  obtain ⟨⟨⟩, rfl⟩ := Exec.returns_pure.mp done
  obtain ⟨loaded, -⟩ := returns_onStore.mp read
  obtain ⟨ancestor, same⟩ := Exec.returns_read.mp loaded
  obtain ⟨detected, -⟩ := returns_onStore.mp detect
  obtain ⟨found, same'⟩ := Exec.returns_read.mp detected
  rw [← same', ← same]
  rw [← same] at found
  exact ⟨found, b', l', r', gb, gl, gr, ancestor, ⟨rfl, atBase.loads, atBase.stands⟩,
    ⟨rfl, atLeft.loads, atLeft.stands⟩, rfl, atRight.loads, atRight.stands⟩

/-- The detection passes at two commits whose lowest common ancestor is the base. -/
def Undisputed (run : Branches ℕ × MergeConflicts ℕ) : Bool :=
  run.1.lca = some run.1.base && run.1.base ≠ run.1.left && run.1.base ≠ run.1.right &&
    run.2.conflicts.isEmpty

/-- The left branch renames a person that the right branch leaves alone. -/
def renamedOnce : WorldM shortHashing (Branches ℕ × MergeConflicts ℕ) :=
  forkAndDetect [.addNode (person 1 "a")] [.addNode (person 1 "b")] [.addNode (person 2 "c")]

/-- Two strategies end an undisputed merge at two commits. -/
theorem mergeThreeWay_two_commits : ∃ at_ record w ours theirs s₁ s₂,
    renamedOnce.Returns {} (at_, record) w ∧ at_.lca = some at_.base ∧
      findCommitLca w.store at_.left at_.right = .ok at_.lca ∧
      FindsNothing w.store at_.left at_.right at_.lca ∧
      (mergeThreeWay at_.left at_.right .ours).Returns w.store (.clean ours) s₁ ∧
      (mergeThreeWay at_.left at_.right .theirs).Returns w.store (.clean theirs) s₂ ∧
      ours ≠ theirs := by
  have passed : renamedOnce.check {} (fun run w => Undisputed run &&
      (mergeThreeWay run.1.left run.1.right .ours).check w.store fun ours _ =>
        (mergeThreeWay run.1.left run.1.right .theirs).check w.store fun theirs _ =>
          ours.clean?.isSome && theirs.clean?.isSome && ours.clean? ≠ theirs.clean?) = true := by
    decide +kernel
  obtain ⟨⟨at_, record⟩, w, ran, passed⟩ := Exec.exists_of_check passed
  rw [Bool.and_eq_true] at passed
  obtain ⟨undisputed, passed⟩ := passed
  obtain ⟨ours, s₁, ranOurs, passed⟩ := Exec.exists_of_check passed
  obtain ⟨theirs, s₂, ranTheirs, passed⟩ := Exec.exists_of_check passed
  simp only [Bool.and_eq_true, Option.isSome_iff_exists, decide_eq_true_eq] at passed
  obtain ⟨⟨⟨cid₁, clean₁⟩, cid₂, clean₂⟩, differ⟩ := passed
  obtain rfl := MergeOutcome.eq_clean clean₁
  obtain rfl := MergeOutcome.eq_clean clean₂
  simp only [Undisputed, Bool.and_eq_true, decide_eq_true_eq, List.isEmpty_iff] at undisputed
  obtain ⟨⟨⟨lca, -⟩, -⟩, none⟩ := undisputed
  obtain ⟨detected, _, _, _, _, _, _, forked⟩ := forkAndDetect_returns ran
  exact ⟨at_, record, w, cid₁, cid₂, s₁, s₂, ran, lca, forked.ancestor, ⟨record, detected, none⟩,
    ranOurs, ranTheirs, fun same => differ (congrArg some same)⟩

/-- Each branch adds a person. -/
def addedApart : WorldM shortHashing (Branches ℕ × MergeConflicts ℕ) :=
  forkAndDetect [.addNode (person 1 "a")] [.addNode (person 2 "b")] [.addNode (person 3 "c")]

theorem one_commit_iff_apart : ∃ (s : Store shortHashing) (left right : ℕ) (l r : Commit ℕ)
    (gl gr : Graph ℕ) (lca : Option ℕ), CommitHolds s (left, l) (left, gl) ∧
      CommitHolds s (right, r) (right, gr) ∧ FindsNothing s left right lca ∧
      ((∃ cid, OnEveryPath s left right l r cid) ↔
        left = right ∨ ∃ base, lca = some base ∧ base ≠ left ∧ base ≠ right ∧
          Converges shortHashing l r gl gr) := by
  have passed : addedApart.check {} (fun run _ => Undisputed run) = true := by decide +kernel
  obtain ⟨⟨at_, record⟩, w, ran, undisputed⟩ := Exec.exists_of_check passed
  simp only [Undisputed, Bool.and_eq_true, decide_eq_true_eq, List.isEmpty_iff] at undisputed
  obtain ⟨⟨⟨lca, -⟩, -⟩, none⟩ := undisputed
  obtain ⟨detected, b, l, r, gb, gl, gr, forked⟩ := forkAndDetect_returns ran
  have nothing : FindsNothing w.store at_.left at_.right at_.lca := ⟨record, detected, none⟩
  refine ⟨w.store, at_.left, at_.right, l, r, gl, gr, at_.lca, forked.atLeft, forked.atRight, nothing,
    one_commit_iff forked.ancestor forked.atLeft forked.atRight (fun base at_base => ?_) nothing⟩
  obtain rfl := Option.some.inj (lca.symm.trans at_base)
  exact ⟨b, gb, forked.atBase⟩

end Mnem.Repo
