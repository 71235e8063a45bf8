/-
# Repo.ThreeWayLaw — a merge against the three-way rule

The three-way rule says that a key changed on one side takes that side's value.
A merge takes the union of the two trees and lets the strategy pick where both
sides have a value, so it keeps the rule at a key exactly when the change on
one side is no removal, and is what the strategy picks (`Survives`).
-/
import Mnem.Repo.ThreeWay
import Mnem.Repo.Session

namespace Mnem.Repo

open Theory Theory.Groups Prolly Index

set_option autoImplicit false
set_option linter.unusedSectionVars false

variable {Cid : Type} {H : Hashing Cid} [LinearOrder Cid]

/-! ## The rule -/

/-- The three-way rule: agreement stays, and a change on one side wins. -/
structure ThreeWayRule (base left right merged : Option Cid) : Prop where
  agreed : left = right → merged = left
  leftChanged : left ≠ base → right = base → merged = left
  rightChanged : left = base → right ≠ base → merged = right

/-- The strategy prefers the left one of two different values. -/
def MergeStrategy.TakesLeft : MergeStrategy → Cid → Cid → Prop
  | .manual, l, r => r < l
  | .ours, _, _ => True
  | .theirs, _, _ => False

def MergeStrategy.TakesRight : MergeStrategy → Cid → Cid → Prop
  | .manual, l, r => l < r
  | .ours, _, _ => False
  | .theirs, _, _ => True

/-- A change on one side is no removal, and is the one that the strategy prefers. -/
structure Survives (strategy : MergeStrategy) (base left right : Option Cid) : Prop where
  fromLeft : left ≠ base → right = base →
    ∃ l, left = some l ∧ ∀ r, right = some r → strategy.TakesLeft l r
  fromRight : left = base → right ≠ base →
    ∃ r, right = some r ∧ ∀ l, left = some l → strategy.TakesRight l r

section Choose

variable {strategy : MergeStrategy} {base left right : Option Cid}

theorem MergeStrategy.pick_eq_left {l r : Cid} (ne : l ≠ r) :
    strategy.pick l r = l ↔ strategy.TakesLeft l r := by
  cases strategy with
  | ours => simp [pick, TakesLeft]
  | theirs => simp [pick, TakesLeft, Ne.symm ne]
  | manual =>
      simp only [pick, TakesLeft, ite_eq_left_iff, not_le]
      constructor
      · intro picked
        exact lt_of_le_of_ne (not_lt.mp fun below => ne (picked below).symm) (Ne.symm ne)
      · exact fun above below => absurd above (lt_asymm below)

theorem MergeStrategy.pick_eq_right {l r : Cid} (ne : l ≠ r) :
    strategy.pick l r = r ↔ strategy.TakesRight l r := by
  cases strategy with
  | ours => simp [pick, TakesRight, ne]
  | theirs => simp [pick, TakesRight]
  | manual =>
      simp only [pick, TakesRight, ite_eq_right_iff]
      constructor
      · intro picked
        exact lt_of_le_of_ne (not_lt.mp fun above => ne (picked (le_of_lt above))) ne
      · exact fun below above => absurd above (not_le.mpr below)

/-- The left value is chosen over a different one when it exists and is preferred. -/
theorem MergeStrategy.choose_eq_left (ne : left ≠ right) :
    strategy.choose left right = left ↔
      ∃ l, left = some l ∧ ∀ r, right = some r → strategy.TakesLeft l r := by
  cases left with
  | none =>
      cases right with
      | none => exact absurd rfl ne
      | some r => simp [choose]
  | some l =>
      cases right with
      | none => simp [choose]
      | some r =>
          have other : l ≠ r := fun same => ne (congrArg some same)
          simp [choose, other, pick_eq_left other]

theorem MergeStrategy.choose_eq_right (ne : left ≠ right) :
    strategy.choose left right = right ↔
      ∃ r, right = some r ∧ ∀ l, left = some l → strategy.TakesRight l r := by
  cases right with
  | none =>
      cases left with
      | none => exact absurd rfl ne
      | some l => simp [choose]
  | some r =>
      cases left with
      | none => simp [choose]
      | some l =>
          have other : l ≠ r := fun same => ne (congrArg some same)
          simp [choose, other, pick_eq_right other]

/-- The choice keeps the three-way rule exactly where the change survives. -/
theorem threeWayRule_choose_iff :
    ThreeWayRule base left right (strategy.choose left right) ↔ Survives strategy base left right := by
  constructor
  · rintro ⟨-, leftChanged, rightChanged⟩
    refine ⟨fun changed kept => ?_, fun kept changed => ?_⟩
    · exact (MergeStrategy.choose_eq_left fun same => changed (same.trans kept)).mp
        (leftChanged changed kept)
    · exact (MergeStrategy.choose_eq_right fun same => changed (same.symm.trans kept)).mp
        (rightChanged kept changed)
  · rintro ⟨leftSurvives, rightSurvives⟩
    refine ⟨?_, fun changed kept => ?_, fun kept changed => ?_⟩
    · rintro rfl
      exact strategy.choose_self left
    · exact (MergeStrategy.choose_eq_left fun same => changed (same.trans kept)).mpr
        (leftSurvives changed kept)
    · exact (MergeStrategy.choose_eq_right fun same => changed (same.symm.trans kept)).mpr
        (rightSurvives kept changed)

end Choose

/-! ## The merge -/

/-- Something of the left side, of the right side and of the base. -/
structure Three (α : Type) where
  left : α
  right : α
  base : α

/-- A stored commit whose trees hold these maps. -/
def CommitTrees (s : Store H) (cid : Cid) (nodes edges : OrdMap ProllyKey Cid) : Prop :=
  ∃ commit : Commit Cid, s.Loads cid commit ∧ HoldsTrees s commit nodes edges

/-- Two stored commits and their lowest common ancestor. -/
structure BranchTrees (s : Store H) (left right base : Cid)
    (nodes edges : Three (OrdMap ProllyKey Cid)) : Prop where
  ancestor : findCommitLca s left right = .ok (some base)
  atLeft : CommitTrees s left nodes.left edges.left
  atRight : CommitTrees s right nodes.right edges.right
  atBase : CommitTrees s base nodes.base edges.base

section Merge

variable {s s' : Store H} {left right base cid : Cid} {strategy : MergeStrategy}
  {nodes edges : Three (OrdMap ProllyKey Cid)}

/-- What a merge that wrote a commit wrote. -/
theorem mergeThreeWay_merged {l r : Commit Cid} {ln rn le re : OrdMap ProllyKey Cid}
    (ran : (mergeThreeWay left right strategy : StoreM H _).Returns s (.clean cid) s')
    (leftLoads : s.Loads left l) (rightLoads : s.Loads right r) (leftHolds : HoldsTrees s l ln le)
    (rightHolds : HoldsTrees s r rn re) :
    ∃ idx, Merged (detectionStore s left) s' (left, l) (right, r)
      (strategyMap strategy ln rn) (strategyMap strategy le re) (mergedExtra strategy ln rn le re)
      cid idx := by
  cases mergeThreeWay_returns ran with
  | clean diverged _ wrote =>
      obtain rfl := leftLoads.unique diverged.leftLoads
      obtain rfl := rightLoads.unique diverged.rightLoads
      have le' := le_detectionStore s left
      exact writeMergeCommit_returns diverged.distinct (leftHolds.mono le') (rightHolds.mono le')
        wrote

/-- **The three-way rule**: at every node key and every edge key, a clean merge keeps the rule
if and only if the change on one side survives. -/
theorem mergeThreeWay_rule_iff (branches : BranchTrees s left right base nodes edges)
    (ran : (mergeThreeWay left right strategy : StoreM H _).Returns s (.clean cid) s') :
    ∃ mergedNodes mergedEdges, CommitTrees s' cid mergedNodes mergedEdges ∧
      (∀ k, ThreeWayRule (nodes.base.get? k) (nodes.left.get? k) (nodes.right.get? k)
          (mergedNodes.get? k) ↔
        Survives strategy (nodes.base.get? k) (nodes.left.get? k) (nodes.right.get? k)) ∧
      ∀ k, ThreeWayRule (edges.base.get? k) (edges.left.get? k) (edges.right.get? k)
          (mergedEdges.get? k) ↔
        Survives strategy (edges.base.get? k) (edges.left.get? k) (edges.right.get? k) := by
  obtain ⟨l, leftLoads, leftHolds⟩ := branches.atLeft
  obtain ⟨r, rightLoads, rightHolds⟩ := branches.atRight
  obtain ⟨idx, merged⟩ := mergeThreeWay_merged ran leftLoads rightLoads leftHolds rightHolds
  refine ⟨_, _, ⟨_, merged.loads, merged.nodeTree, merged.edgeTree⟩, fun k => ?_, fun k => ?_⟩
  · rw [get?_strategyMap]
    exact threeWayRule_choose_iff
  · rw [get?_strategyMap]
    exact threeWayRule_choose_iff

end Merge

/-! ## Runs -/

/-- The commits of a fork, and the lowest common ancestor of the branches. -/
structure Branches (Cid : Type) where
  base : Cid
  left : Cid
  right : Cid
  lca : Option Cid

/-- Make two branches and merge them. -/
def forkAndMerge (base left right : List (Transaction.Call Cid)) (strategy : MergeStrategy) :
    WorldM H (Branches Cid × MergeOutcome Cid) := do
  let (b, l, r) ← fork base left right
  match b.view.heads.head?, l.view.heads.head?, r.view.heads.head? with
  | some baseCid, some leftCid, some rightCid => do
      let lca ← onStore (Exec.read fun s => findCommitLca s leftCid rightCid)
      let out ← onStore (mergeThreeWay leftCid rightCid strategy)
      return (⟨baseCid, leftCid, rightCid, lca⟩, out)
  | _, _, _ => throw .uninitialized

/-- The store and the three commits at which a fork is merged. -/
structure Forked (s : Store H) (at_ : Branches Cid) (b l r : Commit Cid) (gb gl gr : Graph Cid) :
    Prop where
  ancestor : findCommitLca s at_.left at_.right = .ok at_.lca
  atBase : CommitHolds s (at_.base, b) (at_.base, gb)
  atLeft : CommitHolds s (at_.left, l) (at_.left, gl)
  atRight : CommitHolds s (at_.right, r) (at_.right, gr)

theorem forkAndMerge_returns {base left right : List (Transaction.Call Cid)}
    {strategy : MergeStrategy} {at_ : Branches Cid} {out : MergeOutcome Cid} {w' : World H}
    (ran : (forkAndMerge base left right strategy : WorldM H _).Returns {} (at_, out) w') :
    ∃ (s : Store H) (b l r : Commit Cid) (gb gl gr : Graph Cid),
      (mergeThreeWay at_.left at_.right strategy : StoreM H _).Returns s out w'.store ∧
        Forked s at_ b l r gb gl gr := by
  obtain ⟨⟨b, l, r⟩, w, forked, ran⟩ := Exec.returns_bind.mp ran
  obtain ⟨⟨c₁, b', gb, atBase⟩, ⟨c₂, l', gl, atLeft⟩, c₃, r', gr, atRight⟩ := fork_returns forked
  dsimp only at ran
  rw [atBase.head, atLeft.head, atRight.head] at ran
  obtain ⟨lca, w₁, read, ran⟩ := Exec.returns_bind.mp ran
  obtain ⟨out', w₂, merge, done⟩ := Exec.returns_bind.mp ran
  obtain ⟨⟨⟩, rfl⟩ := Exec.returns_pure.mp done
  obtain ⟨loaded, -⟩ := returns_onStore.mp read
  obtain ⟨ancestor, same⟩ := Exec.returns_read.mp loaded
  refine ⟨w.store, b', l', r', gb, gl, gr, ?_, ancestor, ⟨rfl, atBase.loads, atBase.stands⟩,
    ⟨rfl, atLeft.loads, atLeft.stands⟩, rfl, atRight.loads, atRight.stands⟩
  rw [same]
  exact (returns_onStore.mp merge).1

theorem CommitHolds.commitTrees {s : Store H} {cid : Cid} {commit : Commit Cid} {g : Graph Cid}
    (holds : CommitHolds s (cid, commit) (cid, g)) : CommitTrees s cid g.nodes g.edges :=
  ⟨commit, holds.loads, holds.stands.nodes.tree, holds.stands.edges.tree⟩

theorem Forked.branchTrees {s : Store H} {at_ : Branches Cid} {b l r : Commit Cid}
    {gb gl gr : Graph Cid} (forked : Forked s at_ b l r gb gl gr) (lca : at_.lca = some at_.base) :
    BranchTrees s at_.left at_.right at_.base ⟨gl.nodes, gr.nodes, gb.nodes⟩
      ⟨gl.edges, gr.edges, gb.edges⟩ where
  ancestor := lca ▸ forked.ancestor
  atLeft := forked.atLeft.commitTrees
  atRight := forked.atRight.commitTrees
  atBase := forked.atBase.commitTrees

/-- The value of a commit's node tree at a key. -/
def nodeAt (s : Store H) (commit : Cid) (k : NodeId) : Except (Error Cid) (Option Cid) := do
  let c ← s.decodeFromStore (Commit Cid) commit
  lookup s c.nodes k

/-- The CID of a clean merge. -/
def MergeOutcome.clean? : MergeOutcome Cid → Option Cid
  | .clean cid => some cid
  | _ => none

theorem MergeOutcome.eq_clean {out : MergeOutcome Cid} {cid : Cid} (h : out.clean? = some cid) :
    out = .clean cid := by
  cases out with
  | clean c => exact congrArg _ (Option.some.inj h)
  | _ => cases h

def person (id : NodeId) (name : String) : Node ℕ :=
  { id := id, ntype := "P", summary := some name }

/-- The left branch removes the node that the right branch leaves alone. -/
def removalRun : WorldM shortHashing (Branches ℕ × MergeOutcome ℕ) :=
  forkAndMerge [.addNode (person 1 "Ada")] [.removeNode 1] [.addNode (person 2 "Bob")] .manual

/-- The merge is clean, and holds the removed node. -/
def resurrects (run : Branches ℕ × MergeOutcome ℕ) (w : World shortHashing) : Bool :=
  run.1.lca = some run.1.base && run.2.clean?.any fun cid =>
    Exec.okAnd (nodeAt w.store run.1.base 1) fun vb => Exec.okAnd (nodeAt w.store run.1.left 1) fun vl =>
      Exec.okAnd (nodeAt w.store run.1.right 1) fun vr => Exec.okAnd (nodeAt w.store cid 1) fun vm =>
        decide (vl ≠ vb ∧ vr = vb ∧ vm ≠ vl)

theorem removalRun_resurrects :
    ∃ run w, removalRun.Returns {} run w ∧ resurrects run w = true := by
  have passed : removalRun.check {} resurrects = true := by decide +kernel
  exact Exec.exists_of_check passed

/-- A node removed on one side and untouched on the other is back in the merge. -/
theorem mergeThreeWay_breaks_rule : ∃ at_ cid w vb vl vr vm,
    removalRun.Returns {} (at_, .clean cid) w ∧ at_.lca = some at_.base ∧
      nodeAt w.store at_.base 1 = .ok vb ∧ nodeAt w.store at_.left 1 = .ok vl ∧
      nodeAt w.store at_.right 1 = .ok vr ∧ nodeAt w.store cid 1 = .ok vm ∧
      ¬ ThreeWayRule vb vl vr vm := by
  obtain ⟨⟨at_, out⟩, w, ran, passed⟩ := removalRun_resurrects
  simp only [resurrects, Bool.and_eq_true, decide_eq_true_eq, Option.any_eq_true] at passed
  obtain ⟨lca, cid, clean, passed⟩ := passed
  obtain rfl := MergeOutcome.eq_clean clean
  obtain ⟨vb, atBase, passed⟩ := Exec.exists_of_okAnd passed
  obtain ⟨vl, atLeft, passed⟩ := Exec.exists_of_okAnd passed
  obtain ⟨vr, atRight, passed⟩ := Exec.exists_of_okAnd passed
  obtain ⟨vm, atMerged, passed⟩ := Exec.exists_of_okAnd passed
  obtain ⟨changed, kept, lost⟩ := of_decide_eq_true passed
  exact ⟨at_, cid, w, vb, vl, vr, vm, ran, lca, atBase, atLeft, atRight, atMerged,
    fun rule => lost (rule.leftChanged changed kept)⟩

theorem mergeThreeWay_rule_iff_removal : ∃ (s s' : Store shortHashing) (left right base cid : ℕ)
    (nodes edges : Three (OrdMap ProllyKey ℕ)), BranchTrees s left right base nodes edges ∧
      ∃ mergedNodes mergedEdges, CommitTrees s' cid mergedNodes mergedEdges ∧
      (∀ k, ThreeWayRule (nodes.base.get? k) (nodes.left.get? k) (nodes.right.get? k)
          (mergedNodes.get? k) ↔
        Survives .manual (nodes.base.get? k) (nodes.left.get? k) (nodes.right.get? k)) ∧
      ∀ k, ThreeWayRule (edges.base.get? k) (edges.left.get? k) (edges.right.get? k)
          (mergedEdges.get? k) ↔
        Survives .manual (edges.base.get? k) (edges.left.get? k) (edges.right.get? k) := by
  obtain ⟨⟨at_, out⟩, w, ran, passed⟩ := removalRun_resurrects
  simp only [resurrects, Bool.and_eq_true, decide_eq_true_eq, Option.any_eq_true] at passed
  obtain ⟨lca, cid, clean, -⟩ := passed
  obtain rfl := MergeOutcome.eq_clean clean
  obtain ⟨s, b, l, r, gb, gl, gr, merged, forked⟩ := forkAndMerge_returns ran
  exact ⟨s, w.store, at_.left, at_.right, at_.base, cid, _, _, forked.branchTrees lca,
    mergeThreeWay_rule_iff (forked.branchTrees lca) merged⟩

end Mnem.Repo
