/-
# Repo.Completeness — what a clean manual merge says about the two sides

An entry is contested when both sides changed it, to different outcomes.  The
detector reports two different CIDs of one node, and different properties of
one `(src, dst, etype)` triple.  It passes over an entry that one side removed,
and over an edge that is not the last of its triple, or whose change is not one
of properties (`Reported`).  A clean merge leaves nothing contested exactly
when none of these occurs.
-/
import Mnem.Repo.ThreeWayLaw

namespace Mnem.Repo

open Theory Theory.Groups Prolly Index

set_option autoImplicit false
set_option linter.unusedSectionVars false

variable {Cid : Type} {H : Hashing Cid} [LinearOrder Cid]

/-- Both sides changed the entry, to two different outcomes. -/
def Contested (base left right : Option Cid) : Prop :=
  left ≠ base ∧ right ≠ base ∧ left ≠ right

/-- One side removed the entry that the other changed. -/
def ModifiedAndRemoved (base left right : Option Cid) : Prop :=
  Contested base left right ∧ (left = none ∨ right = none)

/-- The entries of the two sides at an edge id are what the detector compares: the last edges
of one triple on their sides, with other properties than each other and than the last such
edge of the base. -/
structure Reported (s : Store H) (edges : Three (OrdMap ProllyKey Cid)) (k : EdgeId)
    (l r : Edge Cid) : Prop where
  lastLeft : LastWith s edges.left (edgeKeyOf l) k l
  lastRight : LastWith s edges.right (edgeKeyOf l) k r
  differ : propsEq l.props r.props = false
  changed : ∀ k' b, LastWith s edges.base (edgeKeyOf l) k' b →
    propsEq b.props l.props = false ∧ propsEq b.props r.props = false

/-- No contested entry escapes the detector. -/
structure Detectable (s : Store H) (nodes edges : Three (OrdMap ProllyKey Cid)) : Prop where
  nodesKept : ∀ k, ¬ ModifiedAndRemoved (nodes.base.get? k) (nodes.left.get? k) (nodes.right.get? k)
  edgesKept : ∀ k, ¬ ModifiedAndRemoved (edges.base.get? k) (edges.left.get? k) (edges.right.get? k)
  edgesReported : ∀ k cl cr, edges.left.get? k = some cl → edges.right.get? k = some cr →
    Contested (edges.base.get? k) (some cl) (some cr) → ∃ l r, Reported s edges k l r

section Store

variable {s : Store H} {commit : Cid}

/-- What is written for the detector is a view and an operation. -/
theorem loads_of_detectionStore {cid : Cid} {e : Edge Cid}
    (loads : (detectionStore s commit).Loads cid e) : s.Loads cid e :=
  Store.loads_of_insert rfl (Store.loads_of_insert rfl loads)

theorem lastWith_detectionStore {m : OrdMap ProllyKey Cid} {key : EdgeKey} {k : ProllyKey}
    {e : Edge Cid} : LastWith (detectionStore s commit) m key k e ↔ LastWith s m key k e := by
  have le := le_detectionStore s commit
  constructor
  · rintro ⟨⟨cid, found, loads⟩, triple, last⟩
    exact ⟨⟨cid, found, loads_of_detectionStore loads⟩, triple,
      fun k' cid' e' found' loads' => last k' cid' e' found' (loads'.mono le)⟩
  · rintro ⟨⟨cid, found, loads⟩, triple, last⟩
    exact ⟨⟨cid, found, loads.mono le⟩, triple,
      fun k' cid' e' found' loads' => last k' cid' e' found' (loads_of_detectionStore loads')⟩

end Store

section Complete

variable {s s' : Store H} {left right base cid : Cid}
  {nodes edges : Three (OrdMap ProllyKey Cid)}

theorem nodeDiverges_of_contested {b l r : Option Cid} (contested : Contested b l r)
    (kept : ¬ ModifiedAndRemoved b l r) : NodeDiverges l r b := by
  obtain ⟨leftChanged, rightChanged, differ⟩ := contested
  cases l with
  | none => exact absurd ⟨⟨leftChanged, rightChanged, differ⟩, .inl rfl⟩ kept
  | some lc =>
      cases r with
      | none => exact absurd ⟨⟨leftChanged, rightChanged, differ⟩, .inr rfl⟩ kept
      | some rc =>
          exact ⟨lc, rc, rfl, rfl, fun same => differ (congrArg some same), Ne.symm leftChanged,
            Ne.symm rightChanged⟩

/-- A reported pair of edges collides at its triple. -/
theorem Reported.collides {k : EdgeId} {l r : Edge Cid} (reported : Reported s edges k l r)
    {leftRows rightRows baseRows : List (Row Cid (Edge Cid))}
    (leftReads : ReadsRows s edges.left.entries leftRows)
    (rightReads : ReadsRows s edges.right.entries rightRows)
    (baseReads : ReadsRows s edges.base.entries baseRows) :
    EdgeCollides ((edgeProps leftRows).get? (edgeKeyOf l)) ((edgeProps rightRows).get? (edgeKeyOf l))
      ((edgeProps baseRows).get? (edgeKeyOf l)) := by
  refine ⟨l.props, r.props, (get?_edgeProps leftReads).mpr ⟨k, l, reported.lastLeft, rfl⟩,
    (get?_edgeProps rightReads).mpr ⟨k, r, reported.lastRight, rfl⟩, reported.differ, ?_⟩
  intro p found
  obtain ⟨k', b, last, rfl⟩ := (get?_edgeProps baseReads).mp found
  exact reported.changed k' b last

/-- What the detector collected from two branches. -/
structure Collected (s : Store H) (nodes edges : Three (OrdMap ProllyKey Cid)) (sides : Sides Cid) :
    Prop where
  leftNodes : sides.leftNodes = nodes.left
  rightNodes : sides.rightNodes = nodes.right
  baseNodes : sides.baseNodes = nodes.base
  leftEdges : ∃ rows, ReadsRows s edges.left.entries rows ∧ sides.leftEdges = edgeProps rows
  rightEdges : ∃ rows, ReadsRows s edges.right.entries rows ∧ sides.rightEdges = edgeProps rows
  baseEdges : ∃ rows, ReadsRows s edges.base.entries rows ∧ sides.baseEdges = edgeProps rows

theorem BranchTrees.collected (branches : BranchTrees s left right base nodes edges) {lca : Cid}
    {l r b : Commit Cid} {sides : Sides Cid} (diverged : Diverged s left right lca l r b sides) :
    Collected (detectionStore s left) nodes edges sides := by
  obtain ⟨l', leftLoads, leftHolds⟩ := branches.atLeft
  obtain ⟨r', rightLoads, rightHolds⟩ := branches.atRight
  obtain ⟨b', baseLoads, baseHolds⟩ := branches.atBase
  obtain rfl := leftLoads.unique diverged.leftLoads
  obtain rfl := rightLoads.unique diverged.rightLoads
  have same := branches.ancestor.symm.trans diverged.ancestor
  obtain rfl : base = lca := Option.some.inj (Except.ok.inj same)
  have le := le_detectionStore s left
  obtain rfl := (baseLoads.mono le).unique diverged.lcaLoads
  have reads := diverged.reads
  have collected : ∀ {root : Cid} {m m' : OrdMap ProllyKey Cid}, IsTree s root m →
      collectProlly (detectionStore s left) root = .ok m' → m' = m := fun tree ran =>
    (Except.ok.inj ((collectProlly_of_isTree (tree.mono le)).symm.trans ran)).symm
  exact ⟨collected leftHolds.nodes reads.leftNodes, collected rightHolds.nodes reads.rightNodes,
    collected baseHolds.nodes reads.baseNodes,
    rows_of_collectEdges (leftHolds.edges.mono le) reads.leftEdges,
    rows_of_collectEdges (rightHolds.edges.mono le) reads.rightEdges,
    rows_of_collectEdges (baseHolds.edges.mono le) reads.baseEdges⟩

/-- A clean manual merge found no divergent node and no reported edge. -/
theorem nothing_found_of_clean (branches : BranchTrees s left right base nodes edges)
    (ran : (mergeThreeWay left right .manual : StoreM H _).Returns s (.clean cid) s') :
    (∀ k, ¬ NodeDiverges (nodes.left.get? k) (nodes.right.get? k) (nodes.base.get? k)) ∧
      ∀ k l r, ¬ Reported s edges k l r := by
  cases mergeThreeWay_returns ran with
  | clean diverged passed _ =>
      have collected := branches.collected diverged
      obtain ⟨noNodes, noEdges⟩ := foundConflicts_eq_nil.mp (passed rfl)
      rw [collected.leftNodes, collected.rightNodes, collected.baseNodes] at noNodes
      refine ⟨noNodes, fun k el er reported => ?_⟩
      obtain ⟨leftRows, leftReads, leftProps⟩ := collected.leftEdges
      obtain ⟨rightRows, rightReads, rightProps⟩ := collected.rightEdges
      obtain ⟨baseRows, baseReads, baseProps⟩ := collected.baseEdges
      have later : Reported (detectionStore s left) edges k el er :=
        ⟨lastWith_detectionStore.mpr reported.lastLeft,
          lastWith_detectionStore.mpr reported.lastRight, reported.differ,
          fun k' eb last => reported.changed k' eb (lastWith_detectionStore.mp last)⟩
      have collides := later.collides leftReads rightReads baseReads
      rw [← leftProps, ← rightProps, ← baseProps] at collides
      exact noEdges _ collides

/-- **Completeness**: after a clean manual merge nothing was contested if and only if every
contested entry was one that the detector sees. -/
theorem mergeThreeWay_complete_iff (branches : BranchTrees s left right base nodes edges)
    (ran : (mergeThreeWay left right .manual : StoreM H _).Returns s (.clean cid) s') :
    ((∀ k, ¬ Contested (nodes.base.get? k) (nodes.left.get? k) (nodes.right.get? k)) ∧
      ∀ k, ¬ Contested (edges.base.get? k) (edges.left.get? k) (edges.right.get? k)) ↔
      Detectable s nodes edges := by
  obtain ⟨noNodes, noEdges⟩ := nothing_found_of_clean branches ran
  constructor
  · rintro ⟨nodesAgree, edgesAgree⟩
    refine ⟨fun k bad => nodesAgree k bad.1, fun k bad => edgesAgree k bad.1, ?_⟩
    intro k cl cr atLeft atRight contested
    rw [← atLeft, ← atRight] at contested
    exact absurd contested (edgesAgree k)
  · rintro ⟨nodesKept, edgesKept, edgesReported⟩
    refine ⟨fun k contested => ?_, fun k contested => ?_⟩
    · exact noNodes k (nodeDiverges_of_contested contested (nodesKept k))
    · obtain ⟨cl, cr, atLeft, atRight, -⟩ := nodeDiverges_of_contested contested (edgesKept k)
      rw [atLeft, atRight] at contested
      obtain ⟨l, r, reported⟩ := edgesReported k cl cr atLeft atRight contested
      exact noEdges k l r reported

end Complete

/-! ## Parallel edges -/

/-- The value of a commit's edge tree at a key. -/
def edgeAt (s : Store H) (commit : Cid) (k : EdgeId) : Except (Error Cid) (Option Cid) := do
  let c ← s.decodeFromStore (Commit Cid) commit
  lookup s c.edges k

def knows (id : EdgeId) (since : String) : Edge ℕ :=
  { id := id, etype := "k", src := 1, dst := 2, props := OrdMap.ofList [("s", .string since)] }

/-- Both branches edit the first of two parallel edges, in different ways. -/
def parallelRun : WorldM shortHashing (Branches ℕ × MergeOutcome ℕ) :=
  forkAndMerge
    [.addNode (person 1 "Ada"), .addNode (person 2 "Bob"), .addEdge (knows 1 "a"),
      .addEdge (knows 2 "a")]
    [.addEdge (knows 1 "b")] [.addEdge (knows 1 "c")] .manual

/-- The merge is clean, and the first edge is contested. -/
def edgeContested (run : Branches ℕ × MergeOutcome ℕ) (w : World shortHashing) : Bool :=
  run.1.lca = some run.1.base && run.2.clean?.isSome &&
    Exec.okAnd (edgeAt w.store run.1.base 1) fun b => Exec.okAnd (edgeAt w.store run.1.left 1) fun l =>
      Exec.okAnd (edgeAt w.store run.1.right 1) fun r => decide (l ≠ b ∧ r ≠ b ∧ l ≠ r)

theorem parallelRun_contested :
    ∃ at_ cid w, parallelRun.Returns {} (at_, .clean cid) w ∧ at_.lca = some at_.base ∧
      ∃ b l r, edgeAt w.store at_.base 1 = .ok b ∧ edgeAt w.store at_.left 1 = .ok l ∧
        edgeAt w.store at_.right 1 = .ok r ∧ l ≠ b ∧ r ≠ b ∧ l ≠ r := by
  have passed : parallelRun.check {} edgeContested = true := by decide +kernel
  obtain ⟨⟨at_, out⟩, w, ran, passed⟩ := Exec.exists_of_check passed
  simp only [edgeContested, Bool.and_eq_true, decide_eq_true_eq, Option.isSome_iff_exists] at passed
  obtain ⟨⟨lca, cid, clean⟩, passed⟩ := passed
  obtain rfl := MergeOutcome.eq_clean clean
  obtain ⟨b, atBase, passed⟩ := Exec.exists_of_okAnd passed
  obtain ⟨l, atLeft, passed⟩ := Exec.exists_of_okAnd passed
  obtain ⟨r, atRight, passed⟩ := Exec.exists_of_okAnd passed
  exact ⟨at_, cid, w, ran, lca, b, l, r, atBase, atLeft, atRight, of_decide_eq_true passed⟩

/-- A clean merge of two branches that changed one edge to two different CIDs. -/
theorem mergeThreeWay_incomplete : ∃ at_ cid w b l r,
    parallelRun.Returns {} (at_, .clean cid) w ∧ at_.lca = some at_.base ∧
      edgeAt w.store at_.base 1 = .ok b ∧ edgeAt w.store at_.left 1 = .ok l ∧
      edgeAt w.store at_.right 1 = .ok r ∧ Contested b l r := by
  obtain ⟨at_, cid, w, ran, lca, b, l, r, atBase, atLeft, atRight, contested⟩ :=
    parallelRun_contested
  exact ⟨at_, cid, w, b, l, r, ran, lca, atBase, atLeft, atRight, contested⟩

theorem mergeThreeWay_complete_iff_parallel : ∃ (s : Store shortHashing) (left right base : ℕ)
    (nodes edges : Three (OrdMap ProllyKey ℕ)), BranchTrees s left right base nodes edges ∧
      (((∀ k, ¬ Contested (nodes.base.get? k) (nodes.left.get? k) (nodes.right.get? k)) ∧
        ∀ k, ¬ Contested (edges.base.get? k) (edges.left.get? k) (edges.right.get? k)) ↔
        Detectable s nodes edges) := by
  obtain ⟨at_, cid, w, ran, lca, -⟩ := parallelRun_contested
  obtain ⟨s, b, l, r, gb, gl, gr, merged, forked⟩ := forkAndMerge_returns ran
  exact ⟨s, at_.left, at_.right, at_.base, _, _, forked.branchTrees lca,
    mergeThreeWay_complete_iff (forked.branchTrees lca) merged⟩

end Mnem.Repo
