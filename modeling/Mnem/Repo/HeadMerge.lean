/-
# Repo.HeadMerge — what opening a repository returns

Over good operations with a common ancestor, a merge of operation heads always
returns.  The merge operation has exactly the merged heads as its parents, and
its commit is the merge of theirs (`MergedHeads`).  Opening at several heads
merges them; opening at one loads it and writes nothing (`Opened`).
-/
import Mnem.Repo.MergeView
import Mnem.Theory.Frontier

namespace Mnem.Repo

open Theory Prolly Index

set_option autoImplicit false
set_option linter.unusedSectionVars false

variable {Cid : Type} {H : Hashing Cid} [LinearOrder Cid]

/-! ## The history of an operation -/

/-- `p` is a parent of the operation at `c`, as its content has it. -/
def OpParent (H : Hashing Cid) (c p : Cid) : Prop :=
  ∃ op : Operation Cid, H.cidOf (Object.toBlock op) = c ∧ p ∈ op.parents

section History

variable {P : Graph Cid → Prop} {s : Store H} {c p a : Cid}

theorem opParent_iff {op : Operation Cid} (address : H.cidOf (Object.toBlock op) = c) :
    OpParent H c p ↔ p ∈ op.parents := by
  constructor
  · rintro ⟨op', address', member⟩
    obtain rfl := Store.toBlock_injective (H.cidOf_injective (address'.trans address.symm))
    exact member
  · exact fun member => ⟨op, address, member⟩

theorem parent_iff {op : Operation Cid} (loads : s.Loads c op) :
    Parent (operationParents s) c p ↔ p ∈ op.parents := by
  constructor
  · rintro ⟨ps, found, member⟩
    obtain ⟨op', loads', rfl⟩ := Exec.map_eq_ok.mp found
    obtain rfl := loads.unique loads'
    exact member
  · exact fun member => ⟨op.parents, Exec.map_eq_ok.mpr ⟨op, loads, rfl⟩, member⟩

theorem opParent_of_parent (link : Parent (operationParents s) c p) : OpParent H c p := by
  obtain ⟨ps, found, member⟩ := link
  obtain ⟨op, loads, rfl⟩ := Exec.map_eq_ok.mp found
  exact ⟨op, Store.Loads.cidOf loads, member⟩

/-- The parents of a good operation are stored with it, and good. -/
theorem GoodOp.parent (good : GoodOp P s c) (link : OpParent H c p) :
    Parent (operationParents s) c p ∧ GoodOp P s p := by
  cases good with
  | intro op view loads _ _ parents =>
      have member := (opParent_iff loads.cidOf).mp link
      exact ⟨(parent_iff loads).mpr member, parents p member⟩

theorem GoodOp.path (good : GoodOp P s c) (path : Relation.ReflTransGen (OpParent H) c a) :
    Relation.ReflTransGen (Parent (operationParents s)) c a ∧ GoodOp P s a := by
  induction path with
  | refl => exact ⟨.refl, good⟩
  | tail _ link ih =>
      obtain ⟨stored, here⟩ := ih
      obtain ⟨step, next⟩ := here.parent link
      exact ⟨stored.tail step, next⟩

/-- A good operation has a well-founded history. -/
theorem GoodOp.grounded (good : GoodOp P s c) : Acc (flip (OpParent H)) c := by
  induction good with
  | intro op view loads _ _ _ ih =>
      exact Frontier.acc_of_parents fun p link => ih p ((opParent_iff loads.cidOf).mp link)

/-- The good operations form a stored DAG. -/
theorem goodOp_dag (P : Graph Cid → Prop) (s : Store H) :
    Dag s (operationParents s) (GoodOp P s) where
  closed c good := by
    cases good with
    | intro op view loads _ _ parents =>
        refine ⟨op.parents, Object.toBlock op, Exec.map_eq_ok.mpr ⟨op, loads, rfl⟩, parents,
          Store.loads_iff.mp loads, ?_⟩
        simp [Object.toBlock, Block.links]
  acyclic c good cycle :=
    Frontier.acyclic_of_acc good.grounded
      (Relation.TransGen.mono (fun _ _ link => opParent_of_parent link) _ _ cycle)

end History

/-! ## Loading the heads -/

section Load

variable {P : Graph Cid → Prop} {s : Store H} {heads : List Cid}

/-- A loaded head of a good operation. -/
structure LoadedGood (P : Graph Cid → Prop) (s : Store H) (head : Cid) (l : LoadedHead Cid) :
    Prop where
  op : s.Loads head l.op
  view : s.Loads l.op.view l.view
  heads : ∀ c ∈ l.view.heads, GoodCommit P s c
  commit : l.view.heads.head?.elim (l.commit = none)
    fun cid => ∃ commit, l.commit = some (cid, commit) ∧ s.Loads cid commit

theorem exists_loadHead {head : Cid} (good : GoodOp P s head) :
    ∃ l, loadHead s head = .ok l ∧ LoadedGood P s head l := by
  cases good with
  | intro op view loads viewLoads heads _ =>
      unfold loadHead
      cases first : view.heads.head? with
      | none =>
          refine ⟨⟨op, view, none⟩, ?_, loads, viewLoads, heads, ?_⟩
          · refine Exec.bind_eq_ok.mpr ⟨op, loads, Exec.bind_eq_ok.mpr ⟨view, viewLoads, ?_⟩⟩
            rw [first]
            rfl
          · rw [first]
            rfl
      | some cid =>
          obtain ⟨commit, g, commitLoads, -, -⟩ := heads cid (List.mem_of_head? first)
          refine ⟨⟨op, view, some (cid, commit)⟩, ?_, loads, viewLoads, heads, ?_⟩
          · refine Exec.bind_eq_ok.mpr ⟨op, loads, Exec.bind_eq_ok.mpr ⟨view, viewLoads, ?_⟩⟩
            rw [first]
            exact Exec.bind_eq_ok.mpr ⟨commit, commitLoads, rfl⟩
          · rw [first]
            exact ⟨commit, rfl, commitLoads⟩

/-- The commit of a loaded head holds a graph with the property. -/
theorem LoadedGood.holds {head : Cid} {l : LoadedHead Cid} (loaded : LoadedGood P s head l)
    {p : Cid × Commit Cid} (has : l.commit = some p) :
    ∃ h, CommitHolds s p h ∧ P h.2 := by
  have byHead := loaded.commit
  cases first : l.view.heads.head? with
  | none =>
      rw [first] at byHead
      rw [show l.commit = none from byHead] at has
      cases has
  | some cid =>
      rw [first] at byHead
      obtain ⟨commit, here, loads⟩ := byHead
      obtain rfl := Option.some.inj (here.symm.trans has)
      obtain ⟨commit', g, loads', stands, property⟩ := loaded.heads cid (List.mem_of_head? first)
      obtain rfl := loads.unique loads'
      exact ⟨(cid, g), ⟨rfl, loads, stands⟩, property⟩

theorem LoadedGood.unique {head : Cid} {l l' : LoadedHead Cid} (loaded : LoadedGood P s head l)
    (loaded' : LoadedGood P s head l') : l = l' := by
  obtain ⟨op, view, commit⟩ := l
  obtain ⟨op', view', commit'⟩ := l'
  obtain ⟨opLoads, viewLoads, -, byHead⟩ := loaded
  obtain ⟨opLoads', viewLoads', -, byHead'⟩ := loaded'
  dsimp only at *
  obtain rfl := opLoads.unique opLoads'
  obtain rfl := viewLoads.unique viewLoads'
  cases first : view.heads.head? with
  | none =>
      rw [first] at byHead byHead'
      obtain rfl : commit = none := byHead
      obtain rfl : commit' = none := byHead'
      rfl
  | some cid =>
      rw [first] at byHead byHead'
      obtain ⟨c, rfl, loads⟩ := byHead
      obtain ⟨c', rfl, loads'⟩ := byHead'
      rw [loads.unique loads']

theorem LoadedGood.loadHead_eq {head : Cid} {l : LoadedHead Cid} (loaded : LoadedGood P s head l)
    (good : GoodOp P s head) : loadHead s head = .ok l := by
  obtain ⟨l', read, loaded'⟩ := exists_loadHead good
  rw [read, loaded.unique loaded']

/-- A loaded head has the commit of the repository that is pinned to it. -/
theorem LoadedGood.commit_eq {r : ReadonlyRepo Cid} {g : Graph Cid} {l : LoadedHead Cid}
    (loaded : LoadedGood P s r.opId l) (pinned : Pinned P s r g) : l.commit.map Prod.snd = r.commit := by
  obtain ⟨opLoads, viewLoads, -, byHead⟩ := loaded
  rw [opLoads.unique pinned.op] at viewLoads
  have sameView := viewLoads.unique pinned.view
  have byHead' := pinned.commit
  rw [sameView] at byHead
  cases first : r.view.heads.head? with
  | none =>
      rw [first] at byHead byHead'
      rw [show l.commit = none from byHead, show r.commit = none from byHead']
      rfl
  | some head =>
      rw [first] at byHead byHead'
      obtain ⟨c, here, loads⟩ := byHead
      obtain ⟨c', here', loads'⟩ := byHead'
      obtain rfl := loads.unique loads'
      rw [here, here']
      rfl

/-- The commits of loaded heads hold graphs with the property. -/
theorem exists_held {loaded : List (LoadedHead Cid)}
    (each : List.Forall₂ (LoadedGood P s) heads loaded) :
    ∃ held, List.Forall₂ (CommitHolds s) ((loaded.map LoadedHead.commit).filterMap id) held ∧
      ∀ h ∈ held, P h.2 := by
  induction each with
  | nil => exact ⟨[], .nil, by simp⟩
  | @cons head l _ _ here _ ih =>
      obtain ⟨held, holds, property⟩ := ih
      cases has : l.commit with
      | none =>
          refine ⟨held, ?_, property⟩
          rw [List.map_cons, has]
          exact holds
      | some p =>
          obtain ⟨h, first, good⟩ := here.holds has
          refine ⟨h :: held, ?_, List.forall_mem_cons.mpr ⟨good, property⟩⟩
          rw [List.map_cons, has]
          exact .cons first holds

/-- The ancestor's view can be read when the heads have a common ancestor. -/
theorem exists_ancestorView {root : Cid} (good : ∀ h ∈ heads, GoodOp P s h) (nonempty : heads ≠ [])
    (rooted : ∀ h ∈ heads, Relation.ReflTransGen (OpParent H) h root) :
    ∃ view viewCid, ancestorView s heads = .ok view ∧ s.Loads viewCid view ∧
      ∀ c ∈ view.heads, GoodCommit P s c := by
  obtain ⟨out, found, isLca⟩ := findLcaMany_isLca (goodOp_dag P s) nonempty good
  cases out with
  | none =>
      have common : CommonAncestor (operationParents s) heads root :=
        fun h m => ((good h m).path (rooted h m)).1
      exact absurd ⟨root, common⟩ (isLca.absent.mp rfl)
  | some ancestor =>
      obtain ⟨h, m⟩ := List.exists_mem_of_ne_nil _ nonempty
      have path := (isLca.least ancestor rfl).1.1 h m
      have inside := (goodOp_dag P s).ancestor (good h m) path
      cases inside with
      | intro op view loads viewLoads heads _ =>
          refine ⟨view, op.view, ?_, viewLoads, heads⟩
          unfold ancestorView
          refine Exec.bind_eq_ok.mpr ⟨some ancestor, found, ?_⟩
          exact Exec.bind_eq_ok.mpr ⟨op, loads, viewLoads⟩

end Load

/-! ## The merged view -/

section View

variable {s : Store H}

/-- A merge of stored views has an encoding. -/
theorem mergeViews_encodes {ancestor : View Cid} {views : List (View Cid)} {ancestorCid : Cid}
    (stored : s.Loads ancestorCid ancestor) (each : ∀ v ∈ views, ∃ cid, s.Loads cid v)
    (heads : List Cid) :
    H.encodes (Object.toBlock { mergeViews ancestor views with heads := heads }) = true := by
  refine Bool.and_eq_true_iff.mpr ⟨List.all_eq_true.mpr fun v member => ?_, rfl⟩
  change v ∈ (mergeViews ancestor views).extra.values at member
  obtain ⟨⟨key, _⟩, inEntries, rfl⟩ := List.mem_map.mp member
  have found := (OrdMap.get?_eq_some_iff _).mpr inEntries
  rw [mergeViews, get?_foldl_insertAll View.extra, Option.or_eq_some_iff] at found
  rcases found with fromHead | ⟨-, fromAncestor⟩
  · obtain ⟨view, inViews, here⟩ := List.exists_of_findSome?_eq_some fromHead
    obtain ⟨cid, loads⟩ := each view (List.mem_reverse.mp inViews)
    exact accepted_of_loads loads here
  · exact accepted_of_loads stored fromAncestor

theorem mem_mergeViews_heads {ancestor : View Cid} {views : List (View Cid)} {c : Cid} :
    c ∈ (mergeViews ancestor views).heads ↔ c ∈ ancestor.heads ∨ ∃ v ∈ views, c ∈ v.heads := by
  change c ∈ OrdMap.keys (List.foldl OrdSet.add (OrdMap.empty : OrdSet Cid) _) ↔ _
  rw [OrdSet.mem_keys, OrdSet.mem_addAll, List.mem_append, List.mem_flatMap]
  simp

end View

/-! ## The merge operation -/

section Merge

variable {P : Graph Cid → Prop} {s s' : Store H} {heads : List Cid}

/-- A merge of graphs with the property has it. -/
def MergesKeep (P : Graph Cid → Prop) : Prop :=
  ∀ held : List (Cid × Graph Cid), (∀ h ∈ held, P h.2) → P (mergedGraph held)

/-- What a merge of heads writes: an operation whose parents are the heads, and whose commit
merges their commits. -/
structure MergedHeads (P : Graph Cid → Prop) (s s' : Store H) (heads : List Cid)
    (loaded : List (LoadedHead Cid)) (held : List (Cid × Graph Cid)) (out : Option Cid)
    (opCid : Cid) : Prop where
  grows : s ≤ s'
  loadedGood : List.Forall₂ (LoadedGood P s) heads loaded
  holds : List.Forall₂ (CommitHolds s) ((loaded.map LoadedHead.commit).filterMap id) held
  property : ∀ h ∈ held, P h.2
  op : ∃ (op : Operation Cid) (view : View Cid), s'.Loads opCid op ∧ op.parents = heads ∧
    s'.Loads op.view view ∧ ∀ cid, out = some cid → view.heads = [cid]
  result : MergeResult s s' ((loaded.map LoadedHead.commit).filterMap id) held out
  stands : ∀ cid, out = some cid → ∃ commit, s'.Loads cid (commit : Commit Cid) ∧
    Stands s' commit (mergedGraph held)
  good : GoodOp P s' opCid

/-- Merging good heads with a common ancestor returns. -/
theorem writeMerge_succeeds {root : Cid} (keeps : MergesKeep P) (good : ∀ h ∈ heads, GoodOp P s h)
    (nonempty : heads ≠ []) (rooted : ∀ h ∈ heads, Relation.ReflTransGen (OpParent H) h root) :
    (writeMerge heads : StoreM H _).Succeeds s fun opCid s' =>
      ∃ loaded held out, MergedHeads P s s' heads loaded held out opCid := by
  have each : ∀ h ∈ heads, ∃ l, loadHead s h = .ok l ∧ LoadedGood P s h l :=
    fun h m => exists_loadHead (good h m)
  obtain ⟨loaded, read, loadedGood⟩ := Exec.exists_mapM each
  obtain ⟨held, holds, property⟩ := exists_held loadedGood
  obtain ⟨ancestor, ancestorCid, readAncestor, ancestorLoads, ancestorHeads⟩ :=
    exists_ancestorView good nonempty rooted
  refine Exec.succeeds_read_bind read ?_
  refine Exec.succeeds_read_bind readAncestor ?_
  refine Exec.succeeds_bind (buildMergeCommit_succeeds holds) ?_
  rintro out s₁ ⟨le₁, result, stands⟩
  have stored : ∀ v ∈ loaded.map LoadedHead.view, ∃ cid, s₁.Loads cid v := by
    intro v m
    obtain ⟨l, inLoaded, rfl⟩ := List.mem_map.mp m
    obtain ⟨h, -, here⟩ := Exec.exists_left_of_forall₂ loadedGood inLoaded
    exact ⟨_, here.view.mono le₁⟩
  refine Exec.succeeds_bind (putObject_succeeds
    (mergeViews_encodes (ancestorLoads.mono le₁) stored _) s₁) ?_
  rintro viewCid s₂ ⟨-, le₂, viewLoads⟩
  refine (putObject_succeeds rfl s₂).mono ?_
  rintro opCid s₃ ⟨-, le₃, opLoads⟩
  have after := le₂.trans le₃
  have le := le₁.trans after
  have resultLater : MergeResult s s₃ ((loaded.map LoadedHead.commit).filterMap id) held out := by
    cases result with
    | empty nothing => exact .empty nothing
    | same first rest shape one => exact .same first rest shape one
    | union first rest shape several cid idx loads index =>
        exact .union first rest shape several cid idx (loads.mono after) index
  have standsLater : ∀ cid, out = some cid → ∃ commit, s₃.Loads cid (commit : Commit Cid) ∧
      Stands s₃ commit (mergedGraph held) := by
    intro cid at_cid
    obtain ⟨commit, loads, holdsMerged⟩ := stands cid at_cid
    exact ⟨commit, loads.mono after, holdsMerged.mono after⟩
  refine ⟨loaded, held, out, le, loadedGood, holds, property,
    ⟨_, _, opLoads, rfl, viewLoads.mono le₃, ?_⟩, resultLater, standsLater, ?_⟩
  · rintro cid rfl
    rfl
  · refine .intro _ _ opLoads (viewLoads.mono le₃) (fun c member => ?_) fun p m => (good p m).mono le
    cases out with
    | some cid =>
        obtain rfl := List.mem_singleton.mp member
        obtain ⟨commit, loads, holdsMerged⟩ := standsLater c rfl
        exact ⟨commit, _, loads, holdsMerged, keeps held property⟩
    | none =>
        rcases mem_mergeViews_heads.mp member with inAncestor | ⟨v, inViews, inHeads⟩
        · exact (ancestorHeads c inAncestor).mono le
        · obtain ⟨l, inLoaded, rfl⟩ := List.mem_map.mp inViews
          obtain ⟨h, -, here⟩ := Exec.exists_left_of_forall₂ loadedGood inLoaded
          exact (here.heads c inHeads).mono le

/-- The repository at a merge operation is at the merge commit. -/
theorem MergedHeads.head {loaded : List (LoadedHead Cid)} {held : List (Cid × Graph Cid)}
    {cid : Cid} {r : ReadonlyRepo Cid} {g : Graph Cid}
    (merged : MergedHeads P s s' heads loaded held (some cid) r.opId) (pinned : Pinned P s' r g) :
    ∃ commit, r.commit = some commit ∧ s'.Loads cid commit ∧
      Stands s' commit (mergedGraph held) := by
  obtain ⟨op, view, opLoads, -, viewLoads, viewHeads⟩ := merged.op
  obtain rfl := pinned.op.unique opLoads
  obtain rfl := pinned.view.unique viewLoads
  have byHead := pinned.commit
  rw [viewHeads cid rfl] at byHead
  obtain ⟨commit, head, loads⟩ := byHead
  obtain ⟨commit', loads', stands⟩ := merged.stands cid rfl
  obtain rfl := loads.unique loads'
  exact ⟨commit, head, loads, stands⟩

/-- What a merge of good heads that returned has done. -/
theorem writeMerge_returns {opCid : Cid} (keeps : MergesKeep P) (good : ∀ h ∈ heads, GoodOp P s h)
    (nonempty : heads ≠ []) (ran : (writeMerge heads : StoreM H _).Returns s opCid s') :
    ∃ loaded held out, MergedHeads P s s' heads loaded held out opCid := by
  obtain ⟨root, rooted⟩ : ∃ root, ∀ h ∈ heads, Relation.ReflTransGen (OpParent H) h root := by
    obtain ⟨_, s₁, readHeads, rest⟩ := Exec.returns_bind.mp ran
    obtain ⟨-, rfl⟩ := Exec.returns_read.mp readHeads
    obtain ⟨_, s₂, readAncestor, -⟩ := Exec.returns_bind.mp rest
    obtain ⟨ancestor, -⟩ := Exec.returns_read.mp readAncestor
    obtain ⟨out, found, ancestor⟩ := Exec.bind_eq_ok.mp ancestor
    cases out with
    | none => cases ancestor
    | some a =>
        obtain ⟨out, found', isLca⟩ := findLcaMany_isLca (goodOp_dag P s) nonempty good
        obtain rfl := Except.ok.inj (found.symm.trans found')
        refine ⟨a, fun h m => ?_⟩
        exact Relation.ReflTransGen.mono (fun _ _ link => opParent_of_parent link) _ _
          ((isLca.least a rfl).1.1 h m)
  exact (writeMerge_succeeds keeps good nonempty rooted).of_returns ran

end Merge

/-! ## Open -/

section Open

variable {P : Graph Cid → Prop} {w w' : World H} {heads : List Cid} {r : ReadonlyRepo Cid}

/-- What opening at some heads has done. -/
inductive Opened (P : Graph Cid → Prop) (w : World H) (heads : List Cid) (r : ReadonlyRepo Cid) :
    World H → Prop where
  | single {g : Graph Cid} (alone : heads = [r.opId]) (pinned : Pinned P w.store r g) :
      Opened P w heads r w
  | merged {w' : World H} {g : Graph Cid} {loaded : List (LoadedHead Cid)}
      {held : List (Cid × Graph Cid)} {out : Option Cid} (several : 2 ≤ heads.length)
      (merged : MergedHeads P w.store w'.store (heads.insertionSort (· ≤ ·)) loaded held out r.opId)
      (pinned : Pinned P w'.store r g)
      (advanced : w'.opHeads = OpHeads.update w.opHeads r.opId (heads.insertionSort (· ≤ ·))) :
      Opened P w heads r w'

theorem Opened.grows (opened : Opened P w heads r w') : w ≤ w' := by
  cases opened with
  | single _ _ => exact le_refl w
  | merged _ merged _ _ => exact merged.grows

theorem Opened.pinned (opened : Opened P w heads r w') : ∃ g, Pinned P w'.store r g := by
  cases opened with
  | single _ pinned => exact ⟨_, pinned⟩
  | merged _ _ pinned _ => exact ⟨_, pinned⟩

/-- Opening at good heads with a common ancestor returns. -/
theorem openAt_succeeds {root : Cid} (keeps : MergesKeep P) (good : ∀ h ∈ heads, GoodOp P w.store h)
    (nonempty : heads ≠ []) (rooted : ∀ h ∈ heads, Relation.ReflTransGen (OpParent H) h root) :
    (openAt heads : WorldM H _).Succeeds w (Opened P w heads) := by
  match heads, nonempty with
  | [head], _ =>
      obtain ⟨r, g, loaded, at_op, pinned⟩ := loadAt_of_good (good head List.mem_cons_self)
      refine ⟨r, w, returns_onStore.mpr ⟨Exec.returns_read.mpr ⟨loaded, rfl⟩, rfl⟩, ?_⟩
      exact .single (congrArg (fun c => [c]) at_op.symm) pinned
  | h :: h' :: hs, _ =>
      have sortedMem : ∀ c, c ∈ (h :: h' :: hs).insertionSort (· ≤ ·) ↔ c ∈ h :: h' :: hs :=
        fun c => List.mem_insertionSort _
      have nonempty : (h :: h' :: hs).insertionSort (· ≤ ·) ≠ [] :=
        List.ne_nil_of_mem ((sortedMem h).mpr List.mem_cons_self)
      obtain ⟨opCid, s', wrote, loaded, held, out, merged⟩ :=
        writeMerge_succeeds keeps (fun c m => good c ((sortedMem c).mp m)) nonempty
          fun c m => rooted c ((sortedMem c).mp m)
      obtain ⟨r, g, at_op, rfl, pinned⟩ := loadAt_of_good merged.good
      let w' : World H :=
        ⟨s', OpHeads.update w.opHeads r.opId ((h :: h' :: hs).insertionSort (· ≤ ·))⟩
      refine ⟨r, w', ?_, .merged (by simp) merged pinned rfl⟩
      refine Exec.returns_bind.mpr ⟨r.opId, w', ?_, ?_⟩
      · refine Exec.returns_bind.mpr ⟨r.opId, { w with store := s' },
          returns_onStore.mpr ⟨wrote, rfl⟩, ?_⟩
        exact Exec.returns_bind.mpr ⟨(), w', returns_updateHeads.mpr rfl,
          Exec.returns_pure.mpr ⟨rfl, rfl⟩⟩
      · exact returns_onStore.mpr ⟨Exec.returns_read.mpr ⟨at_op, rfl⟩, rfl⟩

/-- Opening an initialised repository whose heads are good and have a common ancestor returns. -/
theorem openRepo_succeeds {root : Cid} (keeps : MergesKeep P)
    (good : ∀ h ∈ w.opHeads, GoodOp P w.store h) (nonempty : ∃ h, h ∈ w.opHeads)
    (rooted : ∀ h ∈ w.opHeads, Relation.ReflTransGen (OpParent H) h root) :
    (openRepo : WorldM H _).Succeeds w (Opened P w (OpHeads.current w.opHeads)) := by
  obtain ⟨h, member⟩ := nonempty
  have opens : (openAt (OpHeads.current w.opHeads) : WorldM H _).Succeeds w
      (Opened P w (OpHeads.current w.opHeads)) :=
    openAt_succeeds keeps (fun c m => good c (OpHeads.mem_current.mp m))
      (List.ne_nil_of_mem (OpHeads.mem_current.mpr member))
      fun c m => rooted c (OpHeads.mem_current.mp m)
  exact Exec.succeeds_read_bind rfl opens

end Open

end Mnem.Repo
