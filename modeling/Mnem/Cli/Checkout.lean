/-
# Cli.Checkout — the repository that a command opens and leaves

A command opens the repository, which merges the operation heads if there are
several, and writes operations on top of what it opened.  `At w r` says that
`r` is at the only operation head of `w`; every write takes it along
(`advanceTo_at`, `transact_at`).

`Past Q` says that the view of an operation, and of every operation before it,
satisfies `Q`: whatever ancestor a merge of heads finds has such a view
(`ancestorView_past`).
-/
import Mnem.Repo.MergeView
import Mnem.Repo.System
import Mnem.Repo.Soundness

namespace Mnem.Cli

open Theory Repo

set_option autoImplicit false
set_option linter.unusedSectionVars false

variable {Cid : Type} {H : Hashing Cid} [LinearOrder Cid]

/-! ## The views of a history -/

/-- An operation whose view, and the view of every operation before it, satisfies `Q`. -/
inductive Past (Q : View Cid → Prop) (s : Store H) : Cid → Prop where
  | intro {cid : Cid} (op : Operation Cid) (view : View Cid) (loads : s.Loads cid op)
      (viewLoads : s.Loads op.view view) (holds : Q view)
      (parents : ∀ p ∈ op.parents, Past Q s p) : Past Q s cid

section History

variable {Q R : View Cid → Prop} {s s' : Store H} {cid : Cid}

theorem Past.mono (past : Past Q s cid) (le : s ≤ s') : Past Q s' cid := by
  induction past with
  | intro op view loads viewLoads holds _ ih =>
      exact .intro op view (loads.mono le) (viewLoads.mono le) holds ih

theorem Past.weaken (past : Past Q s cid) (weaker : ∀ v, Q v → R v) : Past R s cid := by
  induction past with
  | intro op view loads viewLoads holds _ ih =>
      exact .intro op view loads viewLoads (weaker view holds) ih

theorem Past.grounded (past : Past Q s cid) : Acc (flip (OpParent H)) cid := by
  induction past with
  | intro op view loads _ _ _ ih =>
      exact Frontier.acc_of_parents fun p link => ih p ((opParent_iff loads.cidOf).mp link)

theorem past_dag (Q : View Cid → Prop) (s : Store H) : Dag s (operationParents s) (Past Q s) where
  closed c past := by
    cases past with
    | intro op view loads _ _ parents =>
        refine ⟨op.parents, Object.toBlock op, Exec.map_eq_ok.mpr ⟨op, loads, rfl⟩, parents,
          Store.loads_iff.mp loads, ?_⟩
        simp [Object.toBlock, Block.links]
  acyclic c past cycle :=
    Frontier.acyclic_of_acc past.grounded
      (Relation.TransGen.mono (fun _ _ link => opParent_of_parent link) _ _ cycle)

/-- The ancestor that a merge of heads finds is in the past of the heads. -/
theorem ancestorView_past {heads : List Cid} {view : View Cid} (nonempty : heads ≠ [])
    (past : ∀ h ∈ heads, Past Q s h) (found : ancestorView s heads = .ok view) : Q view := by
  obtain ⟨out, lca, isLca⟩ := findLcaMany_isLca (past_dag Q s) nonempty past
  unfold ancestorView at found
  rw [lca] at found
  cases out with
  | none => cases found
  | some ancestor =>
      obtain ⟨h, m⟩ := List.exists_mem_of_ne_nil _ nonempty
      have path := (isLca.least ancestor rfl).1.1 h m
      cases (past_dag Q s).ancestor (past h m) path with
      | intro op view' loads viewLoads holds _ =>
          obtain ⟨_, ⟨⟩, found⟩ := Exec.bind_eq_ok.mp found
          obtain ⟨op', opFound, viewFound⟩ := Exec.bind_eq_ok.mp found
          obtain rfl : op = op' := loads.unique opFound
          obtain rfl : view' = view := viewLoads.unique viewFound
          exact holds

end History

/-! ## At an operation -/

/-- `r` is what is read at its operation. -/
structure Reads (s : Store H) (r : ReadonlyRepo Cid) : Prop where
  op : s.Loads r.opId r.op
  view : s.Loads r.op.view r.view

theorem reads_of_loadAt {s : Store H} {opId : Cid} {r : ReadonlyRepo Cid}
    (ran : ReadonlyRepo.loadAt s opId = .ok r) : Reads s r := by
  unfold ReadonlyRepo.loadAt at ran
  obtain ⟨op, opLoads, ran⟩ := Exec.bind_eq_ok.mp ran
  obtain ⟨view, viewLoads, ran⟩ := Exec.bind_eq_ok.mp ran
  split at ran
  · obtain ⟨commit, -, done⟩ := Exec.bind_eq_ok.mp ran
    cases done
    exact ⟨opLoads, viewLoads⟩
  · cases ran
    exact ⟨opLoads, viewLoads⟩

/-- `r` is at the only operation head. -/
structure At (w : World H) (r : ReadonlyRepo Cid) : Prop where
  current : OpHeads.current w.opHeads = [r.opId]
  reads : Reads w.store r

section At

variable {w w' : World H} {r r' : ReadonlyRepo Cid}

/-- Growing the store alone changes nothing that is read. -/
theorem At.grow (at_op : At w r) {s : Store H} (le : w.store ≤ s) : At { w with store := s } r :=
  ⟨at_op.current, at_op.reads.op.mono le, at_op.reads.view.mono le⟩

theorem At.mem_iff (at_op : At w r) {c : Cid} : c ∈ w.opHeads ↔ c = r.opId :=
  OrdSet.keys_eq_singleton_iff.mp at_op.current c

/-- One operation on top of `r`, in its place at the heads. -/
structure Follows (w : World H) (r : ReadonlyRepo Cid) (w' : World H) (r' : ReadonlyRepo Cid) :
    Prop where
  grows : w.store ≤ w'.store
  reads : Reads w'.store r'
  parents : r'.op.parents = [r.opId]
  heads : w'.opHeads = OpHeads.update w.opHeads r'.opId [r.opId]

theorem Follows.distinct (follows : Follows w r w' r') : r'.opId ≠ r.opId := by
  intro same
  refine not_mem_parents follows.reads.op ?_
  rw [follows.parents, same]
  exact List.mem_singleton_self _

theorem Follows.at (follows : Follows w r w' r') (at_op : At w r) : At w' r' := by
  refine ⟨?_, follows.reads⟩
  rw [follows.heads]
  exact OpHeads.current_update_singleton at_op.current follows.distinct

/-- The history of the new operation is that of the old one, and its own view. -/
theorem Follows.past {Q : View Cid → Prop} (follows : Follows w r w' r')
    (past : Past Q w.store r.opId) (holds : Q r'.view) : Past Q w'.store r'.opId := by
  refine .intro r'.op r'.view follows.reads.op follows.reads.view holds fun p m => ?_
  rw [follows.parents, List.mem_singleton] at m
  subst m
  exact past.mono follows.grows

theorem advanceTo_follows {view : View Cid} {author description : String} {now : Nat}
    (ran : (r.advanceTo view author description now : WorldM H _).Returns w r' w') :
    Follows w r w' r' ∧ r'.view = view := by
  obtain ⟨advanced, loaded⟩ := advanceTo_returns ran
  obtain ⟨op, opLoads, parents, viewLoads⟩ := advanced.op
  have reads := reads_of_loadAt loaded
  obtain rfl : r'.op = op := reads.op.unique opLoads
  exact ⟨⟨advanced.grows, reads, parents, advanced.heads⟩, reads.view.unique viewLoads⟩

theorem updateRef_follows {name : String} {expectedPrev : Option (RefTarget Cid)}
    {target : RefTarget Cid} {author : String} {now : Nat}
    (ran : (r.updateRef name expectedPrev (some target) author now : WorldM H _).Returns w r' w') :
    Follows w r w' r' ∧ r'.view = { r.view with refs := r.view.refs.insert name target } := by
  unfold ReadonlyRepo.updateRef at ran
  split at ran
  · exact absurd ran Exec.returns_throw
  · exact advanceTo_follows ran

theorem updateHeads_follows {newHead : Cid} {author : String} {now : Nat}
    (ran : (r.updateHeads newHead author now : WorldM H _).Returns w r' w') :
    Follows w r w' r' ∧ r'.view = { r.view with heads := [newHead] } := advanceTo_follows ran

theorem switchBranch_follows {newHead : Cid} {branch author : String} {now : Nat}
    (ran : (r.switchBranch newHead branch author now : WorldM H _).Returns w r' w') :
    Follows w r w' r' ∧ r'.view = { r.view with
      heads := [newHead]
      extra := r.view.extra.insert "active_branch" (.string branch) } := advanceTo_follows ran

/-- A transaction that returns has committed what its calls staged, on top of `r`. -/
theorem transact_follows {calls : List (Transaction.Call Cid)} {opts : CommitOptions}
    (ran : (r.transact calls opts : WorldM H _).Returns w r' w') :
    Follows w r w' r' ∧ ∃ (tx : Transaction Cid) (cid : Cid) (commit : Commit Cid),
      tx = ((Transaction.new r).stage w.store calls).1 ∧ tx.base = r ∧
        r'.view = tx.newView cid opts.time ∧ w'.store.Loads cid commit ∧
          commit.parents = r.view.heads.head?.toList := by
  obtain ⟨tx, s₁, staging, le, base, -, ran⟩ := transact_returns ran
  obtain ⟨opCid, w₁, write, ran⟩ := Exec.returns_bind.mp ran
  obtain ⟨_, w₂, advance, load⟩ := Exec.returns_bind.mp ran
  obtain ⟨wrote, sameHeads⟩ := returns_onStore.mp write
  obtain rfl := publish_returns advance
  obtain ⟨loaded, sameHeads'⟩ := returns_onStore.mp load
  obtain ⟨at_op, sameStore⟩ := Exec.returns_read.mp loaded
  change w₁.store = w'.store at sameStore
  obtain ⟨_, s₂, check, wrote⟩ := Exec.returns_bind.mp wrote
  obtain ⟨-, rfl⟩ := Exec.returns_read.mp check
  obtain ⟨commitCid, s₃, putCommit, wrote⟩ := Exec.returns_bind.mp wrote
  obtain ⟨viewCid, s₄, putView, putOp⟩ := Exec.returns_bind.mp wrote
  have le₁ := (Transaction.writeCommit_grows tx opts).of_returns putCommit
  obtain ⟨commit, commitLoads, parents⟩ := Transaction.writeCommit_loads putCommit
  obtain ⟨-, le₂, viewLoads⟩ := putObject_returns putView
  obtain ⟨-, le₃, opLoads⟩ := putObject_returns putOp
  rw [sameStore] at le₃ opLoads
  have reads := reads_of_loadAt at_op
  obtain rfl : r'.opId = opCid := ReadonlyRepo.opId_of_loadAt at_op
  rw [sameStore] at reads
  have sameOp : r'.op = Transaction.newOperation tx.base.opId opts viewCid :=
    reads.op.unique opLoads
  have sameView : r'.view = tx.newView commitCid opts.time := by
    have here := reads.view
    rw [sameOp] at here
    exact here.unique (viewLoads.mono le₃)
  refine ⟨⟨le.trans (le₁.trans (le₂.trans le₃)), reads, ?_, ?_⟩, tx, commitCid, commit, ?_, base,
    sameView, commitLoads.mono (le₂.trans le₃), base ▸ parents⟩
  · rw [sameOp, ← base]
    rfl
  · rw [sameHeads', ← base]
    change OpHeads.update w₁.opHeads _ _ = _
    rw [sameHeads]
  · rw [staging]

end At

/-! ## Opening -/

section Open

variable {w w' : World H} {r : ReadonlyRepo Cid}

/-- What a merge of heads writes. -/
structure WritesMerge (s : Store H) (heads : List Cid) (s' : Store H) (opCid : Cid)
    (view : View Cid) : Prop where
  grows : s ≤ s'
  op : ∃ op : Operation Cid, s'.Loads opCid op ∧ op.parents = heads ∧ s'.Loads op.view view
  merged : ∃ (loaded : List (LoadedHead Cid)) (ancestor : View Cid) (mergeCommit : Option Cid)
    (s₁ : Store H), List.Forall₂ (fun h l => loadHead s h = .ok l) heads loaded ∧
      ancestorView s heads = .ok ancestor ∧
      (buildMergeCommit (loaded.map LoadedHead.commit) : StoreM H _).Returns s mergeCommit s₁ ∧
      view = let merged := mergeViews ancestor (loaded.map LoadedHead.view)
        { merged with heads := mergeCommit.elim merged.heads fun c => [c] }

theorem writeMerge_writes {heads : List Cid} {opCid : Cid} {s s' : Store H}
    (ran : (writeMerge heads : StoreM H _).Returns s opCid s') :
    ∃ view, WritesMerge s heads s' opCid view := by
  have grows := (writeMerge_grows heads).of_returns ran
  unfold writeMerge at ran
  obtain ⟨loaded, s₁, load, ran⟩ := Exec.returns_bind.mp ran
  obtain ⟨ancestor, s₂, find, ran⟩ := Exec.returns_bind.mp ran
  obtain ⟨mergeCommit, s₃, build, ran⟩ := Exec.returns_bind.mp ran
  obtain ⟨viewCid, s₄, putView, putOp⟩ := Exec.returns_bind.mp ran
  obtain ⟨loadedAll, rfl⟩ := Exec.returns_read.mp load
  obtain ⟨found, rfl⟩ := Exec.returns_read.mp find
  obtain ⟨-, -, viewLoads⟩ := putObject_returns putView
  obtain ⟨-, le, opLoads⟩ := putObject_returns putOp
  exact ⟨_, grows, ⟨_, opLoads, rfl, viewLoads.mono le⟩, loaded, ancestor, mergeCommit, s₃,
    Exec.forall₂_of_mapM loadedAll, found, build, rfl⟩

/-- What opening does: it reads the only head, or merges several into one. -/
inductive Opens (w : World H) (r : ReadonlyRepo Cid) : World H → Prop where
  | single (alone : OpHeads.current w.opHeads = [r.opId]) : Opens w r w
  | merged {w' : World H} (heads : List Cid) (nonempty : heads ≠ [])
      (several : ∀ c, OpHeads.current w.opHeads ≠ [c])
      (all : ∀ c, c ∈ heads ↔ c ∈ w.opHeads)
      (writes : WritesMerge w.store heads w'.store r.opId r.view) : Opens w r w'

theorem openRepo_opens (ran : (openRepo : WorldM H _).Returns w r w') : At w' r ∧ Opens w r w' := by
  obtain ⟨heads, w₁, read, ran⟩ := Exec.returns_bind.mp ran
  obtain ⟨same, rfl⟩ := returns_readHeads.mp read
  match heads, same, ran with
  | [], _, ran => exact absurd ran Exec.returns_throw
  | [head], same, ran =>
      obtain ⟨loaded, heads⟩ := returns_onStore.mp ran
      obtain ⟨at_op, store⟩ := Exec.returns_read.mp loaded
      obtain rfl : r.opId = head := ReadonlyRepo.opId_of_loadAt at_op
      obtain rfl : w = w' := by
        cases w
        cases w'
        cases heads
        cases store
        rfl
      exact ⟨⟨same, reads_of_loadAt at_op⟩, .single same⟩
  | h :: h' :: hs, same, ran =>
      obtain ⟨opCid, w₁, merge, load⟩ := Exec.returns_bind.mp ran
      obtain ⟨_, w₂, write, merge⟩ := Exec.returns_bind.mp merge
      obtain ⟨_, w₃, advance, done⟩ := Exec.returns_bind.mp merge
      obtain ⟨rfl, rfl⟩ := Exec.returns_pure.mp done
      obtain rfl := returns_updateHeads.mp advance
      obtain ⟨wrote, sameHeads⟩ := returns_onStore.mp write
      obtain ⟨loaded, sameHeads'⟩ := returns_onStore.mp load
      obtain ⟨at_op, sameStore⟩ := Exec.returns_read.mp loaded
      change w₂.store = w'.store at sameStore
      obtain ⟨view, writes⟩ := writeMerge_writes wrote
      have reads := reads_of_loadAt at_op
      obtain rfl : r.opId = _ := ReadonlyRepo.opId_of_loadAt at_op
      change Reads w₂.store r at reads
      rw [sameStore] at reads writes
      obtain ⟨op, opLoads, parents, viewLoads⟩ := writes.op
      obtain rfl : r.op = op := reads.op.unique opLoads
      obtain rfl : r.view = view := reads.view.unique viewLoads
      have mem : ∀ c, c ∈ (h :: h' :: hs).insertionSort (· ≤ ·) ↔ c ∈ w.opHeads := fun c =>
        (List.mem_insertionSort _).trans (same ▸ OpHeads.mem_current)
      refine ⟨⟨?_, reads⟩, .merged _ (List.ne_nil_of_mem ((mem h).mpr ?_)) (fun c => ?_) mem writes⟩
      · apply OrdSet.keys_eq_singleton_iff.mpr
        intro c
        rw [sameHeads', OpHeads.mem_update, mem, sameHeads]
        have fresh := not_mem_parents reads.op
        rw [parents, mem] at fresh
        constructor
        · rintro ⟨rfl | old, gone⟩
          · rfl
          · exact absurd old gone
        · rintro rfl
          exact ⟨.inl rfl, fresh⟩
      · exact OpHeads.mem_current.mp (same ▸ List.mem_cons_self)
      · rw [same]
        exact nofun

/-- Opening at a single head changes nothing. -/
theorem openRepo_at {r' : ReadonlyRepo Cid} (at_op : At w r)
    (ran : (openRepo : WorldM H _).Returns w r' w') : w' = w ∧ r'.opId = r.opId ∧ r'.view = r.view := by
  obtain ⟨at_op', opens⟩ := openRepo_opens ran
  cases opens with
  | single alone =>
      have same : r'.opId = r.opId := (at_op.mem_iff.mp (at_op'.mem_iff.mpr rfl))
      have op : r'.op = r.op := at_op'.reads.op.unique (same ▸ at_op.reads.op)
      exact ⟨rfl, same, at_op'.reads.view.unique (op ▸ at_op.reads.view)⟩
  | merged heads _ several _ _ => exact absurd at_op.current (several r.opId)

end Open

end Mnem.Cli
