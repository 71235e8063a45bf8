/-
# Cli.MergeInProgress — a merge that waits for its conflicts

A merge that stops at conflicts remembers the two commits, and `--continue`
merges these two; the branch that it then sets to the result is the one that is
checked out by then, wherever that points.

So a merge moves its branch forward when what the branch points at is an
ancestor of one of the two commits (`Command.MergesCurrent`), and in a run whose
merges all do, what is committed stays on its branch
(`merges_keep_commits`).
-/
import Mnem.Cli.ActiveBranch

namespace Mnem.Cli

open Theory Repo

set_option autoImplicit false
set_option linter.unusedSectionVars false

variable {Cid : Type} {H : Hashing Cid} [LinearOrder Cid]

/-! ## Descent -/

/-- `a` is `c`, or one of the commits it descends from. -/
def Descends (s : Store H) (c a : Cid) : Prop := Relation.ReflTransGen (Parent (commitParents s)) c a

section Descent

variable {s s' : Store H} {left right c a : Cid}

theorem Descends.mono (below : Descends s c a) (le : s ≤ s') : Descends s' c a := by
  refine Relation.ReflTransGen.mono (fun x y link => ?_) _ _ below
  obtain ⟨ps, found, member⟩ := link
  obtain ⟨commit, loads, rfl⟩ := Exec.map_eq_ok.mp found
  exact ⟨commit.parents, Exec.map_eq_ok.mpr ⟨commit, Store.Loads.mono loads le, rfl⟩, member⟩

theorem descends_of_parent {commit : Commit Cid} (loads : s.Loads c commit)
    (member : a ∈ commit.parents) : Descends s c a :=
  .single ⟨commit.parents, Exec.map_eq_ok.mpr ⟨commit, loads, rfl⟩, member⟩

theorem mem_mergeCommitOf_parents {parents : List (Cid × Commit Cid)} {schema nodes edges idx : Cid}
    {extra : Props Cid} {p : Cid × Commit Cid} (m : p ∈ parents) :
    p.1 ∈ (mergeCommitOf H parents schema nodes edges idx extra).parents := by
  refine List.mem_map_of_mem ?_
  exact (List.mem_insertionSort _).mpr m

/-- A merge commit has both sides as its parents. -/
theorem writeMergeCommit_parents {l r : Commit Cid} {strategy : MergeStrategy} {conflicting : Bool}
    (distinct : left ≠ right)
    (ran : (writeMergeCommit (left, l) (right, r) strategy conflicting : StoreM H _).Returns s c s') :
    ∃ commit : Commit Cid, s'.Loads c commit ∧ left ∈ commit.parents ∧ right ∈ commit.parents := by
  have inLeft : ((left, l) : Cid × Commit Cid) ∈ [(left, l), (right, r)] := List.mem_cons_self
  have inRight : ((right, r) : Cid × Commit Cid) ∈ [(left, l), (right, r)] :=
    List.mem_cons_of_mem _ List.mem_cons_self
  unfold writeMergeCommit at ran
  split at ran
  · obtain ⟨nodes, s₁, -, ran⟩ := Exec.returns_bind.mp ran
    obtain ⟨edges, s₂, -, ran⟩ := Exec.returns_bind.mp ran
    obtain ⟨idx, s₃, -, put⟩ := Exec.returns_bind.mp ran
    obtain ⟨-, -, loads⟩ := putObject_returns put
    exact ⟨_, loads, mem_mergeCommitOf_parents inLeft, mem_mergeCommitOf_parents inRight⟩
  · obtain ⟨out, s₁, build, ran⟩ := Exec.returns_bind.mp ran
    cases out with
    | none => exact absurd ran Exec.returns_throw
    | some cid =>
        obtain ⟨rfl, rfl⟩ := Exec.returns_pure.mp ran
        unfold buildMergeCommit at build
        dsimp only [List.filterMap, id] at build
        split at build
        · rename_i same
          rw [List.all_eq_true] at same
          exact absurd (of_decide_eq_true (same _ inRight)).symm distinct
        · obtain ⟨nodes, s₂, -, build⟩ := Exec.returns_bind.mp build
          obtain ⟨edges, s₃, -, build⟩ := Exec.returns_bind.mp build
          obtain ⟨idx, s₄, -, build⟩ := Exec.returns_bind.mp build
          obtain ⟨cid', s₅, put, done⟩ := Exec.returns_bind.mp build
          obtain ⟨same, rfl⟩ := Exec.returns_pure.mp done
          obtain rfl := Option.some.inj same
          obtain ⟨-, -, loads⟩ := putObject_returns put
          exact ⟨_, loads, mem_mergeCommitOf_parents inLeft, mem_mergeCommitOf_parents inRight⟩

/-- What a merge lands on descends from both commits. -/
theorem mergeThreeWay_descends {strategy : MergeStrategy} {out : MergeOutcome Cid}
    (ran : (mergeThreeWay left right strategy : StoreM H _).Returns s out s')
    (moved : out = .fastForward c ∨ out = .clean c) : Descends s' c left ∧ Descends s' c right := by
  cases mergeThreeWay_returns ran with
  | keepLeft lca =>
      rcases moved with same | same
      · cases same
        exact ⟨.refl, (findCommitLca_common lca).1⟩
      · cases same
  | takeRight lca =>
      rcases moved with same | same
      · cases same
        exact ⟨(findCommitLca_common lca).2, .refl⟩
      · cases same
  | conflicts _ _ _ => rcases moved with same | same <;> cases same
  | clean diverged _ wrote =>
      rcases moved with same | same
      · cases same
      · cases same
        obtain ⟨commit, loads, inLeft, inRight⟩ := writeMergeCommit_parents diverged.distinct wrote
        exact ⟨descends_of_parent loads inLeft, descends_of_parent loads inRight⟩

end Descent

/-! ## Where branches point -/

/-- The commits that a ref points at. -/
def targets : Option (RefTarget Cid) → List Cid
  | none => []
  | some (.normal target) => [target]
  | some (.conflicted adds _) => adds

/-- Every commit that a ref pointed at is still behind it. -/
def Forward (s s' : Session H) : Prop :=
  ∀ r w r' w', (openRepo : WorldM H _).Returns s.world r w →
    (openRepo : WorldM H _).Returns s'.world r' w' →
      ∀ name, ∀ a ∈ targets (r.view.refs.get? name),
        ∃ c ∈ targets (r'.view.refs.get? name), Descends w'.store c a

/-- What the branch that is checked out points at is an ancestor of one of two commits. -/
def Behind (w : World H) (r : ReadonlyRepo Cid) (left right : Cid) : Prop :=
  ∀ name, currentBranchName r = some name → ∀ a ∈ targets (r.view.refs.get? name),
    Descends w.store left a ∨ Descends w.store right a

/-- A merge is of commits that the branch it will set is behind. -/
def Command.MergesCurrent (s : Session H) : Command Cid → Prop
  | .merge parse branch _ _ _ _ => ∀ r w, (openRepo : WorldM H _).Returns s.world r w →
      ∀ left right, r.view.heads.head? = some left → resolveCommitish parse r branch = .ok right →
        Behind w r left right
  | .mergeContinue _ _ => ∀ r w, (openRepo : WorldM H _).Returns s.world r w →
      ∀ strategy left right, readMerge s.files = .ok (strategy, left, right) → Behind w r left right
  | _ => True

/-- `mnem merge` and `mnem merge --continue`. -/
def Command.Merges : Command Cid → Prop
  | .merge .. | .mergeContinue .. => True
  | _ => False

/-- The commands of a repository on its own; a commit updates no ref by hand. -/
def Command.Ordinary (s : Session H) : Command Cid → Prop
  | .commit calls _ => ∀ r w, (openRepo : WorldM H _).Returns s.world r w →
      ((Transaction.new r).stage w.store calls).1.refUpdates = OrdMap.empty ∧
        ((Transaction.new r).stage w.store calls).1.activeBranchOverride = none
  | .switchBranch newHead branch _ _ => ∀ r w, (openRepo : WorldM H _).Returns s.world r w →
      r.view.refs.get? branch = some (.normal newHead)
  | .fetch .. | .fastForward .. => False
  | _ => True

/-- Commands one after the other, each of which meets `Q`. -/
inductive Steps (Q : Session H → Command Cid → Prop) (s : Session H) : Session H → Prop where
  | refl : Steps Q s s
  | tail {s₁ s₂ : Session H} {command : Command Cid} (before : Steps Q s s₁) (meets : Q s₁ command)
      (ran : command.run.Returns s₁ () s₂) : Steps Q s s₂

section Moves

variable {w w' : World H} {r r' : ReadonlyRepo Cid} {left right target : Cid} {author : String}
  {clock : Nat → Nat} {u : Unit}

/-- What landing leaves: the head at the target, with the branch that was checked out. -/
structure Moved (w : World H) (r : ReadonlyRepo Cid) (target : Cid) (w' : World H)
    (r' : ReadonlyRepo Cid) : Prop where
  at_op : At w' r'
  grows : w.store ≤ w'.store
  heads : r'.view.heads = [target]
  extra : r'.view.extra = r.view.extra
  refs : r'.view.refs = match currentBranchName r with
    | some name => r.view.refs.insert name (.normal target)
    | none => r.view.refs

theorem land_moves (at_op : At w r)
    (ran : (land r target author clock : WorldM H _).Returns w u w') :
    ∃ r', Moved w r target w' r' := by
  unfold land at ran
  split at ran
  · rename_i name current
    obtain ⟨r₁, w₁, update, ran⟩ := Exec.returns_bind.mp ran
    obtain ⟨r₂, w₂, move, done⟩ := Exec.returns_bind.mp ran
    obtain ⟨-, rfl⟩ := Exec.returns_pure.mp done
    obtain ⟨follows₁, view₁⟩ := updateRef_follows update
    obtain ⟨follows₂, view₂⟩ := updateHeads_follows move
    refine ⟨r₂, follows₂.at (follows₁.at at_op), follows₁.grows.trans follows₂.grows, ?_, ?_, ?_⟩
    · rw [view₂]
    · rw [view₂, view₁]
    · rw [view₂, view₁, current]
  · rename_i absent
    obtain ⟨r', w₁, move, done⟩ := Exec.returns_bind.mp ran
    obtain ⟨-, rfl⟩ := Exec.returns_pure.mp done
    obtain ⟨follows, view⟩ := updateHeads_follows move
    refine ⟨r', follows.at at_op, follows.grows, ?_, ?_, ?_⟩
    · rw [view]
    · rw [view]
    · rw [view, absent]

/-- A merge that landed, with what it landed on. -/
theorem Landed.moves (at_op : At w r) (landed : Landed w r left right author clock w') :
    ∃ target r', Moved w r target w' r' ∧ Descends w'.store target left ∧
      Descends w'.store target right := by
  obtain ⟨strategy, out, target, s₁, merged, moved, ran⟩ := landed.landed
  obtain ⟨toLeft, toRight⟩ := mergeThreeWay_descends merged moved
  have le := (mergeThreeWay_returns merged).grows
  obtain ⟨r', moved⟩ := land_moves (at_op.grow le) ran
  exact ⟨target, r', ⟨moved.at_op, le.trans moved.grows, moved.heads, moved.extra, moved.refs⟩,
    toLeft.mono moved.grows, toRight.mono moved.grows⟩

/-- The branch moves forward when it was behind one of the two commits. -/
theorem Moved.forward (moved : Moved w r target w' r') (behind : Behind w r left right)
    (toLeft : Descends w'.store target left) (toRight : Descends w'.store target right)
    {name : String} {a : Cid} (m : a ∈ targets (r.view.refs.get? name)) :
    ∃ c ∈ targets (r'.view.refs.get? name), Descends w'.store c a := by
  rw [moved.refs]
  split
  · rename_i current at_name
    rw [OrdMap.get?_insert]
    split
    · rename_i same
      subst same
      refine ⟨target, List.mem_singleton_self target, ?_⟩
      rcases behind current at_name a m with below | below
      · exact toLeft.trans (below.mono moved.grows)
      · exact toRight.trans (below.mono moved.grows)
    · exact ⟨a, m, .refl⟩
  · exact ⟨a, m, .refl⟩

/-- A session whose heads were not touched shows the same refs. -/
theorem forward_same {s s' : Session H} {r₀ : ReadonlyRepo Cid} {w₀ : World H}
    (opened : (openRepo : WorldM H _).Returns s.world r₀ w₀) {s₁ : Store H} (le : w₀.store ≤ s₁)
    (world : s'.world = { w₀ with store := s₁ }) : Forward s s' := by
  intro r w r' w' open₁ open₂ name a m
  obtain ⟨rfl, rfl⟩ := opened.unique open₁
  rw [world] at open₂
  obtain ⟨-, -, view⟩ := openRepo_at ((openRepo_opens opened).1.grow le) open₂
  exact ⟨a, view ▸ m, .refl⟩

theorem forward_landed {s s' : Session H} {r₀ : ReadonlyRepo Cid} {w₀ : World H}
    (opened : (openRepo : WorldM H _).Returns s.world r₀ w₀)
    (landed : Landed w₀ r₀ left right author clock s'.world) (behind : Behind w₀ r₀ left right) :
    Forward s s' := by
  intro r w r' w' open₁ open₂ name a m
  obtain ⟨rfl, rfl⟩ := opened.unique open₁
  obtain ⟨target, r₁, moved, toLeft, toRight⟩ := landed.moves (openRepo_opens opened).1
  obtain ⟨rfl, -, view⟩ := openRepo_at moved.at_op open₂
  rw [view]
  exact moved.forward behind toLeft toRight m

/-- A merge of commits that the branch is behind moves every branch forward. -/
theorem Command.forward {s s' : Session H} {command : Command Cid} (merges : command.Merges)
    (current : command.MergesCurrent s) (ran : command.run.Returns s () s') : Forward s s' := by
  cases command with
  | merge parse branch strategy dryRun author clock =>
      obtain ⟨-, r, w, opened, effect⟩ := merge_returns ran
      cases effect with
      | nothing s₁ le => exact forward_same opened le rfl
      | landed head resolved landed =>
          exact forward_landed opened landed (current r w opened _ _ head resolved)
      | conflicts _ mc s₁ le => exact forward_same opened le rfl
  | mergeContinue author clock =>
      obtain ⟨strategy, left, right, r, w, files, opened, landed, -⟩ := mergeContinue_returns ran
      exact forward_landed opened landed (current r w opened strategy left right files)
  | _ => exact merges.elim

end Moves

/-! ## Commits stay on their branch -/

/-- The head and the active branch agree, and `branch` points at or below `a`. -/
structure OnBranch (branch : String) (a : Cid) (w : World H) (r : ReadonlyRepo Cid) : Prop where
  at_op : At w r
  tidy : ∃ head active, Tidy (some head) active r.view
  kept : ∃ c, r.view.refs.get? branch = some (.normal c) ∧ Descends w.store c a

section Stay

variable {branch : String} {a : Cid} {w w' : World H} {r r' : ReadonlyRepo Cid}

theorem OnBranch.grow (on : OnBranch branch a w r) {s : Store H} (le : w.store ≤ s) :
    OnBranch branch a { w with store := s } r := by
  obtain ⟨c, target, below⟩ := on.kept
  exact ⟨on.at_op.grow le, on.tidy, c, target, below.mono le⟩

/-- Opening at the head of a session reads the same view again. -/
theorem OnBranch.open (on : OnBranch branch a w r)
    (opened : (openRepo : WorldM H _).Returns w r' w') : OnBranch branch a w' r' := by
  obtain ⟨rfl, -, view⟩ := openRepo_at on.at_op opened
  exact ⟨(openRepo_opens opened).1, view ▸ on.tidy, view ▸ on.kept⟩

/-- The refs of an ordinary commit that is not the first. -/
theorem newView_refs {tx : Transaction Cid} (cid : Cid) (now : Nat)
    (noUpdate : tx.refUpdates = OrdMap.empty) (noOverride : tx.activeBranchOverride = none)
    (started : tx.base.view.heads ≠ []) :
    (tx.newView cid now).refs = match Transaction.activeBranch tx.base.view with
      | some name => tx.base.view.refs.insert name (.normal cid)
      | none => tx.base.view.refs := by
  have effective : tx.effectiveActiveBranch = Transaction.activeBranch tx.base.view := by
    rw [Transaction.effectiveActiveBranch, noOverride, Option.none_or]
  have applied : tx.applyRefUpdates tx.base.view.refs = tx.base.view.refs := by
    rw [Transaction.applyRefUpdates, noUpdate]
    rfl
  have later : tx.base.view.heads.isEmpty = false := by
    cases heads : tx.base.view.heads with
    | nil => exact absurd heads started
    | cons c cs => rfl
  unfold Transaction.newView Transaction.withActiveBranch Transaction.withTombstones
    Transaction.withFirstBranch
  rw [effective, noUpdate, applied, later]
  cases Transaction.activeBranch tx.base.view with
  | none => rfl
  | some name => rfl

theorem tidy_newView {tx : Transaction Cid} {cid : Cid} {now : Nat}
    (noUpdate : tx.refUpdates = OrdMap.empty) :
    Tidy (some cid) (Transaction.activeBranch (tx.newView cid now)) (tx.newView cid now) := by
  have none : ∀ name, ¬ tx.refUpdates.contains name := by
    intro name there
    rw [noUpdate] at there
    cases there
  refine ⟨Transaction.newView_heads cid now, rfl, fun name active => ⟨cid, rfl, ?_⟩⟩
  cases newView_branch tx cid now with
  | effective other _ active' target =>
      obtain rfl := Option.some.inj (active.symm.trans active')
      exact target (none name)
  | first other _ active' target =>
      obtain rfl := Option.some.inj (active.symm.trans active')
      exact target
  | detached _ absent =>
      rw [absent] at active
      cases active

theorem OnBranch.commit (on : OnBranch branch a w r) {calls : List (Transaction.Call Cid)}
    {opts : CommitOptions}
    (plain : ((Transaction.new r).stage w.store calls).1.refUpdates = OrdMap.empty ∧
      ((Transaction.new r).stage w.store calls).1.activeBranchOverride = none)
    (ran : (r.transact calls opts : WorldM H _).Returns w r' w') : OnBranch branch a w' r' := by
  obtain ⟨follows, tx, cid, commit, staged, base, view, loads, parents⟩ := transact_follows ran
  rw [← staged] at plain
  obtain ⟨head, active, tidy⟩ := on.tidy
  obtain ⟨c, target, below⟩ := on.kept
  have first : r.view.heads = [head] := tidy.heads
  refine ⟨follows.at on.at_op, ⟨cid, _, view ▸ tidy_newView plain.1⟩, ?_⟩
  have refs := newView_refs cid opts.time plain.1 plain.2
    (by rw [base, first]; exact List.cons_ne_nil _ _)
  rw [← view, base] at refs
  rw [refs]
  cases at_b : Transaction.activeBranch r.view with
  | none => exact ⟨c, target, below.mono follows.grows⟩
  | some name =>
      dsimp only
      rw [OrdMap.get?_insert]
      split
      · rename_i same
        subst same
        obtain ⟨c', here, atHead⟩ := tidy.target name (tidy.active.symm.trans at_b)
        cases here
        rw [target] at atHead
        cases atHead
        refine ⟨cid, rfl, .trans (descends_of_parent loads ?_) (below.mono follows.grows)⟩
        rw [parents, first]
        exact List.mem_singleton_self _
      · exact ⟨c, target, below.mono follows.grows⟩

theorem OnBranch.moved {left right target : Cid} (on : OnBranch branch a w r)
    (behind : Behind w r left right) (moved : Moved w r target w' r')
    (toLeft : Descends w'.store target left) (toRight : Descends w'.store target right) :
    OnBranch branch a w' r' := by
  obtain ⟨head, active, tidy⟩ := on.tidy
  obtain ⟨c, at_c, below⟩ := on.kept
  refine ⟨moved.at_op, ⟨target, active, moved.heads,
    (activeBranch_congr moved.extra).trans tidy.active, fun name at_b => ⟨target, rfl, ?_⟩⟩, ?_⟩
  · have current : currentBranchName r = some name := by
      unfold currentBranchName
      rw [tidy.active, at_b]
    rw [moved.refs, current]
    dsimp only
    rw [OrdMap.get?_insert, if_pos rfl]
  · have inTargets : c ∈ targets (r.view.refs.get? branch) := by
      rw [at_c]
      exact List.mem_singleton_self c
    obtain ⟨c', m, under⟩ := moved.forward behind toLeft toRight inTargets
    have single : ∃ t, r'.view.refs.get? branch = some (.normal t) := by
      rw [moved.refs]
      split
      · rw [OrdMap.get?_insert]
        split
        · exact ⟨target, rfl⟩
        · exact ⟨c, at_c⟩
      · exact ⟨c, at_c⟩
    obtain ⟨t, at_t⟩ := single
    rw [at_t] at m
    obtain rfl := List.mem_singleton.mp m
    exact ⟨c', at_t, under.trans (below.mono moved.grows)⟩

/-- A session on the branch, for the next command. -/
def StaysOn (branch : String) (a : Cid) (s : Session H) : Prop :=
  ∃ r : ReadonlyRepo Cid, OnBranch branch a s.world r

theorem Command.staysOn {s s' : Session H} {command : Command Cid} (on : StaysOn branch a s)
    (ordinary : command.Ordinary s) (current : command.MergesCurrent s)
    (ran : command.run.Returns s () s') : StaysOn branch a s' := by
  obtain ⟨r₀, on⟩ := on
  cases command with
  | «open» =>
      obtain ⟨ran, -⟩ := returns_onWorld.mp ran
      obtain ⟨r, w, opened, done⟩ := Exec.returns_bind.mp ran
      obtain ⟨-, rfl⟩ := Exec.returns_pure.mp done
      exact ⟨r, on.open opened⟩
  | commit calls opts =>
      obtain ⟨ran, -⟩ := returns_onWorld.mp ran
      obtain ⟨r, w, opened, ran⟩ := Exec.returns_bind.mp ran
      obtain ⟨r', w₁, committed, done⟩ := Exec.returns_bind.mp ran
      obtain ⟨-, rfl⟩ := Exec.returns_pure.mp done
      exact ⟨r', (on.open opened).commit (ordinary r w opened) committed⟩
  | switchBranch newHead name author now =>
      obtain ⟨ran, -⟩ := returns_onWorld.mp ran
      obtain ⟨r, w, opened, ran⟩ := Exec.returns_bind.mp ran
      obtain ⟨r', w₁, switched, done⟩ := Exec.returns_bind.mp ran
      obtain ⟨-, rfl⟩ := Exec.returns_pure.mp done
      have here := on.open opened
      obtain ⟨follows, view⟩ := switchBranch_follows switched
      obtain ⟨c, target, below⟩ := here.kept
      refine ⟨r', follows.at here.at_op, ⟨newHead, some name, ?_⟩, c, ?_, below.mono follows.grows⟩
      · rw [view]
        refine ⟨rfl, activeBranch_of_insert rfl, ?_⟩
        rintro _ ⟨⟩
        exact ⟨newHead, rfl, ordinary r w opened⟩
      · rw [view]
        exact target
  | merge parse source strategy dryRun author clock =>
      obtain ⟨-, r, w, opened, effect⟩ := merge_returns ran
      have here := on.open opened
      cases effect with
      | nothing s₁ le => exact ⟨r, here.grow le⟩
      | landed head resolved landed =>
          obtain ⟨target, r', moved, toLeft, toRight⟩ := landed.moves here.at_op
          exact ⟨r', here.moved (current r w opened _ _ head resolved) moved toLeft toRight⟩
      | conflicts _ mc s₁ le => exact ⟨r, here.grow le⟩
  | mergeContinue author clock =>
      obtain ⟨strategy, left, right, r, w, files, opened, landed, -⟩ := mergeContinue_returns ran
      have here := on.open opened
      obtain ⟨target, r', moved, toLeft, toRight⟩ := landed.moves here.at_op
      exact ⟨r', here.moved (current r w opened strategy left right files) moved toLeft toRight⟩
  | mergeAbort =>
      obtain rfl := mergeAbort_returns ran
      exact ⟨r₀, on⟩
  | edit conflicts =>
      have wrote := congrArg Prod.snd (Exec.returns_update.mp ran)
      subst wrote
      exact ⟨r₀, on⟩
  | _ => exact ordinary.elim

theorem Steps.staysOn {s s' : Session H}
    (steps : Steps (fun s command => command.Ordinary s ∧ command.MergesCurrent s) s s')
    (on : StaysOn branch a s) : StaysOn branch a s' := by
  induction steps with
  | refl => exact on
  | tail _ meets ran ih => exact Command.staysOn ih meets.1 meets.2 ran

/-- A commit is on the branch that is active after it. -/
theorem commit_staysOn {s s' : Session H} {calls : List (Transaction.Call Cid)} {opts : CommitOptions}
    (ordinary : (Command.commit calls opts).Ordinary s)
    (ran : (Command.commit calls opts).run.Returns s () s') {r : ReadonlyRepo Cid} {w : World H}
    (opened : (openRepo : WorldM H _).Returns s'.world r w) {c : Cid}
    (active : Transaction.activeBranch r.view = some branch) (head : r.view.heads.head? = some c) :
    StaysOn branch c s' := by
  obtain ⟨ran, -⟩ := returns_onWorld.mp ran
  obtain ⟨r₀, w₀, opened₀, ran⟩ := Exec.returns_bind.mp ran
  obtain ⟨r₁, w₁, committed, done⟩ := Exec.returns_bind.mp ran
  obtain ⟨-, rfl⟩ := Exec.returns_pure.mp done
  obtain ⟨follows, tx, cid, commit, staged, -, view, -⟩ := transact_follows committed
  have plain := ordinary r₀ w₀ opened₀
  rw [← staged] at plain
  have at_op := follows.at (openRepo_opens opened₀).1
  obtain ⟨-, -, same⟩ := openRepo_at at_op opened
  have tidy : Tidy (some cid) (Transaction.activeBranch r₁.view) r₁.view := view ▸ tidy_newView plain.1
  rw [same] at active head
  rw [tidy.heads] at head
  cases head
  obtain ⟨_, ⟨⟩, target⟩ := tidy.target branch active
  exact ⟨r₁, at_op, ⟨c, _, tidy⟩, c, target, .refl⟩

end Stay

/-- **A merge of commits that the branch is behind discards nothing**: every branch that it sets moves
forward, and a commit stays on its branch through any such merges, switches and commits after it. -/
theorem merges_keep_commits (H : Hashing Cid) :
    (∀ (s s' : Session H) (command : Command Cid), command.Merges → command.MergesCurrent s →
      command.run.Returns s () s' → Forward s s') ∧
    ∀ (s s₁ s₂ : Session H) (calls : List (Transaction.Call Cid)) (opts : CommitOptions),
      (Command.commit calls opts).Ordinary s → (Command.commit calls opts).run.Returns s () s₁ →
        Steps (fun s command => command.Ordinary s ∧ command.MergesCurrent s) s₁ s₂ →
          ∀ r₁ w₁ r₂ w₂, (openRepo : WorldM H _).Returns s₁.world r₁ w₁ →
            (openRepo : WorldM H _).Returns s₂.world r₂ w₂ → ∀ branch c,
              Transaction.activeBranch r₁.view = some branch → r₁.view.heads.head? = some c →
                ∃ c', r₂.view.refs.get? branch = some (.normal c') ∧ Descends w₂.store c' c := by
  constructor
  · intro s s' command merges current ran
    exact Command.forward merges current ran
  · intro s s₁ s₂ calls opts ordinary ran steps r₁ w₁ r₂ w₂ opened₁ opened₂ branch c active head
    obtain ⟨r, on⟩ := steps.staysOn (commit_staysOn ordinary ran opened₁ active head)
    exact (on.open opened₂).kept

/-! ### A commit in between -/

/-- A branch that points at the first of two commits is behind them. -/
theorem behind_of_target {w : World H} {r : ReadonlyRepo Cid} {left : Cid} {name : String}
    (current : currentBranchName r = some name) (target : r.view.refs.get? name = some (.normal left))
    (right : Cid) : Behind w r left right := by
  intro name' current' a m
  rw [current] at current'
  cases current'
  rw [target] at m
  obtain rfl := List.mem_singleton.mp m
  exact .inl .refl

def writes (name message : String) (calls : List (Transaction.Call ℕ)) : Command ℕ :=
  .commit (.addNode { id := 1, ntype := "Person", summary := some name } :: calls)
    { author := "", message := message }

/-- The commit at which the two branches part. -/
def forkPoint : ℕ :=
  match (afterCommands [writes "a" "base" []]).outcome {} with
  | (.ok (_, r), _) => r.view.heads.headD 0
  | (.error _, _) => 0

/-- Two branches, with the older one checked out. -/
def forked : List (Command ℕ) :=
  [writes "a" "base" [], writes "b" "feature" [.setActiveBranch "refs/heads/feature"],
    .switchBranch forkPoint "refs/heads/main" "" 0]

def mergeFeature : Command ℕ := .merge (fun _ => none) "feature" .manual false "" id

/-- The conflict file once every conflict is settled and taken out. -/
def settled : Command ℕ := .edit (some (some ⟨"", 0, 0, none, []⟩))

/-- `init` and some commands. -/
def started (commands : List (Command ℕ)) : SessionM shortHashing (Session shortHashing) := do
  let _ ← onWorld (Repo.init 0)
  runAll commands
  Exec.read fun s => .ok s

/-- One more command. -/
def andThen (command : Command ℕ) : SessionM shortHashing (Session shortHashing) := do
  command.run
  Exec.read fun s => .ok s

theorem started_returns {commands : List (Command ℕ)} {s s' : Session shortHashing}
    (ran : (started commands).Returns {} s s') : s = s' ∧ Run (fun _ _ => True) s := by
  obtain ⟨root, s₀, start, ran⟩ := Exec.returns_bind.mp ran
  obtain ⟨_, s₁, steps, read⟩ := Exec.returns_bind.mp ran
  obtain ⟨⟨⟩, rfl⟩ := Exec.returns_read.mp read
  obtain ⟨start, files⟩ := returns_onWorld.mp start
  have began : Run (fun _ _ => True) s₀ := by
    rw [show s₀ = { world := s₀.world } from Session.ext' rfl files]
    exact .init start
  exact ⟨rfl, began.runAll (fun _ _ _ => trivial) steps⟩

theorem andThen_returns {command : Command ℕ} {s₀ s s' : Session shortHashing}
    (ran : (andThen command).Returns s₀ s s') : s = s' ∧ command.run.Returns s₀ () s := by
  obtain ⟨_, s₁, one, read⟩ := Exec.returns_bind.mp ran
  obtain ⟨⟨⟩, rfl⟩ := Exec.returns_read.mp read
  exact ⟨rfl, one⟩

/-- `main` is checked out and at the head; what else holds there. -/
def mainAt (s : Session shortHashing) (test : ℕ → World shortHashing → Bool) : Bool :=
  (openRepo : WorldM shortHashing _).check s.world fun r w =>
    decide (Transaction.activeBranch r.view = some "refs/heads/main") &&
      match r.view.refs.get? "refs/heads/main" with
      | some (.normal c) => decide (r.view.heads.head? = some c) && test c w
      | _ => false

/-- `main` is checked out in `r`, and at `c`. -/
structure OnMain (r : ReadonlyRepo ℕ) (c : ℕ) : Prop where
  active : Transaction.activeBranch r.view = some "refs/heads/main"
  target : r.view.refs.get? "refs/heads/main" = some (.normal c)
  head : r.view.heads.head? = some c

theorem exists_of_mainAt {s : Session shortHashing} {test : ℕ → World shortHashing → Bool}
    (passed : mainAt s test = true) : ∃ r w c, (openRepo : WorldM shortHashing _).Returns s.world r w ∧
      OnMain r c ∧ test c w = true := by
  obtain ⟨r, w, opened, passed⟩ := Exec.exists_of_check passed
  obtain ⟨active, passed⟩ := Bool.and_eq_true_iff.mp passed
  split at passed
  · rename_i c target
    obtain ⟨head, passed⟩ := Bool.and_eq_true_iff.mp passed
    exact ⟨r, w, c, opened, ⟨of_decide_eq_true active, target, of_decide_eq_true head⟩, passed⟩
  · cases passed

theorem OnMain.behind {r : ReadonlyRepo ℕ} {c : ℕ} (on : OnMain r c) (w : World shortHashing)
    (right : ℕ) : Behind w r c right := by
  refine behind_of_target ?_ on.target right
  unfold currentBranchName
  rw [on.active]

/-- A commit on `main` between a conflicted merge and its `--continue`. -/
def betweenRun : SessionM shortHashing (Session shortHashing × Session shortHashing) := do
  let s ← started (forked ++ [writes "c" "main" [], mergeFeature, writes "d" "between" [], settled])
  let s' ← andThen (.mergeContinue "" id)
  return (s, s')

/-- The branch is set to a merge that does not descend from that commit. -/
theorem mergeContinue_discards : ∃ (s s' : Session shortHashing) (r r' : ReadonlyRepo ℕ)
    (w w' : World shortHashing) (name : String) (a c : ℕ), Run (fun _ _ => True) s ∧
      (Command.mergeContinue "" id).run.Returns s () s' ∧
        (openRepo : WorldM shortHashing _).Returns s.world r w ∧
          (openRepo : WorldM shortHashing _).Returns s'.world r' w' ∧
            r.view.refs.get? name = some (.normal a) ∧ r'.view.refs.get? name = some (.normal c) ∧
              ¬ Descends w'.store c a := by
  have passed : betweenRun.check {} (fun out _ => mainAt out.1 fun a _ => mainAt out.2 fun c w =>
      Exec.okAnd (commitAncestorsInclusive w.store c) fun anc => decide (a ∉ anc)) = true := by
    delta betweenRun started andThen mainAt
    rw [shortHashing_eq_quickHashing]
    decide +kernel
  obtain ⟨⟨s, s'⟩, s₁, ran, passed⟩ := Exec.exists_of_check passed
  obtain ⟨s₀, s₂, start, ran⟩ := Exec.returns_bind.mp ran
  obtain ⟨s₃, s₄, continued, done⟩ := Exec.returns_bind.mp ran
  obtain ⟨⟨⟩, rfl⟩ := Exec.returns_pure.mp done
  obtain ⟨rfl, run⟩ := started_returns start
  obtain ⟨-, continued⟩ := andThen_returns continued
  obtain ⟨r, w, a, opened, on, passed⟩ := exists_of_mainAt passed
  obtain ⟨r', w', c, opened', on', passed⟩ := exists_of_mainAt passed
  obtain ⟨anc, walked, apart⟩ := Exec.exists_of_okAnd passed
  refine ⟨s, s', r, r', w, w', _, a, c, run, continued, opened, opened', on.target, on'.target, ?_⟩
  intro below
  exact of_decide_eq_true apart ((mem_of_ancestorsVia walked a).mpr below)

/-- A commit on `main`, a conflicted merge and its `--continue`. -/
def keptRun : SessionM shortHashing (Session shortHashing × Session shortHashing ×
    Session shortHashing × Session shortHashing) := do
  let s ← started forked
  let s₁ ← andThen (writes "c" "main" [])
  let s₂ ← andThen mergeFeature
  let s₃ ← andThen settled
  let s₄ ← andThen (.mergeContinue "" id)
  return (s, s₁, s₃, s₄)

theorem writes_ordinary (name message : String) (s : Session shortHashing) :
    (writes name message []).Ordinary s := by
  intro r w _
  obtain ⟨s', applied⟩ := Transaction.exists_apply_addNode w.store (Transaction.new r)
    { id := 1, ntype := "Person", summary := some name } rfl
  rw [Transaction.stage, applied]
  exact ⟨rfl, rfl⟩

theorem origHead_of_readMerge {files : MergeFiles Cid} {strategy : MergeStrategy} {left right : Cid}
    (read : readMerge files = .ok (strategy, left, right)) : files.origHead = some left := by
  unfold readMerge at read
  split at read
  · cases read
  · cases read
  · cases read
  · obtain ⟨_, -, read⟩ := Exec.bind_eq_ok.mp read
    split at read
    · cases read
    · rename_i orig
      cases read
      exact orig

/-- That commit stays on its branch. -/
theorem merges_keep_commits_kept : ∃ (s₁ s₃ s₄ : Session shortHashing) (r₁ r₄ : ReadonlyRepo ℕ)
    (w₁ w₄ : World shortHashing) (branch : String) (c c' : ℕ), Forward s₃ s₄ ∧
      (openRepo : WorldM shortHashing _).Returns s₁.world r₁ w₁ ∧ r₁.view.heads.head? = some c ∧
        (openRepo : WorldM shortHashing _).Returns s₄.world r₄ w₄ ∧
          r₄.view.refs.get? branch = some (.normal c') ∧ c' ≠ c ∧ Descends w₄.store c' c := by
  have passed : keptRun.check {} (fun out _ => mainAt out.2.1 fun a _ =>
      mainAt out.2.2.1 (fun c _ => decide (out.2.2.1.files.origHead = some c)) &&
        mainAt out.2.2.2 fun c' _ => decide (c' ≠ a)) = true := by
    delta keptRun started andThen mainAt
    rw [shortHashing_eq_quickHashing]
    decide +kernel
  obtain ⟨⟨s, s₁, s₃, s₄⟩, _, ran, passed⟩ := Exec.exists_of_check passed
  obtain ⟨_, t, start, ran⟩ := Exec.returns_bind.mp ran
  obtain ⟨_, t₁, one, ran⟩ := Exec.returns_bind.mp ran
  obtain ⟨_, t₂, two, ran⟩ := Exec.returns_bind.mp ran
  obtain ⟨_, t₃, three, ran⟩ := Exec.returns_bind.mp ran
  obtain ⟨_, t₄, four, done⟩ := Exec.returns_bind.mp ran
  obtain ⟨⟨⟩, rfl⟩ := Exec.returns_pure.mp done
  obtain ⟨rfl, -⟩ := started_returns start
  obtain ⟨rfl, committed⟩ := andThen_returns one
  obtain ⟨rfl, merged⟩ := andThen_returns two
  obtain ⟨rfl, edited⟩ := andThen_returns three
  obtain ⟨-, continued⟩ := andThen_returns four
  obtain ⟨r₁, w₁, c, opened₁, on₁, passed⟩ := exists_of_mainAt passed
  obtain ⟨atContinue, atEnd⟩ := Bool.and_eq_true_iff.mp passed
  obtain ⟨r₃, w₃, c₃, opened₃, on₃, orig⟩ := exists_of_mainAt atContinue
  obtain ⟨r₄, w₄, c₄, opened₄, on₄, other⟩ := exists_of_mainAt atEnd
  have mergeCurrent : mergeFeature.MergesCurrent s₁ := by
    intro r w opened left right head _
    obtain ⟨rfl, rfl⟩ := opened₁.unique opened
    rw [on₁.head] at head
    cases head
    exact on₁.behind w₁ right
  have continueCurrent : (Command.mergeContinue "" id : Command ℕ).MergesCurrent s₃ := by
    intro r w opened strategy left right read
    obtain ⟨rfl, rfl⟩ := opened₃.unique opened
    have same := (origHead_of_readMerge read).symm.trans (of_decide_eq_true orig)
    cases same
    exact on₃.behind w₃ right
  have steps : Steps (fun s command => command.Ordinary s ∧ command.MergesCurrent s) s₁ s₄ := by
    refine .tail (.tail (.tail .refl ?_ merged) ?_ edited) ?_ continued
    · exact ⟨trivial, mergeCurrent⟩
    · exact ⟨trivial, trivial⟩
    · exact ⟨trivial, continueCurrent⟩
  obtain ⟨forward, kept⟩ := merges_keep_commits shortHashing
  obtain ⟨c', target, below⟩ := kept s s₁ s₄ _ _ (writes_ordinary "c" "main" s) committed steps
    r₁ w₁ r₄ w₄ opened₁ opened₄ _ c on₁.active on₁.head
  have onward := forward s₃ s₄ (.mergeContinue "" id) trivial continueCurrent continued
  refine ⟨s₁, s₃, s₄, r₁, r₄, w₁, w₄, _, c, c', onward, opened₁, on₁.head, opened₄, target, ?_, below⟩
  rw [on₄.target] at target
  cases target
  exact of_decide_eq_true other

end Mnem.Cli
