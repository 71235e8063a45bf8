/-
# Repo.Session — what a process does with the repository it holds

A process that holds a repository runs a transaction on it, updates a ref, or
moves the working position.  Each of these writes one operation whose only
parent is the operation of the repository, and advances the heads past that
one.  `Advanced` says so once.
-/
import Mnem.Repo.Merge

namespace Mnem.Repo

open Theory Prolly Index

set_option autoImplicit false
set_option linter.unusedSectionVars false

variable {Cid : Type} {H : Hashing Cid} [LinearOrder Cid]

/-! ## Transactions -/

/-- Start a transaction, make calls on it and commit it. -/
def ReadonlyRepo.transact (base : ReadonlyRepo Cid) (calls : List (Transaction.Call Cid))
    (opts : CommitOptions) : WorldM H (ReadonlyRepo Cid) := do
  let tx ← onStore (Exec.update fun s => (Transaction.new base).stage s calls)
  tx.commitOpts opts

/-! ## Refs and heads -/

/-- Write a view under an operation on top of the repository's, and advance to it. -/
def ReadonlyRepo.advanceTo (r : ReadonlyRepo Cid) (view : View Cid) (author description : String)
    (now : Nat) : WorldM H (ReadonlyRepo Cid) := do
  let viewCid ← onStore (putObject view)
  let op : Operation Cid := { parents := [r.opId], view := viewCid, author := author, time := now,
                              description := description }
  let opCid ← onStore (putObject op)
  updateHeads opCid [r.opId]
  onStore (Exec.read fun s => ReadonlyRepo.loadAt s opCid)

/-- Set or remove a ref, if it is what the caller expects. -/
def ReadonlyRepo.updateRef (r : ReadonlyRepo Cid) (name : String)
    (expectedPrev new : Option (RefTarget Cid)) (author : String) (now : Nat) :
    WorldM H (ReadonlyRepo Cid) :=
  if r.view.refs.get? name ≠ expectedPrev then throw .stale
  else r.advanceTo { r.view with
      refs := match new with
        | some target => r.view.refs.insert name target
        | none => r.view.refs.erase name } author ("update_ref: " ++ name) now

/-- Move the working position. -/
def ReadonlyRepo.updateHeads (r : ReadonlyRepo Cid) (newHead : Cid) (author : String) (now : Nat) :
    WorldM H (ReadonlyRepo Cid) :=
  r.advanceTo { r.view with heads := [newHead] } author
    ("update_heads: " ++ H.cidString newHead) now

/-- Move the working position, and record the branch that commits advance. -/
def ReadonlyRepo.switchBranch (r : ReadonlyRepo Cid) (newHead : Cid) (branch author : String)
    (now : Nat) : WorldM H (ReadonlyRepo Cid) :=
  r.advanceTo { r.view with
      heads := [newHead]
      extra := r.view.extra.insert "active_branch" (.string branch) } author
    ("switch: " ++ branch ++ " -> " ++ H.cidString newHead) now

/-! ## What they leave -/

section Laws

variable {P : Graph Cid → Prop} {w w' : World H} {r r' : ReadonlyRepo Cid} {g : Graph Cid}

/-- A transaction that returns has staged its calls and committed them. -/
theorem transact_returns {calls : List (Transaction.Call Cid)} {opts : CommitOptions}
    (ran : (r.transact calls opts : WorldM H _).Returns w r' w') :
    ∃ (tx : Transaction Cid) (s₁ : Store H),
      (Transaction.new r).stage w.store calls = (tx, s₁) ∧ w.store ≤ s₁ ∧ tx.base = r ∧
        Transaction.Staged s₁ tx ∧
        (tx.commitOpts opts : WorldM H _).Returns { w with store := s₁ } r' w' := by
  obtain ⟨tx, w₁, staging, commit⟩ := Exec.returns_bind.mp ran
  obtain ⟨staged, sameHeads⟩ := returns_onStore.mp staging
  have run := Exec.returns_update.mp staged
  refine ⟨tx, w₁.store, run, ?_, ?_, ?_, ?_⟩
  · have grew := Transaction.le_stage w.store (Transaction.new r) calls
    rw [run] at grew
    exact grew
  · have base := Transaction.base_stage w.store (Transaction.new r) calls
    rw [run] at base
    exact base
  · have kept := (Transaction.staged_new w.store r).stage calls
    rw [run] at kept
    exact kept
  · rw [← sameHeads]
    exact commit

/-- `init` leaves a repository without commits at the only head it inserts. -/
theorem init_returns {now : Nat} (ran : (init now : WorldM H _).Returns w r w') :
    w ≤ w' ∧ Pinned P w'.store r {} ∧ r.op.parents = [] ∧
      w'.opHeads = OpHeads.update w.opHeads r.opId [] := by
  obtain ⟨viewCid, w₁, putView, ran⟩ := Exec.returns_bind.mp ran
  obtain ⟨opCid, w₂, putOp, ran⟩ := Exec.returns_bind.mp ran
  obtain ⟨_, w₃, advance, done⟩ := Exec.returns_bind.mp ran
  obtain ⟨rfl, rfl⟩ := Exec.returns_pure.mp done
  obtain ⟨wroteView, heads₁⟩ := returns_onStore.mp putView
  obtain ⟨wroteOp, heads₂⟩ := returns_onStore.mp putOp
  obtain rfl := returns_updateHeads.mp advance
  obtain ⟨-, le₁, viewLoads⟩ := putObject_returns wroteView
  obtain ⟨-, le₂, opLoads⟩ := putObject_returns wroteOp
  refine ⟨le₁.trans le₂, ⟨.intro _ _ opLoads (viewLoads.mono le₂) nofun nofun, opLoads,
    viewLoads.mono le₂, rfl, rfl⟩, rfl, ?_⟩
  rw [← heads₁, ← heads₂]

/-- A repository without commits has an empty view. -/
theorem init_empty {now : Nat} (ran : (init now : WorldM H _).Returns w r w') :
    r.view = {} ∧ r.commit = none := by
  obtain ⟨viewCid, w₁, -, ran⟩ := Exec.returns_bind.mp ran
  obtain ⟨opCid, w₂, -, ran⟩ := Exec.returns_bind.mp ran
  obtain ⟨_, w₃, -, done⟩ := Exec.returns_bind.mp ran
  obtain ⟨rfl, -⟩ := Exec.returns_pure.mp done
  exact ⟨rfl, rfl⟩

/-- What an advance leaves: a new operation on top of the old one, in its place. -/
structure Advanced (w : World H) (r : ReadonlyRepo Cid) (view : View Cid) (opId : Cid)
    (w' : World H) : Prop where
  grows : w ≤ w'
  op : ∃ op : Operation Cid, w'.store.Loads opId op ∧ op.parents = [r.opId] ∧
    w'.store.Loads op.view view
  heads : w'.opHeads = OpHeads.update w.opHeads opId [r.opId]

theorem advanceTo_returns {view : View Cid} {author description : String} {now : Nat}
    (ran : (r.advanceTo view author description now : WorldM H _).Returns w r' w') :
    Advanced w r view r'.opId w' ∧ ReadonlyRepo.loadAt w'.store r'.opId = .ok r' := by
  obtain ⟨viewCid, w₁, putView, ran⟩ := Exec.returns_bind.mp ran
  obtain ⟨opCid, w₂, putOp, ran⟩ := Exec.returns_bind.mp ran
  obtain ⟨_, w₃, advance, load⟩ := Exec.returns_bind.mp ran
  obtain ⟨wroteView, heads₁⟩ := returns_onStore.mp putView
  obtain ⟨wroteOp, heads₂⟩ := returns_onStore.mp putOp
  obtain rfl := returns_updateHeads.mp advance
  obtain ⟨loaded, heads₃⟩ := returns_onStore.mp load
  obtain ⟨at_op, sameStore⟩ := Exec.returns_read.mp loaded
  obtain ⟨-, le₁, viewLoads⟩ := putObject_returns wroteView
  obtain ⟨-, le₂, opLoads⟩ := putObject_returns wroteOp
  have same : r'.opId = opCid := ReadonlyRepo.opId_of_loadAt at_op
  change w₂.store = w'.store at sameStore
  rw [same, ← sameStore]
  refine ⟨⟨?_, ⟨_, sameStore ▸ opLoads, rfl, sameStore ▸ viewLoads.mono le₂⟩, ?_⟩, at_op⟩
  · change w.store ≤ w'.store
    exact sameStore ▸ le₁.trans le₂
  · rw [heads₃, heads₂, heads₁]

end Laws

/-! ## Two branches -/

/-- A base commit, and two commits made on top of it. -/
def fork (base left right : List (Transaction.Call Cid)) :
    WorldM H (ReadonlyRepo Cid × ReadonlyRepo Cid × ReadonlyRepo Cid) := do
  let root ← init 0
  let b ← root.transact base { author := "", message := "base" }
  let l ← b.transact left { author := "", message := "left" }
  let r ← b.transact right { author := "", message := "right" }
  return (b, l, r)

/-- The repository's head is a stored commit that holds `g`. -/
structure AtCommit (s : Store H) (r : ReadonlyRepo Cid) (cid : Cid) (commit : Commit Cid)
    (g : Graph Cid) : Prop where
  head : r.view.heads.head? = some cid
  loads : s.Loads cid commit
  stands : Stands s commit g

theorem AtCommit.mono {s s' : Store H} {r : ReadonlyRepo Cid} {cid : Cid} {commit : Commit Cid}
    {g : Graph Cid} (holds : AtCommit s r cid commit g) (le : s ≤ s') :
    AtCommit s' r cid commit g :=
  ⟨holds.head, holds.loads.mono le, holds.stands.mono le⟩

/-- A repository that was just committed is at its commit. -/
theorem transact_atCommit {w w' : World H} {r r' : ReadonlyRepo Cid} {g : Graph Cid}
    {calls : List (Transaction.Call Cid)} {opts : CommitOptions}
    (pinned : Pinned (fun _ => True) w.store r g)
    (ran : (r.transact calls opts : WorldM H _).Returns w r' w') :
    w ≤ w' ∧ ∃ g', Pinned (fun _ => True) w'.store r' g' ∧
      ∃ cid commit, AtCommit w'.store r' cid commit g' := by
  obtain ⟨tx, s₁, -, le, rfl, staged, ran⟩ := transact_returns ran
  have done := Transaction.commitOpts_returns (w := { w with store := s₁ }) (pinned.mono le) staged
    (fun _ => trivial) ran
  refine ⟨le.trans done.grows, _, done.pinned, ?_⟩
  obtain ⟨commit, here, -⟩ := done.commit
  have byHead := done.pinned.commit
  have holds := done.pinned.holds
  rw [here] at byHead holds
  cases first : r'.view.heads.head? with
  | none =>
      rw [first] at byHead
      cases byHead
  | some cid =>
      rw [first] at byHead
      obtain ⟨_, ⟨⟩, loads⟩ := byHead
      exact ⟨cid, commit, first, loads, holds⟩

/-- A commit on a new repository. -/
def seeded (calls : List (Transaction.Call Cid)) : WorldM H (ReadonlyRepo Cid) := do
  let root ← init 0
  root.transact calls { author := "", message := "base" }

theorem seeded_returns {calls : List (Transaction.Call Cid)} {r : ReadonlyRepo Cid} {w : World H}
    (ran : (seeded calls : WorldM H _).Returns {} r w) :
    ∃ g, Pinned (fun _ => True) w.store r g := by
  obtain ⟨root, w₀, start, ran⟩ := Exec.returns_bind.mp ran
  obtain ⟨-, pinned₀, -⟩ := init_returns start
  obtain ⟨-, g, pinned, -⟩ := transact_atCommit pinned₀ ran
  exact ⟨g, pinned⟩

/-- Two transactions, one on top of the other. -/
def transactTwice (first second : List (Transaction.Call Cid)) :
    WorldM H (ReadonlyRepo Cid × ReadonlyRepo Cid) := do
  let root ← init 0
  let base ← root.transact first { author := "", message := "first" }
  let next ← base.transact second { author := "", message := "second" }
  return (base, next)

theorem transactTwice_returns {first second : List (Transaction.Call Cid)} {base next : ReadonlyRepo Cid}
    {w' : World H}
    (ran : (transactTwice first second : WorldM H _).Returns {} (base, next) w') :
    ∃ (w : World H) (g : Graph Cid), Pinned (fun _ => True) w.store base g ∧ w ≤ w' ∧
      (base.transact second { author := "", message := "second" } : WorldM H _).Returns w next w' := by
  obtain ⟨root, w₀, start, ran⟩ := Exec.returns_bind.mp ran
  obtain ⟨base', w₁, atBase, ran⟩ := Exec.returns_bind.mp ran
  obtain ⟨next', w₂, atNext, done⟩ := Exec.returns_bind.mp ran
  obtain ⟨⟨⟩, rfl⟩ := Exec.returns_pure.mp done
  obtain ⟨-, pinned₀, -⟩ := init_returns start
  obtain ⟨-, g₁, pinned₁, -⟩ := transact_atCommit pinned₀ atBase
  obtain ⟨le, -⟩ := transact_atCommit pinned₁ atNext
  exact ⟨w₁, g₁, pinned₁, le, atNext⟩

theorem fork_returns {base left right : List (Transaction.Call Cid)} {w' : World H}
    {b l r : ReadonlyRepo Cid}
    (ran : (fork base left right : WorldM H _).Returns {} (b, l, r) w') :
    (∃ cid commit g, AtCommit w'.store b cid commit g) ∧
      (∃ cid commit g, AtCommit w'.store l cid commit g) ∧
        ∃ cid commit g, AtCommit w'.store r cid commit g := by
  obtain ⟨root, w₀, start, ran⟩ := Exec.returns_bind.mp ran
  obtain ⟨b', w₁, atBase, ran⟩ := Exec.returns_bind.mp ran
  obtain ⟨l', w₂, atLeft, ran⟩ := Exec.returns_bind.mp ran
  obtain ⟨r', w₃, atRight, done⟩ := Exec.returns_bind.mp ran
  obtain ⟨⟨⟩, rfl⟩ := Exec.returns_pure.mp done
  obtain ⟨-, pinned₀, -⟩ := init_returns start
  obtain ⟨-, g₁, pinned₁, cid₁, commit₁, at₁⟩ := transact_atCommit pinned₀ atBase
  obtain ⟨le₂, g₂, -, cid₂, commit₂, at₂⟩ := transact_atCommit pinned₁ atLeft
  obtain ⟨le₃, g₃, -, cid₃, commit₃, at₃⟩ := transact_atCommit (pinned₁.mono le₂) atRight
  exact ⟨⟨cid₁, commit₁, g₁, at₁.mono (le₂.trans le₃)⟩, ⟨cid₂, commit₂, g₂, at₂.mono le₃⟩,
    cid₃, commit₃, g₃, at₃⟩

end Mnem.Repo
