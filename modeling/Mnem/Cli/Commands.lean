/-
# Cli.Commands — `mnem merge`, `mnem fetch` and `mnem pull`

The commands that move branches.  A merge in progress is kept in three files
beside the repository, and the ref that is advanced at the end is looked up
when the merge goes on, not when it began.  A pull is a fetch, which writes
tracking refs, and a fast-forward of the branch it is asked for.
-/
import Mnem.Cli.Checkout
import Mnem.Repo.ThreeWay

namespace Mnem.Cli

open Theory Repo

set_option autoImplicit false
set_option linter.unusedSectionVars false

variable {Cid : Type} {H : Hashing Cid} [LinearOrder Cid]

/-! ## State -/

/-- The files of a merge in progress.  A head file holds the text of a CID and reads back as it;
the conflict file may be edited into something that does not parse. -/
structure MergeFiles (Cid : Type) where
  mergeHead : Option Cid := none
  origHead : Option Cid := none
  conflicts : Option (Option (MergeConflicts Cid)) := none

/-- The repository and the files beside it. -/
structure Session (H : Hashing Cid) where
  world : World H := {}
  files : MergeFiles Cid := {}

abbrev SessionM (H : Hashing Cid) (α : Type) := Exec (Session H) (Error Cid) α

def onWorld {α : Type} (p : WorldM H α) : SessionM H α :=
  p.zoom Session.world fun w s => { s with world := w }

def writeFiles (f : MergeFiles Cid → MergeFiles Cid) : SessionM H Unit :=
  Exec.update fun s => ((), { s with files := f s.files })

def readFiles : SessionM H (MergeFiles Cid) := Exec.read fun s => .ok s.files

def bail {α : Type} (message : String) : Except (Error Cid) α := .error (.invalidInput message)

@[simp] theorem returns_onWorld {α : Type} {p : WorldM H α} {a : α} {s s' : Session H} :
    (onWorld p).Returns s a s' ↔ p.Returns s.world a s'.world ∧ s'.files = s.files := by
  rw [onWorld, Exec.returns_zoom]
  constructor
  · rintro ⟨w, ran, rfl⟩
    exact ⟨ran, rfl⟩
  · rintro ⟨ran, same⟩
    refine ⟨s'.world, ran, ?_⟩
    cases s'
    cases same
    rfl

/-! ## The branch that is checked out -/

def headsPrefix : String := "refs/heads/"

/-- The branch that the view records, or the first that points at the head. -/
def currentBranchName (r : ReadonlyRepo Cid) : Option String :=
  match Transaction.activeBranch r.view with
  | some name => some name
  | none => do
      let head ← r.view.heads.head?
      let ref ← r.view.refs.entries.find? fun ref =>
        ref.2 = .normal head ∧ ref.1.startsWith headsPrefix
      return ref.1

/-- Set a ref to `target` whatever it is now, and move the working position there.  The clock
gives the time of each operation that a command writes. -/
def advanceRef (r : ReadonlyRepo Cid) (refName : String) (target : Cid) (author : String)
    (clock : Nat → Nat) : WorldM H Unit := do
  let prev := r.view.refs.get? refName
  let r2 ← r.updateRef refName prev (some (.normal target)) author (clock 0)
  let _ ← r2.updateHeads target author (clock 1)

/-- Advance the branch that is checked out, or the working position alone. -/
def land (r : ReadonlyRepo Cid) (target : Cid) (author : String) (clock : Nat → Nat) :
    WorldM H Unit :=
  match currentBranchName r with
  | some name => advanceRef r name target author clock
  | none => do
      let _ ← r.updateHeads target author (clock 0)

/-! ## `mnem merge` -/

/-- A CID, a ref, or the short name of a branch; `parse` is `Cid::parse_str`. -/
def resolveCommitish (parse : String → Option Cid) (r : ReadonlyRepo Cid) (name : String) :
    Except (Error Cid) Cid :=
  match parse name with
  | some cid => .ok cid
  | none =>
      let candidate := if r.view.refs.contains name then name else headsPrefix ++ name
      match r.view.refs.get? candidate with
      | some (.normal target) => .ok target
      | some (.conflicted _ _) => bail "ref is conflicted; resolve the ref before merging"
      | none => bail "cannot resolve to a commit"

/-- `mnem merge <branch>`. -/
def merge (parse : String → Option Cid) (branch : String) (strategy : MergeStrategy) (dryRun : Bool)
    (author : String) (clock : Nat → Nat) : SessionM H Unit := do
  let files ← readFiles
  if files.mergeHead.isSome then throw (.invalidInput "merge in progress")
  else do
    let r ← onWorld openRepo
    match r.view.heads.head? with
    | none => throw (.invalidInput "repository has no commits yet; nothing to merge into")
    | some left => do
        let right ← Exec.read fun _ => resolveCommitish parse r branch
        if left = right then return ()
        else do
          let outcome ← onWorld (onStore (mergeThreeWay left right strategy))
          if dryRun then return ()
          else
            match outcome with
            | .fastForward target => onWorld (land r target author clock)
            | .clean target => onWorld (land r target author clock)
            | .conflicts mc => writeFiles fun _ => ⟨some right, some left, some (some mc)⟩

/-- `mnem merge --abort`. -/
def mergeAbort : SessionM H Unit := do
  let files ← readFiles
  if files.mergeHead.isNone then throw (.invalidInput "no merge in progress")
  else writeFiles fun _ => {}

/-- The strategy that the edited conflicts ask for, all of them the same one. -/
def chosenStrategy (conflicts : List (Conflict Cid)) : Except (Error Cid) MergeStrategy :=
  if conflicts.any fun c => c.resolution.any fun r => r ≠ "ours" ∧ r ≠ "theirs" then
    bail "conflict has unrecognised resolution"
  else if conflicts.any fun c => c.resolution.isNone then
    bail "conflicts still lack a resolution field"
  else if conflicts.isEmpty then .ok .ours
  else if conflicts.all fun c => c.resolution = some "theirs" then .ok .theirs
  else if conflicts.all fun c => c.resolution = some "ours" then .ok .ours
  else bail "mixed resolutions"

/-- What `--continue` reads from the files: the strategy and the two heads. -/
def readMerge (files : MergeFiles Cid) : Except (Error Cid) (MergeStrategy × Cid × Cid) :=
  match files.mergeHead, files.conflicts with
  | none, _ => bail "no merge in progress"
  | some _, none => bail "MERGE_CONFLICTS.json not found"
  | some _, some none => bail "parsing MERGE_CONFLICTS.json"
  | some right, some (some mc) => do
      let strategy ← chosenStrategy mc.conflicts
      match files.origHead with
      | none => bail "reading ORIG_HEAD"
      | some left => return (strategy, left, right)

/-- `mnem merge --continue`. -/
def mergeContinue (author : String) (clock : Nat → Nat) : SessionM H Unit := do
  let files ← readFiles
  let (strategy, left, right) ← Exec.read fun _ => readMerge files
  let r ← onWorld openRepo
  let outcome ← onWorld (onStore (mergeThreeWay left right strategy))
  match outcome with
  | .clean target => do
      onWorld (land r target author clock)
      writeFiles fun _ => {}
  | .fastForward target => do
      onWorld (land r target author clock)
      writeFiles fun _ => {}
  | .conflicts mc => do
      writeFiles fun files => { files with conflicts := some (some mc) }
      throw (.invalidInput "merge --continue still has unresolved conflicts")

/-! ### What they do -/

section Returns

variable {s s' : Session H} {author : String} {clock : Nat → Nat} {u : Unit}

/-- A merge of two commits that moved the branch checked out at `r`. -/
structure Landed (w : World H) (r : ReadonlyRepo Cid) (left right : Cid) (author : String)
    (clock : Nat → Nat) (w' : World H) : Prop where
  landed : ∃ strategy out target s₁, (mergeThreeWay left right strategy : StoreM H _).Returns w.store
      out s₁ ∧ (out = .fastForward target ∨ out = .clean target) ∧
    (land r target author clock : WorldM H _).Returns { w with store := s₁ } () w'

/-- A merge moves a branch from the head of `r`, or leaves the heads alone. -/
inductive MergeEffect (files : MergeFiles Cid) (w : World H) (r : ReadonlyRepo Cid)
    (parse : String → Option Cid) (branch author : String) (clock : Nat → Nat) : Session H → Prop where
  | nothing (s₁ : Store H) (le : w.store ≤ s₁) :
      MergeEffect files w r parse branch author clock ⟨{ w with store := s₁ }, files⟩
  | landed {left right : Cid} {w' : World H} (head : r.view.heads.head? = some left)
      (resolved : resolveCommitish parse r branch = .ok right)
      (landed : Landed w r left right author clock w') :
      MergeEffect files w r parse branch author clock ⟨w', files⟩
  | conflicts {left right : Cid} (head : r.view.heads.head? = some left) (mc : MergeConflicts Cid)
      (s₁ : Store H) (le : w.store ≤ s₁) :
      MergeEffect files w r parse branch author clock
        ⟨{ w with store := s₁ }, ⟨some right, some left, some (some mc)⟩⟩

theorem Session.ext' {s t : Session H} (world : s.world = t.world) (files : s.files = t.files) :
    s = t := by
  cases s
  cases t
  cases world
  cases files
  rfl

theorem world_of_heads {w w' : World H} (same : w'.opHeads = w.opHeads) :
    w' = { w with store := w'.store } := by
  cases w'
  cases same
  rfl

theorem merge_returns {parse : String → Option Cid} {branch : String} {strategy : MergeStrategy}
    {dryRun : Bool}
    (ran : (merge parse branch strategy dryRun author clock : SessionM H _).Returns s u s') :
    s.files.mergeHead = none ∧ ∃ r w, (openRepo : WorldM H _).Returns s.world r w ∧
      MergeEffect s.files w r parse branch author clock s' := by
  obtain ⟨files, s₁, read, ran⟩ := Exec.returns_bind.mp ran
  obtain ⟨same, rfl⟩ := Exec.returns_read.mp read
  cases same
  split at ran
  · exact absurd ran Exec.returns_throw
  · rename_i idle
    refine ⟨by simpa using idle, ?_⟩
    obtain ⟨r, s₂, opened, ran⟩ := Exec.returns_bind.mp ran
    obtain ⟨opened, files₂⟩ := returns_onWorld.mp opened
    refine ⟨r, s₂.world, opened, ?_⟩
    rw [← files₂]
    split at ran
    · exact absurd ran Exec.returns_throw
    · rename_i left head
      obtain ⟨right, s₃, resolved, ran⟩ := Exec.returns_bind.mp ran
      obtain ⟨resolves, rfl⟩ := Exec.returns_read.mp resolved
      split at ran
      · obtain ⟨-, rfl⟩ := Exec.returns_pure.mp ran
        exact .nothing s₂.world.store (le_refl _)
      · obtain ⟨out, s₃, merged, ran⟩ := Exec.returns_bind.mp ran
        obtain ⟨merged, files₃⟩ := returns_onWorld.mp merged
        obtain ⟨merged, heads₃⟩ := returns_onStore.mp merged
        have le := (mergeThreeWay_returns merged).grows
        have world₃ : s₃ = ⟨{ s₂.world with store := s₃.world.store }, s₂.files⟩ :=
          Session.ext' (world_of_heads heads₃) files₃
        split at ran
        · obtain ⟨-, rfl⟩ := Exec.returns_pure.mp ran
          rw [world₃]
          exact .nothing s₃.world.store le
        · have land : ∀ target, out = .fastForward target ∨ out = .clean target →
              (onWorld (land r target author clock) : SessionM H _).Returns s₃ u s' →
                MergeEffect s₂.files s₂.world r parse branch author clock s' := by
            intro target moved ran
            obtain ⟨ran, files⟩ := returns_onWorld.mp ran
            rw [world₃] at ran
            have done : s' = ⟨s'.world, s₂.files⟩ := Session.ext' rfl (files.trans files₃)
            rw [done]
            exact .landed head resolves ⟨strategy, out, target, _, merged, moved, ran⟩
          cases out with
          | fastForward target => exact land target (.inl rfl) ran
          | clean target => exact land target (.inr rfl) ran
          | conflicts mc =>
              have wrote := Exec.returns_update.mp ran
              obtain rfl := congrArg Prod.snd wrote
              rw [world₃]
              exact .conflicts head mc s₃.world.store le

theorem mergeContinue_returns
    (ran : (mergeContinue author clock : SessionM H _).Returns s u s') :
    ∃ strategy left right r w, readMerge s.files = .ok (strategy, left, right) ∧
      (openRepo : WorldM H _).Returns s.world r w ∧ Landed w r left right author clock s'.world ∧
        s'.files = {} := by
  obtain ⟨files, s₁, read, ran⟩ := Exec.returns_bind.mp ran
  obtain ⟨same, rfl⟩ := Exec.returns_read.mp read
  cases same
  obtain ⟨⟨strategy, left, right⟩, s₁, read, ran⟩ := Exec.returns_bind.mp ran
  obtain ⟨resolved, rfl⟩ := Exec.returns_read.mp read
  obtain ⟨r, s₂, opened, ran⟩ := Exec.returns_bind.mp ran
  obtain ⟨opened, -⟩ := returns_onWorld.mp opened
  obtain ⟨out, s₃, merged, ran⟩ := Exec.returns_bind.mp ran
  obtain ⟨merged, -⟩ := returns_onWorld.mp merged
  obtain ⟨merged, heads₃⟩ := returns_onStore.mp merged
  have world₃ : s₃.world = { s₂.world with store := s₃.world.store } := world_of_heads heads₃
  refine ⟨strategy, left, right, r, s₂.world, resolved, opened, ?_⟩
  have land : ∀ target, out = .fastForward target ∨ out = .clean target →
      (do onWorld (land r target author clock)
          writeFiles fun _ => {} : SessionM H Unit).Returns s₃ u s' →
        Landed s₂.world r left right author clock s'.world ∧ s'.files = {} := by
    intro target moved ran
    obtain ⟨_, s₄, landed, cleared⟩ := Exec.returns_bind.mp ran
    obtain ⟨landed, -⟩ := returns_onWorld.mp landed
    have wrote := congrArg Prod.snd (Exec.returns_update.mp cleared)
    subst wrote
    rw [world₃] at landed
    exact ⟨⟨strategy, out, target, _, merged, moved, landed⟩, rfl⟩
  cases out with
  | fastForward target => exact land target (.inl rfl) ran
  | clean target => exact land target (.inr rfl) ran
  | conflicts mc =>
      obtain ⟨_, s₄, -, failed⟩ := Exec.returns_bind.mp ran
      exact absurd failed Exec.returns_throw

theorem mergeAbort_returns (ran : (mergeAbort : SessionM H _).Returns s u s') :
    s' = { s with files := {} } := by
  obtain ⟨files, s₁, read, ran⟩ := Exec.returns_bind.mp ran
  obtain ⟨-, rfl⟩ := Exec.returns_read.mp read
  split at ran
  · exact absurd ran Exec.returns_throw
  · exact (congrArg Prod.snd (Exec.returns_update.mp ran)).symm

end Returns

/-! ## `mnem fetch` and `mnem pull` -/

/-- Import the blocks that a remote sent. -/
def importBlocks (blocks : List (Block Cid)) : StoreM H Unit :=
  blocks.forM fun b =>
    if ok : H.encodes b = true then Exec.update fun s => ((), s.insert b ok) else throw .encode

def trackingKey (remote name : String) : String := "refs/remotes/" ++ remote ++ "/" ++ name

/-- Fetch what one ref of the remote wants, unless the tracking ref is there already.  Every
tracking ref is written on top of the repository as it was opened. -/
def fetchRef (repo : ReadonlyRepo Cid) (remote : String) (received : Cid → List (Block Cid))
    (author : String) (now : Nat) (name : String) (want : Cid) : WorldM H Unit := do
  let localTarget := repo.view.refs.get? (trackingKey remote name)
  if localTarget = some (.normal want) then return ()
  else do
    onStore (importBlocks (received want))
    let _ ← repo.updateRef (trackingKey remote name) localTarget (some (.normal want)) author now

def fetchRefs (repo : ReadonlyRepo Cid) (remote : String) (received : Cid → List (Block Cid))
    (author : String) (clock : Nat → Nat) : List (String × Cid) → WorldM H Unit
  | [] => return ()
  | ref :: refs => do
      fetchRef repo remote received author (clock refs.length) ref.1 ref.2
      fetchRefs repo remote received author clock refs

/-- `mnem fetch`, of a remote that lists `refs` and sends `received` for each. -/
def fetch (remote : String) (refs : List (String × Cid)) (received : Cid → List (Block Cid))
    (author : String) (clock : Nat → Nat) : WorldM H Unit := do
  let repo ← openRepo
  fetchRefs repo remote received author clock refs

/-- The parents of a commit; what is absent or no commit has none. -/
def knownParents (s : Store H) (cid : Cid) : Except (Error Cid) (List Cid) :=
  match s.decodeFromStore (Commit Cid) cid with
  | .ok commit => .ok commit.parents
  | .error _ => .ok []

/-- Whether `needle` is found on the way down from `tip`. -/
def isAncestor (s : Store H) (needle tip : Cid) : Except (Error Cid) Bool := do
  let seen ← ancestorsVia s (knownParents s) tip
  return seen.contains needle

/-- The second part of `mnem pull`: fast-forward `branch` to its tracking ref. -/
def fastForwardAt (repo : ReadonlyRepo Cid) (remote branch author : String) (clock : Nat → Nat) :
    WorldM H Unit :=
  match repo.view.refs.get? (trackingKey remote branch) with
  | some (.normal remoteTip) =>
      if repo.view.heads.head? = some remoteTip then return ()
      else do
        let forward ← onStore (Exec.read fun s =>
          match repo.view.heads.head? with
          | some localHead => isAncestor s localHead remoteTip
          | none => .ok true)
        if forward then do
          let key := headsPrefix ++ branch
          let afterRef ← repo.updateRef key (repo.view.refs.get? key) (some (.normal remoteTip)) author
            (clock 0)
          let _ ← afterRef.updateHeads remoteTip author (clock 1)
        else throw (.invalidInput "mnem pull: non-fast-forward detected")
  | _ => throw (.invalidInput "no tracking ref")

def fastForward (remote branch author : String) (clock : Nat → Nat) : WorldM H Unit := do
  let repo ← openRepo
  fastForwardAt repo remote branch author clock

/-- `mnem pull`. -/
def pull (remote branch : String) (refs : List (String × Cid)) (received : Cid → List (Block Cid))
    (author : String) (clock : Nat → Nat) : WorldM H Unit := do
  fetch remote refs received author fun n => clock (n + 2)
  fastForward remote branch author clock

/-! ## Commands -/

/-- What a user does with a repository. -/
inductive Command (Cid : Type) where
  /-- Any command that reads only. -/
  | open
  | commit (calls : List (Transaction.Call Cid)) (opts : CommitOptions)
  | switchBranch (newHead : Cid) (branch author : String) (now : Nat)
  | merge (parse : String → Option Cid) (branch : String) (strategy : MergeStrategy) (dryRun : Bool)
      (author : String) (clock : Nat → Nat)
  | mergeContinue (author : String) (clock : Nat → Nat)
  | mergeAbort
  /-- Edit or delete the conflict file. -/
  | edit (conflicts : Option (Option (MergeConflicts Cid)))
  | fetch (remote : String) (refs : List (String × Cid)) (received : Cid → List (Block Cid))
      (author : String) (clock : Nat → Nat)
  | fastForward (remote branch author : String) (clock : Nat → Nat)

def Command.run : Command Cid → SessionM H Unit
  | .open => onWorld do
      let _ ← openRepo
  | .commit calls opts => onWorld do
      let r ← openRepo
      let _ ← r.transact calls opts
  | .switchBranch newHead branch author now => onWorld do
      let r ← openRepo
      let _ ← r.switchBranch newHead branch author now
  | .merge parse branch strategy dryRun author clock =>
      Cli.merge parse branch strategy dryRun author clock
  | .mergeContinue author clock => Cli.mergeContinue author clock
  | .mergeAbort => Cli.mergeAbort
  | .edit conflicts => writeFiles fun files => { files with conflicts := conflicts }
  | .fetch remote refs received author clock => onWorld (Cli.fetch remote refs received author clock)
  | .fastForward remote branch author clock => onWorld (Cli.fastForward remote branch author clock)

/-- A pull is a fetch and a fast-forward. -/
theorem pull_commands {remote branch author : String} {refs : List (String × Cid)}
    {received : Cid → List (Block Cid)} {clock : Nat → Nat} {s s' : Session H}
    (ran : (onWorld (pull remote branch refs received author clock)).Returns s () s') :
    ∃ s₁ : Session H,
      (Command.fetch remote refs received author fun n => clock (n + 2)).run.Returns s () s₁ ∧
        (Command.fastForward remote branch author clock).run.Returns s₁ () s' := by
  obtain ⟨ran, files⟩ := returns_onWorld.mp ran
  obtain ⟨_, w₁, fetched, forwarded⟩ := Exec.returns_bind.mp ran
  exact ⟨⟨w₁, s.files⟩, returns_onWorld.mpr ⟨fetched, rfl⟩, returns_onWorld.mpr ⟨forwarded, files⟩⟩

/-- Commands one after the other. -/
def runAll : List (Command Cid) → SessionM H Unit
  | [] => return ()
  | command :: commands => do
      command.run
      runAll commands

end Mnem.Cli
