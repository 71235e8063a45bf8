/-
# Repo.System — any number of processes over one repository

Processes share the block store and the operation heads, and keep what they
have read or prepared: repositories, head lists, and operations that are
written but have not advanced the heads yet.  A step is what lies between two
calls on the heads store: reading the heads, opening at heads read before,
writing an operation on top of a held repository, and advancing the heads to an
operation written before.

`perform` puts the steps of one call together again; that each of the source's
calls is this composition is `transact_eq_perform` and its companions.
-/
import Mnem.Repo.HeadMerge
import Mnem.Repo.Session

namespace Mnem.Repo

open Theory Prolly Index

set_option autoImplicit false
set_option linter.unusedSectionVars false

variable {Cid : Type} {H : Hashing Cid} [LinearOrder Cid]

/-! ## Requests -/

/-- What a process can ask of a repository that it holds. -/
inductive Request (Cid : Type) where
  | transact (calls : List (Transaction.Call Cid)) (opts : CommitOptions)
  | updateRef (name : String) (expectedPrev new : Option (RefTarget Cid)) (author : String)
      (now : Nat)
  | updateHeads (newHead : Cid) (author : String) (now : Nat)
  | switchBranch (newHead : Cid) (branch author : String) (now : Nat)

/-- Write a view, and an operation for it on top of the repository's. -/
def ReadonlyRepo.writeView (r : ReadonlyRepo Cid) (view : View Cid) (author description : String)
    (now : Nat) : StoreM H Cid := do
  let viewCid ← putObject view
  putObject ({ parents := [r.opId], view := viewCid, author := author, time := now,
               description := description } : Operation Cid)

/-- Everything up to the advance of the heads. -/
def ReadonlyRepo.prepare (r : ReadonlyRepo Cid) : Request Cid → StoreM H Cid
  | .transact calls opts => do
      let tx ← Exec.update fun s => (Transaction.new r).stage s calls
      tx.writeOperation opts
  | .updateRef name expectedPrev new author now =>
      if r.view.refs.get? name ≠ expectedPrev then throw .stale
      else r.writeView { r.view with
          refs := match new with
            | some target => r.view.refs.insert name target
            | none => r.view.refs.erase name } author ("update_ref: " ++ name) now
  | .updateHeads newHead author now =>
      r.writeView { r.view with heads := [newHead] } author
        ("update_heads: " ++ H.cidString newHead) now
  | .switchBranch newHead branch author now =>
      r.writeView { r.view with
          heads := [newHead]
          extra := r.view.extra.insert "active_branch" (.string branch) } author
        ("switch: " ++ branch ++ " -> " ++ H.cidString newHead) now

/-- Prepare, advance the heads, and load. -/
def ReadonlyRepo.perform (r : ReadonlyRepo Cid) (request : Request Cid) :
    WorldM H (ReadonlyRepo Cid) := do
  let opCid ← onStore (r.prepare request)
  Mnem.Repo.updateHeads opCid [r.opId]
  onStore (Exec.read fun s => ReadonlyRepo.loadAt s opCid)

section Compose

variable {r : ReadonlyRepo Cid}

theorem outcome_onStore {α : Type} (p : StoreM H α) (w : World H) :
    (onStore p).outcome w =
      ((p.outcome w.store).1, { w with store := (p.outcome w.store).2 }) := rfl

/-- Two uses of the store in a row are one. -/
theorem onStore_bind {α β : Type} (p : StoreM H α) (f : α → StoreM H β) :
    onStore (p >>= f) = onStore p >>= fun a => onStore (f a) := by
  funext w
  change (onStore (p >>= f)).outcome w = (onStore p >>= fun a => onStore (f a)).outcome w
  rw [Exec.outcome_bind, outcome_onStore, outcome_onStore, Exec.outcome_bind]
  rcases p.outcome w.store with ⟨e | a, s⟩ <;> rfl

/-- A transaction in the default mode is its preparation and an advance. -/
theorem transact_eq_perform (calls : List (Transaction.Call Cid)) {opts : CommitOptions}
    (default : opts.linearize = false) :
    (r.transact calls opts : WorldM H _) = r.perform (.transact calls opts) := by
  funext w
  change (r.transact calls opts : WorldM H _).outcome w =
    (r.perform (.transact calls opts) : WorldM H _).outcome w
  have base := Transaction.base_stage w.store (Transaction.new r) calls
  unfold ReadonlyRepo.transact ReadonlyRepo.perform ReadonlyRepo.prepare
  rw [onStore_bind, bind_assoc, Exec.outcome_bind, Exec.outcome_bind, outcome_onStore]
  change (Transaction.commitOpts ((Transaction.new r).stage w.store calls).1 opts).outcome
      { w with store := ((Transaction.new r).stage w.store calls).2 } = _
  unfold Transaction.commitOpts
  rw [base, default]
  rfl

/-- Writing an advance of the view and performing it are one. -/
theorem advanceTo_eq (view : View Cid) (author description : String) (now : Nat) :
    (r.advanceTo view author description now : WorldM H _) = (do
      let opCid ← onStore (r.writeView view author description now)
      Mnem.Repo.updateHeads opCid [r.opId]
      onStore (Exec.read fun s => ReadonlyRepo.loadAt s opCid)) := by
  unfold ReadonlyRepo.advanceTo ReadonlyRepo.writeView
  rw [onStore_bind, bind_assoc]

theorem updateRef_eq_perform (name : String) (expectedPrev new : Option (RefTarget Cid))
    (author : String) (now : Nat) :
    (r.updateRef name expectedPrev new author now : WorldM H _) =
      r.perform (.updateRef name expectedPrev new author now) := by
  unfold ReadonlyRepo.updateRef ReadonlyRepo.perform ReadonlyRepo.prepare
  dsimp only
  split
  · rfl
  · exact advanceTo_eq _ _ _ _

theorem updateHeads_eq_perform (newHead : Cid) (author : String) (now : Nat) :
    (r.updateHeads newHead author now : WorldM H _) =
      r.perform (.updateHeads newHead author now) := advanceTo_eq _ _ _ _

theorem switchBranch_eq_perform (newHead : Cid) (branch author : String) (now : Nat) :
    (r.switchBranch newHead branch author now : WorldM H _) =
      r.perform (.switchBranch newHead branch author now) := advanceTo_eq _ _ _ _

/-- Opening at several heads is a write of their merge and an advance. -/
theorem openAt_eq {h h' : Cid} {hs : List Cid} :
    (openAt (h :: h' :: hs) : WorldM H _) = (do
      let opCid ← onStore (writeMerge ((h :: h' :: hs).insertionSort (· ≤ ·)))
      Mnem.Repo.updateHeads opCid ((h :: h' :: hs).insertionSort (· ≤ ·))
      onStore (Exec.read fun s => ReadonlyRepo.loadAt s opCid)) := by
  change (mergeOpHeads (h :: h' :: hs) >>= fun merged =>
    onStore (Exec.read fun s => ReadonlyRepo.loadAt s merged)) = _
  unfold mergeOpHeads
  simp only [bind_assoc, pure_bind]

end Compose

/-! ## The system -/

/-- What the processes share and hold; `everHeads` is every operation that was ever inserted
into the heads. -/
structure System {Cid : Type} [LinearOrder Cid] (H : Hashing Cid) where
  world : World H := {}
  repos : List (ReadonlyRepo Cid) := []
  snapshots : List (List Cid) := []
  proposals : List (Cid × List Cid) := []
  everHeads : List Cid := []

/-- A step of some process. -/
inductive Action (Cid : Type) where
  /-- `OpHeadsStore::current`. -/
  | observe
  /-- `ReadonlyRepo::open` up to its call of `update`, at heads that were observed. -/
  | open (snapshot : Nat)
  | request (repo : Nat) (request : Request Cid)
  /-- `OpHeadsStore::update`, and the load of the operation. -/
  | advance (proposal : Nat)

namespace System

/-- Hold the repository at an operation, if it can be loaded. -/
def load (sys : System H) (opCid : Cid) : System H :=
  match ReadonlyRepo.loadAt sys.world.store opCid with
  | .ok r => { sys with repos := sys.repos ++ [r] }
  | .error _ => sys

/-- Write an operation that is to supersede some heads; a failure leaves its writes behind. -/
def propose (sys : System H) (write : StoreM H Cid) (supersedes : List Cid) : System H :=
  match write.outcome sys.world.store with
  | (.ok new, s) => { sys with
      world := { sys.world with store := s }
      proposals := sys.proposals ++ [(new, supersedes)] }
  | (.error _, s) => { sys with world := { sys.world with store := s } }

/-- Open at heads that were observed. -/
def openAt (sys : System H) : List Cid → System H
  | [] => sys
  | [head] => sys.load head
  | heads => sys.propose (writeMerge (heads.insertionSort (· ≤ ·))) (heads.insertionSort (· ≤ ·))

/-- Advance the heads. -/
def advance (sys : System H) (new : Cid) (supersedes : List Cid) : System H :=
  { sys with
    world := { sys.world with opHeads := OpHeads.update sys.world.opHeads new supersedes }
    everHeads := new :: sys.everHeads }

def step (sys : System H) : Action Cid → System H
  | .observe =>
      { sys with snapshots := sys.snapshots ++ [OpHeads.current sys.world.opHeads] }
  | .open i =>
      match sys.snapshots[i]? with
      | none => sys
      | some heads => { sys with snapshots := sys.snapshots.eraseIdx i }.openAt heads
  | .request i request =>
      match sys.repos[i]? with
      | none => sys
      | some r => sys.propose (r.prepare request) [r.opId]
  | .advance i =>
      match sys.proposals[i]? with
      | none => sys
      | some (new, supersedes) =>
          ({ sys with proposals := sys.proposals.eraseIdx i }.advance new supersedes).load new

def run (sys : System H) (actions : List (Action Cid)) : System H := actions.foldl step sys

/-- The system right after `ReadonlyRepo::init`. -/
def init (now : Nat) : System H :=
  match (Mnem.Repo.init now : WorldM H _).outcome {} with
  | (.ok r, w) => { world := w, repos := [r], everHeads := [r.opId] }
  | (.error _, w) => { world := w }

/-- `ReadonlyRepo::init` returns. -/
theorem init_eq (now : Nat) :
    ∃ (r : ReadonlyRepo Cid) (w : World H), (Mnem.Repo.init now : WorldM H _).Returns {} r w ∧
      (System.init now : System H) = { world := w, repos := [r], everHeads := [r.opId] } := by
  obtain ⟨viewCid, s₁, putView, -, -, -⟩ :=
    putObject_succeeds (H := H) (a := ({} : View Cid)) rfl {}
  let op : Operation Cid := { view := viewCid, author := "", time := now, description := "init" }
  obtain ⟨opCid, s₂, putOp, -, -, -⟩ := putObject_succeeds (H := H) (a := op) rfl s₁
  let w : World H := ⟨s₂, OpHeads.update OrdMap.empty opCid []⟩
  let r : ReadonlyRepo Cid := ⟨opCid, op, {}, none⟩
  have ran : (Mnem.Repo.init now : WorldM H _).Returns {} r w := by
    refine Exec.returns_bind.mpr ⟨viewCid, ⟨s₁, OrdMap.empty⟩, returns_onStore.mpr ⟨putView, rfl⟩, ?_⟩
    refine Exec.returns_bind.mpr ⟨opCid, ⟨s₂, OrdMap.empty⟩, returns_onStore.mpr ⟨putOp, rfl⟩, ?_⟩
    exact Exec.returns_bind.mpr ⟨(), w, returns_updateHeads.mpr rfl,
      Exec.returns_pure.mpr ⟨rfl, rfl⟩⟩
  refine ⟨r, w, ran, ?_⟩
  have outcome : (Mnem.Repo.init now : WorldM H _).outcome {} = (.ok r, w) := ran
  unfold System.init
  rw [outcome]

/-! ## What a step does -/

section Steps

variable {sys : System H}

/-- The heads, and every operation that was one. -/
def heads (sys : System H) : Set Cid := {c | c ∈ sys.world.opHeads}

def seen (sys : System H) : Set Cid := {c | c ∈ sys.everHeads}

@[simp] theorem mem_heads {c : Cid} : c ∈ sys.heads ↔ c ∈ sys.world.opHeads := Iff.rfl

@[simp] theorem mem_seen {c : Cid} : c ∈ sys.seen ↔ c ∈ sys.everHeads := Iff.rfl

theorem heads_advance (new : Cid) (supersedes : List Cid) :
    (sys.advance new supersedes).heads = Frontier.advance sys.heads new {c | c ∈ supersedes} := by
  ext c
  exact OpHeads.mem_update

theorem seen_advance (new : Cid) (supersedes : List Cid) :
    (sys.advance new supersedes).seen = insert new sys.seen := by
  ext c
  exact List.mem_cons

/-- Loading an operation changes nothing but what processes hold. -/
theorem load_cases (sys : System H) (opCid : Cid) :
    sys.load opCid = sys ∨ ∃ r, ReadonlyRepo.loadAt sys.world.store opCid = .ok r ∧
      sys.load opCid = { sys with repos := sys.repos ++ [r] } := by
  unfold load
  split
  · exact .inr ⟨_, ‹_›, rfl⟩
  · exact .inl rfl

/-- A proposal is what its preparation returned. -/
theorem propose_cases (sys : System H) (write : StoreM H Cid) (supersedes : List Cid) :
    (∃ s, sys.propose write supersedes = { sys with world := { sys.world with store := s } }) ∨
      ∃ new s, write.Returns sys.world.store new s ∧ sys.propose write supersedes =
        { sys with world := { sys.world with store := s }
                   proposals := sys.proposals ++ [(new, supersedes)] } := by
  unfold propose
  split
  · exact .inr ⟨_, _, ‹_›, rfl⟩
  · exact .inl ⟨_, rfl⟩

end Steps

end System

/-! ## What is proposed -/

section Prepare

variable {s s' : Store H} {r : ReadonlyRepo Cid}

/-- `c` is an operation whose parents are these. -/
def IsOp (H : Hashing Cid) (c : Cid) (parents : List Cid) : Prop :=
  ∃ op : Operation Cid, H.cidOf (Object.toBlock op) = c ∧ op.parents = parents

theorem IsOp.parent_iff {c p : Cid} {parents : List Cid} (isOp : IsOp H c parents) :
    OpParent H c p ↔ p ∈ parents := by
  obtain ⟨op, address, rfl⟩ := isOp
  exact opParent_iff address

theorem writeView_isOp {view : View Cid} {author description : String} {now : Nat} {c : Cid}
    (ran : (r.writeView view author description now : StoreM H Cid).Returns s c s') :
    IsOp H c [r.opId] := by
  obtain ⟨viewCid, s₁, -, put⟩ := Exec.returns_bind.mp ran
  obtain ⟨rfl, -, -⟩ := putObject_returns put
  exact ⟨_, rfl, rfl⟩

/-- A request prepares an operation on top of the repository's. -/
theorem prepare_isOp {request : Request Cid} {c : Cid}
    (ran : (r.prepare request : StoreM H Cid).Returns s c s') : IsOp H c [r.opId] := by
  cases request with
  | transact calls opts =>
      obtain ⟨tx, s₁, staging, write⟩ := Exec.returns_bind.mp ran
      have staged := Exec.returns_update.mp staging
      have base := Transaction.base_stage s (Transaction.new r) calls
      rw [staged] at base
      obtain ⟨_, s₂, -, write⟩ := Exec.returns_bind.mp write
      obtain ⟨commitCid, s₃, -, write⟩ := Exec.returns_bind.mp write
      obtain ⟨viewCid, s₄, -, put⟩ := Exec.returns_bind.mp write
      obtain ⟨rfl, -, -⟩ := putObject_returns put
      refine ⟨_, rfl, ?_⟩
      rw [Transaction.newOperation, base]
      rfl
  | updateRef name expectedPrev new author now =>
      unfold ReadonlyRepo.prepare at ran
      dsimp only at ran
      split at ran
      · exact absurd ran Exec.returns_throw
      · exact writeView_isOp ran
  | updateHeads newHead author now => exact writeView_isOp ran
  | switchBranch newHead branch author now => exact writeView_isOp ran

/-- A merge writes an operation on top of the merged heads. -/
theorem writeMerge_isOp {heads : List Cid} {c : Cid}
    (ran : (writeMerge heads : StoreM H Cid).Returns s c s') : IsOp H c heads := by
  obtain ⟨loaded, s₁, -, ran⟩ := Exec.returns_bind.mp ran
  obtain ⟨ancestor, s₂, -, ran⟩ := Exec.returns_bind.mp ran
  obtain ⟨out, s₃, -, ran⟩ := Exec.returns_bind.mp ran
  obtain ⟨viewCid, s₄, -, put⟩ := Exec.returns_bind.mp ran
  obtain ⟨rfl, -, -⟩ := putObject_returns put
  exact ⟨_, rfl, rfl⟩

/-- What is loaded at an operation is pinned to it. -/
theorem opId_of_loadAt {opCid : Cid} (ran : ReadonlyRepo.loadAt s opCid = .ok r) :
    r.opId = opCid := by
  unfold ReadonlyRepo.loadAt at ran
  obtain ⟨op, -, ran⟩ := Exec.bind_eq_ok.mp ran
  obtain ⟨view, -, ran⟩ := Exec.bind_eq_ok.mp ran
  split at ran
  · obtain ⟨commit, -, done⟩ := Exec.bind_eq_ok.mp ran
    cases done
    rfl
  · cases ran
    rfl

end Prepare

end Mnem.Repo
