/-
# Http.Remote — the server's side of the replication protocol

A server answers with its head, sends what a head reaches, takes blocks, and
advances its head by a comparison with the head that the client names.  A head
that is a commit is only replaced by a commit that descends from it.

The check looks at the names, and the write removes the old one after it has
inserted the new one: an advance from a head to itself passes and leaves no head
(`oneHead_iff`).  As long as none is accepted, the head is the last one accepted
and no accepted commit that was stored by then is lost (`Chained`).
-/
import Mnem.Cli.Gc
import Mnem.Cli.Import
import Mnem.Cli.Pull
import Mnem.Theory.Fails
import Mnem.Transport.Protocol

namespace Mnem.Http.Remote

open Theory Repo Cli Transport.Protocol

set_option autoImplicit false
set_option linter.unusedSectionVars false

variable {Cid : Type} {H : Hashing Cid} [LinearOrder Cid]

inductive RemoteError (Cid : Type) where
  | badRequest (message : String)
  | notFound (cid : Cid)
  | casMismatch (current : Cid)
  | internal (cause : WalkError Cid)

/-- `DEFAULT_REF`. -/
def defaultRef : String := "main"

/-! ## `GET /remote/v1/refs` -/

structure RefsResponse (Cid : Type) where
  head : Option Cid
  refs : OrdMap String Cid
  capabilities : List String

/-- The first of the heads, also as `HEAD` and as the default branch. -/
def getRefs (w : World H) : RefsResponse Cid :=
  let head := (OpHeads.current w.opHeads).head?
  { head := head
    refs := match head with
      | none => OrdMap.empty
      | some h => (OrdMap.empty.insert "HEAD" h).insert defaultRef h
    capabilities := Capability.all.map Capability.asWireStr }

/-! ## `POST /remote/v1/fetch-blocks` -/

def walkFailed : WalkError Cid → RemoteError Cid
  | .notFound cid => .notFound cid
  | other => .internal other

/-- What one want adds to the archive: the blocks of its walk that are not in it yet. -/
def sendFrom (F : BlockCodec H) (s : Store H) (sent : List (Cid × Block Cid)) (want : Cid) :
    Except (RemoteError Cid) (List (Cid × Block Cid)) :=
  match iterFromRoot F s want with
  | .error e => .error (walkFailed e)
  | .ok items =>
      .ok (items.foldl (fun sent item =>
        if (sent.map Prod.fst).contains item.1 then sent else sent ++ [item]) sent)

def postFetchBlocks (F : BlockCodec H) (s : Store H) (wants : List Cid) :
    Except (RemoteError Cid) (List (Cid × Block Cid)) :=
  if wants = [] then .error (.badRequest "wants: must be non-empty") else wants.foldlM (sendFrom F s) []

/-! ## `POST /remote/v1/push-blocks` -/

structure PushBlocksResponse (Cid : Type) where
  staged : Option Cid
  blocksAccepted : Nat

/-- An import that succeeds. -/
def postPushBlocks (a : Archive H) : Exec (World H) (RemoteError Cid) (PushBlocksResponse Cid) :=
  Exec.update fun w => (⟨a.roots.head?, a.blocks.length⟩, { w with store := a.deliver w.store })

/-! ## `POST /remote/v1/advance-head` -/

structure AdvanceHeadRequest (Cid : Type) where
  old : Option Cid := none
  new : Cid
  ref : String := defaultRef

def checkRef (ref : String) : Except (RemoteError Cid) Unit :=
  if ref = defaultRef then .ok ()
  else .error (.badRequest ("ref `" ++ ref ++ "` not supported; only `main` in B3.1"))

/-- The comparison: without `old` there is no head, and with it, it is one of them. -/
def checkCas (current : List Cid) : Option Cid → Except (RemoteError Cid) Unit
  | none =>
      match current with
      | [] => .ok ()
      | head :: _ => .error (.casMismatch head)
  | some old =>
      if current.contains old then .ok () else .error (.casMismatch (current.head?.getD old))

/-- Whether a block decodes as a commit. -/
def isCommit (s : Store H) (c : Cid) : Bool := Exec.okAnd (s.decodeFromStore (Commit Cid) c) fun _ => true

/-- `is_ancestor_of`: the walk of a pull, unless both are the same. -/
def isAncestorOf (s : Store H) (needle tip : Cid) : Except (Error Cid) Bool :=
  if needle = tip then .ok true else isAncestor s needle tip

/-- The check that `new` descends from `old`, if that is a commit.  A walk that fails lets the
request pass. -/
def checkAncestry (s : Store H) (old : Option Cid) (new : Cid) : Except (RemoteError Cid) Unit :=
  match old with
  | none => .ok ()
  | some old =>
      if isCommit s old then
        match isAncestorOf s old new with
        | .ok true => .ok ()
        | .ok false => .error (.casMismatch old)
        | .error _ => .ok ()
      else .ok ()

def postAdvanceHead (req : AdvanceHeadRequest Cid) : Exec (World H) (RemoteError Cid) Cid := do
  Exec.read fun _ => checkRef req.ref
  Exec.read fun w => checkCas (OpHeads.current w.opHeads) req.old
  Exec.read fun w => checkAncestry w.store req.old req.new
  Exec.update fun w => (req.new, { w with opHeads := OpHeads.update w.opHeads req.new req.old.toList })

section Advance

variable {w w' : World H} {req : AdvanceHeadRequest Cid} {s : Store H} {c old new : Cid}

theorem isCommit_iff : isCommit s c = true ↔ ∃ commit : Commit Cid, s.Loads c commit := by
  unfold isCommit Store.Loads
  cases s.decodeFromStore (Commit Cid) c with
  | ok commit => simp [Exec.okAnd]
  | error e => simp [Exec.okAnd]

theorem isCommit_mono {s' : Store H} (le : s ≤ s') (commit : isCommit s c = true) :
    isCommit s' c = true := by
  obtain ⟨_, loads⟩ := isCommit_iff.mp commit
  exact isCommit_iff.mpr ⟨_, loads.mono le⟩

/-- The walk ends, and says whether the tip descends from the needle. -/
theorem isAncestorOf_eq (s : Store H) (needle tip : Cid) :
    ∃ found, isAncestorOf s needle tip = .ok found ∧ (found = true ↔ Descends s tip needle) := by
  unfold isAncestorOf
  by_cases same : needle = tip
  · subst same
    exact ⟨true, if_pos rfl, iff_of_true rfl .refl⟩
  · rw [if_neg same]
    exact isAncestor_eq s needle tip

theorem checkCas_ok {current : List Cid} {old : Option Cid} :
    checkCas current old = .ok () ↔
      (old = none → current = []) ∧ ∀ c, old = some c → c ∈ current := by
  cases old with
  | none => cases current <;> simp [checkCas]
  | some c => by_cases member : c ∈ current <;> simp [checkCas, member]

theorem checkAncestry_ok {old : Option Cid} :
    checkAncestry s old new = .ok () ↔
      ∀ c, old = some c → isCommit s c = true → Descends s new c := by
  cases old with
  | none => simp [checkAncestry]
  | some c =>
      simp only [checkAncestry, Option.some.injEq, forall_eq']
      by_cases commit : isCommit s c = true
      · obtain ⟨found, walked, below⟩ := isAncestorOf_eq s c new
        rw [if_pos commit, walked, ← below]
        cases found <;> simp [commit]
      · simp [commit]

/-- **When an advance is accepted, and what it writes.** -/
theorem postAdvanceHead_returns : (postAdvanceHead req).Returns w c w' ↔
    c = req.new ∧ req.ref = defaultRef ∧
      checkCas (OpHeads.current w.opHeads) req.old = .ok () ∧
      checkAncestry w.store req.old req.new = .ok () ∧
      w' = { w with opHeads := OpHeads.update w.opHeads req.new req.old.toList } := by
  unfold postAdvanceHead
  simp only [Exec.returns_bind, Exec.returns_read, Exec.returns_update, checkRef]
  constructor
  · rintro ⟨_, _, ⟨ref, rfl⟩, _, _, ⟨cas, rfl⟩, _, _, ⟨ancestry, rfl⟩, wrote⟩
    obtain ⟨rfl, rfl⟩ := Prod.mk.inj wrote
    refine ⟨rfl, ?_, cas, ancestry, rfl⟩
    by_contra other
    rw [if_neg other] at ref
    cases ref
  · rintro ⟨rfl, ref, cas, ancestry, rfl⟩
    exact ⟨(), w, ⟨if_pos ref, rfl⟩, (), w, ⟨cas, rfl⟩, (), w, ⟨ancestry, rfl⟩, rfl⟩

/-- An advance that is refused changes nothing. -/
theorem postAdvanceHead_fails {e : RemoteError Cid} (fails : (postAdvanceHead req).Fails w e w') :
    w' = w := by
  unfold postAdvanceHead at fails
  simp only [Exec.fails_bind, Exec.returns_read, Exec.fails_read, Exec.not_fails_update] at fails
  rcases fails with ⟨-, rfl⟩ | ⟨_, _, ⟨-, rfl⟩, ⟨-, rfl⟩ | ⟨_, _, ⟨-, rfl⟩, ⟨-, rfl⟩ | ⟨_, _, -, none⟩⟩⟩
  · rfl
  · rfl
  · rfl
  · exact none.elim

end Advance

/-! ## Runs of requests -/

/-- An accepted advance, and whether the server had `new` as a commit then. -/
structure Accepted (Cid : Type) where
  old : Option Cid
  new : Cid
  stored : Bool

/-- A server, and the advances that it has accepted, newest first. -/
structure Server (H : Hashing Cid) where
  world : World H
  accepted : List (Accepted Cid) := []

namespace Server

theorem encodes_val (b : {b : Block Cid // H.encodes b = true}) : H.encodes b.1 = true := b.2

/-- The blocks of an import; one that fails may have stored some of them. -/
def stage (sv : Server H) (blocks : List {b : Block Cid // H.encodes b = true}) : Server H :=
  { sv with
    world := { sv.world with
      store := blocks.foldl (fun s b => s.insert b.1 (encodes_val b)) sv.world.store } }

/-- `advance-head`, with its answer. -/
def advance (sv : Server H) (req : AdvanceHeadRequest Cid) :
    Except (RemoteError Cid) Cid × Server H :=
  match (postAdvanceHead req).outcome sv.world with
  | (.ok new, w) =>
      (.ok new, { world := w, accepted := ⟨req.old, new, isCommit w.store new⟩ :: sv.accepted })
  | (.error e, w) => (.error e, { sv with world := w })

/-- The head, of a server that started at `root`. -/
def head (sv : Server H) (root : Cid) : Cid := (sv.accepted.head?.map Accepted.new).getD root

end Server

/-- What can change a server. -/
inductive Request (H : Hashing Cid) where
  | pushBlocks (blocks : List {b : Block Cid // H.encodes b = true})
  | advanceHead (req : AdvanceHeadRequest Cid)

def Server.serve (sv : Server H) : Request H → Server H
  | .pushBlocks blocks => sv.stage blocks
  | .advanceHead req => (sv.advance req).2

def Server.run (sv : Server H) (requests : List (Request H)) : Server H := requests.foldl Server.serve sv

/-- No accepted advance has the same old and new head. -/
def Proper (sv : Server H) : Prop := ∀ e ∈ sv.accepted, e.old ≠ some e.new

/-- One head, the last one accepted; every later commit descends from every earlier one that was
stored when it was accepted. -/
structure Chained (root : Cid) (sv : Server H) : Prop where
  alone : OpHeads.current sv.world.opHeads = [sv.head root]
  kept : ∀ e ∈ sv.accepted, e.stored = true →
    isCommit sv.world.store (sv.head root) = true ∧ Descends sv.world.store (sv.head root) e.new
  ordered : sv.accepted.Pairwise fun later earlier =>
    earlier.stored = true → Descends sv.world.store later.new earlier.new

section Runs

variable {sv : Server H} {root : Cid} {req : AdvanceHeadRequest Cid}

theorem le_stage (sv : Server H) (blocks : List {b : Block Cid // H.encodes b = true}) :
    sv.world.store ≤ (sv.stage blocks).world.store :=
  (inside_deliver (⟨[], blocks, fun _ m => absurd m List.not_mem_nil⟩ : Archive H) sv.world.store).le

/-- What an advance does: it is refused, or it is written down. -/
theorem advance_cases (sv : Server H) (req : AdvanceHeadRequest Cid) :
    (∃ e, sv.advance req = (.error e, sv)) ∨
      req.ref = defaultRef ∧ checkCas (OpHeads.current sv.world.opHeads) req.old = .ok () ∧
        checkAncestry sv.world.store req.old req.new = .ok () ∧
        sv.advance req = (.ok req.new,
          { world := { sv.world with opHeads := OpHeads.update sv.world.opHeads req.new req.old.toList }
            accepted := ⟨req.old, req.new, isCommit sv.world.store req.new⟩ :: sv.accepted }) := by
  unfold Server.advance
  rcases Exec.returns_or_fails (postAdvanceHead req) sv.world with ⟨c, w, returns⟩ | ⟨e, w, fails⟩
  · obtain ⟨rfl, ref, cas, ancestry, rfl⟩ := postAdvanceHead_returns.mp returns
    refine .inr ⟨ref, cas, ancestry, ?_⟩
    rw [show (postAdvanceHead req).outcome sv.world = _ from returns]
  · obtain rfl := postAdvanceHead_fails fails
    refine .inl ⟨e, ?_⟩
    rw [show (postAdvanceHead req).outcome sv.world = _ from fails]

/-- The log only grows. -/
theorem accepted_advance (sv : Server H) (req : AdvanceHeadRequest Cid) :
    sv.accepted <:+ (sv.advance req).2.accepted := by
  rcases advance_cases sv req with ⟨e, same⟩ | ⟨-, -, -, wrote⟩
  · rw [same]
  · rw [wrote]
    exact List.suffix_cons _ _

theorem store_advance (sv : Server H) (req : AdvanceHeadRequest Cid) :
    (sv.advance req).2.world.store = sv.world.store := by
  rcases advance_cases sv req with ⟨e, same⟩ | ⟨-, -, -, wrote⟩
  · rw [same]
  · rw [wrote]

theorem accepted_serve (sv : Server H) (r : Request H) : sv.accepted <:+ (sv.serve r).accepted := by
  cases r with
  | pushBlocks blocks => exact List.suffix_refl _
  | advanceHead req => exact accepted_advance sv req

theorem accepted_run (sv : Server H) (requests : List (Request H)) :
    sv.accepted <:+ (sv.run requests).accepted := by
  induction requests generalizing sv with
  | nil => exact List.suffix_refl _
  | cons r requests ih => exact (accepted_serve sv r).trans (ih (sv.serve r))

theorem run_append (sv : Server H) (first second : List (Request H)) :
    sv.run (first ++ second) = (sv.run first).run second := List.foldl_append

/-- A commit that descends from another one is stored. -/
theorem isCommit_of_descends {s : Store H} {c a : Cid} (below : Descends s c a) (apart : c ≠ a) :
    isCommit s c = true := by
  rcases Relation.ReflTransGen.cases_head below with same | ⟨p, ⟨ps, found, -⟩, -⟩
  · exact absurd same apart
  · obtain ⟨commit, loads, -⟩ := Exec.map_eq_ok.mp found
    exact isCommit_iff.mpr ⟨commit, loads⟩

theorem chained_start {w : World H} (alone : OpHeads.current w.opHeads = [root]) :
    Chained root ({ world := w } : Server H) where
  alone := alone
  kept _ member := absurd member List.not_mem_nil
  ordered := .nil

/-- Blocks that arrive lose nothing. -/
theorem Chained.grow {s : Store H} (chained : Chained root sv) (le : sv.world.store ≤ s) :
    Chained root { sv with world := { sv.world with store := s } } where
  alone := chained.alone
  kept e member stored := by
    obtain ⟨commit, below⟩ := chained.kept e member stored
    exact ⟨isCommit_mono le commit, below.mono le⟩
  ordered := chained.ordered.imp fun below stored => (below stored).mono le

/-- **One advance**: the head is replaced by a commit below it. -/
theorem Chained.advance (chained : Chained root sv) (proper : Proper (sv.advance req).2) :
    Chained root (sv.advance req).2 := by
  rcases advance_cases sv req with ⟨e, same⟩ | ⟨-, cas, ancestry, wrote⟩
  · rw [same]
    exact chained
  · rw [wrote] at proper ⊢
    obtain ⟨first, named⟩ := checkCas_ok.mp cas
    rw [chained.alone] at first named
    obtain ⟨old, at_old⟩ : ∃ old, req.old = some old := by
      cases at_old : req.old with
      | none => cases first at_old
      | some old => exact ⟨old, rfl⟩
    obtain rfl := List.mem_singleton.mp (named old at_old)
    have apart : req.new ≠ sv.head root := by
      intro same
      exact proper _ List.mem_cons_self (at_old.trans (congrArg some same.symm))
    have below : isCommit sv.world.store (sv.head root) = true →
        isCommit sv.world.store req.new = true ∧ Descends sv.world.store req.new (sv.head root) := by
      intro commit
      have descends := checkAncestry_ok.mp ancestry _ at_old commit
      exact ⟨isCommit_of_descends descends apart, descends⟩
    have under : ∀ e ∈ sv.accepted, e.stored = true →
        isCommit sv.world.store req.new = true ∧ Descends sv.world.store req.new e.new := by
      intro e member stored
      obtain ⟨commit, old⟩ := chained.kept e member stored
      exact ⟨(below commit).1, (below commit).2.trans old⟩
    refine ⟨?_, fun e member stored => ?_, List.pairwise_cons.mpr ⟨fun e member stored => ?_,
      chained.ordered⟩⟩
    · rw [at_old]
      exact OpHeads.current_update_singleton chained.alone apart
    · rcases List.mem_cons.mp member with rfl | old
      · exact ⟨stored, .refl⟩
      · exact under e old stored
    · exact (under e member stored).2

theorem Chained.serve (chained : Chained root sv) {r : Request H} (proper : Proper (sv.serve r)) :
    Chained root (sv.serve r) := by
  cases r with
  | pushBlocks blocks => exact chained.grow (le_stage sv blocks)
  | advanceHead req => exact chained.advance proper

theorem Chained.run (chained : Chained root sv) {requests : List (Request H)}
    (proper : Proper (sv.run requests)) : Chained root (sv.run requests) := by
  induction requests generalizing sv with
  | nil => exact chained
  | cons r requests ih =>
      have now : Proper (sv.serve r) := fun e member =>
        proper e ((accepted_run (sv.serve r) requests).subset member)
      exact ih (chained.serve now) proper

/-- An accepted advance from the only head to itself leaves none. -/
theorem current_advance_self (alone : OpHeads.current sv.world.opHeads = [root])
    (self : req.old = some req.new) {sv' : Server H}
    (ran : sv.advance req = (.ok req.new, sv')) : OpHeads.current sv'.world.opHeads = [] := by
  rcases advance_cases sv req with ⟨e, refused⟩ | ⟨-, cas, -, wrote⟩
  · cases refused.symm.trans ran
  · obtain ⟨-, rfl⟩ := Prod.mk.inj (wrote.symm.trans ran)
    have here := (checkCas_ok.mp cas).2 _ self
    rw [alone, List.mem_singleton] at here
    refine List.eq_nil_iff_forall_not_mem.mpr fun c member => ?_
    rw [OpHeads.mem_current] at member
    dsimp only at member
    rw [OpHeads.mem_update, self, ← OpHeads.mem_current, alone] at member
    simp [here] at member

/-- There is one head in every state of a run exactly if no accepted advance has the same old and
new head. -/
theorem oneHead_iff {w : World H} (alone : OpHeads.current w.opHeads = [root])
    (requests : List (Request H)) :
    (∀ first rest, requests = first ++ rest →
        ∃ head, OpHeads.current (({ world := w } : Server H).run first).world.opHeads = [head]) ↔
      Proper (({ world := w } : Server H).run requests) := by
  constructor
  · intro always
    induction requests using List.reverseRecOn with
    | nil => exact fun e member => absurd member List.not_mem_nil
    | append_singleton requests r ih =>
        have before := ih fun first rest split => always first (rest ++ [r]) (by rw [split, List.append_assoc])
        obtain ⟨head, one⟩ := always requests [r] rfl
        obtain ⟨head', one'⟩ := always (requests ++ [r]) [] (List.append_nil _).symm
        rw [run_append] at one' ⊢
        generalize ({ world := w } : Server H).run requests = sv at before one one' ⊢
        cases r with
        | pushBlocks blocks => exact before
        | advanceHead req =>
            rcases advance_cases sv req with ⟨e, same⟩ | ⟨-, -, -, wrote⟩
            · show Proper (sv.advance req).2
              rw [same]
              exact before
            · show Proper (sv.advance req).2
              intro e member self
              rw [wrote] at member
              rcases List.mem_cons.mp member with rfl | old
              · have none : OpHeads.current (sv.advance req).2.world.opHeads = [] :=
                  current_advance_self one self (Prod.ext (by rw [wrote]) rfl)
                exact absurd (none.symm.trans one') (List.cons_ne_nil _ _).symm
              · exact before e old self
  · intro proper first rest split
    have now : Proper (({ world := w } : Server H).run first) := by
      intro e member
      refine proper e ?_
      rw [split, run_append]
      exact (accepted_run _ rest).subset member
    exact ⟨_, ((chained_start alone).run now).alone⟩

end Runs

/-! ### Two pushes, one after the other -/

section Example

/-- A server whose only head is no commit. -/
def freshWorld : World quickHashing where
  opHeads := OpHeads.update OrdMap.empty 1 []

def firstCommit : Commit ℕ := plainCommit [] "first"

def firstCid : ℕ := quickHashing.cidOf (.commit firstCommit)

def secondCommit : Commit ℕ := plainCommit [firstCid] "second"

def secondCid : ℕ := quickHashing.cidOf (.commit secondCommit)

def twoPushes : List (Request quickHashing) :=
  [.pushBlocks [⟨.commit firstCommit, rfl⟩], .advanceHead { old := some 1, new := firstCid },
    .pushBlocks [⟨.commit secondCommit, rfl⟩], .advanceHead { old := some firstCid, new := secondCid }]

end Example

end Mnem.Http.Remote
