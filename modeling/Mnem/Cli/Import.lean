/-
# Cli.Import — `mnem import` beside an existing history

`import` stores the blocks of an archive and then looks among its declared
roots for the commit block with the greatest time.  Where there is none it
stops, and the repository opens as before (`importRun_keeps`).  Where there is
one it makes it the head through a root operation of its own: the operation
heads are then those of two histories that have no operation in common, and
the next open has no ancestor to merge them at (`not_opens_of_importRun`).
-/
import Mnem.Repo.Descent
import Mnem.Repo.OpenSteady
import Mnem.Theory.Latest

namespace Mnem.Cli

open Theory Repo

set_option autoImplicit false
set_option linter.unusedSectionVars false

variable {Cid : Type} {H : Hashing Cid} [LinearOrder Cid]

/-! ## Archives -/

/-- An archive whose import succeeds: each section is a block at its own address, and each
declared root is among the sections. -/
structure Archive (H : Hashing Cid) where
  roots : List Cid
  blocks : List {b : Block Cid // H.encodes b = true}
  delivered : ∀ c ∈ roots, ∃ b ∈ blocks, H.cidOf b.1 = c

/-- `mnem_transport::import` of the archive. -/
def Archive.deliver (a : Archive H) (s : Store H) : Store H :=
  a.blocks.foldl (fun s b => s.insert b.1 b.2) s

/-- The time of a map whose `_kind` is `commit`.  `loose` reads bytes that are no stored object,
among which there can be such maps. -/
def commitTime (loose : List UInt8 → Option Nat) : Block Cid → Option Nat
  | .commit c => some c.time
  | .raw bytes => loose bytes
  | _ => none

variable (loose : List UInt8 → Option Nat)

/-- No declared root is a commit block. -/
def Archive.DeclaresNoCommit (a : Archive H) : Prop :=
  ∀ b ∈ a.blocks, H.cidOf b.1 ∈ a.roots → commitTime loose b.1 = none

/-- The commit block with the greatest time among the roots, the first of several. -/
def findHeadCommitInRoots (s : Store H) (roots : List Cid) : Option Cid :=
  latest (fun root => (s.get root).bind (commitTime loose)) roots

/-- `mnem import`. -/
def importRun (a : Archive H) (author : String) (clock : Nat → Nat) : WorldM H Unit := do
  onStore (Exec.update fun s => ((), a.deliver s))
  let head ← onStore (Exec.read fun s => .ok (findHeadCommitInRoots loose s a.roots))
  match head with
  | none => return ()
  | some cid => do
      let r ← init (clock 0)
      let _ ← r.updateHeads cid author (clock 1)

/-! ## What is delivered -/

section Deliver

variable {s : Store H} {a : Archive H}

theorem inside_deliver (a : Archive H) (s : Store H) : s.Inside (a.deliver s) := by
  unfold Archive.deliver
  generalize a.blocks = blocks
  induction blocks generalizing s with
  | nil => exact .refl s
  | cons b rest ih => exact (s.inside_insert b.1 b.2).trans (ih _)

theorem get_deliver (s : Store H) {b : {b : Block Cid // H.encodes b = true}}
    (member : b ∈ a.blocks) : (a.deliver s).get (H.cidOf b.1) = some b.1 := by
  unfold Archive.deliver
  generalize a.blocks = blocks at member
  induction blocks generalizing s with
  | nil => cases member
  | cons x rest ih =>
      rcases List.mem_cons.mp member with rfl | later
      · have here : (s.insert b.1 b.2).get (H.cidOf b.1) = some b.1 := by
          rw [Store.get_insert, if_pos rfl]
        have grown : (s.insert b.1 b.2).Inside
            (rest.foldl (fun s b => s.insert b.1 b.2) (s.insert b.1 b.2)) :=
          inside_deliver ⟨[], rest, nofun⟩ _
        exact grown.le _ _ here
      · exact ih _ later

/-- The search finds nothing exactly when no root is a commit block. -/
theorem findHeadCommitInRoots_deliver :
    findHeadCommitInRoots loose (a.deliver s) a.roots = none ↔ a.DeclaresNoCommit loose := by
  rw [findHeadCommitInRoots, latest_eq_none]
  constructor
  · intro nothing b member isRoot
    have at_root := nothing _ isRoot
    rw [get_deliver s member] at at_root
    exact at_root
  · intro nothing c isRoot
    obtain ⟨b, member, rfl⟩ := a.delivered c isRoot
    rw [get_deliver s member]
    exact nothing b member isRoot

end Deliver

/-! ## What a run does -/

section Run

variable {loose} {a : Archive H} {author : String} {clock : Nat → Nat} {w w' : World H}

theorem importRun_cases (ran : (importRun loose a author clock : WorldM H Unit).Returns w () w') :
    a.DeclaresNoCommit loose ∧ w' = { w with store := a.deliver w.store } ∨
      ¬ a.DeclaresNoCommit loose ∧ ∃ cid r r' w₁,
        (init (clock 0) : WorldM H _).Returns { w with store := a.deliver w.store } r w₁ ∧
          (r.updateHeads cid author (clock 1) : WorldM H _).Returns w₁ r' w' := by
  obtain ⟨_, w₁, write, ran⟩ := Exec.returns_bind.mp ran
  obtain ⟨wrote, heads⟩ := returns_onStore.mp write
  have stored := (Prod.mk.inj (Exec.returns_update.mp wrote)).2
  obtain rfl : w₁ = { w with store := a.deliver w.store } := by
    cases w₁
    cases heads
    cases stored
    rfl
  obtain ⟨head, w₂, search, ran⟩ := Exec.returns_bind.mp ran
  obtain ⟨searched, heads₂⟩ := returns_onStore.mp search
  obtain ⟨found, sameStore⟩ := Exec.returns_read.mp searched
  obtain rfl : { w with store := a.deliver w.store } = w₂ := by
    cases w₂
    cases heads₂
    cases sameStore
    rfl
  have found : findHeadCommitInRoots loose (a.deliver w.store) a.roots = head := Except.ok.inj found
  cases head with
  | none =>
      obtain ⟨-, rfl⟩ := Exec.returns_pure.mp ran
      exact .inl ⟨(findHeadCommitInRoots_deliver loose).mp found, rfl⟩
  | some cid =>
      obtain ⟨r, w₃, start, ran⟩ := Exec.returns_bind.mp ran
      obtain ⟨r', w₄, moved, last⟩ := Exec.returns_bind.mp ran
      obtain ⟨-, rfl⟩ := Exec.returns_pure.mp last
      refine .inr ⟨fun nothing => ?_, cid, r, r', w₃, start, moved⟩
      rw [(findHeadCommitInRoots_deliver loose).mpr nothing] at found
      cases found

/-- Without a commit among the roots the repository opens as it did. -/
theorem importRun_keeps {before : ReadonlyRepo Cid} {w₀ : World H}
    (opened : (openRepo : WorldM H _).Returns w before w₀) :
    ∃ w'', (openRepo : WorldM H _).Returns { w with store := a.deliver w.store } before w'' := by
  obtain ⟨w'', opens, -⟩ := openRepo_steady w { w with store := a.deliver w.store } before w₀
    ⟨inside_deliver a w.store, rfl⟩ opened
  exact ⟨w'', opens⟩

/-- With one, its heads have no history in common with those that were there. -/
theorem not_opens_of_importRun {now : Nat} {sys : System H}
    (descends : System.Descends (rootOperationCid H now) sys) (later : clock 0 ≠ now) {cid : Cid}
    {r r' : ReadonlyRepo Cid} {s : Store H} {w₁ : World H}
    (start : (init (clock 0) : WorldM H _).Returns { sys.world with store := s } r w₁)
    (moved : (r.updateHeads cid author (clock 1) : WorldM H _).Returns w₁ r' w')
    {after : ReadonlyRepo Cid} {w'' : World H} :
    ¬ (openRepo : WorldM H _).Returns w' after w'' := by
  intro opens
  obtain ⟨common, below⟩ := exists_common_of_opens opens
  obtain ⟨at_root, -, heads₁⟩ := init_at_root start
  obtain ⟨⟨-, ⟨op, opLoads, parents, -⟩, heads₂⟩, -⟩ := advanceTo_returns moved
  rw [at_root] at parents heads₂
  have isOp : IsOp H r'.opId [rootOperationCid H (clock 0)] := ⟨op, opLoads.cidOf, parents⟩
  have apart : rootOperationCid H (clock 0) ≠ rootOperationCid H now := fun same => later (rootOperationCid_injective same)
  -- the operation of the second `init` is in no history of the run
  have foreign : ∀ c ∈ sys.seen, ¬ Relation.ReflTransGen (OpParent H) c (rootOperationCid H (clock 0)) :=
    fun c old path => apart (descends.eq_root old path (not_opParent_rootOperationCid _))
  obtain ⟨h, isHead⟩ := descends.some_head
  have old : h ∈ sys.seen := descends.tracked.headsSeen isHead
  have stays : h ∈ w'.opHeads := by
    rw [heads₂, OpHeads.mem_update, heads₁, OpHeads.mem_update]
    refine ⟨.inr ⟨.inr isHead, by simp⟩, ?_⟩
    intro superseded
    obtain rfl := List.mem_singleton.mp superseded
    exact foreign _ old .refl
  have arrives : r'.opId ∈ w'.opHeads := by
    rw [heads₂, OpHeads.mem_update]
    refine ⟨.inl rfl, fun superseded => ?_⟩
    have link := isOp.parent_iff.mpr superseded
    rw [List.mem_singleton.mp superseded] at link
    exact not_opParent_rootOperationCid _ _ link
  rcases Relation.ReflTransGen.cases_head (below _ arrives) with rfl | ⟨p, link, rest⟩
  · exact foreign h old ((below h stays).tail (isOp.parent_iff.mpr List.mem_cons_self))
  · obtain rfl := List.mem_singleton.mp (isOp.parent_iff.mp link)
    rcases Relation.ReflTransGen.cases_head rest with rfl | ⟨p', link', -⟩
    · exact foreign h old (below h stays)
    · exact not_opParent_rootOperationCid _ _ link'

end Run

/-! ## What an import must leave -/

/-- `p` is a parent of the commit at `c`, as its content has it. -/
def CommitParent (H : Hashing Cid) (c p : Cid) : Prop :=
  ∃ commit : Commit Cid, H.cidOf (Object.toBlock commit) = c ∧ p ∈ commit.parents

/-- The view opened later has the refs and tombstones of the earlier one, and its head descends
from the earlier head, or some ref keeps that. -/
structure Retains (H : Hashing Cid) (before after : ReadonlyRepo Cid) : Prop where
  refs : ∀ name target, before.view.refs.get? name = some target →
    after.view.refs.get? name = some target
  tombstones : ∀ id tombstone, before.view.tombstones.get? id = some tombstone →
    after.view.tombstones.get? id = some tombstone
  head : ∀ c, before.view.heads.head? = some c →
    (∃ c', after.view.heads.head? = some c' ∧ Relation.ReflTransGen (CommitParent H) c' c) ∨
      ∃ name, after.view.refs.get? name = some (.normal c)

/-- What `w'` must keep of `w`, which opens to `before`. -/
structure Undamaged (w : World H) (before : ReadonlyRepo Cid) (w' : World H) : Prop where
  opens : ∃ after w'', (openRepo : WorldM H _).Returns w' after w'' ∧ Retains H before after
  history : ∀ c, (∃ h ∈ w.opHeads, Relation.ReflTransGen (OpParent H) h c) →
    ∃ h ∈ w'.opHeads, Relation.ReflTransGen (OpParent H) h c

theorem Retains.refl (before : ReadonlyRepo Cid) : Retains H before before where
  refs _ _ same := same
  tombstones _ _ same := same
  head _ at_head := .inl ⟨_, at_head, .refl⟩

section Damage

variable {loose} {now : Nat} {sys : System H} {a : Archive H} {author : String}
  {clock : Nat → Nat} {before : ReadonlyRepo Cid} {w₀ w' : World H}

theorem undamaged_of_importRun (opened : (openRepo : WorldM H _).Returns sys.world before w₀)
    (ran : (importRun loose a author clock : WorldM H Unit).Returns sys.world () w')
    (noCommit : a.DeclaresNoCommit loose) : Undamaged sys.world before w' := by
  rcases importRun_cases ran with ⟨-, rfl⟩ | ⟨some_commit, -⟩
  · obtain ⟨w'', opens⟩ := importRun_keeps (a := a) opened
    exact ⟨⟨before, w'', opens, .refl before⟩, fun _ inHistory => inHistory⟩
  · exact absurd noCommit some_commit

theorem not_undamaged_of_importRun (descends : System.Descends (rootOperationCid H now) sys)
    (ran : (importRun loose a author clock : WorldM H Unit).Returns sys.world () w')
    (later : clock 0 ≠ now) (some_commit : ¬ a.DeclaresNoCommit loose) :
    ¬ Undamaged sys.world before w' := by
  rintro ⟨⟨after, w'', opens, -⟩, -⟩
  rcases importRun_cases ran with ⟨noCommit, -⟩ | ⟨-, cid, r, r', w₁, start, moved⟩
  · exact some_commit noCommit
  · exact not_opens_of_importRun descends later start moved opens

end Damage

/-- **An import without a commit among the declared roots damages nothing, and with one it always
does**, unless its clock shows the very microsecond of the first `init`. -/
theorem importRun_undamaged_iff (H : Hashing Cid) (loose : List UInt8 → Option Nat)
    {now : Nat} {actions : List (Action Cid)} {a : Archive H} {author : String}
    {clock : Nat → Nat} {before : ReadonlyRepo Cid} {w₀ w' : World H}
    (opened : (openRepo : WorldM H _).Returns ((System.init now).run actions).world before w₀)
    (ran : (importRun loose a author clock : WorldM H Unit).Returns
      ((System.init now).run actions).world () w') :
    (a.DeclaresNoCommit loose → Undamaged ((System.init now).run actions).world before w') ∧
      (clock 0 ≠ now →
        (Undamaged ((System.init now).run actions).world before w' ↔
          a.DeclaresNoCommit loose)) := by
  have descends := (System.descends_init (H := H) now).run actions
  refine ⟨undamaged_of_importRun opened ran, fun later => ?_⟩
  refine ⟨fun undamaged => ?_, undamaged_of_importRun opened ran⟩
  by_contra some_commit
  exact not_undamaged_of_importRun descends ran later some_commit undamaged

/-! ### Imports into a repository that was just made -/

/-- An archive of one block, which is its declared root. -/
def singleBlock (H : Hashing Cid) (b : Block Cid) (ok : H.encodes b = true) : Archive H where
  roots := [H.cidOf b]
  blocks := [⟨b, ok⟩]
  delivered _ isRoot := ⟨⟨b, ok⟩, List.mem_singleton.mpr rfl, (List.mem_singleton.mp isRoot).symm⟩

theorem singleBlock_declaresNoCommit {b : Block Cid} {ok : H.encodes b = true} :
    (singleBlock H b ok).DeclaresNoCommit loose ↔ commitTime loose b = none := by
  constructor
  · exact fun nothing => nothing ⟨b, ok⟩ List.mem_cons_self List.mem_cons_self
  · intro nothing x member _
    obtain rfl := List.mem_singleton.mp member
    exact nothing

/-- A commit without parents, at time zero. -/
def noteCommit : Commit ℕ where
  changeId := 0
  nodes := 0
  edges := 0
  schema := 0
  author := ""
  time := 0
  message := ""

def notes : Archive shortHashing := singleBlock shortHashing (.commit noteCommit) rfl

def leaf : Archive shortHashing := singleBlock shortHashing (.raw [0]) rfl

abbrev newRepository : System shortHashing := (System.init 0).run []

/-- Import into a repository whose first operation is of time zero, and one microsecond later. -/
abbrev importNotes (a : Archive shortHashing) : WorldM shortHashing Unit :=
  importRun (fun _ => none) a "" fun n => n + 1

theorem newRepository_opens :
    (openRepo : WorldM shortHashing _).check newRepository.world (fun _ _ => true) = true := by
  decide

theorem importNotes_returns :
    (importNotes notes).check newRepository.world (fun _ _ => true) = true := by
  decide +kernel

theorem importLeaf_returns :
    (importNotes leaf).check newRepository.world (fun _ _ => true) = true := by
  decide

theorem importRun_undamaged_iff_leaf : ∃ before w₀ w',
    (openRepo : WorldM shortHashing _).Returns newRepository.world before w₀ ∧
      (importNotes leaf).Returns newRepository.world () w' ∧
      Undamaged newRepository.world before w' := by
  obtain ⟨before, w₀, opened, -⟩ := Exec.exists_of_check newRepository_opens
  obtain ⟨⟨⟩, w', ran, -⟩ := Exec.exists_of_check importLeaf_returns
  have noCommit : leaf.DeclaresNoCommit fun _ => none :=
    (singleBlock_declaresNoCommit _).mpr rfl
  exact ⟨before, w₀, w', opened, ran, (@importRun_undamaged_iff ℕ _ shortHashing (fun _ => none) 0 [] leaf ""
    (fun n => n + 1) before w₀ w' opened ran).1 noCommit⟩

/-- After `mnem init` and an import of a commit the repository does not open. -/
theorem import_after_init : ∃ before w₀ w',
    (openRepo : WorldM shortHashing _).Returns newRepository.world before w₀ ∧
      (importNotes notes).Returns newRepository.world () w' ∧
      ¬ Undamaged newRepository.world before w' := by
  obtain ⟨before, w₀, opened, -⟩ := Exec.exists_of_check newRepository_opens
  obtain ⟨⟨⟩, w', ran, -⟩ := Exec.exists_of_check importNotes_returns
  have descends := (System.descends_init (H := shortHashing) 0).run []
  refine ⟨before, w₀, w', opened, ran, not_undamaged_of_importRun descends ran (by decide) ?_⟩
  intro noCommit
  cases (singleBlock_declaresNoCommit _).mp noCommit

end Mnem.Cli
