/-
# Repo.Soundness — runs in which every operation is good

`Sound P root sys` says that all that the processes hold descends from the
operation `root`, is stored, and holds graphs with the property `P`.  Steps
keep it for every property that merges keep, as long as each transaction keeps
the property and positions are moved to good commits only (`Admits`).  In a
sound system opening always returns.
-/
import Mnem.Repo.Antichain

namespace Mnem.Repo

open Theory Prolly Index

set_option autoImplicit false
set_option linter.unusedSectionVars false

variable {Cid : Type} {H : Hashing Cid} [LinearOrder Cid] {P : Graph Cid → Prop}

/-! ## Requests that keep the property -/

/-- The request keeps the property: the graph that a transaction commits has it, and a position
is moved to a stored commit that has it. -/
def ReadonlyRepo.Admits (P : Graph Cid → Prop) (s : Store H) (r : ReadonlyRepo Cid) (g : Graph Cid) :
    Request Cid → Prop
  | .transact calls _ =>
      ((Transaction.new r).stage s calls).1.checkEdges ((Transaction.new r).stage s calls).2 =
          .ok () →
        P (((Transaction.new r).stage s calls).1.committed H g)
  | .updateRef .. => True
  | .updateHeads newHead .. => GoodCommit P s newHead
  | .switchBranch newHead .. => GoodCommit P s newHead

section Prepare

variable {s s' : Store H} {r : ReadonlyRepo Cid} {g : Graph Cid} {new : Cid}

theorem Pinned.heads_good (pinned : Pinned P s r g) : ∀ h ∈ r.view.heads, GoodCommit P s h := by
  obtain ⟨good, opLoads, viewLoads, -, -⟩ := pinned
  cases good with
  | intro op view opLoads' viewLoads' heads _ =>
      obtain rfl := opLoads.unique opLoads'
      obtain rfl := viewLoads.unique viewLoads'
      exact heads

theorem writeView_grows (view : View Cid) (author description : String) (now : Nat) :
    Exec.Grows (r.writeView view author description now : StoreM H Cid) :=
  Exec.grows_bind (putObject_grows _) fun _ => putObject_grows _

theorem writeView_good {view : View Cid} {author description : String} {now : Nat}
    (pinned : Pinned P s r g) (heads : ∀ h ∈ view.heads, GoodCommit P s h)
    (ran : (r.writeView view author description now : StoreM H Cid).Returns s new s') :
    GoodOp P s' new := by
  obtain ⟨viewCid, s₁, putView, putOp⟩ := Exec.returns_bind.mp ran
  obtain ⟨-, le₁, viewLoads⟩ := putObject_returns putView
  obtain ⟨-, le₂, opLoads⟩ := putObject_returns putOp
  have le := le₁.trans le₂
  refine .intro _ _ opLoads (viewLoads.mono le₂) (fun h m => (heads h m).mono le) fun p m => ?_
  obtain rfl := List.mem_singleton.mp m
  exact pinned.good.mono le

theorem prepare_grows (request : Request Cid) :
    Exec.Grows (r.prepare request : StoreM H Cid) := by
  cases request with
  | transact calls opts =>
      exact Exec.grows_bind (Exec.grows_update fun s => Transaction.le_stage s _ calls)
        fun tx => tx.writeOperation_grows opts
  | updateRef name expectedPrev new author now =>
      unfold ReadonlyRepo.prepare
      dsimp only
      split
      · exact Exec.grows_throw _
      · exact writeView_grows _ _ _ _
  | updateHeads newHead author now => exact writeView_grows _ _ _ _
  | switchBranch newHead branch author now => exact writeView_grows _ _ _ _

/-- What an admitted request prepares is good. -/
theorem prepare_good {request : Request Cid} (pinned : Pinned P s r g)
    (admitted : r.Admits P s g request)
    (ran : (r.prepare request : StoreM H Cid).Returns s new s') : GoodOp P s' new := by
  cases request with
  | transact calls opts =>
      obtain ⟨tx, s₁, staging, write⟩ := Exec.returns_bind.mp ran
      have run := Exec.returns_update.mp staging
      have le := Transaction.le_stage s (Transaction.new r) calls
      have base := Transaction.base_stage s (Transaction.new r) calls
      have staged := (Transaction.staged_new s r).stage calls
      unfold ReadonlyRepo.Admits at admitted
      dsimp only at admitted
      rw [run] at le base staged admitted
      change tx.base = r at base
      subst base
      obtain ⟨-, -, _, _, _, -, -, -, -, -, good⟩ :=
        Transaction.writeOperation_returns (pinned.mono le) staged admitted write
      exact good
  | updateRef name expectedPrev new author now =>
      unfold ReadonlyRepo.prepare at ran
      dsimp only at ran
      split at ran
      · exact absurd ran Exec.returns_throw
      · refine writeView_good pinned ?_ ran
        exact fun h m => pinned.heads_good h m
  | updateHeads newHead author now =>
      refine writeView_good pinned (fun h m => ?_) ran
      obtain rfl := List.mem_singleton.mp m
      exact admitted
  | switchBranch newHead branch author now =>
      refine writeView_good pinned (fun h m => ?_) ran
      obtain rfl := List.mem_singleton.mp m
      exact admitted

end Prepare

namespace System

/-! ## Sound systems -/

/-- Every operation that was a head or is proposed is good and descends from `root`, and every
held repository is pinned to one. -/
structure Sound (P : Graph Cid → Prop) (root : Cid) (sys : System H) : Prop where
  tracked : Tracked sys
  good : ∀ c ∈ sys.seen, GoodOp P sys.world.store c
  rooted : ∀ c ∈ sys.seen, Relation.ReflTransGen (OpParent H) c root
  repos : ∀ r ∈ sys.repos, ∃ g, Pinned P sys.world.store r g
  proposed : ∀ p ∈ sys.proposals, p.2 ≠ [] ∧ GoodOp P sys.world.store p.1
  nonempty : sys.heads.Nonempty

/-- A step that keeps the property. -/
def Admits (P : Graph Cid → Prop) (sys : System H) : Action Cid → Prop
  | .request i request => ∀ r g, sys.repos[i]? = some r → Pinned P sys.world.store r g →
      r.Admits P sys.world.store g request
  | _ => True

section Keep

variable {sys : System H} {root : Cid}

theorem Sound.load (sound : Sound P root sys) {c : Cid} (old : c ∈ sys.seen) :
    Sound P root (sys.load c) := by
  have tracked := sound.tracked.load old
  rcases sys.load_cases c with same | ⟨r, loaded, held⟩
  · rw [same]
    exact sound
  · rw [held] at tracked ⊢
    refine { sound with tracked := tracked, repos := fun r' member => ?_ }
    rcases List.mem_append.mp member with before | here
    · exact sound.repos r' before
    · obtain rfl := List.mem_singleton.mp here
      exact (pinned_of_loadAt (sound.good c old) loaded).2

/-- A grown store keeps a system sound. -/
theorem Sound.grow (sound : Sound P root sys) {s : Store H} (le : sys.world.store ≤ s) :
    Sound P root { sys with world := { sys.world with store := s } } where
  tracked := { sound.tracked with }
  good c member := (sound.good c member).mono le
  rooted := sound.rooted
  repos r member := by
    obtain ⟨g, pinned⟩ := sound.repos r member
    exact ⟨g, pinned.mono le⟩
  proposed p member := ⟨(sound.proposed p member).1, (sound.proposed p member).2.mono le⟩
  nonempty := sound.nonempty

theorem Sound.propose (sound : Sound P root sys) {write : StoreM H Cid} {supersedes : List Cid}
    (grows : Exec.Grows write) (some_head : supersedes ≠ [])
    (isOp : ∀ new s', write.Returns sys.world.store new s' → IsOp H new supersedes)
    (old : ∀ c ∈ supersedes, c ∈ sys.seen)
    (good : ∀ new s', write.Returns sys.world.store new s' → GoodOp P s' new) :
    Sound P root (sys.propose write supersedes) := by
  have tracked := sound.tracked.propose isOp old
  have le := grows sys.world.store
  unfold System.propose at tracked ⊢
  split
  · rename_i new s ran
    rw [ran] at tracked le
    have kept := sound.grow (s := s) le
    refine { kept with tracked := tracked, proposed := fun p member => ?_ }
    rcases List.mem_append.mp member with before | here
    · exact kept.proposed p before
    · obtain rfl := List.mem_singleton.mp here
      exact ⟨some_head, good new s ran⟩
  · rename_i e s ran
    rw [ran] at le
    exact sound.grow le

theorem Sound.openAt (sound : Sound P root sys) (keeps : MergesKeep P) {heads : List Cid}
    (old : ∀ c ∈ heads, c ∈ sys.seen) : Sound P root (sys.openAt heads) := by
  match heads with
  | [] => exact sound
  | [head] => exact sound.load (old head List.mem_cons_self)
  | h :: h' :: hs =>
      have sortedMem : ∀ c, c ∈ (h :: h' :: hs).insertionSort (· ≤ ·) ↔ c ∈ h :: h' :: hs :=
        fun c => List.mem_insertionSort _
      have sorted : ∀ c ∈ (h :: h' :: hs).insertionSort (· ≤ ·), c ∈ sys.seen :=
        fun c member => old c ((sortedMem c).mp member)
      have nonempty : (h :: h' :: hs).insertionSort (· ≤ ·) ≠ [] :=
        List.ne_nil_of_mem ((sortedMem h).mpr List.mem_cons_self)
      refine sound.propose (writeMerge_grows _) nonempty (fun _ _ ran => writeMerge_isOp ran) sorted
        fun new s' ran => ?_
      obtain ⟨_, _, _, merged⟩ := (writeMerge_succeeds keeps
        (fun c member => sound.good c (sorted c member)) nonempty
        fun c member => sound.rooted c (sorted c member)).of_returns ran
      exact merged.good

theorem Sound.advance (sound : Sound P root sys) {new : Cid} {supersedes : List Cid}
    (isOp : IsOp H new supersedes) (old : ∀ c ∈ supersedes, c ∈ sys.seen)
    (some_head : supersedes ≠ []) (good : GoodOp P sys.world.store new) :
    Sound P root (sys.advance new supersedes) := by
  have tracked := sound.tracked.advance isOp old
  refine { tracked := tracked, good := ?_, rooted := ?_, repos := sound.repos,
           proposed := sound.proposed, nonempty := ?_ }
  · rw [seen_advance]
    rintro c (rfl | before)
    · exact good
    · exact sound.good c before
  · rw [seen_advance]
    rintro c (rfl | before)
    · obtain ⟨p, member⟩ := List.exists_mem_of_ne_nil _ some_head
      exact .head (isOp.parent_iff.mpr member) (sound.rooted p (old p member))
    · exact sound.rooted c before
  · rw [heads_advance]
    have grounded := sound.tracked.grounded_new isOp old
    exact ⟨new, .inl rfl, fun member =>
      Frontier.acyclic_of_acc grounded (.single (isOp.parent_iff.mpr member))⟩

/-- An admitted step keeps a system sound. -/
theorem Sound.step (sound : Sound P root sys) (keeps : MergesKeep P) {a : Action Cid}
    (admitted : Admits P sys a) : Sound P root (sys.step a) := by
  cases a with
  | observe => exact { sound with tracked := sound.tracked.step .observe }
  | «open» i =>
      unfold System.step
      dsimp only
      split
      · exact sound
      · rename_i heads found
        have old := sound.tracked.snapshots heads (List.mem_of_getElem? found)
        have kept : Sound P root { sys with snapshots := sys.snapshots.eraseIdx i } :=
          { sound with tracked := { sound.tracked with
              snapshots := fun heads member =>
                sound.tracked.snapshots heads (List.mem_of_mem_eraseIdx member) } }
        exact kept.openAt keeps old
  | request i request =>
      unfold System.step
      dsimp only
      split
      · exact sound
      · rename_i r found
        have member := List.mem_of_getElem? found
        obtain ⟨g, pinned⟩ := sound.repos r member
        refine sound.propose (prepare_grows request) (by simp) (fun _ _ ran => prepare_isOp ran)
          (fun c inOld => ?_) fun new s' ran => prepare_good pinned (admitted r g found pinned) ran
        obtain rfl := List.mem_singleton.mp inOld
        exact sound.tracked.repos r member
  | advance i =>
      unfold System.step
      dsimp only
      split
      · exact sound
      · rename_i new supersedes found
        have member := List.mem_of_getElem? found
        obtain ⟨isOp, old⟩ := sound.tracked.proposals _ member
        obtain ⟨some_head, good⟩ := sound.proposed _ member
        have kept : Sound P root { sys with proposals := sys.proposals.eraseIdx i } :=
          { sound with
            tracked := { sound.tracked with
              proposals := fun p m => sound.tracked.proposals p (List.mem_of_mem_eraseIdx m) }
            proposed := fun p m => sound.proposed p (List.mem_of_mem_eraseIdx m) }
        refine (kept.advance isOp old some_head good).load ?_
        rw [seen_advance]
        exact .inl rfl

/-- Runs of admitted steps keep a system sound. -/
theorem Sound.run (sound : Sound P root sys) (keeps : MergesKeep P) {actions : List (Action Cid)}
    (admitted : ∀ before a after, before ++ a :: after = actions → Admits P (sys.run before) a) :
    Sound P root (sys.run actions) := by
  induction actions generalizing sys with
  | nil => exact sound
  | cons a actions ih =>
      refine ih (sound.step keeps (admitted [] a actions rfl)) fun before b after split => ?_
      exact admitted (a :: before) b after (congrArg (a :: ·) split)

theorem sound_init (P : Graph Cid → Prop) (now : Nat) :
    ∃ root, Sound P root (System.init now : System H) := by
  have tracked := tracked_init (H := H) now
  obtain ⟨r, w, ran, start⟩ := init_eq (H := H) now
  rw [start] at tracked ⊢
  obtain ⟨-, pinned, -, heads⟩ := init_returns (P := P) ran
  refine ⟨r.opId, tracked, fun c member => ?_, fun c member => ?_, fun r' member => ?_,
    fun p member => (nomatch member), r.opId, ?_⟩
  · obtain rfl := List.mem_singleton.mp member
    exact pinned.good
  · obtain rfl := List.mem_singleton.mp member
    exact .refl
  · obtain rfl := List.mem_singleton.mp member
    exact ⟨_, pinned⟩
  · rw [mem_heads, heads, OpHeads.mem_update]
    simp

/-- Opening a sound system returns. -/
theorem Sound.opens (sound : Sound P root sys) (keeps : MergesKeep P) :
    (openRepo : WorldM H _).Succeeds sys.world (Opened P sys.world
      (OpHeads.current sys.world.opHeads)) :=
  openRepo_succeeds keeps (fun h member => sound.good h (sound.tracked.headsSeen member))
    sound.nonempty fun h member => sound.rooted h (sound.tracked.headsSeen member)

end Keep

end System

end Mnem.Repo
