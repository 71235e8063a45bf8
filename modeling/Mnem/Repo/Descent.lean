/-
# Repo.Descent — every operation of a run descends from the first

Nothing but `init` writes an operation without parents, so in every run each
operation that was a head, and each of its ancestors, descends from the
operation of `init` (`Descends.run`).  In the other direction, heads that open
have a common ancestor (`exists_common_of_opens`): two histories that begin
with different operations cannot be opened together.
-/
import Mnem.Repo.Antichain

namespace Mnem.Repo

open Theory

set_option autoImplicit false
set_option linter.unusedSectionVars false

variable {Cid : Type} {H : Hashing Cid} [LinearOrder Cid]

/-! ## The first operation -/

/-- What `init` writes. -/
def rootOperation (H : Hashing Cid) (now : Nat) : Operation Cid where
  view := H.cidOf (Object.toBlock ({} : View Cid))
  author := ""
  time := now
  description := "init"

def rootOperationCid (H : Hashing Cid) (now : Nat) : Cid := H.cidOf (Object.toBlock (rootOperation H now))

theorem rootOperationCid_injective : Function.Injective (rootOperationCid H) := by
  intro now now' same
  have op := Store.toBlock_injective (H.cidOf_injective same)
  exact congrArg Operation.time op

theorem not_opParent_rootOperationCid (now : Nat) (p : Cid) : ¬ OpParent H (rootOperationCid H now) p := by
  intro link
  have member := (opParent_iff rfl).mp link
  cases member

/-- `init` returns at its own operation, with an empty view, whatever is in the store. -/
theorem init_at_root {now : Nat} {w w' : World H} {r : ReadonlyRepo Cid}
    (ran : (Mnem.Repo.init now : WorldM H _).Returns w r w') :
    r.opId = rootOperationCid H now ∧ r.view = {} ∧
      w'.opHeads = OpHeads.update w.opHeads (rootOperationCid H now) [] := by
  obtain ⟨-, -, -, heads⟩ := init_returns (P := fun _ => True) ran
  obtain ⟨viewCid, w₁, putView, ran⟩ := Exec.returns_bind.mp ran
  obtain ⟨opCid, w₂, putOp, ran⟩ := Exec.returns_bind.mp ran
  obtain ⟨_, w₃, -, last⟩ := Exec.returns_bind.mp ran
  obtain ⟨rfl, -⟩ := Exec.returns_pure.mp last
  obtain ⟨rfl, -⟩ := putObject_returns (returns_onStore.mp putView).1
  obtain ⟨rfl, -⟩ := putObject_returns (returns_onStore.mp putOp).1
  exact ⟨rfl, rfl, heads⟩

/-! ## Runs -/

namespace System

/-- Every operation that was a head descends from `root`, and so do all its ancestors. -/
structure Descends (root : Cid) (sys : System H) : Prop where
  tracked : Tracked sys
  started : root ∈ sys.seen
  below : ∀ c ∈ sys.seen, ∀ a, Relation.ReflTransGen (OpParent H) c a →
    Relation.ReflTransGen (OpParent H) a root
  proposed : ∀ p ∈ sys.proposals, p.2 ≠ []

section Keep

variable {root : Cid} {sys : System H}

theorem Descends.load (descends : Descends root sys) {c : Cid} (old : c ∈ sys.seen) :
    Descends root (sys.load c) := by
  have tracked := descends.tracked.load old
  rcases sys.load_cases c with same | ⟨r, -, held⟩
  · rw [same]
    exact descends
  · rw [held] at tracked ⊢
    exact { descends with tracked := tracked }

theorem Descends.propose (descends : Descends root sys) {write : StoreM H Cid}
    {supersedes : List Cid} (some_head : supersedes ≠ [])
    (isOp : ∀ new s', write.Returns sys.world.store new s' → IsOp H new supersedes)
    (old : ∀ c ∈ supersedes, c ∈ sys.seen) : Descends root (sys.propose write supersedes) := by
  have tracked := descends.tracked.propose isOp old
  rcases sys.propose_cases write supersedes with ⟨s, left⟩ | ⟨new, s, -, proposed⟩
  · rw [left] at tracked ⊢
    exact { descends with tracked := tracked }
  · rw [proposed] at tracked ⊢
    refine { descends with tracked := tracked, proposed := fun p member => ?_ }
    rcases List.mem_append.mp member with before | here
    · exact descends.proposed p before
    · obtain rfl := List.mem_singleton.mp here
      exact some_head

theorem Descends.advance (descends : Descends root sys) {new : Cid} {supersedes : List Cid}
    (isOp : IsOp H new supersedes) (old : ∀ c ∈ supersedes, c ∈ sys.seen)
    (some_head : supersedes ≠ []) : Descends root (sys.advance new supersedes) := by
  refine { tracked := descends.tracked.advance isOp old, proposed := descends.proposed,
           started := ?_, below := ?_ }
  · rw [seen_advance]
    exact .inr descends.started
  · rw [seen_advance]
    rintro c (rfl | before) a path
    · rcases Relation.ReflTransGen.cases_head path with rfl | ⟨p, link, rest⟩
      · obtain ⟨p, member⟩ := List.exists_mem_of_ne_nil _ some_head
        exact .head (isOp.parent_iff.mpr member) (descends.below p (old p member) p .refl)
      · exact descends.below p (old p (isOp.parent_iff.mp link)) a rest
    · exact descends.below c before a path

theorem Descends.openAt (descends : Descends root sys) {heads : List Cid}
    (old : ∀ c ∈ heads, c ∈ sys.seen) : Descends root (sys.openAt heads) := by
  match heads with
  | [] => exact descends
  | [head] => exact descends.load (old head List.mem_cons_self)
  | h :: h' :: hs =>
      have sortedMem : ∀ c, c ∈ (h :: h' :: hs).insertionSort (· ≤ ·) ↔ c ∈ h :: h' :: hs :=
        fun c => List.mem_insertionSort _
      refine descends.propose ?_ (fun _ _ ran => writeMerge_isOp ran)
        fun c member => old c ((sortedMem c).mp member)
      exact List.ne_nil_of_mem ((sortedMem h).mpr List.mem_cons_self)

/-- Every step keeps the descent. -/
theorem Descends.step (descends : Descends root sys) (a : Action Cid) :
    Descends root (sys.step a) := by
  cases a with
  | observe => exact { descends with tracked := descends.tracked.step .observe }
  | «open» i =>
      unfold System.step
      dsimp only
      split
      · exact descends
      · rename_i heads found
        have kept : Descends root { sys with snapshots := sys.snapshots.eraseIdx i } :=
          { descends with tracked := { descends.tracked with
              snapshots := fun heads member =>
                descends.tracked.snapshots heads (List.mem_of_mem_eraseIdx member) } }
        exact kept.openAt (descends.tracked.snapshots heads (List.mem_of_getElem? found))
  | request i request =>
      unfold System.step
      dsimp only
      split
      · exact descends
      · rename_i r found
        refine descends.propose (by simp) (fun _ _ ran => prepare_isOp ran) fun c member => ?_
        obtain rfl := List.mem_singleton.mp member
        exact descends.tracked.repos r (List.mem_of_getElem? found)
  | advance i =>
      unfold System.step
      dsimp only
      split
      · exact descends
      · rename_i new supersedes found
        have member := List.mem_of_getElem? found
        obtain ⟨isOp, old⟩ := descends.tracked.proposals _ member
        have some_head := descends.proposed _ member
        have kept : Descends root { sys with proposals := sys.proposals.eraseIdx i } :=
          { descends with
            tracked := { descends.tracked with
              proposals := fun p m =>
                descends.tracked.proposals p (List.mem_of_mem_eraseIdx m) }
            proposed := fun p m => descends.proposed p (List.mem_of_mem_eraseIdx m) }
        refine (kept.advance isOp old some_head).load ?_
        rw [seen_advance]
        exact .inl rfl

theorem Descends.run (descends : Descends root sys) (actions : List (Action Cid)) :
    Descends root (sys.run actions) := by
  induction actions generalizing sys with
  | nil => exact descends
  | cons a actions ih => exact ih (descends.step a)

theorem descends_init (now : Nat) :
    Descends (rootOperationCid H now) (System.init now : System H) := by
  have tracked := tracked_init (H := H) now
  obtain ⟨r, w, ran, start⟩ := init_eq (H := H) now
  obtain ⟨at_root, -, -⟩ := init_at_root ran
  rw [start] at tracked ⊢
  refine ⟨tracked, ?_, fun c member a path => ?_, fun p member => nomatch member⟩
  · exact List.mem_singleton.mpr at_root.symm
  · obtain rfl : c = r.opId := List.mem_singleton.mp member
    rw [at_root] at path
    rcases Relation.ReflTransGen.cases_head path with rfl | ⟨p, link, -⟩
    · exact .refl
    · exact absurd link (not_opParent_rootOperationCid now p)

theorem Descends.some_head (descends : Descends root sys) : ∃ h, h ∈ sys.world.opHeads := by
  obtain ⟨h, isHead, -⟩ := descends.tracked.covers root descends.started
  exact ⟨h, isHead⟩

/-- An operation of a run is not one without parents, the first apart. -/
theorem Descends.eq_root (descends : Descends root sys) {c a : Cid} (old : c ∈ sys.seen)
    (path : Relation.ReflTransGen (OpParent H) c a) (first : ∀ p, ¬ OpParent H a p) :
    a = root := by
  rcases Relation.ReflTransGen.cases_head (descends.below c old a path) with same | ⟨p, link, -⟩
  · exact same
  · exact absurd link (first p)

end Keep

end System

/-! ## What opens has one history -/

/-- The common ancestor that is found is one, whatever else is stored. -/
theorem findLcaMany_common {s : Store H} {heads : List Cid} {a : Cid}
    (found : findLcaMany s heads = .ok (some a)) :
    ∀ h ∈ heads, Relation.ReflTransGen (Parent (operationParents s)) h a := by
  match heads with
  | [] => cases found
  | [head] =>
      cases found
      intro h member
      obtain rfl := List.mem_singleton.mp member
      exact .refl
  | h :: h' :: hs =>
      obtain ⟨perHead, walks, found⟩ := Exec.bind_eq_ok.mp found
      cases Exec.forall₂_of_mapM walks with
      | @cons _ first _ rest here others =>
          have member := mem_foldl_filterKeys.mp (mem_of_lowest found)
          intro x inHeads
          rcases List.mem_cons.mp inHeads with rfl | later
          · exact (mem_of_ancestorsVia here a).mp member.1
          · obtain ⟨anc, inRest, walk⟩ := Exec.exists_right_of_forall₂ others later
            exact (mem_of_ancestorsVia walk a).mp (member.2 anc inRest)

/-- **Heads that open have a common ancestor.** -/
theorem exists_common_of_opens {w w' : World H} {r : ReadonlyRepo Cid}
    (ran : (openRepo : WorldM H _).Returns w r w') :
    ∃ a, ∀ h ∈ w.opHeads, Relation.ReflTransGen (OpParent H) h a := by
  obtain ⟨heads, w₁, read, ran⟩ := Exec.returns_bind.mp ran
  obtain ⟨current, rfl⟩ := returns_readHeads.mp read
  have isHead : ∀ h, h ∈ w.opHeads ↔ h ∈ heads := fun h => by
    rw [← current, OpHeads.mem_current]
  match heads with
  | [] => exact absurd ran Exec.returns_throw
  | [head] =>
      refine ⟨head, fun h member => ?_⟩
      obtain rfl := List.mem_singleton.mp ((isHead h).mp member)
      exact .refl
  | h :: h' :: hs =>
      obtain ⟨merged, w₂, merge, -⟩ := Exec.returns_bind.mp ran
      obtain ⟨opCid, w₃, wrote, -⟩ := Exec.returns_bind.mp merge
      obtain ⟨_, s₁, -, rest⟩ := Exec.returns_bind.mp (returns_onStore.mp wrote).1
      obtain ⟨_, s₂, readAncestor, -⟩ := Exec.returns_bind.mp rest
      obtain ⟨ancestor, -⟩ := Exec.returns_read.mp readAncestor
      obtain ⟨out, found, ancestor⟩ := Exec.bind_eq_ok.mp ancestor
      cases out with
      | none => cases ancestor
      | some a =>
          refine ⟨a, fun x member => ?_⟩
          have sorted : x ∈ (h :: h' :: hs).insertionSort (· ≤ ·) :=
            (List.mem_insertionSort _).mpr ((isHead x).mp member)
          exact Relation.ReflTransGen.mono (fun _ _ link => opParent_of_parent link) _ _
            (findLcaMany_common found x sorted)

end Mnem.Repo
