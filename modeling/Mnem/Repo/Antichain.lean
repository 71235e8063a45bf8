/-
# Repo.Antichain — what the operation heads say about history

In every run the heads cover: each operation that was ever a head is one or an
ancestor of one.  They are pairwise unrelated as long as no advance brings back
an operation that a head descends from.  Merges are deterministic, so a reader
that opens at heads it observed long ago can do that.
-/
import Mnem.Repo.System

namespace Mnem.Repo.System

open Theory

set_option autoImplicit false
set_option linter.unusedSectionVars false

variable {Cid : Type} {H : Hashing Cid} [LinearOrder Cid]

/-! ## What every run keeps -/

/-- Everything that processes hold refers to operations that were heads, and the heads cover
these. -/
structure Tracked (sys : System H) : Prop where
  grounded : ∀ c ∈ sys.seen, Acc (flip (OpParent H)) c
  covers : Frontier.Covers (OpParent H) sys.heads sys.seen
  headsSeen : sys.heads ⊆ sys.seen
  repos : ∀ r ∈ sys.repos, r.opId ∈ sys.seen
  snapshots : ∀ heads ∈ sys.snapshots, ∀ c ∈ heads, c ∈ sys.seen
  proposals : ∀ p ∈ sys.proposals, IsOp H p.1 p.2 ∧ ∀ c ∈ p.2, c ∈ sys.seen

section Keep

variable {sys : System H}

theorem Tracked.load (tracked : Tracked sys) {c : Cid} (old : c ∈ sys.seen) :
    Tracked (sys.load c) := by
  rcases sys.load_cases c with same | ⟨r, loaded, held⟩
  · rw [same]
    exact tracked
  · rw [held]
    refine { tracked with repos := fun r' member => ?_ }
    rcases List.mem_append.mp member with before | here
    · exact tracked.repos r' before
    · obtain rfl := List.mem_singleton.mp here
      rw [opId_of_loadAt loaded]
      exact old

theorem Tracked.propose (tracked : Tracked sys) {write : StoreM H Cid} {supersedes : List Cid}
    (isOp : ∀ new s', write.Returns sys.world.store new s' → IsOp H new supersedes)
    (old : ∀ c ∈ supersedes, c ∈ sys.seen) : Tracked (sys.propose write supersedes) := by
  rcases sys.propose_cases write supersedes with ⟨s, left⟩ | ⟨new, s, ran, proposed⟩
  · rw [left]
    exact { tracked with }
  · rw [proposed]
    refine { tracked with proposals := fun p member => ?_ }
    rcases List.mem_append.mp member with before | here
    · exact tracked.proposals p before
    · obtain rfl := List.mem_singleton.mp here
      exact ⟨isOp new s ran, old⟩

/-- The history of a proposed operation is well founded. -/
theorem Tracked.grounded_new (tracked : Tracked sys) {new : Cid} {supersedes : List Cid}
    (isOp : IsOp H new supersedes) (old : ∀ c ∈ supersedes, c ∈ sys.seen) :
    Acc (flip (OpParent H)) new :=
  Frontier.acc_of_parents fun p link => tracked.grounded p (old p (isOp.parent_iff.mp link))

theorem Tracked.advance (tracked : Tracked sys) {new : Cid} {supersedes : List Cid}
    (isOp : IsOp H new supersedes) (old : ∀ c ∈ supersedes, c ∈ sys.seen) :
    Tracked (sys.advance new supersedes) := by
  have grounded := tracked.grounded_new isOp old
  have fresh : new ∉ {c | c ∈ supersedes} := fun member =>
    Frontier.acyclic_of_acc grounded (.single (isOp.parent_iff.mpr member))
  have covers := Frontier.covers_advance tracked.covers fresh
    fun p member => .single (isOp.parent_iff.mpr member)
  have more : sys.seen ⊆ (sys.advance new supersedes).seen := by
    rw [seen_advance]
    exact Set.subset_insert new sys.seen
  constructor
  · rw [seen_advance]
    rintro c (rfl | before)
    · exact grounded
    · exact tracked.grounded c before
  · rw [heads_advance, seen_advance]
    exact covers
  · rw [heads_advance, seen_advance]
    rintro c ⟨rfl | before, -⟩
    · exact .inl rfl
    · exact .inr (tracked.headsSeen before)
  · exact fun r member => more (tracked.repos r member)
  · exact fun heads member c inHeads => more (tracked.snapshots heads member c inHeads)
  · exact fun p member => ⟨(tracked.proposals p member).1,
      fun c inOld => more ((tracked.proposals p member).2 c inOld)⟩

theorem Tracked.openAt (tracked : Tracked sys) {heads : List Cid}
    (old : ∀ c ∈ heads, c ∈ sys.seen) : Tracked (sys.openAt heads) := by
  match heads with
  | [] => exact tracked
  | [head] => exact tracked.load (old head List.mem_cons_self)
  | h :: h' :: hs =>
      exact tracked.propose (fun _ _ ran => writeMerge_isOp ran)
        fun c member => old c ((List.mem_insertionSort _).mp member)

/-- A step keeps track. -/
theorem Tracked.step (tracked : Tracked sys) (a : Action Cid) : Tracked (sys.step a) := by
  cases a with
  | observe =>
      refine { tracked with snapshots := fun heads member c inHeads => ?_ }
      rcases List.mem_append.mp member with before | here
      · exact tracked.snapshots heads before c inHeads
      · obtain rfl := List.mem_singleton.mp here
        exact tracked.headsSeen (OpHeads.mem_current.mp inHeads)
  | «open» i =>
      unfold System.step
      dsimp only
      split
      · exact tracked
      · rename_i heads found
        have kept : Tracked { sys with snapshots := sys.snapshots.eraseIdx i } :=
          { tracked with
            snapshots := fun heads member => tracked.snapshots heads (List.mem_of_mem_eraseIdx member) }
        exact kept.openAt (tracked.snapshots heads (List.mem_of_getElem? found))
  | request i request =>
      unfold System.step
      dsimp only
      split
      · exact tracked
      · rename_i r found
        refine tracked.propose (fun _ _ ran => prepare_isOp ran) fun c member => ?_
        obtain rfl := List.mem_singleton.mp member
        exact tracked.repos r (List.mem_of_getElem? found)
  | advance i =>
      unfold System.step
      dsimp only
      split
      · exact tracked
      · rename_i new supersedes found
        obtain ⟨isOp, old⟩ := tracked.proposals _ (List.mem_of_getElem? found)
        have kept : Tracked { sys with proposals := sys.proposals.eraseIdx i } :=
          { tracked with
            proposals := fun p member => tracked.proposals p (List.mem_of_mem_eraseIdx member) }
        refine (kept.advance isOp old).load ?_
        rw [seen_advance]
        exact .inl rfl

theorem Tracked.run (tracked : Tracked sys) (actions : List (Action Cid)) :
    Tracked (sys.run actions) := by
  induction actions generalizing sys with
  | nil => exact tracked
  | cons a actions ih => exact ih (tracked.step a)

/-- `init` leaves its operation as the only head. -/
theorem tracked_init (now : Nat) : Tracked (System.init now : System H) := by
  obtain ⟨r, w, ran, start⟩ := init_eq (H := H) now
  rw [start]
  obtain ⟨-, pinned, parents, heads⟩ := init_returns (P := fun _ => True) ran
  have only : ∀ c, c ∈ w.opHeads ↔ c = r.opId := by
    intro c
    rw [heads, OpHeads.mem_update]
    simp
  have root : ∀ p, ¬ OpParent H r.opId p := by
    intro p link
    have member := (opParent_iff pinned.op.cidOf).mp link
    rw [parents] at member
    cases member
  constructor
  · intro c member
    obtain rfl := List.mem_singleton.mp member
    exact Frontier.acc_of_parents fun p link => absurd link (root p)
  · intro c member
    obtain rfl := List.mem_singleton.mp member
    exact ⟨_, (only _).mpr rfl, .refl⟩
  · intro c member
    exact List.mem_singleton.mpr ((only c).mp member)
  · intro r' member
    obtain rfl := List.mem_singleton.mp member
    exact List.mem_singleton.mpr rfl
  · exact fun _ member => nomatch member
  · exact fun _ member => nomatch member

theorem antichain_init (now : Nat) :
    Frontier.Antichain (OpParent H) (System.init now : System H).heads := by
  have tracked := tracked_init (H := H) now
  obtain ⟨r, w, ran, start⟩ := init_eq (H := H) now
  intro h inHeads h' inHeads' path
  have grounded := tracked.grounded h (tracked.headsSeen inHeads)
  have first := tracked.headsSeen inHeads
  have second := tracked.headsSeen inHeads'
  rw [start] at first second
  obtain rfl := List.mem_singleton.mp first
  obtain rfl := List.mem_singleton.mp second
  exact Frontier.acyclic_of_acc grounded path

end Keep

/-! ## The frontier -/

section Frontier

variable {sys : System H}

/-- An advance whose operation no head descends from. -/
def Fresh (sys : System H) : Action Cid → Prop
  | .advance i => ∀ new supersedes, sys.proposals[i]? = some (new, supersedes) →
      ∀ h ∈ sys.heads, ¬ Relation.TransGen (OpParent H) h new
  | _ => True

@[simp] theorem heads_load (sys : System H) (c : Cid) : (sys.load c).heads = sys.heads := by
  rcases sys.load_cases c with same | ⟨r, -, held⟩
  · rw [same]
  · rw [held]
    rfl

@[simp] theorem heads_propose (sys : System H) (write : StoreM H Cid) (supersedes : List Cid) :
    (sys.propose write supersedes).heads = sys.heads := by
  rcases sys.propose_cases write supersedes with ⟨s, left⟩ | ⟨new, s, -, proposed⟩
  · rw [left]
    rfl
  · rw [proposed]
    rfl

theorem heads_openAt (sys : System H) (heads : List Cid) :
    (sys.openAt heads).heads = sys.heads := by
  match heads with
  | [] => rfl
  | [head] => exact heads_load sys head
  | _ :: _ :: _ => exact heads_propose sys _ _

/-- A step keeps the heads unrelated exactly when it is fresh. -/
theorem antichain_step_iff (tracked : Tracked sys)
    (antichain : Frontier.Antichain (OpParent H) sys.heads) (a : Action Cid) :
    Frontier.Antichain (OpParent H) (sys.step a).heads ↔ Fresh sys a := by
  cases a with
  | observe => exact iff_of_true antichain trivial
  | «open» i =>
      refine iff_of_true ?_ trivial
      unfold System.step
      dsimp only
      split
      · exact antichain
      · rw [heads_openAt]
        exact antichain
  | request i request =>
      refine iff_of_true ?_ trivial
      unfold System.step
      dsimp only
      split
      · exact antichain
      · rw [heads_propose]
        exact antichain
  | advance i =>
      unfold System.step Fresh
      dsimp only
      split
      · rename_i nothing
        rw [nothing]
        exact iff_of_true antichain nofun
      · rename_i new supersedes found
        obtain ⟨isOp, old⟩ := tracked.proposals _ (List.mem_of_getElem? found)
        have exact_iff := Frontier.antichain_advance_iff tracked.covers antichain
          (fun p => isOp.parent_iff) old (tracked.grounded_new isOp old)
        rw [heads_load, heads_advance, found]
        refine exact_iff.trans ⟨fun unrelated => ?_, fun fresh => fresh new supersedes rfl⟩
        rintro _ _ ⟨⟩
        exact unrelated

theorem run_append (sys : System H) (before : List (Action Cid)) (a : Action Cid) :
    sys.run (before ++ [a]) = (sys.run before).step a := List.foldl_append

/-- **The heads and history**: in every run of every processes the heads cover everything that
was ever a head, and they stay pairwise unrelated if and only if every advance is fresh. -/
theorem heads_frontier (now : Nat) (actions : List (Action Cid)) :
    (∀ before after, before ++ after = actions →
      Frontier.Covers (OpParent H) ((System.init now : System H).run before).heads
        ((System.init now : System H).run before).seen) ∧
    ((∀ before after, before ++ after = actions →
        Frontier.Antichain (OpParent H) ((System.init now : System H).run before).heads) ↔
      ∀ before a after, before ++ a :: after = actions →
        Fresh ((System.init now : System H).run before) a) := by
  have tracked : ∀ before, Tracked ((System.init now : System H).run before) :=
    fun before => (tracked_init now).run before
  refine ⟨fun before _ _ => (tracked before).covers, fun antichains => ?_, fun fresh => ?_⟩
  · intro before a after split
    have here := antichains before (a :: after) split
    have next := antichains (before ++ [a]) after (by rw [List.append_assoc]; exact split)
    rw [run_append] at next
    exact (antichain_step_iff (tracked before) here a).mp next
  · intro before
    induction before using List.reverseRecOn with
    | nil => exact fun _ _ => antichain_init now
    | append_singleton before a ih =>
        intro after split
        rw [List.append_assoc] at split
        rw [run_append]
        exact (antichain_step_iff (tracked before) (ih (a :: after) split) a).mpr
          (fresh before a after split)

end Frontier

/-! ### A merge that comes back -/

def nothing (message : String) : Request ℕ := .transact [] { author := "", message := message }

/-- Two readers observe two heads; after the first has merged them and a commit was made on the
merge, the second merges them again. -/
def staleReader : List (Action ℕ) :=
  [.request 0 (nothing "a"), .request 0 (nothing "b"), .advance 0, .advance 0, .observe, .observe,
    .open 0, .advance 0, .request 3 (nothing "c"), .advance 0, .open 0, .advance 0]

/-- The last head has the first one as its only parent. -/
def aboveAnother (sys : System shortHashing) : Bool :=
  match OpHeads.current sys.world.opHeads with
  | [c, c'] =>
      Exec.okAnd (sys.world.store.decodeFromStore (Operation ℕ) c) (fun op => op.parents = [c']) ||
      Exec.okAnd (sys.world.store.decodeFromStore (Operation ℕ) c') fun op => op.parents = [c]
  | _ => false

theorem related_of_aboveAnother {sys : System shortHashing} (above : aboveAnother sys = true) :
    ¬ Frontier.Antichain (OpParent shortHashing) sys.heads := by
  intro antichain
  unfold aboveAnother at above
  split at above
  · rename_i c c' current
    have isHead : ∀ x ∈ [c, c'], x ∈ sys.heads :=
      fun x member => OpHeads.mem_current.mp (current ▸ member)
    rcases Bool.or_eq_true_iff.mp above with first | second
    · obtain ⟨op, loads, parents⟩ := Exec.exists_of_okAnd first
      have link : OpParent shortHashing c c' :=
        ⟨op, Store.Loads.cidOf loads, by rw [of_decide_eq_true parents]; simp⟩
      exact antichain c (isHead c (by simp)) c' (isHead c' (by simp)) (.single link)
    · obtain ⟨op, loads, parents⟩ := Exec.exists_of_okAnd second
      have link : OpParent shortHashing c' c :=
        ⟨op, Store.Loads.cidOf loads, by rw [of_decide_eq_true parents]; simp⟩
      exact antichain c' (isHead c' (by simp)) c (isHead c (by simp)) (.single link)
  · cases above

theorem staleReader_above : aboveAnother ((System.init 0).run staleReader) = true := by
  decide +kernel

/-- A head whose parent is a head. -/
theorem heads_related : ¬ Frontier.Antichain (OpParent shortHashing)
    ((System.init 0 : System shortHashing).run staleReader).heads :=
  related_of_aboveAnother staleReader_above

end Mnem.Repo.System
