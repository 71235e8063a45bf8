/-
# Cli.Pull — what a pull does to the pointers that it moves

`mnem pull` compares the working head with the fetched tip, and then moves two
pointers to the tip: the named branch, and after it the working head.  The
comparison says nothing of the branch, and without a working head there is none.

* `isAncestor_eq`: the walk from the tip ends, and finds what the tip descends
  from; what is missing from the store has no parents.
* `fastForwardAt_forwards_iff`: when the branch is known to be fast-forwarded.
-/
import Mnem.Cli.MergeInProgress

namespace Mnem.Cli

open Theory Repo

set_option autoImplicit false
set_option linter.unusedSectionVars false

variable {Cid : Type} {H : Hashing Cid} [LinearOrder Cid]

/-! ## The walk from the tip -/

section Walk

variable {s : Store H} {tip : Cid}

/-- A walk along parents that are never in error runs to its end. -/
theorem ancestorsVia_succeeds {parents : Cid → Except (Error Cid) (List Cid)}
    (total : ∀ c, ∃ ps, parents c = .ok ps ∧
      ps.length ≤ ((s.get c).map fun b => b.links.length).getD 0) (cid : Cid) :
    ∃ anc, ancestorsVia s parents cid = .ok anc := by
  choose next found short using total
  let stored := (s.blocks.map Prod.fst).toFinset
  let nodes := insert cid (stored ∪ stored.biUnion fun c => (next c).toFinset)
  let weight := fun c => ((s.get c).map fun b => b.links.length).getD 0
  have here : ∀ c, weight c ≠ 0 → c ∈ stored := by
    intro c some
    cases at_c : s.get c with
    | none => simp [weight, at_c] at some
    | some b => exact List.mem_toFinset.mpr (List.mem_map_of_mem (Entries.mem_of_get? at_c))
  have closed : ∀ c, c ∈ nodes → ∃ ps, visitParents parents c = .ok (.inr ps) ∧
      (∀ p ∈ ps, p ∈ nodes) ∧ ps.length ≤ weight c ∧ c ∈ nodes := by
    intro c inside
    refine ⟨next c, Exec.map_eq_ok.mpr ⟨next c, found c, rfl⟩, fun p m => ?_, short c, inside⟩
    have some : weight c ≠ 0 :=
      Nat.ne_of_gt ((List.length_pos_of_mem m).trans_le (short c))
    refine Finset.mem_insert_of_mem (Finset.mem_union_right _ ?_)
    exact Finset.mem_biUnion.mpr ⟨c, here c some, List.mem_toFinset.mpr m⟩
  have bounded : ([cid] : List Cid).length + Reach.owed nodes weight OrdMap.empty ≤ walkBound s := by
    have fewer : Reach.owed nodes weight OrdMap.empty ≤ Reach.owed stored weight OrdMap.empty :=
      Reach.owed_le fun c _ => here c
    have enough : Reach.owed stored weight OrdMap.empty ≤ _ :=
      Reach.owed_empty_le (fun b : Block Cid => b.links.length) s.blocks
    exact Nat.add_le_add_left (fewer.trans enough) 1
  obtain ⟨anc, ran⟩ := Reach.search_succeeds Error.diverged closed (walkBound s) OrdMap.empty [cid]
    (by simp [nodes]) bounded
  exact ⟨anc, by rw [ancestorsVia, ran]⟩

theorem knownParents_total (c : Cid) : ∃ ps, knownParents s c = .ok ps ∧
    ps.length ≤ ((s.get c).map fun b => b.links.length).getD 0 := by
  unfold knownParents
  split
  · rename_i commit loads
    refine ⟨commit.parents, rfl, ?_⟩
    rw [Store.loads_iff.mp loads]
    simp [Object.toBlock, Block.links]
  · exact ⟨[], rfl, Nat.zero_le _⟩

/-- What is absent or no commit has no parents, for a walk that skips it. -/
theorem parent_knownParents {a b : Cid} :
    Parent (knownParents s) a b ↔ Parent (commitParents s) a b := by
  unfold Parent knownParents commitParents
  constructor
  · rintro ⟨ps, known, member⟩
    split at known
    · rename_i commit loads
      cases known
      exact ⟨commit.parents, Exec.map_eq_ok.mpr ⟨commit, loads, rfl⟩, member⟩
    · cases known
      cases member
  · rintro ⟨ps, found, member⟩
    obtain ⟨commit, loads, rfl⟩ := Exec.map_eq_ok.mp found
    exact ⟨commit.parents, by rw [loads], member⟩

/-- The check of a pull: whether the tip descends from the needle. -/
theorem isAncestor_eq (s : Store H) (needle tip : Cid) :
    ∃ found, isAncestor s needle tip = .ok found ∧ (found = true ↔ Descends s tip needle) := by
  obtain ⟨anc, walked⟩ := ancestorsVia_succeeds (@knownParents_total _ _ _ s) tip
  refine ⟨anc.contains needle, ?_, ?_⟩
  · unfold isAncestor
    rw [walked]
    rfl
  · show needle ∈ anc ↔ _
    rw [mem_of_ancestorsVia walked, Descends]
    simp only [show Parent (knownParents s) = Parent (commitParents s) from
      funext fun a => funext fun b => propext parent_knownParents]

end Walk

/-! ## One advance -/

section Advance

variable {w w' : World H} {r : ReadonlyRepo Cid}

theorem outcome_of_returns {α β : Type} {p : WorldM H α} {f : α → WorldM H β} {a : α}
    (ran : p.Returns w a w') : (p >>= f).outcome w = (f a).outcome w' := by
  rw [Exec.outcome_bind, show p.outcome w = (.ok a, w') from ran]

/-- The view at the only operation head. -/
def ViewAt (w : World H) (view : View Cid) : Prop := ∃ r, At w r ∧ r.view = view

/-- A view that keeps the extensions of a stored one has an encoding. -/
theorem view_encodes {viewCid : Cid} {stored view : View Cid} (loads : w.store.Loads viewCid stored)
    (same : view.extra = stored.extra) : H.encodes (Object.toBlock view) = true := by
  refine Bool.and_eq_true_iff.mpr ⟨List.all_eq_true.mpr fun v member => ?_, rfl⟩
  change v ∈ view.extra.values at member
  rw [same] at member
  obtain ⟨⟨key, _⟩, inEntries, rfl⟩ := List.mem_map.mp member
  exact accepted_of_loads loads ((OrdMap.get?_eq_some_iff _).mpr inEntries)

/-- Writing what is no commit adds no commit. -/
theorem commit_of_putObject {α : Type} [Object Cid α] {a : α} {s s' : Store H} {cid c : Cid}
    {commit : Commit Cid} (other : (Object.ofBlock? (Object.toBlock a : Block Cid) : Option (Commit Cid)) = none)
    (ran : (putObject a : StoreM H Cid).Returns s cid s') (loads : s'.Loads c commit) :
    s.Loads c commit := by
  unfold putObject at ran
  split at ran
  · rw [Exec.returns_update] at ran
    cases ran
    exact Store.loads_of_insert other loads
  · exact absurd ran Exec.returns_throw

/-- What is left of an advance: its operation at the heads, and no new commit. -/
structure Advances (w : World H) (r : ReadonlyRepo Cid) (view : View Cid) (opId : Cid)
    (w₁ : World H) : Prop where
  follows : ∃ op : Operation Cid, ∀ commit,
    Follows w r w₁ { opId := opId, op := op, view := view, commit := commit }
  commits : ∀ c (commit : Commit Cid), w₁.store.Loads c commit → w.store.Loads c commit

/-- An advance from the only head ends with a load of the operation it wrote, which may fail. -/
theorem advanceTo_outcome (at_op : At w r) {view : View Cid} (same : view.extra = r.view.extra)
    (author description : String) (now : Nat) :
    ∃ opId w₁, (r.advanceTo view author description now : WorldM H _).outcome w =
        (ReadonlyRepo.loadAt w₁.store opId, w₁) ∧ Advances w r view opId w₁ := by
  obtain ⟨viewCid, s₁, putView, -, le₁, viewLoads⟩ :=
    putObject_succeeds (view_encodes at_op.reads.view same) w.store
  let op : Operation Cid := { parents := [r.opId], view := viewCid, author := author, time := now,
                              description := description }
  obtain ⟨opId, s₂, putOp, -, le₂, opLoads⟩ := @putObject_succeeds _ _ _ _ _ op rfl s₁
  let w₁ : World H := { store := s₂, opHeads := OpHeads.update w.opHeads opId [r.opId] }
  refine ⟨opId, w₁, ?_, ⟨op, fun commit => ?_⟩, fun c commit loads => ?_⟩
  · have written : (r.writeView view author description now : StoreM H Cid).Returns w.store opId s₂ :=
      Exec.returns_bind.mpr ⟨viewCid, s₁, putView, putOp⟩
    have stored : (onStore (r.writeView view author description now) : WorldM H Cid).Returns w opId
        { w with store := s₂ } := returns_onStore.mpr ⟨written, rfl⟩
    rw [advanceTo_eq]
    exact outcome_of_returns stored
  · exact ⟨le₁.trans le₂, ⟨opLoads, viewLoads.mono le₂⟩, rfl, rfl⟩
  · exact commit_of_putObject rfl putView (commit_of_putObject rfl putOp loads)

theorem Advances.viewAt {view : View Cid} {opId : Cid} {w₁ : World H}
    (advances : Advances w r view opId w₁) (at_op : At w r) : ViewAt w₁ view := by
  obtain ⟨op, follows⟩ := advances.follows
  exact ⟨_, (follows none).at at_op, rfl⟩

/-- The load of an operation whose view has a commit at its head, or no head. -/
theorem loadAt_succeeds {s : Store H} {opId : Cid} {op : Operation Cid} {view : View Cid}
    (opLoads : s.Loads opId op) (viewLoads : s.Loads op.view view)
    (head : ∀ c, view.heads.head? = some c → ∃ commit : Commit Cid, s.Loads c commit) :
    ∃ r, ReadonlyRepo.loadAt s opId = .ok r := by
  unfold ReadonlyRepo.loadAt
  rw [show s.decodeFromStore (Operation Cid) opId = .ok op from opLoads]
  show ∃ r, (s.decodeFromStore (View Cid) op.view >>= _) = Except.ok r
  rw [show s.decodeFromStore (View Cid) op.view = .ok view from viewLoads]
  dsimp only [bind, Except.bind]
  cases at_head : view.heads.head? with
  | none => exact ⟨_, rfl⟩
  | some c =>
      obtain ⟨commit, loads⟩ := head c at_head
      show ∃ r, (s.decodeFromStore (Commit Cid) c >>= _) = Except.ok r
      rw [show s.decodeFromStore (Commit Cid) c = .ok commit from loads]
      exact ⟨_, rfl⟩

/-- A load needs the commit at the head of the view. -/
theorem head_of_loadAt {s : Store H} {opId : Cid} (ran : ReadonlyRepo.loadAt s opId = .ok r) {c : Cid}
    (head : r.view.heads.head? = some c) : ∃ commit : Commit Cid, s.Loads c commit := by
  unfold ReadonlyRepo.loadAt at ran
  obtain ⟨op, opLoads, ran⟩ := Exec.bind_eq_ok.mp ran
  obtain ⟨view, viewLoads, ran⟩ := Exec.bind_eq_ok.mp ran
  split at ran
  · rename_i c' at_head
    obtain ⟨commit, loads, built⟩ := Exec.bind_eq_ok.mp ran
    cases built
    obtain rfl := Option.some.inj (at_head.symm.trans head)
    exact ⟨commit, loads⟩
  · rename_i none
    cases ran
    rw [none] at head
    cases head

end Advance

/-! ## The fast-forward -/

/-- The commits that a ref names. -/
def refCommits : Option (RefTarget Cid) → List Cid
  | none => []
  | some (.normal target) => [target]
  | some (.conflicted adds _) => adds

/-- The ref and the working head stay, or descend from what they were. -/
structure MovesForward (s : Store H) (key : String) (view view' : View Cid) : Prop where
  branch : view'.refs.get? key = view.refs.get? key ∨
    ∃ tip, view'.refs.get? key = some (.normal tip) ∧
      ∀ c ∈ refCommits (view.refs.get? key), Descends s tip c
  head : view'.heads.head? = view.heads.head? ∨
    ∃ tip, view'.heads.head? = some tip ∧ ∀ c, view.heads.head? = some c → Descends s tip c

/-- The ref and the working head stay. -/
structure MovesNothing (key : String) (view view' : View Cid) : Prop where
  branch : view'.refs.get? key = view.refs.get? key
  head : view'.heads.head? = view.heads.head?

/-- A pull that returns moves the branch and the working head forward, and one that fails moves
neither. -/
def PullsForward (w : World H) (r : ReadonlyRepo Cid) (remote branch author : String)
    (clock : Nat → Nat) : Prop :=
  ∃ view', ViewAt ((fastForwardAt r remote branch author clock : WorldM H Unit).outcome w).2 view' ∧
    match ((fastForwardAt r remote branch author clock : WorldM H Unit).outcome w).1 with
    | .ok _ => MovesForward w.store (headsPrefix ++ branch) r.view view'
    | .error _ => MovesNothing (headsPrefix ++ branch) r.view view'

section FastForward

variable {w w₀ : World H} {r : ReadonlyRepo Cid} {remote branch author : String}
  {clock : Nat → Nat} {tip : Cid}

theorem ViewAt.unique {v v' : View Cid} (here : ViewAt w v) (here' : ViewAt w v') : v = v' := by
  obtain ⟨r, at_op, rfl⟩ := here
  obtain ⟨r', at_op', rfl⟩ := here'
  have same : r'.opId = r.opId := at_op.mem_iff.mp (at_op'.mem_iff.mpr rfl)
  have op : r'.op = r.op := at_op'.reads.op.unique (same ▸ at_op.reads.op)
  exact (at_op'.reads.view.unique (op ▸ at_op.reads.view)).symm

/-- The view after both moves. -/
def movedTo (view : View Cid) (branch : String) (tip : Cid) : View Cid :=
  { view with refs := view.refs.insert (headsPrefix ++ branch) (.normal tip), heads := [tip] }

/-- The two moves: both are written whether the commit at the tip can be loaded or not. -/
theorem moves_outcome (at_op : At w r) (loaded : ReadonlyRepo.loadAt w.store r.opId = .ok r)
    (branch author : String) (clock : Nat → Nat) (tip : Cid) :
    ∃ out w₂, (do
        let afterRef ← r.updateRef (headsPrefix ++ branch) (r.view.refs.get? (headsPrefix ++ branch))
          (some (.normal tip)) author (clock 0)
        let _ ← afterRef.updateHeads tip author (clock 1) : WorldM H Unit).outcome w = (out, w₂) ∧
      ViewAt w₂ (movedTo r.view branch tip) ∧
      (out = .ok () ↔ ∃ commit : Commit Cid, w.store.Loads tip commit) := by
  let view₁ : View Cid :=
    { r.view with refs := r.view.refs.insert (headsPrefix ++ branch) (.normal tip) }
  obtain ⟨opId, w₁, first, advances⟩ := advanceTo_outcome at_op
    (rfl : view₁.extra = r.view.extra) author ("update_ref: " ++ (headsPrefix ++ branch)) (clock 0)
  obtain ⟨op, follows⟩ := advances.follows
  have reads := (follows none).reads
  obtain ⟨r₁, loaded₁⟩ : ∃ r₁, ReadonlyRepo.loadAt w₁.store opId = .ok r₁ := by
    refine loadAt_succeeds reads.op reads.view fun c head => ?_
    obtain ⟨commit, loads⟩ := head_of_loadAt loaded head
    exact ⟨commit, loads.mono (follows none).grows⟩
  have reads₁ := reads_of_loadAt loaded₁
  obtain rfl : r₁.opId = opId := ReadonlyRepo.opId_of_loadAt loaded₁
  obtain rfl : r₁.op = op := reads₁.op.unique reads.op
  have view : r₁.view = view₁ := reads₁.view.unique reads.view
  have at₁ : At w₁ r₁ := by
    have at_op₁ := (follows r₁.commit).at at_op
    rw [← view] at at_op₁
    exact at_op₁
  let view₂ : View Cid := { r₁.view with heads := [tip] }
  obtain ⟨opId₂, w₂, second, advances₂⟩ := advanceTo_outcome at₁
    (rfl : view₂.extra = r₁.view.extra) author ("update_heads: " ++ H.cidString tip) (clock 1)
  have moved : view₂ = movedTo r.view branch tip := by
    show ({ r₁.view with heads := [tip] } : View Cid) = _
    rw [view]
    rfl
  refine ⟨(fun _ => ()) <$> ReadonlyRepo.loadAt w₂.store opId₂, w₂, ?_, ?_, ?_⟩
  · have ref : (r.updateRef (headsPrefix ++ branch) (r.view.refs.get? (headsPrefix ++ branch))
        (some (.normal tip)) author (clock 0) : WorldM H _).Returns w r₁ w₁ := by
      unfold ReadonlyRepo.updateRef
      rw [if_neg (not_not.mpr rfl)]
      exact first.trans (Prod.ext loaded₁ rfl)
    have heads : (r₁.updateHeads tip author (clock 1) : WorldM H _).outcome w₁ =
        (ReadonlyRepo.loadAt w₂.store opId₂, w₂) := second
    rw [outcome_of_returns ref, Exec.outcome_bind, heads]
    cases ReadonlyRepo.loadAt w₂.store opId₂ <;> rfl
  · exact moved ▸ advances₂.viewAt at₁
  · obtain ⟨op₂, follows₂⟩ := advances₂.follows
    have reads₂ := (follows₂ none).reads
    constructor
    · intro ok
      obtain ⟨r₂, loaded₂, -⟩ := Exec.map_eq_ok.mp ok
      have readsAgain := reads_of_loadAt loaded₂
      obtain rfl : r₂.opId = opId₂ := ReadonlyRepo.opId_of_loadAt loaded₂
      obtain rfl : r₂.op = op₂ := readsAgain.op.unique reads₂.op
      have again : r₂.view = view₂ := readsAgain.view.unique reads₂.view
      obtain ⟨commit, loads⟩ := head_of_loadAt loaded₂ (c := tip) (by rw [again]; rfl)
      exact ⟨commit, advances.commits _ _ (advances₂.commits _ _ loads)⟩
    · rintro ⟨commit, loads⟩
      obtain ⟨r₂, loaded₂⟩ := loadAt_succeeds reads₂.op reads₂.view fun c head => by
        obtain rfl : tip = c := Option.some.inj head
        exact ⟨commit, (loads.mono (follows none).grows).mono (follows₂ none).grows⟩
      rw [loaded₂]
      rfl

/-- When the branch that a pull is about to move, and the commit that it moves to, are as the
check of the working head has them. -/
def BranchFollows (s : Store H) (view : View Cid) (remote branch : String) : Prop :=
  ∀ tip, view.refs.get? (trackingKey remote branch) = some (.normal tip) →
    view.heads.head? ≠ some tip → (∀ c, view.heads.head? = some c → Descends s tip c) →
      (∀ c ∈ refCommits (view.refs.get? (headsPrefix ++ branch)), Descends s tip c) ∧
        ∃ commit : Commit Cid, s.Loads tip commit

/-- A pull that stops before it moves. -/
theorem pullsForward_of_still (at_op : At w r) {out : Except (Error Cid) Unit}
    (still : (fastForwardAt r remote branch author clock : WorldM H Unit).outcome w = (out, w)) :
    PullsForward w r remote branch author clock := by
  refine ⟨r.view, ?_, ?_⟩
  · rw [still]
    exact ⟨r, at_op, rfl⟩
  · rw [still]
    cases out with
    | ok _ => exact ⟨.inl rfl, .inl rfl⟩
    | error _ => exact ⟨rfl, rfl⟩

/-- An opened repository was loaded at its operation. -/
theorem openRepo_loaded (opened : (openRepo : WorldM H _).Returns w₀ r w) :
    ReadonlyRepo.loadAt w.store r.opId = .ok r := by
  obtain ⟨heads, w₁, -, ran⟩ := Exec.returns_bind.mp opened
  match heads, ran with
  | [], ran => exact absurd ran Exec.returns_throw
  | [head], ran =>
      obtain ⟨loaded, sameStore⟩ := Exec.returns_read.mp (returns_onStore.mp ran).1
      rw [ReadonlyRepo.opId_of_loadAt loaded, ← sameStore]
      exact loaded
  | h :: h' :: hs, ran =>
      obtain ⟨opCid, w₂, -, load⟩ := Exec.returns_bind.mp ran
      obtain ⟨loaded, sameStore⟩ := Exec.returns_read.mp (returns_onStore.mp load).1
      rw [ReadonlyRepo.opId_of_loadAt loaded, ← sameStore]
      exact loaded

/-- What the check of the working head finds. -/
theorem check_eq (s : Store H) (head : Option Cid) (tip : Cid) :
    ∃ forward, (match head with
        | some localHead => isAncestor s localHead tip
        | none => .ok true) = .ok forward ∧
      (forward = true ↔ ∀ c, head = some c → Descends s tip c) := by
  cases head with
  | none => exact ⟨true, rfl, by simp⟩
  | some c =>
      obtain ⟨found, walked, below⟩ := isAncestor_eq s c tip
      refine ⟨found, walked, below.trans ⟨fun here c' same => ?_, fun all => all c rfl⟩⟩
      cases same
      exact here

/-- **When a pull fast-forwards what it moves**: where it is about to move, the tip is a stored
commit that the commits of the branch are ancestors of. -/
theorem fastForwardAt_forwards_iff (opened : (openRepo : WorldM H _).Returns w₀ r w) :
    PullsForward w r remote branch author clock ↔
      BranchFollows w.store r.view remote branch := by
  obtain ⟨at_op, -⟩ := openRepo_opens opened
  have loaded := openRepo_loaded opened
  by_cases tracked : ∃ tip, r.view.refs.get? (trackingKey remote branch) = some (.normal tip)
  swap
  · refine ⟨fun _ tip here => absurd ⟨tip, here⟩ tracked, fun _ => ?_⟩
    apply pullsForward_of_still at_op
    unfold fastForwardAt
    split
    · rename_i tip here
      exact absurd ⟨tip, here⟩ tracked
    · rfl
  obtain ⟨tip, tracking⟩ := tracked
  by_cases level : r.view.heads.head? = some tip
  · refine ⟨fun _ tip' here behind => ?_, fun _ => ?_⟩
    · obtain rfl : tip = tip' := RefTarget.normal.inj (Option.some.inj (tracking.symm.trans here))
      exact absurd level behind
    · apply pullsForward_of_still at_op
      unfold fastForwardAt
      rw [tracking]
      dsimp only
      rw [if_pos level]
      rfl
  obtain ⟨forward, checked, below⟩ := check_eq w.store r.view.heads.head? tip
  have ran : (fastForwardAt r remote branch author clock : WorldM H Unit).outcome w =
      ((if forward then do
          let key := headsPrefix ++ branch
          let afterRef ← r.updateRef key (r.view.refs.get? key) (some (.normal tip)) author (clock 0)
          let _ ← afterRef.updateHeads tip author (clock 1)
        else throw (.invalidInput "mnem pull: non-fast-forward detected") :
          WorldM H Unit)).outcome w := by
    unfold fastForwardAt
    rw [tracking]
    dsimp only
    rw [if_neg level]
    exact outcome_of_returns (returns_onStore.mpr ⟨Exec.returns_read.mpr ⟨checked, rfl⟩, rfl⟩)
  cases forward with
  | false =>
      have apart : ¬ ∀ c, r.view.heads.head? = some c → Descends w.store tip c :=
        fun all => Bool.false_ne_true (below.mpr all)
      refine ⟨fun _ tip' here _ all => ?_, fun _ => pullsForward_of_still at_op ran⟩
      obtain rfl : tip = tip' := RefTarget.normal.inj (Option.some.inj (tracking.symm.trans here))
      exact absurd all apart
  | true =>
      obtain ⟨out, w₂, moved, viewAt, returned⟩ :=
        moves_outcome at_op loaded branch author clock tip
      rw [if_pos rfl, moved] at ran
      constructor
      · rintro ⟨view', here, result⟩ tip' tracking' _ _
        obtain rfl : tip = tip' :=
          RefTarget.normal.inj (Option.some.inj (tracking.symm.trans tracking'))
        rw [ran] at here result
        obtain rfl := viewAt.unique here
        cases out with
        | error _ => exact absurd result.head.symm level
        | ok _ =>
            refine ⟨fun c names => ?_, returned.mp rfl⟩
            have now : (movedTo r.view branch tip).refs.get? (headsPrefix ++ branch) =
                some (.normal tip) := OrdMap.get?_insert_self _ _ _
            rcases result.branch with same | ⟨tip', at_tip', below⟩
            · rw [← same, now] at names
              obtain rfl := List.mem_singleton.mp names
              exact .refl
            · obtain rfl : tip = tip' := RefTarget.normal.inj (Option.some.inj (now.symm.trans at_tip'))
              exact below c names
      · intro follows
        obtain ⟨branchBelow, commit⟩ := follows tip tracking level (below.mp rfl)
        obtain rfl := returned.mpr commit
        refine ⟨_, by rw [ran]; exact viewAt, ?_⟩
        rw [ran]
        refine ⟨.inr ⟨tip, ?_, branchBelow⟩, .inr ⟨tip, rfl, below.mp rfl⟩⟩
        exact OrdMap.get?_insert_self _ _ _

end FastForward

def plainCommit (parents : List ℕ) (message : String) : Commit ℕ where
  changeId := 0
  parents := parents
  nodes := 0
  edges := 0
  schema := 0
  author := ""
  time := 0
  message := message

/-- A working head, a branch `dev` with a commit of its own, and a fetched tip of `dev` that
follows the working head. -/
def divergedDev : WorldM shortHashing ℕ := do
  let base ← onStore (putObject (plainCommit [] "base"))
  let dev ← onStore (putObject (plainCommit [base] "local"))
  let tip ← onStore (putObject (plainCommit [base] "remote"))
  let refs := [("refs/heads/dev", RefTarget.normal dev), (trackingKey "origin" "dev", .normal tip)]
  let view : View ℕ := { heads := [base], refs := OrdMap.ofList refs }
  let viewCid ← onStore (putObject view)
  let op : Operation ℕ := { view := viewCid, author := "", time := 0, description := "" }
  let opCid ← onStore (putObject op)
  Repo.updateHeads opCid []
  return dev

/-- Whether the only head's view passes a test. -/
def viewPasses (w : World shortHashing) (test : View ℕ → Bool) : Bool :=
  match OpHeads.current w.opHeads with
  | [op] => Exec.okAnd (ReadonlyRepo.loadAt w.store op) fun r => test r.view
  | _ => false

theorem viewAt_of_passes {w : World shortHashing} {test : View ℕ → Bool}
    (passed : viewPasses w test = true) : ∃ view, ViewAt w view ∧ test view = true := by
  unfold viewPasses at passed
  split at passed
  · rename_i op alone
    obtain ⟨r, loaded, passed⟩ := Exec.exists_of_okAnd passed
    have same := ReadonlyRepo.opId_of_loadAt loaded
    exact ⟨r.view, ⟨r, ⟨alone.trans (by rw [same]), reads_of_loadAt loaded⟩, rfl⟩, passed⟩
  · cases passed

/-- A pull that drops the local commit of the branch it moves. -/
theorem fastForwardAt_drops : ∃ (w₀ w : World shortHashing) (r : ReadonlyRepo ℕ),
    (openRepo : WorldM shortHashing _).Returns w₀ r w ∧
      ¬ PullsForward w r "origin" "dev" "" id := by
  have passed : divergedDev.check {} (fun dev w₀ => (openRepo : WorldM shortHashing _).check w₀
      fun r w => decide (r.view.refs.get? "refs/heads/dev" = some (.normal dev)) &&
        (fastForwardAt r "origin" "dev" "" id : WorldM shortHashing Unit).check w fun _ w₂ =>
          viewPasses w₂ fun view => (view.refs.get? "refs/heads/dev").any fun t =>
            normalPasses t fun tip => decide (tip ≠ dev) &&
              Exec.okAnd (commitAncestorsInclusive w.store tip) fun anc =>
                decide (dev ∉ anc)) = true := by decide +kernel
  obtain ⟨dev, w₀, -, passed⟩ := Exec.exists_of_check passed
  obtain ⟨r, w, opened, passed⟩ := Exec.exists_of_check passed
  obtain ⟨before, passed⟩ := Bool.and_eq_true_iff.mp passed
  obtain ⟨_, w₂, pulled, passed⟩ := Exec.exists_of_check passed
  obtain ⟨view, viewAt, passed⟩ := viewAt_of_passes passed
  obtain ⟨t, after, passed⟩ := (Option.any_eq_true _ _).mp passed
  have before := of_decide_eq_true before
  refine ⟨w₀, w, r, opened, ?_⟩
  rintro ⟨view', here, result⟩
  rw [show _ = _ from pulled] at here result
  obtain rfl := viewAt.unique here
  obtain ⟨tip, rfl, passed⟩ := exists_of_normalPasses passed
  obtain ⟨apart, passed⟩ := Bool.and_eq_true_iff.mp passed
  obtain ⟨anc, walked, absent⟩ := Exec.exists_of_okAnd passed
  have key : headsPrefix ++ "dev" = "refs/heads/dev" := by decide
  have branch := result.branch
  rw [key, before, after] at branch
  rcases branch with same | ⟨tip', at_tip', below⟩
  · exact of_decide_eq_true apart (RefTarget.normal.inj (Option.some.inj same))
  · cases at_tip'
    have under := below dev List.mem_cons_self
    exact of_decide_eq_true absent ((mem_of_ancestorsVia walked dev).mpr under)

theorem fastForwardAt_forwards_iff_diverged : ∃ (w₀ w : World shortHashing) (r : ReadonlyRepo ℕ),
    (openRepo : WorldM shortHashing _).Returns w₀ r w ∧
      (PullsForward w r "origin" "dev" "" id ↔ BranchFollows w.store r.view "origin" "dev") := by
  have passed : divergedDev.check {} (fun _ w₀ => (openRepo : WorldM shortHashing _).check w₀
      fun _ _ => true) = true := by decide +kernel
  obtain ⟨dev, w₀, -, passed⟩ := Exec.exists_of_check passed
  obtain ⟨r, w, opened, -⟩ := Exec.exists_of_check passed
  exact ⟨w₀, w, r, opened, fastForwardAt_forwards_iff opened⟩

end Mnem.Cli
