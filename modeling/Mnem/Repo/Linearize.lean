/-
# Repo.Linearize — linearized commits, step by step

A linearized commit reads the heads, compares them with its base, and advances
them.  `publish` is these three steps without interruption; here any number of
writers from one base take them in any order.  Reading and advancing are two
calls on the heads store, so a writer can advance heads that have moved since
it read them: a run has one winner exactly when no writer does
(`uncontended_iff_one_winner`).
-/
import Mnem.Repo.Commit
import Mnem.Addressing

namespace Mnem.Repo.Linearize

open Theory

set_option autoImplicit false
set_option linter.unusedSectionVars false

/-- A writer that has written its view and its operation. -/
structure Writer (Cid : Type) where
  opts : CommitOptions
  view : Cid

/-- Where a writer is in the last part of `commit_opts`. -/
inductive Phase (Cid : Type) where
  | start
  | read (current : List Cid)
  | passed
  | ok
  | stale
  deriving DecidableEq

/-- The heads, and where each writer is. -/
structure State (ι Cid : Type) [LinearOrder Cid] where
  heads : OrdSet Cid
  phase : ι → Phase Cid

/-- One step of one writer: a call on the heads store, or the comparison between. -/
inductive Action (ι : Type) where
  | read (i : ι)
  | compare (i : ι)
  | advance (i : ι)

section Machine

variable {Cid : Type} [LinearOrder Cid] {ι : Type} [DecidableEq ι] (base : Cid) (new : ι → Cid)

/-- Take one step, if the writer is at it. -/
def step (st : State ι Cid) : Action ι → Option (State ι Cid)
  | .read i =>
      match st.phase i with
      | .start =>
          some { st with phase := Function.update st.phase i (.read (OpHeads.current st.heads)) }
      | _ => none
  | .compare i =>
      match st.phase i with
      | .read current =>
          let next := if isCurrent base current then .passed else .stale
          some { st with phase := Function.update st.phase i next }
      | _ => none
  | .advance i =>
      match st.phase i with
      | .passed =>
          some ⟨OpHeads.update st.heads (new i) [base], Function.update st.phase i .ok⟩
      | _ => none

/-- Take steps in order. -/
def run (st : State ι Cid) : List (Action ι) → Option (State ι Cid)
  | [] => some st
  | a :: as => (step base new st a).bind fun st' => run st' as

/-- No writer has started, and the base is the only head. -/
def start (heads : OrdSet Cid) : State ι Cid := ⟨heads, fun _ => .start⟩

/-- Every advance finds the base as the only head. -/
def Uncontended (st : State ι Cid) : List (Action ι) → Prop
  | [] => True
  | a :: as => ∀ st', step base new st a = some st' →
      (∀ i, a = .advance i → OpHeads.current st.heads = [base]) ∧ Uncontended st' as

/-- At most one writer has returned `Ok`, and the heads hold at most one of the operations. -/
structure OneWinner (st : State ι Cid) : Prop where
  ok : ∀ i j, st.phase i = .ok → st.phase j = .ok → i = j
  heads : ∀ i j, new i ∈ st.heads → new j ∈ st.heads → new i = new j

variable {base new}

/-- What a step does, with the heads and the phases it leaves. -/
theorem step_cases {st st' : State ι Cid} {a : Action ι} (ran : step base new st a = some st') :
    (∃ i, a = .advance i ∧ st.phase i = .passed ∧
      st'.heads = OpHeads.update st.heads (new i) [base] ∧
      st'.phase = Function.update st.phase i .ok) ∨
    ((∀ i, a ≠ .advance i) ∧ st'.heads = st.heads ∧
      ∀ j, st'.phase j = .ok ↔ st.phase j = .ok) := by
  cases a with
  | advance i =>
      unfold step at ran
      dsimp only at ran
      split at ran
      · rename_i passed
        obtain rfl := Option.some.inj ran
        exact .inl ⟨i, rfl, passed, rfl, rfl⟩
      · cases ran
  | read i =>
      unfold step at ran
      dsimp only at ran
      split at ran
      · rename_i ready
        obtain rfl := Option.some.inj ran
        refine .inr ⟨nofun, rfl, fun j => ?_⟩
        by_cases same : j = i
        · subst same
          simp [ready]
        · simp [same]
      · cases ran
  | compare i =>
      unfold step at ran
      dsimp only at ran
      split at ran
      · rename_i current seen
        obtain rfl := Option.some.inj ran
        refine .inr ⟨nofun, rfl, fun j => ?_⟩
        by_cases same : j = i
        · subst same
          by_cases still : isCurrent base current = true <;> simp [seen, still]
        · simp [same]
      · cases ran

/-- The states of a run without contention: nobody has won, or one writer has. -/
inductive Won (base : Cid) (new : ι → Cid) (st : State ι Cid) : Prop where
  | nobody (heads : OpHeads.current st.heads = [base]) (none : ∀ i, st.phase i ≠ .ok)
  | one (i : ι) (heads : OpHeads.current st.heads = [new i]) (ok : st.phase i = .ok)
      (only : ∀ j, st.phase j = .ok → j = i)

theorem Won.oneWinner (distinct : ∀ i, new i ≠ base) {st : State ι Cid} (won : Won base new st) :
    OneWinner new st := by
  cases won with
  | nobody heads none =>
      refine ⟨fun i _ ok => absurd ok (none i), fun i _ m => ?_⟩
      rw [← OpHeads.mem_current, heads, List.mem_singleton] at m
      exact absurd m (distinct i)
  | one w heads ok only =>
      refine ⟨fun i j hi hj => (only i hi).trans (only j hj).symm, fun i j hi hj => ?_⟩
      rw [← OpHeads.mem_current, heads, List.mem_singleton] at hi hj
      rw [hi, hj]

/-- One step without contention. -/
theorem Won.step (distinct : ∀ i, new i ≠ base) {st st' : State ι Cid} {a : Action ι}
    (won : Won base new st) (ran : step base new st a = some st')
    (calm : ∀ i, a = .advance i → OpHeads.current st.heads = [base]) : Won base new st' := by
  rcases step_cases ran with ⟨i, rfl, passed, heads, phase⟩ | ⟨-, heads, phase⟩
  · have alone := calm i rfl
    cases won with
    | nobody _ none =>
        refine .one i ?_ (by simp [phase]) fun j ok => ?_
        · rw [heads, OpHeads.current_update_singleton alone (distinct i)]
        · by_contra other
          rw [phase, Function.update_of_ne other] at ok
          exact none j ok
    | one w winner _ _ =>
        have same := winner.symm.trans alone
        exact absurd (List.singleton_inj.mp same) (distinct w)
  · cases won with
    | nobody alone none => exact .nobody (heads ▸ alone) fun j ok => none j ((phase j).mp ok)
    | one w winner ok only =>
        exact .one w (heads ▸ winner) ((phase w).mpr ok) fun j ok => only j ((phase j).mp ok)

/-- As long as nobody has won, the base is the only head. -/
def Intact (base : Cid) (st : State ι Cid) : Prop :=
  (∀ i, st.phase i ≠ .ok) → OpHeads.current st.heads = [base]

theorem Intact.step {st st' : State ι Cid} {a : Action ι} (intact : Intact base st)
    (ran : step base new st a = some st') : Intact base st' := by
  intro none
  rcases step_cases ran with ⟨i, -, -, -, phase⟩ | ⟨-, heads, phase⟩
  · exact absurd (by simp [phase]) (none i)
  · rw [heads]
    exact intact fun j ok => none j ((phase j).mpr ok)

/-- A contended advance makes a second winner. -/
theorem Intact.two_winners {st st' : State ι Cid} {i : ι} (intact : Intact base st)
    (ran : Linearize.step base new st (.advance i) = some st')
    (contended : OpHeads.current st.heads ≠ [base]) :
    ∃ j, j ≠ i ∧ st'.phase j = .ok ∧ st'.phase i = .ok := by
  obtain ⟨k, same, passed, -, phase⟩ | ⟨notAdvance, -⟩ := step_cases ran
  · cases same
    obtain ⟨j, ok⟩ : ∃ j, st.phase j = .ok := by
      by_contra none
      exact contended (intact fun j ok => none ⟨j, ok⟩)
    have other : j ≠ i := by
      rintro rfl
      rw [passed] at ok
      cases ok
    exact ⟨j, other, by rw [phase, Function.update_of_ne other, ok], by simp [phase]⟩
  · exact absurd rfl (notAdvance i)

/-- Along a run: no contention, exactly when every state reached has one winner. -/
theorem uncontended_iff (distinct : ∀ i, new i ≠ base) :
    ∀ (as : List (Action ι)) (st : State ι Cid), Won base new st → Intact base st →
      (Uncontended base new st as ↔
        ∀ before after, before ++ after = as → ∀ st', run base new st before = some st' →
          OneWinner new st')
  | [], st, won, _ => by
      refine ⟨fun _ before after split st' ran => ?_, fun _ => trivial⟩
      obtain ⟨rfl, -⟩ := List.append_eq_nil_iff.mp split
      cases ran
      exact won.oneWinner distinct
  | a :: as, st, won, intact => by
      constructor
      · intro calm before after split st' ran
        cases before with
        | nil =>
            cases ran
            exact won.oneWinner distinct
        | cons b before =>
            obtain ⟨rfl, split'⟩ := List.cons.inj split
            obtain ⟨st₁, one, ran'⟩ := Option.bind_eq_some_iff.mp ran
            obtain ⟨alone, rest⟩ := calm st₁ one
            exact (uncontended_iff distinct as st₁ (won.step distinct one alone)
              (intact.step one)).mp rest before after split' st' ran'
      · intro winners st₁ one
        have first : run base new st [a] = some st₁ := by
          rw [run, one]
          rfl
        have alone : ∀ i, a = .advance i → OpHeads.current st.heads = [base] := by
          rintro i rfl
          by_contra contended
          obtain ⟨j, other, okJ, okI⟩ := intact.two_winners one contended
          exact other ((winners [.advance i] as rfl st₁ first).ok j i okJ okI)
        refine ⟨alone, (uncontended_iff distinct as st₁ (won.step distinct one alone)
          (intact.step one)).mpr fun before after split st' ran => ?_⟩
        refine winners (a :: before) after (congrArg (a :: ·) split) st' ?_
        rw [run, one]
        exact ran

/-- Without interruption a writer's steps are `publish`. -/
theorem run_alone {H : Hashing Cid} {st st' : State ι Cid} {i : ι} {w : World H}
    (ready : st.phase i = .start) (same : w.opHeads = st.heads)
    (ran : run base new st [.read i, .compare i, .advance i] = some st') :
    (publish true base (new i) : WorldM H Unit).Returns w () { w with opHeads := st'.heads } := by
  obtain ⟨st₁, readStep, ran⟩ := Option.bind_eq_some_iff.mp ran
  obtain ⟨st₂, compareStep, ran⟩ := Option.bind_eq_some_iff.mp ran
  obtain ⟨st₃, advanceStep, done⟩ := Option.bind_eq_some_iff.mp ran
  obtain rfl := Option.some.inj done
  simp only [step, ready, Option.some.injEq] at readStep
  subst readStep
  simp only [step, Function.update_self, Option.some.injEq] at compareStep
  subst compareStep
  by_cases still : isCurrent base (OpHeads.current st.heads) = true
  · simp only [step, still, if_true, Function.update_self, Option.some.injEq] at advanceStep
    subst advanceStep
    refine Exec.returns_bind.mpr ⟨_, w, returns_readHeads.mpr ⟨rfl, rfl⟩, ?_⟩
    rw [same, if_pos still]
    exact returns_updateHeads.mpr (by rw [same])
  · simp [step, still] at advanceStep

end Machine

/-! ## Writers of one base -/

section Writers

variable {Cid : Type} [LinearOrder Cid] {ι : Type} [DecidableEq ι]

/-- The operation a writer has written. -/
def Writer.newOp (H : Hashing Cid) (base : Cid) (w : Writer Cid) : Cid :=
  H.cidOf (.operation (Transaction.newOperation base w.opts w.view))

theorem Writer.newOp_ne (H : Hashing Cid) (base : Cid) (w : Writer Cid) :
    w.newOp H base ≠ base := by
  intro same
  have link : base ∈ (Block.operation (Transaction.newOperation base w.opts w.view)).links :=
    List.mem_cons_self
  exact H.cidOf_not_mem_links (.operation (Transaction.newOperation base w.opts w.view))
    (show w.newOp H base ∈ _ by rw [same]; exact link)

/-- **Linearized commits have one winner exactly when no advance is contended**: for any
writers from one base and any order of their steps. -/
theorem uncontended_iff_one_winner (H : Hashing Cid) (base : Cid) (writers : ι → Writer Cid)
    (heads : OrdSet Cid) (alone : OpHeads.current heads = [base]) (actions : List (Action ι)) :
    Uncontended base (fun i => (writers i).newOp H base) (start heads) actions ↔
      ∀ before after, before ++ after = actions → ∀ st,
        run base (fun i => (writers i).newOp H base) (start heads) before = some st →
          OneWinner (fun i => (writers i).newOp H base) st :=
  uncontended_iff (fun i => (writers i).newOp_ne H base) actions (start heads)
    (.nobody alone nofun) fun _ => alone

end Writers

/-! ### Two writers -/

def firstWriter : Writer ℕ := ⟨{ author := "a", message := "first" }, 0⟩

def secondWriter : Writer ℕ := ⟨{ author := "b", message := "second" }, 0⟩

/-- The base is the only head. -/
def baseAlone : OrdSet ℕ := OrdSet.add OrdMap.empty 7

def twoWriters (i : Bool) : ℕ := ((if i then secondWriter else firstWriter).newOp cuttingHashing 7)

theorem uncontended_iff_one_winner_alone :
    ∃ st, run 7 twoWriters (start baseAlone)
        [.read false, .compare false, .advance false] = some st ∧ OneWinner twoWriters st := by
  obtain ⟨st, ran⟩ : ∃ st, run 7 twoWriters (start baseAlone)
      [.read false, .compare false, .advance false] = some st := ⟨_, rfl⟩
  refine ⟨st, ran, (uncontended_iff_one_winner cuttingHashing 7
    (fun i : Bool => if i then secondWriter else firstWriter) baseAlone rfl
    [.read false, .compare false, .advance false]).mp ?_ _ [] rfl st ran⟩
  rintro _ ⟨⟩
  refine ⟨nofun, ?_⟩
  rintro _ ⟨⟩
  refine ⟨nofun, ?_⟩
  rintro _ ⟨⟩
  exact ⟨fun _ _ => rfl, trivial⟩

/-- Both writers read the heads before either advances them. -/
def contendedSchedule : List (Action Bool) :=
  [.read false, .read true, .compare false, .compare true, .advance false, .advance true]

theorem two_winners_contended :
    ∃ st, run 7 twoWriters (start baseAlone) contendedSchedule = some st ∧
      st.phase false = .ok ∧ st.phase true = .ok ∧ twoWriters false ∈ st.heads ∧
      twoWriters true ∈ st.heads ∧ twoWriters false ≠ twoWriters true := by
  refine ⟨_, rfl, ?_⟩
  decide

end Mnem.Repo.Linearize
