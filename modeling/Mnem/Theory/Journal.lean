/-
# Theory.Journal — what a store holds is the last write of each key

A write names a key and what the key holds from there on.  `replay` is what a
key holds after a journal of writes: only the last write of the key counts
(`replay_eq_iff`).

A machine answers calls and changes its state.  `Keeps` says what it holds
follows a journal, each call adding writes that depend on the call alone; then
the state after any calls holds what the calls wrote, one after another
(`Keeps.after`).  A crash loses a call before its commit, or its answer after it;
`Keeps.survives` is the same for runs with crashes.
-/
import Mathlib.Data.List.Basic
import Mathlib.Logic.Function.Basic

namespace Mnem.Theory.Journal

set_option autoImplicit false

/-! ## Replay -/

section Replay

variable {K V : Type} [DecidableEq K]

/-- What a key holds after one write. -/
def write (k : K) (held : Option V) (w : K × Option V) : Option V := if w.1 = k then w.2 else held

/-- What a key holds after a journal, where it held `start` of it before. -/
def replay (start : K → Option V) (ws : List (K × Option V)) (k : K) : Option V :=
  ws.foldl (write k) (start k)

variable {start : K → Option V} {ws : List (K × Option V)} {k : K}

@[simp] theorem replay_nil : replay start [] = start := rfl

theorem replay_cons (w : K × Option V) :
    replay start (w :: ws) = replay (fun j => write j (start j) w) ws := rfl

theorem replay_append (ws ws' : List (K × Option V)) :
    replay start (ws ++ ws') = replay (replay start ws) ws' := by
  funext k
  rw [replay, List.foldl_append]
  rfl

/-- A key that is not written holds what it held. -/
theorem replay_unwritten (unwritten : ∀ w ∈ ws, w.1 ≠ k) : replay start ws k = start k := by
  induction ws generalizing start with
  | nil => rfl
  | cons w ws ih =>
      rw [replay_cons, ih fun x m => unwritten x (List.mem_cons_of_mem _ m), write,
        if_neg (unwritten w List.mem_cons_self)]

/-- Only the last write of a key counts. -/
theorem replay_last {v : Option V} (before : List (K × Option V))
    (unwritten : ∀ w ∈ ws, w.1 ≠ k) : replay start (before ++ (k, v) :: ws) k = v := by
  rw [replay_append, replay_cons, replay_unwritten unwritten, write, if_pos rfl]

/-- A key is not written, or there is a last write of it. -/
theorem exists_last (ws : List (K × Option V)) (k : K) :
    (∀ w ∈ ws, w.1 ≠ k) ∨
      ∃ before v after, ws = before ++ (k, v) :: after ∧ ∀ w ∈ after, w.1 ≠ k := by
  induction ws with
  | nil => exact .inl fun w m => absurd m List.not_mem_nil
  | cons w ws ih =>
      rcases ih with unwritten | ⟨before, v, after, rfl, unwritten⟩
      · by_cases here : w.1 = k
        · subst here
          exact .inr ⟨[], w.2, ws, rfl, unwritten⟩
        · refine .inl fun x m => ?_
          rcases List.mem_cons.mp m with rfl | m
          · exact here
          · exact unwritten x m
      · exact .inr ⟨w :: before, v, after, rfl, unwritten⟩

/-- What a key holds was written last, or was there from the start. -/
theorem replay_eq_iff {v : Option V} :
    replay start ws k = v ↔
      (∃ before after, ws = before ++ (k, v) :: after ∧ ∀ w ∈ after, w.1 ≠ k) ∨
        (∀ w ∈ ws, w.1 ≠ k) ∧ start k = v := by
  constructor
  · rintro rfl
    rcases exists_last ws k with unwritten | ⟨before, v, after, rfl, unwritten⟩
    · exact .inr ⟨unwritten, (replay_unwritten unwritten).symm⟩
    · refine .inl ⟨before, after, ?_, unwritten⟩
      rw [replay_last before unwritten]
  · rintro (⟨before, after, rfl, unwritten⟩ | ⟨unwritten, rfl⟩)
    · exact replay_last before unwritten
    · exact replay_unwritten unwritten

/-- In an empty store, what is held was written last. -/
theorem replay_eq_some_iff {v : V} :
    replay (fun _ => none) ws k = some v ↔
      ∃ before after, ws = before ++ (k, some v) :: after ∧ ∀ w ∈ after, w.1 ≠ k := by
  rw [replay_eq_iff]
  simp

/-- A journal under other names of its keys. -/
theorem replay_map {J : Type} [DecidableEq J] {f : K → J} (inj : Function.Injective f)
    (start : J → Option V) (ws : List (K × Option V)) (k : K) :
    replay start (ws.map fun w => (f w.1, w.2)) (f k) = replay (fun j => start (f j)) ws k := by
  rw [replay, List.foldl_map, replay]
  congr 1
  funext held w
  simp [write, inj.eq_iff]

end Replay

/-! ## Machines -/

section Machine

variable {σ κ α K V : Type} [DecidableEq K]

/-- The state after some calls. -/
def after (step : σ → κ → α × σ) (s : σ) (calls : List κ) : σ :=
  calls.foldl (fun s c => (step s c).2) s

theorem after_concat (step : σ → κ → α × σ) (s : σ) (calls : List κ) (c : κ) :
    after step s (calls ++ [c]) = (step (after step s calls) c).2 := by
  rw [after, List.foldl_append]
  rfl

/-- What the state holds follows the writes of each call. -/
def Keeps (step : σ → κ → α × σ) (holds : σ → K → Option V) (writes : κ → List (K × Option V)) :
    Prop :=
  ∀ s c, holds (step s c).2 = replay (holds s) (writes c)

theorem Keeps.after {step : σ → κ → α × σ} {holds : σ → K → Option V}
    {writes : κ → List (K × Option V)} (keeps : Keeps step holds writes) (s : σ) (calls : List κ) :
    holds (after step s calls) = replay (holds s) (calls.flatMap writes) := by
  induction calls generalizing s with
  | nil => rfl
  | cons c calls ih =>
      rw [List.flatMap_cons, replay_append, ← keeps, ← ih]
      rfl

/-- How a call ends: with an answer, or cut short by a crash, before or after its commit. -/
inductive Fate where
  | answered
  | lost
  | unheard
  deriving DecidableEq

/-- The calls that took effect. -/
def committed (history : List (κ × Fate)) : List κ :=
  (history.filter fun e => e.2 ≠ .lost).map Prod.fst

/-- The state after calls and crashes: a lost call leaves no trace. -/
def survive (step : σ → κ → α × σ) (s : σ) (history : List (κ × Fate)) : σ :=
  history.foldl (fun s e => if e.2 = .lost then s else (step s e.1).2) s

/-- Crashes leave what the committed calls alone would have left. -/
theorem survive_eq (step : σ → κ → α × σ) (s : σ) (history : List (κ × Fate)) :
    survive step s history = Journal.after step s (committed history) := by
  induction history generalizing s with
  | nil => rfl
  | cons e history ih =>
      rw [survive, List.foldl_cons, ← survive, ih]
      by_cases gone : e.2 = .lost
      · simp [committed, gone]
      · simp [committed, gone, Journal.after]

theorem Keeps.survives {step : σ → κ → α × σ} {holds : σ → K → Option V}
    {writes : κ → List (K × Option V)} (keeps : Keeps step holds writes) (s : σ)
    (history : List (κ × Fate)) :
    holds (survive step s history) = replay (holds s) ((committed history).flatMap writes) := by
  rw [survive_eq, keeps.after]

end Machine

end Mnem.Theory.Journal
