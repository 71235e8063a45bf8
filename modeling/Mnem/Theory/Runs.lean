/-
# Theory.Runs — a list cut into runs

A walk collects a run, and cuts it off before an element where a rule says so of
the run and the element.  The runs together are the list, none of them is empty,
and they are cut exactly where the rule says (`cuts_runs`).  A run that the rule
cuts before anything may as well be cut at once (`runsFrom_full`).
-/
import Mathlib.Data.List.Basic

namespace Mnem.Theory

set_option autoImplicit false

section Runs

variable {α : Type*} (cut : List α → α → Bool)

def runsFrom (run : List α) : List α → List (List α)
  | [] => if run.isEmpty then [] else [run]
  | x :: xs =>
      if !run.isEmpty && cut run x then run :: runsFrom [x] xs else runsFrom (run ++ [x]) xs

def runs (xs : List α) : List (List α) := runsFrom cut [] xs

/-- No part of the run at its start is cut from the rest of it. -/
def Uncut (run : List α) : Prop :=
  ∀ before x after, run = before ++ x :: after → before ≠ [] → cut before x = false

/-- Runs that are cut by the rule, and nowhere else. -/
structure Cuts (xs : List α) (gs : List (List α)) : Prop where
  flatten : gs.flatten = xs
  occupied : ∀ g ∈ gs, g ≠ []
  ends : ∀ before g x rest after, gs = before ++ g :: (x :: rest) :: after → cut g x = true
  uncut : ∀ g ∈ gs, Uncut cut g

variable {cut}

theorem uncut_nil : Uncut cut [] := by
  intro before x after split
  simp at split

theorem uncut_singleton (x : α) : Uncut cut [x] := by
  intro before y after split some
  cases before with
  | nil => exact absurd rfl some
  | cons z before => simp at split

theorem Uncut.snoc {run : List α} (uncut : Uncut cut run) {x : α}
    (goesOn : run ≠ [] → cut run x = false) : Uncut cut (run ++ [x]) := by
  intro before y after split some
  rcases List.eq_nil_or_concat after with rfl | ⟨after, z, rfl⟩
  · obtain ⟨rfl, same⟩ := List.append_inj' split rfl
    cases same
    exact goesOn some
  · have split' : run ++ [x] = (before ++ y :: after) ++ [z] := by simpa using split
    exact uncut before y after (List.append_inj' split' rfl).1 some

/-- What the walk leaves begins with the run that it has. -/
theorem head_runsFrom {run : List α} (some : run ≠ []) (xs : List α) :
    ∃ more gs, runsFrom cut run xs = (run ++ more) :: gs := by
  induction xs generalizing run with
  | nil => exact ⟨[], [], by simp [runsFrom, some]⟩
  | cons x xs ih =>
      rw [runsFrom]
      split
      · exact ⟨[], _, by rw [List.append_nil]⟩
      · obtain ⟨more, gs, eq⟩ := ih (show run ++ [x] ≠ [] by simp)
        exact ⟨x :: more, gs, by rw [eq, List.append_assoc]; rfl⟩

theorem cuts_runsFrom {run : List α} (uncut : Uncut cut run) (xs : List α) :
    Cuts cut (run ++ xs) (runsFrom cut run xs) := by
  induction xs generalizing run with
  | nil =>
      rw [runsFrom]
      split
      · rename_i none
        rw [List.isEmpty_iff.mp none]
        refine ⟨rfl, ?_, fun before g x rest after eq => ?_, ?_⟩
        · intro g m
          cases m
        · simp at eq
        · intro g m
          cases m
      · rename_i some
        refine ⟨by simp, fun g m => ?_, fun before g x rest after eq => ?_, fun g m => ?_⟩
        · rw [List.mem_singleton.mp m]
          exact fun none => some (List.isEmpty_iff.mpr none)
        · have short := congrArg List.length eq
          simp at short
          omega
        · rw [List.mem_singleton.mp m]
          exact uncut
  | cons x xs ih =>
      rw [runsFrom]
      split
      · rename_i ends
        rw [Bool.and_eq_true, Bool.not_eq_true', List.isEmpty_eq_false_iff] at ends
        obtain ⟨flatten, occupied, later, each⟩ := ih (uncut_singleton x)
        refine ⟨by rw [List.flatten_cons, flatten]; rfl, ?_, ?_, ?_⟩
        · exact List.forall_mem_cons.mpr ⟨ends.1, occupied⟩
        · intro before g y rest after eq
          cases before with
          | nil =>
              rw [List.nil_append] at eq
              obtain ⟨rfl, next⟩ := List.cons.inj eq
              obtain ⟨more, gs, first⟩ : ∃ more gs, runsFrom cut [x] xs = ([x] ++ more) :: gs :=
                head_runsFrom (List.cons_ne_nil x []) xs
              rw [first] at next
              cases next
              exact ends.2
          | cons h before => exact later before g y rest after (List.cons.inj eq).2
        · exact List.forall_mem_cons.mpr ⟨uncut, each⟩
      · rename_i goesOn
        have next := ih (uncut.snoc (x := x) fun some => by
          rw [Bool.and_eq_true, Bool.not_eq_true', List.isEmpty_eq_false_iff] at goesOn
          exact Bool.eq_false_iff.mpr fun ends => goesOn ⟨some, ends⟩)
        rwa [List.append_assoc] at next

/-- **The runs are cut by the rule, and nowhere else.** -/
theorem cuts_runs (xs : List α) : Cuts cut xs (runs cut xs) := cuts_runsFrom uncut_nil xs

/-- A run that is cut before anything is a run. -/
theorem runsFrom_full {run : List α} (some : run ≠ []) (full : ∀ x, cut run x = true) (xs : List α) :
    runsFrom cut run xs = run :: runsFrom cut [] xs := by
  cases xs with
  | nil => simp [runsFrom, some]
  | cons x xs => simp [runsFrom, some, full x]

theorem Cuts.split {xs : List α} {gs : List (List α)} (cuts : Cuts cut xs gs) {g : List α}
    (m : g ∈ gs) : ∃ p q rest, gs = p ++ g :: q ∧ xs = p.flatten ++ (g ++ rest) ∧
      rest = q.flatten := by
  obtain ⟨p, q, rfl⟩ := List.append_of_mem m
  exact ⟨p, q, _, rfl, by rw [← cuts.flatten, List.flatten_append, List.flatten_cons], rfl⟩

/-- **A run ends between two neighbours exactly when the rule cuts it there.** -/
theorem Cuts.ends_iff {xs : List α} {gs : List (List α)} (cuts : Cuts cut xs gs)
    (nodup : xs.Nodup) {g before after : List α} {x y : α} (m : g ∈ gs)
    (here : g = before ++ x :: after) {p q : List α} (next : xs = p ++ x :: y :: q) :
    after = [] ↔ cut (before ++ [x]) y = true := by
  obtain ⟨earlier, later, rest, split, whole, rfl⟩ := cuts.split m
  -- `x` has one place in the list, and `y` comes next in both readings of it
  have follows : after ++ later.flatten = y :: q := by
    have eq : (earlier.flatten ++ before) ++ x :: (after ++ later.flatten) = p ++ x :: y :: q := by
      rw [← next, whole, here]
      simp
    have apart : (p ++ x :: y :: q).Nodup := next ▸ nodup
    have once : ((earlier.flatten ++ before) ++ x :: (after ++ later.flatten)).Nodup := eq ▸ apart
    refine ((List.append_cons_inj_of_notMem ?_ ?_).mp eq).2.2
    · intro before_x
      exact (List.nodup_append.mp once).2.2 x before_x x List.mem_cons_self rfl
    · intro after_x
      exact (List.nodup_cons.mp (List.nodup_append.mp once).2.1).1 after_x
  cases after with
  | nil =>
      refine iff_of_true rfl ?_
      cases later with
      | nil => cases follows
      | cons h later =>
          have some : h ≠ [] := cuts.occupied h (by rw [split]; simp)
          cases h with
          | nil => exact absurd rfl some
          | cons z h =>
              obtain ⟨rfl, -⟩ := List.cons.inj follows
              have ends := cuts.ends earlier g z h later split
              rwa [here] at ends
  | cons z after =>
      obtain ⟨rfl, -⟩ := List.cons.inj follows
      refine iff_of_false (List.cons_ne_nil z after) (Bool.eq_false_iff.mp ?_)
      exact cuts.uncut g m (before ++ [x]) z after (by rw [here]; simp) (by simp)

end Runs

end Mnem.Theory
