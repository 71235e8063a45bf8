/-
# Theory.Latest — the first element with the greatest time

`latest time as` scans a list for elements that have a time and keeps the
greatest, the earlier element where two times are equal.
-/
import Mathlib.Data.List.Basic
import Mathlib.Data.List.Induction

namespace Mnem.Theory

set_option autoImplicit false

variable {α : Type}

/-- One round of the scan. -/
def later (time : α → Option Nat) (best : Option (Nat × α)) (a : α) : Option (Nat × α) :=
  match time a with
  | none => best
  | some t =>
      match best with
      | none => some (t, a)
      | some (t', b) => if t' < t then some (t, a) else some (t', b)

/-- The first element with the greatest time, if any has a time. -/
def latest (time : α → Option Nat) (as : List α) : Option α :=
  (as.foldl (later time) none).map Prod.snd

section Scan

variable {time : α → Option Nat} {as : List α} {a : α}

theorem later_untimed (untimed : time a = none) (best : Option (Nat × α)) :
    later time best a = best := by
  rw [later, untimed]

theorem later_first {t : Nat} (timed : time a = some t) : later time none a = some (t, a) := by
  rw [later, timed]

theorem later_again {t t' : Nat} {b : α} (timed : time a = some t) :
    later time (some (t', b)) a = if t' < t then some (t, a) else some (t', b) := by
  rw [later, timed]

/-- Only the times of the elements matter. -/
theorem latest_congr {time' : α → Option Nat} (same : ∀ a ∈ as, time a = time' a) :
    latest time as = latest time' as := by
  unfold latest
  congr 1
  refine List.foldl_ext _ _ _ fun best a member => ?_
  rw [later, later, same a member]

/-- Nothing is found exactly where nothing has a time. -/
theorem latest_eq_none : latest time as = none ↔ ∀ a ∈ as, time a = none := by
  unfold latest
  rw [Option.map_eq_none_iff]
  induction as using List.reverseRecOn with
  | nil => simp
  | append_singleton as a ih =>
      rw [List.foldl_append, List.foldl_cons, List.foldl_nil]
      simp only [List.mem_append, List.mem_singleton, or_imp, forall_and, forall_eq]
      rw [← ih]
      cases timed : time a with
      | none => simp [later_untimed timed]
      | some t =>
          cases as.foldl (later time) none with
          | none => simp [later_first timed]
          | some p =>
              rw [later_again timed]
              split <;> simp

/-- What is found is greater than what stands before it, and no smaller than what comes after. -/
theorem latest_eq_some (found : latest time as = some a) :
    ∃ before after t, as = before ++ a :: after ∧ time a = some t ∧
      (∀ b ∈ before, ∀ u, time b = some u → u < t) ∧ ∀ b ∈ after, ∀ u, time b = some u → u ≤ t := by
  obtain ⟨⟨t, b⟩, scanned, rfl⟩ := Option.map_eq_some_iff.mp found
  clear found
  suffices spec : ∃ before after, as = before ++ b :: after ∧ time b = some t ∧
      (∀ c ∈ before, ∀ u, time c = some u → u < t) ∧ ∀ c ∈ after, ∀ u, time c = some u → u ≤ t by
    obtain ⟨before, after, split, rest⟩ := spec
    exact ⟨before, after, t, split, rest⟩
  induction as using List.reverseRecOn generalizing t b with
  | nil => cases scanned
  | append_singleton as x ih =>
      rw [List.foldl_append, List.foldl_cons, List.foldl_nil] at scanned
      cases at_x : time x with
      | none =>
          rw [later_untimed at_x] at scanned
          obtain ⟨before, after, rfl, timed, lower, upper⟩ := ih t b scanned
          refine ⟨before, after ++ [x], by simp, timed, lower, fun c member u at_c => ?_⟩
          rcases List.mem_append.mp member with old | new
          · exact upper c old u at_c
          · obtain rfl := List.mem_singleton.mp new
            rw [at_x] at at_c
            cases at_c
      | some u =>
          cases best : as.foldl (later time) none with
          | none =>
              rw [best, later_first at_x] at scanned
              cases scanned
              have untimed := latest_eq_none.mp (show latest time as = none by rw [latest, best]; rfl)
              refine ⟨as, [], rfl, at_x, fun c member v at_c => ?_, nofun⟩
              rw [untimed c member] at at_c
              cases at_c
          | some p =>
              obtain ⟨before, after, rfl, timed, lower, upper⟩ := ih p.1 p.2 best
              rw [best, later_again at_x] at scanned
              split at scanned
              · rename_i greater
                cases scanned
                refine ⟨before ++ p.2 :: after, [], rfl, at_x, fun c member v at_c => ?_, nofun⟩
                have below : v ≤ p.1 := by
                  rcases List.mem_append.mp member with first | rest
                  · exact Nat.le_of_lt (lower c first v at_c)
                  · rcases List.mem_cons.mp rest with rfl | last
                    · rw [timed] at at_c
                      exact Nat.le_of_eq (Option.some.inj at_c).symm
                    · exact upper c last v at_c
                omega
              · rename_i notGreater
                cases scanned
                refine ⟨before, after ++ [x], by simp, timed, lower, fun c member v at_c => ?_⟩
                rcases List.mem_append.mp member with old | new
                · exact upper c old v at_c
                · obtain rfl := List.mem_singleton.mp new
                  rw [at_x] at at_c
                  obtain rfl := Option.some.inj at_c
                  omega

/-- A scan past elements of smaller times. -/
theorem scan_smaller {t : Nat} (lower : ∀ b ∈ as, ∀ u, time b = some u → u < t)
    {best : Option (Nat × α)} (below : ∀ p, best = some p → p.1 < t) :
    ∀ p, as.foldl (later time) best = some p → p.1 < t := by
  induction as generalizing best with
  | nil => exact below
  | cons b as ih =>
      refine ih (fun c member => lower c (List.mem_cons_of_mem _ member)) fun p next => ?_
      cases timed : time b with
      | none =>
          rw [later_untimed timed] at next
          exact below p next
      | some u =>
          have small := lower b List.mem_cons_self u timed
          cases best with
          | none =>
              rw [later_first timed] at next
              cases next
              exact small
          | some q =>
              rw [later_again timed] at next
              split at next
              · cases next
                exact small
              · cases next
                exact below _ rfl

/-- A scan past elements of no greater times. -/
theorem scan_no_greater {t : Nat} (upper : ∀ b ∈ as, ∀ u, time b = some u → u ≤ t) :
    as.foldl (later time) (some (t, a)) = some (t, a) := by
  induction as with
  | nil => rfl
  | cons b as ih =>
      rw [List.foldl_cons]
      have kept : later time (some (t, a)) b = some (t, a) := by
        cases timed : time b with
        | none => exact later_untimed timed _
        | some u =>
            have le := upper b List.mem_cons_self u timed
            rw [later_again timed, if_neg (by omega)]
      rw [kept]
      exact ih fun c member => upper c (List.mem_cons_of_mem _ member)

/-- An element that is greater than all before it and no smaller than all after it is found. -/
theorem latest_of_greatest {before after : List α} {t : Nat} (timed : time a = some t)
    (lower : ∀ b ∈ before, ∀ u, time b = some u → u < t)
    (upper : ∀ b ∈ after, ∀ u, time b = some u → u ≤ t) :
    latest time (before ++ a :: after) = some a := by
  have front : ∀ p, before.foldl (later time) none = some p → p.1 < t := scan_smaller lower nofun
  have here : later time (before.foldl (later time) none) a = some (t, a) := by
    cases scanned : before.foldl (later time) none with
    | none => exact later_first timed
    | some p => rw [later_again timed, if_pos (front p scanned)]
  rw [latest, List.foldl_append, List.foldl_cons, here, scan_no_greater upper]
  rfl

end Scan

end Mnem.Theory
