/-
# Theory.Checks — checks that collect what they find

A check runs on a tally, adds the errors that it finds, and may be cut off by a
bound on its steps.  It decides a property (`Decides`) if it never takes errors
back, ends without errors only where the property holds, and where it holds ends
with the errors that there were.  Checks one after the other decide all of their
properties (`andThen`, `each`).
-/
import Mathlib.Data.List.Basic

namespace Mnem.Theory

set_option autoImplicit false

variable {σ ε α : Type}

/-- The check decides the property, given enough steps. -/
structure Decides (errors : σ → List ε) (p : Nat → σ → Option σ) (Q : Prop) : Prop where
  mono : ∀ {fuel fuel' t t'}, fuel ≤ fuel' → p fuel t = some t' → p fuel' t = some t'
  sound : ∀ {fuel t t'}, p fuel t = some t' → errors t' = [] → errors t = [] ∧ Q
  complete : Q → ∀ t, ∃ fuel t', p fuel t = some t' ∧ errors t' = errors t

namespace Decides

variable {errors : σ → List ε} {p q : Nat → σ → Option σ} {Q R : Prop}

/-- A step that finds no error. -/
theorem pass {f : σ → σ} (keeps : ∀ t, errors (f t) = errors t) :
    Decides errors (fun _ t => some (f t)) True where
  mono _ ran := ran
  sound ran clean := by
    cases ran
    exact ⟨(keeps _).symm.trans clean, trivial⟩
  complete _ t := ⟨0, f t, rfl, keeps t⟩

/-- A step that finds one. -/
theorem fault {f : σ → σ} (found : ∀ t, errors (f t) ≠ []) :
    Decides errors (fun _ t => some (f t)) False where
  mono _ ran := ran
  sound ran clean := by
    cases ran
    exact absurd clean (found _)
  complete none := none.elim

theorem congr (decides : Decides errors p Q) (same : Q ↔ R) : Decides errors p R :=
  propext same ▸ decides

theorem andThen (first : Decides errors p Q) (second : Decides errors q R) :
    Decides errors (fun fuel t => (p fuel t).bind (q fuel)) (Q ∧ R) where
  mono le ran := by
    obtain ⟨t₁, ran₁, ran₂⟩ := Option.bind_eq_some_iff.mp ran
    exact Option.bind_eq_some_iff.mpr ⟨t₁, first.mono le ran₁, second.mono le ran₂⟩
  sound ran clean := by
    obtain ⟨t₁, ran₁, ran₂⟩ := Option.bind_eq_some_iff.mp ran
    obtain ⟨clean₁, holds₂⟩ := second.sound ran₂ clean
    obtain ⟨clean₀, holds₁⟩ := first.sound ran₁ clean₁
    exact ⟨clean₀, holds₁, holds₂⟩
  complete both t := by
    obtain ⟨n₁, t₁, ran₁, same₁⟩ := first.complete both.1 t
    obtain ⟨n₂, t₂, ran₂, same₂⟩ := second.complete both.2 t₁
    refine ⟨max n₁ n₂, t₂, ?_, same₂.trans same₁⟩
    exact Option.bind_eq_some_iff.mpr
      ⟨t₁, first.mono (Nat.le_max_left _ _) ran₁, second.mono (Nat.le_max_right _ _) ran₂⟩

theorem each {c : α → Nat → σ → Option σ} {S : α → Prop} : ∀ {xs : List α},
    (∀ x ∈ xs, Decides errors (c x) (S x)) →
      Decides errors (fun fuel t => xs.foldlM (fun t x => c x fuel t) t) (∀ x ∈ xs, S x)
  | [], _ => (pass (f := id) fun _ => rfl).congr ⟨nofun, fun _ => trivial⟩
  | x :: xs, all => by
      have here := all x List.mem_cons_self
      have rest := each fun y later => all y (List.mem_cons_of_mem x later)
      refine (here.andThen rest).congr ?_
      simp only [List.mem_cons, forall_eq_or_imp]

end Decides

end Mnem.Theory
