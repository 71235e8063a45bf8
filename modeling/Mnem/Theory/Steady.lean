/-
# Theory.Steady — runs that do not notice what else is there

`Keeps r r'` says that `r'` returns whatever `r` returns; a failure promises
nothing.  `Steady R p` says the same of a computation and of two states in the
relation `R`: what returned from the one returns the same from the other, and
the states it leaves are in `R` again.  Both pass through binds and loops, so
a computation is steady when its reads are kept and its writes keep `R`.
-/
import Mnem.Theory.Exec

namespace Mnem.Theory

set_option autoImplicit false

/-! ## Results -/

section Keeps

variable {ε α β : Type}

/-- `r'` returns whatever `r` returns. -/
def Keeps (r r' : Except ε α) : Prop := ∀ a, r = .ok a → r' = .ok a

theorem keeps_refl (r : Except ε α) : Keeps r r := fun _ same => same

theorem keeps_error (e : ε) (r : Except ε α) : Keeps (.error e) r := nofun

theorem Keeps.bind {r r' : Except ε α} {f f' : α → Except ε β} (first : Keeps r r')
    (rest : ∀ a, Keeps (f a) (f' a)) : Keeps (r >>= f) (r' >>= f') := by
  intro b ran
  obtain ⟨a, here, there⟩ := Exec.bind_eq_ok.mp ran
  exact Exec.bind_eq_ok.mpr ⟨a, first a here, rest a b there⟩

theorem Keeps.map {r r' : Except ε α} (kept : Keeps r r') (f : α → β) :
    Keeps (f <$> r) (f <$> r') := by
  intro b ran
  obtain ⟨a, here, at_a⟩ := Exec.map_eq_ok.mp ran
  exact Exec.map_eq_ok.mpr ⟨a, kept a here, at_a⟩

theorem keeps_mapM {f f' : α → Except ε β} (each : ∀ a, Keeps (f a) (f' a)) (as : List α) :
    Keeps (as.mapM f) (as.mapM f') := by
  intro bs ran
  exact Exec.mapM_of_forall₂ ((Exec.forall₂_of_mapM ran).imp fun a b here => each a b here)

theorem keeps_foldlM {f f' : β → α → Except ε β} (each : ∀ b a, Keeps (f b a) (f' b a))
    (as : List α) (b : β) : Keeps (as.foldlM f b) (as.foldlM f' b) := by
  induction as generalizing b with
  | nil => exact keeps_refl _
  | cons a as ih =>
      rw [List.foldlM_cons, List.foldlM_cons]
      exact (each b a).bind fun b₁ => ih b₁

end Keeps

/-! ## Runs -/

namespace Exec

variable {σ ε α β : Type} {R : σ → σ → Prop}

/-- What returned returns the same from every related state, and leaves related states. -/
def Steady (R : σ → σ → Prop) (p : Exec σ ε α) : Prop :=
  ∀ s s' a t, R s s' → p.Returns s a t → ∃ t', p.Returns s' a t' ∧ R t t'

theorem steady_pure (a : α) : Steady R (pure a : Exec σ ε α) := by
  intro s s' b t related ran
  obtain ⟨rfl, rfl⟩ := returns_pure.mp ran
  exact ⟨s', returns_pure.mpr ⟨rfl, rfl⟩, related⟩

theorem steady_throw (e : ε) : Steady R (throw e : Exec σ ε α) :=
  fun _ _ _ _ _ ran => absurd ran returns_throw

/-- A read that related states answer alike. -/
theorem steady_read {f : σ → Except ε α} (kept : ∀ s s', R s s' → Keeps (f s) (f s')) :
    Steady R (read f) := by
  intro s s' a t related ran
  obtain ⟨found, rfl⟩ := returns_read.mp ran
  exact ⟨s', returns_read.mpr ⟨kept s s' related a found, rfl⟩, related⟩

/-- A write that gives the same from related states, and keeps them related. -/
theorem steady_update {f : σ → α × σ}
    (kept : ∀ s s', R s s' → (f s').1 = (f s).1 ∧ R (f s).2 (f s').2) :
    Steady R (update f : Exec σ ε α) := by
  intro s s' a t related ran
  have wrote := returns_update.mp ran
  obtain ⟨same, after⟩ := kept s s' related
  rw [wrote] at same after
  exact ⟨(f s').2, returns_update.mpr (Prod.ext same rfl), after⟩

theorem Steady.bind {p : Exec σ ε α} {f : α → Exec σ ε β} (first : Steady R p)
    (rest : ∀ a, Steady R (f a)) : Steady R (p >>= f) := by
  intro s s' b t related ran
  obtain ⟨a, s₁, one, two⟩ := returns_bind.mp ran
  obtain ⟨s₂, one', between⟩ := first s s' a s₁ related one
  obtain ⟨t', two', after⟩ := rest a s₁ s₂ b t between two
  exact ⟨t', returns_bind.mpr ⟨a, s₂, one', two'⟩, after⟩

theorem steady_foldlM {f : β → α → Exec σ ε β} (step : ∀ b a, Steady R (f b a)) (as : List α)
    (b : β) : Steady R (as.foldlM f b) := by
  induction as generalizing b with
  | nil => exact steady_pure b
  | cons a as ih =>
      rw [List.foldlM_cons]
      exact (step b a).bind fun b₁ => ih b₁

end Exec

end Mnem.Theory
