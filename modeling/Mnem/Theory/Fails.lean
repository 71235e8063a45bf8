/-
# Theory.Fails — runs that stop with an error

`Exec.Returns` says how a program ends with a value, `Exec.Fails` how it ends
with an error.  Each run ends in one of these ways (`returns_or_fails`), and a
sequence fails in its first part or in its second (`fails_bind`).
-/
import Mnem.Theory.Exec

namespace Mnem.Theory.Exec

set_option autoImplicit false

variable {σ ε α β : Type}

/-- The program stops with an error, in this state. -/
def Fails (p : Exec σ ε α) (s : σ) (e : ε) (s' : σ) : Prop := p.outcome s = (.error e, s')

theorem returns_or_fails (p : Exec σ ε α) (s : σ) :
    (∃ a s', p.Returns s a s') ∨ ∃ e s', p.Fails s e s' := by
  unfold Returns Fails
  rcases p.outcome s with ⟨e | a, s'⟩
  · exact .inr ⟨e, s', rfl⟩
  · exact .inl ⟨a, s', rfl⟩

theorem Fails.not_returns {p : Exec σ ε α} {s s₁ s₂ : σ} {e : ε} {a : α} (fails : p.Fails s e s₁) :
    ¬ p.Returns s a s₂ := fun returns => by
  cases fails.symm.trans returns

theorem not_fails_pure {a : α} {e : ε} {s s' : σ} : ¬ (pure a : Exec σ ε α).Fails s e s' :=
  fun fails => by cases fails

@[simp] theorem fails_throw {e e' : ε} {s s' : σ} :
    (throw e : Exec σ ε α).Fails s e' s' ↔ e = e' ∧ s = s' := by
  constructor
  · intro fails
    cases fails
    exact ⟨rfl, rfl⟩
  · rintro ⟨rfl, rfl⟩
    rfl

@[simp] theorem fails_read {f : σ → Except ε α} {e : ε} {s s' : σ} :
    (read f).Fails s e s' ↔ f s = .error e ∧ s = s' := by
  constructor
  · intro fails
    exact ⟨congrArg Prod.fst fails, congrArg Prod.snd fails⟩
  · rintro ⟨failed, rfl⟩
    exact Prod.ext failed rfl

theorem not_fails_update {f : σ → α × σ} {e : ε} {s s' : σ} :
    ¬ (update f : Exec σ ε α).Fails s e s' := fun fails => by
  cases fails

/-- A sequence fails in its first part or in its second. -/
@[simp] theorem fails_bind {p : Exec σ ε α} {f : α → Exec σ ε β} {e : ε} {s s' : σ} :
    (p >>= f).Fails s e s' ↔
      p.Fails s e s' ∨ ∃ a s₁, p.Returns s a s₁ ∧ (f a).Fails s₁ e s' := by
  unfold Fails Returns
  rw [outcome_bind]
  rcases p.outcome s with ⟨r | a, s₁⟩
  · constructor
    · intro fails
      cases fails
      exact .inl rfl
    · rintro (fails | ⟨_, _, returns, -⟩)
      · cases fails
        rfl
      · cases returns
  · constructor
    · intro fails
      exact .inr ⟨a, s₁, rfl, fails⟩
    · rintro (fails | ⟨_, _, returns, fails⟩)
      · cases fails
      · cases returns
        exact fails

/-- A program on a part of the state fails as it does on that part. -/
theorem fails_zoom {τ : Type} {get : τ → σ} {set : σ → τ → τ} {p : Exec σ ε α} {e : ε} {t t' : τ} :
    (p.zoom get set).Fails t e t' ↔ ∃ s', p.Fails (get t) e s' ∧ set s' t = t' := by
  have shape : (p.zoom get set).outcome t =
      ((p.outcome (get t)).1, set (p.outcome (get t)).2 t) := rfl
  unfold Fails
  rw [shape]
  constructor
  · intro fails
    have error : (p.outcome (get t)).1 = .error e := congrArg Prod.fst fails
    exact ⟨(p.outcome (get t)).2, Prod.ext error rfl, congrArg Prod.snd fails⟩
  · rintro ⟨s', fails, rfl⟩
    rw [fails]

theorem Grows.of_fails [Preorder σ] {p : Exec σ ε α} (grows : Grows p) {s s' : σ} {e : ε}
    (fails : p.Fails s e s') : s ≤ s' := by
  have moved := grows s
  rw [show p.outcome s = (.error e, s') from fails] at moved
  exact moved

end Mnem.Theory.Exec
