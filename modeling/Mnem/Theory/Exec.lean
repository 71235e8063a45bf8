/-
# Theory.Exec — computations that thread a state and may fail

An `Exec σ ε α` runs on a state, and leaves a state behind whether it succeeds
or fails.  Three judgements about a run, each with its rules for `pure`, `>>=`
and loops:

* `Returns p s a s'`: from `s` the computation returns `a` and leaves `s'`;
* `Succeeds p s Q`: it does return, and what it returns satisfies `Q`;
* `Grows p`: every run, failing ones included, moves the state up its order.
-/
import Mathlib.Order.Basic
import Mathlib.Data.List.Forall2

namespace Mnem.Theory

set_option autoImplicit false

/-- A computation over a state that survives failure. -/
abbrev Exec (σ ε α : Type) := ExceptT ε (StateM σ) α

namespace Exec

variable {σ ε α β : Type}

/-- The outcome of a run and the state it leaves. -/
def outcome (p : Exec σ ε α) (s : σ) : Except ε α × σ := p.run.run s

/-- Inspect the state, possibly failing. -/
def read (f : σ → Except ε α) : Exec σ ε α := ExceptT.mk fun s => (f s, s)

/-- Change the state; never fails. -/
def update (f : σ → α × σ) : Exec σ ε α := ExceptT.mk fun s => (.ok (f s).1, (f s).2)

/-- From `s`, the computation returns `a` and leaves `s'`. -/
def Returns (p : Exec σ ε α) (s : σ) (a : α) (s' : σ) : Prop := p.outcome s = (.ok a, s')

/-- From `s`, the computation returns, with a value and a state that satisfy `Q`. -/
def Succeeds (p : Exec σ ε α) (s : σ) (Q : α → σ → Prop) : Prop :=
  ∃ a s', p.Returns s a s' ∧ Q a s'

/-- Run from `s` and test what is returned; a failure passes no test. -/
def check (p : Exec σ ε α) (s : σ) (test : α → σ → Bool) : Bool :=
  match p.outcome s with
  | (.ok a, s') => test a s'
  | (.error _, _) => false

theorem exists_of_check {p : Exec σ ε α} {s : σ} {test : α → σ → Bool}
    (passed : p.check s test = true) : ∃ a s', p.Returns s a s' ∧ test a s' = true := by
  unfold check at passed
  split at passed
  · exact ⟨_, _, ‹_›, passed⟩
  · cases passed

/-- A failing run whose last state passes a test. -/
def checkError (p : Exec σ ε α) (s : σ) (test : σ → Bool) : Bool :=
  match p.outcome s with
  | (.ok _, _) => false
  | (.error _, s') => test s'

theorem exists_of_checkError {p : Exec σ ε α} {s : σ} {test : σ → Bool}
    (passed : p.checkError s test = true) : ∃ e s', p.outcome s = (.error e, s') ∧ test s' = true := by
  unfold checkError at passed
  split at passed
  · cases passed
  · exact ⟨_, _, ‹_›, passed⟩

/-- A result that is no failure and passes a test. -/
def okAnd (r : Except ε α) (test : α → Bool) : Bool :=
  match r with
  | .ok a => test a
  | .error _ => false

theorem exists_of_okAnd {r : Except ε α} {test : α → Bool} (passed : okAnd r test = true) :
    ∃ a, r = .ok a ∧ test a = true := by
  cases r with
  | ok a => exact ⟨a, rfl, passed⟩
  | error e => cases passed

theorem exists_right_of_forall₂ {R : α → β → Prop} {as : List α} {bs : List β}
    (each : List.Forall₂ R as bs) {a : α} (m : a ∈ as) : ∃ b ∈ bs, R a b := by
  induction each with
  | nil => cases m
  | cons here _ ih =>
      rcases List.mem_cons.mp m with rfl | later
      · exact ⟨_, List.mem_cons_self, here⟩
      · obtain ⟨b, inTail, related⟩ := ih later
        exact ⟨b, List.mem_cons_of_mem _ inTail, related⟩

theorem exists_left_of_forall₂ {R : α → β → Prop} {as : List α} {bs : List β}
    (each : List.Forall₂ R as bs) {b : β} (m : b ∈ bs) : ∃ a ∈ as, R a b := by
  obtain ⟨a, inLeft, related⟩ := exists_right_of_forall₂ (List.Forall₂.flip each) m
  exact ⟨a, inLeft, related⟩

theorem mapM_of_forall₂ {f : α → Except ε β} {as : List α} {bs : List β}
    (each : List.Forall₂ (fun a b => f a = .ok b) as bs) : as.mapM f = .ok bs := by
  induction each with
  | nil => rfl
  | cons here _ ih =>
      rw [List.mapM_cons, here, ih]
      rfl

/-- A pass that succeeds at every element collects what it returns. -/
theorem exists_mapM {f : α → Except ε β} {R : α → β → Prop} {as : List α}
    (each : ∀ a ∈ as, ∃ b, f a = .ok b ∧ R a b) :
    ∃ bs, as.mapM f = .ok bs ∧ List.Forall₂ R as bs := by
  induction as with
  | nil => exact ⟨[], rfl, .nil⟩
  | cons a as ih =>
      obtain ⟨b, here, related⟩ := each a List.mem_cons_self
      obtain ⟨bs, ran, rest⟩ := ih fun x m => each x (List.mem_cons_of_mem _ m)
      refine ⟨b :: bs, ?_, .cons related rest⟩
      rw [List.mapM_cons, here, ran]
      rfl

/-- Run, and put `a` in the place of a failure; the state moves on either way. -/
def attempt (p : Exec σ ε α) (a : α) (s : σ) : α × σ :=
  match p.outcome s with
  | (.ok b, s') => (b, s')
  | (.error _, s') => (a, s')

theorem attempt_cases (p : Exec σ ε α) (a : α) (s : σ) :
    p.Returns s (p.attempt a s).1 (p.attempt a s).2 ∨
      ∃ e, p.outcome s = (.error e, (p.attempt a s).2) ∧ (p.attempt a s).1 = a := by
  unfold attempt Returns
  rcases p.outcome s with ⟨e | b, s'⟩
  · exact .inr ⟨e, rfl, rfl⟩
  · exact .inl rfl

/-- Run a computation on a part of the state. -/
def zoom {τ : Type} (get : τ → σ) (set : σ → τ → τ) (p : Exec σ ε α) : Exec τ ε α :=
  ExceptT.mk fun t => ((p.outcome (get t)).1, set (p.outcome (get t)).2 t)

theorem map_eq_ok {r : Except ε α} {f : α → β} {b : β} :
    f <$> r = .ok b ↔ ∃ a, r = .ok a ∧ f a = b := by
  cases r with
  | ok a =>
      change Except.ok (f a) = .ok b ↔ _
      simp
  | error e =>
      change Except.error e = .ok b ↔ _
      simp

theorem mapError_eq_ok {ε' : Type} {r : Except ε α} {f : ε → ε'} {a : α} :
    r.mapError f = .ok a ↔ r = .ok a := by
  cases r <;> simp [Except.mapError]

theorem bind_eq_ok {r : Except ε α} {f : α → Except ε β} {b : β} :
    (r >>= f) = .ok b ↔ ∃ a, r = .ok a ∧ f a = .ok b := by
  cases r with
  | ok a =>
      change f a = .ok b ↔ _
      simp
  | error e =>
      change Except.error e = .ok b ↔ _
      simp

theorem length_of_mapM {f : α → Except ε β} {as : List α} {bs : List β}
    (ran : as.mapM f = .ok bs) : bs.length = as.length := by
  induction as generalizing bs with
  | nil =>
      cases ran
      rfl
  | cons a as ih =>
      rw [List.mapM_cons] at ran
      obtain ⟨b, -, ran⟩ := bind_eq_ok.mp ran
      obtain ⟨bs', rest, done⟩ := bind_eq_ok.mp ran
      cases done
      rw [List.length_cons, List.length_cons, ih rest]

/-- What a pass collects, element by element. -/
theorem forall₂_of_mapM {f : α → Except ε β} {as : List α} {bs : List β}
    (ran : as.mapM f = .ok bs) : List.Forall₂ (fun a b => f a = .ok b) as bs := by
  induction as generalizing bs with
  | nil =>
      cases ran
      exact .nil
  | cons a as ih =>
      rw [List.mapM_cons] at ran
      obtain ⟨b, here, ran⟩ := bind_eq_ok.mp ran
      obtain ⟨bs', rest, done⟩ := bind_eq_ok.mp ran
      cases done
      exact .cons here (ih rest)

/-- A loop of checks passes when every check does. -/
theorem forM_eq_ok {f : α → Except ε PUnit} {as : List α} :
    as.forM f = .ok () ↔ ∀ a ∈ as, f a = .ok () := by
  induction as with
  | nil => exact ⟨nofun, fun _ => rfl⟩
  | cons a as ih =>
      change (f a >>= fun _ => as.forM f) = .ok () ↔ _
      rw [bind_eq_ok, List.forall_mem_cons, ← ih]
      constructor
      · rintro ⟨_, here, rest⟩
        exact ⟨here, rest⟩
      · rintro ⟨here, rest⟩
        exact ⟨(), here, rest⟩

/-! ## Inversion -/

@[simp] theorem returns_pure {a b : α} {s s' : σ} :
    (pure a : Exec σ ε α).Returns s b s' ↔ a = b ∧ s = s' := by
  constructor
  · intro h
    cases h
    exact ⟨rfl, rfl⟩
  · rintro ⟨rfl, rfl⟩
    rfl

@[simp] theorem returns_throw {e : ε} {a : α} {s s' : σ} :
    ¬ (throw e : Exec σ ε α).Returns s a s' := by
  intro h
  cases h

@[simp] theorem returns_read {f : σ → Except ε α} {a : α} {s s' : σ} :
    (read f).Returns s a s' ↔ f s = .ok a ∧ s = s' := by
  constructor
  · intro h
    exact ⟨congrArg Prod.fst h, congrArg Prod.snd h⟩
  · rintro ⟨h, rfl⟩
    exact Prod.ext h rfl

@[simp] theorem returns_update {f : σ → α × σ} {a : α} {s s' : σ} :
    (update f : Exec σ ε α).Returns s a s' ↔ f s = (a, s') := by
  constructor
  · intro h
    have first : (Except.ok (f s).1 : Except ε α) = .ok a := congrArg Prod.fst h
    have second : (f s).2 = s' := congrArg Prod.snd h
    cases first
    exact Prod.ext rfl second
  · intro h
    unfold Returns
    rw [show (update f : Exec σ ε α).outcome s = (.ok (f s).1, (f s).2) from rfl, h]

theorem outcome_read (f : σ → Except ε α) (s : σ) : (read f).outcome s = (f s, s) := rfl

theorem outcome_bind (p : Exec σ ε α) (f : α → Exec σ ε β) (s : σ) :
    (p >>= f).outcome s = match p.outcome s with
      | (.ok a, s₁) => (f a).outcome s₁
      | (.error e, s₁) => (.error e, s₁) := by
  change (ExceptT.bindCont (fun a => f a) (p s).1) (p s).2 = _
  change _ = match (p s) with
    | (.ok a, s₁) => (f a).outcome s₁
    | (.error e, s₁) => (.error e, s₁)
  rcases p s with ⟨r | a, s₁⟩ <;> rfl

/-- A bind returns through both of its parts. -/
@[simp] theorem returns_bind {p : Exec σ ε α} {f : α → Exec σ ε β} {b : β} {s s' : σ} :
    (p >>= f).Returns s b s' ↔ ∃ a s₁, p.Returns s a s₁ ∧ (f a).Returns s₁ b s' := by
  unfold Returns
  rw [outcome_bind]
  rcases p.outcome s with ⟨r | a, s₁⟩
  · simp
  · constructor
    · intro h
      exact ⟨a, s₁, rfl, h⟩
    · rintro ⟨a', s₁', h, h'⟩
      cases h
      exact h'

@[simp] theorem returns_map {p : Exec σ ε α} {f : α → β} {b : β} {s s' : σ} :
    (f <$> p).Returns s b s' ↔ ∃ a, p.Returns s a s' ∧ f a = b := by
  rw [map_eq_pure_bind, returns_bind]
  simp only [returns_pure]
  constructor
  · rintro ⟨a, s₁, h, rfl, rfl⟩
    exact ⟨a, h, rfl⟩
  · rintro ⟨a, h, rfl⟩
    exact ⟨a, s', h, rfl, rfl⟩

@[simp] theorem returns_zoom {τ : Type} {get : τ → σ} {set : σ → τ → τ} {p : Exec σ ε α} {a : α}
    {t t' : τ} :
    (zoom get set p).Returns t a t' ↔ ∃ s, p.Returns (get t) a s ∧ set s t = t' := by
  change ((p.outcome (get t)).1, set (p.outcome (get t)).2 t) = _ ↔ _
  unfold Returns
  rcases p.outcome (get t) with ⟨e | b, s⟩ <;> simp [Prod.ext_iff, and_assoc]

theorem Returns.unique {p : Exec σ ε α} {s s₁ s₂ : σ} {a b : α} (h : p.Returns s a s₁)
    (h' : p.Returns s b s₂) : a = b ∧ s₁ = s₂ := by
  have same := h.symm.trans h'
  cases same
  exact ⟨rfl, rfl⟩

/-! ## Success -/

theorem Succeeds.of_returns {p : Exec σ ε α} {s s' : σ} {a : α} {Q : α → σ → Prop}
    (good : p.Succeeds s Q) (h : p.Returns s a s') : Q a s' := by
  obtain ⟨b, s₁, h', hQ⟩ := good
  obtain ⟨rfl, rfl⟩ := h.unique h'
  exact hQ

theorem Succeeds.mono {p : Exec σ ε α} {s : σ} {Q R : α → σ → Prop} (good : p.Succeeds s Q)
    (weaken : ∀ a s', Q a s' → R a s') : p.Succeeds s R := by
  obtain ⟨a, s', h, hQ⟩ := good
  exact ⟨a, s', h, weaken a s' hQ⟩

theorem succeeds_pure {a : α} {s : σ} {Q : α → σ → Prop} (h : Q a s) :
    (pure a : Exec σ ε α).Succeeds s Q := ⟨a, s, rfl, h⟩

theorem succeeds_read {f : σ → Except ε α} {a : α} {s : σ} {Q : α → σ → Prop}
    (h : f s = .ok a) (hQ : Q a s) : (read f).Succeeds s Q :=
  ⟨a, s, returns_read.mpr ⟨h, rfl⟩, hQ⟩

theorem succeeds_update {f : σ → α × σ} {s : σ} {Q : α → σ → Prop} (h : Q (f s).1 (f s).2) :
    (update f : Exec σ ε α).Succeeds s Q := ⟨_, _, returns_update.mpr rfl, h⟩

theorem succeeds_bind {p : Exec σ ε α} {f : α → Exec σ ε β} {s : σ} {Q : α → σ → Prop}
    {R : β → σ → Prop} (first : p.Succeeds s Q)
    (rest : ∀ a s₁, Q a s₁ → (f a).Succeeds s₁ R) : (p >>= f).Succeeds s R := by
  obtain ⟨a, s₁, h, hQ⟩ := first
  obtain ⟨b, s', h', hR⟩ := rest a s₁ hQ
  exact ⟨b, s', returns_bind.mpr ⟨a, s₁, h, h'⟩, hR⟩

/-- A first step that is known to return. -/
theorem Returns.succeeds_bind {p : Exec σ ε α} {f : α → Exec σ ε β} {a : α} {s s₁ : σ}
    {R : β → σ → Prop} (first : p.Returns s a s₁) (rest : (f a).Succeeds s₁ R) :
    (p >>= f).Succeeds s R := by
  obtain ⟨b, s', h', hR⟩ := rest
  exact ⟨b, s', returns_bind.mpr ⟨a, s₁, first, h'⟩, hR⟩

theorem succeeds_read_bind {f : σ → Except ε α} {g : α → Exec σ ε β} {a : α} {s : σ}
    {R : β → σ → Prop} (h : f s = .ok a) (rest : (g a).Succeeds s R) :
    (read f >>= g).Succeeds s R := (returns_read.mpr ⟨h, rfl⟩).succeeds_bind rest

/-! ## Loops

The invariant of a loop speaks of the elements already consumed. -/

theorem returns_foldlM_cons {f : β → α → Exec σ ε β} {a : α} {as : List α} {b c : β} {s s' : σ} :
    ((a :: as).foldlM f b).Returns s c s' ↔
      ∃ b₁ s₁, (f b a).Returns s b₁ s₁ ∧ (as.foldlM f b₁).Returns s₁ c s' := by
  rw [List.foldlM_cons, returns_bind]

/-- The invariant rule for a loop that is known to return. -/
theorem returns_foldlM {f : β → α → Exec σ ε β} (I : List α → β → σ → Prop) (as : List α)
    (step : ∀ before a b s b₁ s₁, (∃ after, before ++ a :: after = as) → I before b s →
      (f b a).Returns s b₁ s₁ → I (before ++ [a]) b₁ s₁)
    {b c : β} {s s' : σ} (start : I [] b s) (ran : (as.foldlM f b).Returns s c s') :
    I as c s' := by
  suffices loop : ∀ (rest before : List α) (b : β) (s : σ), before ++ rest = as → I before b s →
      (rest.foldlM f b).Returns s c s' → I as c s' from loop as [] b s rfl start ran
  intro rest
  induction rest with
  | nil =>
      intro before b s done inv ran
      rw [List.foldlM_nil, returns_pure] at ran
      obtain ⟨rfl, rfl⟩ := ran
      rw [← done, List.append_nil]
      exact inv
  | cons a rest ih =>
      intro before b s done inv ran
      obtain ⟨b₁, s₁, one, others⟩ := returns_foldlM_cons.mp ran
      exact ih (before ++ [a]) b₁ s₁ (by rw [List.append_assoc, List.singleton_append, done])
        (step before a b s b₁ s₁ ⟨rest, done⟩ inv one) others

/-- The invariant rule for a loop each of whose steps succeeds. -/
theorem succeeds_foldlM {f : β → α → Exec σ ε β} (I : List α → β → σ → Prop) (as : List α)
    (step : ∀ before a b s, (∃ after, before ++ a :: after = as) → I before b s →
      (f b a).Succeeds s (I (before ++ [a])))
    {b : β} {s : σ} (start : I [] b s) : (as.foldlM f b).Succeeds s (I as) := by
  suffices loop : ∀ (rest before : List α) (b : β) (s : σ), before ++ rest = as → I before b s →
      (rest.foldlM f b).Succeeds s (I as) from loop as [] b s rfl start
  intro rest
  induction rest with
  | nil =>
      intro before b s done inv
      rw [← done, List.append_nil]
      exact succeeds_pure inv
  | cons a rest ih =>
      intro before b s done inv
      rw [List.foldlM_cons]
      refine succeeds_bind (step before a b s ⟨rest, done⟩ inv) fun b₁ s₁ inv' => ?_
      exact ih (before ++ [a]) b₁ s₁ (by rw [List.append_assoc, List.singleton_append, done]) inv'

/-- A loop that makes one thing for each element and collects what it makes: when
making `r a` leaves `Q a`, which stays, the loop leaves all of them. -/
theorem succeeds_collect [Preorder σ] {γ : Type} {f : α → Exec σ ε γ} {r : α → γ}
    {Q : α → σ → Prop} (put : β → α → γ → β) (as : List α) {s : σ}
    (make : ∀ a ∈ as, ∀ s₁, s ≤ s₁ → (f a).Succeeds s₁ fun c s' => c = r a ∧ s₁ ≤ s' ∧ Q a s')
    (stays : ∀ a s s', Q a s → s ≤ s' → Q a s') (b : β) :
    (as.foldlM (fun b a => f a >>= fun c => pure (put b a c)) b).Succeeds s fun b' s' =>
      b' = as.foldl (fun b a => put b a (r a)) b ∧ s ≤ s' ∧ ∀ a ∈ as, Q a s' := by
  induction as generalizing b s with
  | nil => exact succeeds_pure ⟨rfl, le_refl s, by simp⟩
  | cons a as ih =>
      rw [List.foldlM_cons]
      have first := make a List.mem_cons_self s (le_refl s)
      have one : (f a >>= fun c => pure (put b a c)).Succeeds s fun b' s' =>
          b' = put b a (r a) ∧ s ≤ s' ∧ Q a s' :=
        succeeds_bind first fun c s₁ made => succeeds_pure ⟨by rw [made.1], made.2⟩
      refine succeeds_bind one ?_
      rintro b₁ s₁ ⟨rfl, le, here⟩
      refine (ih (fun x m s₂ le' => make x (List.mem_cons_of_mem _ m) s₂ (le.trans le')) _).mono ?_
      rintro b' s' ⟨rfl, le', rest⟩
      refine ⟨rfl, le.trans le', fun x m => ?_⟩
      rcases List.mem_cons.mp m with rfl | later
      · exact stays x s₁ s' here le'
      · exact rest x later

/-! ## Growth -/

section Growth

variable [Preorder σ]

/-- Every run, failing ones included, moves the state up. -/
def Grows (p : Exec σ ε α) : Prop := ∀ s, s ≤ (p.outcome s).2

theorem Grows.of_returns {p : Exec σ ε α} (grows : Grows p) {s s' : σ} {a : α}
    (h : p.Returns s a s') : s ≤ s' := by
  have moved := grows s
  rw [h] at moved
  exact moved

theorem grows_read (f : σ → Except ε α) : Grows (read f) := fun s => le_refl s

theorem grows_pure (a : α) : Grows (pure a : Exec σ ε α) := fun s => le_refl s

theorem grows_throw (e : ε) : Grows (throw e : Exec σ ε α) := fun s => le_refl s

theorem grows_update {f : σ → α × σ} (h : ∀ s, s ≤ (f s).2) :
    Grows (update f : Exec σ ε α) := h

theorem grows_bind {p : Exec σ ε α} {f : α → Exec σ ε β} (first : Grows p)
    (rest : ∀ a, Grows (f a)) : Grows (p >>= f) := by
  intro s
  have moved := first s
  rw [outcome_bind]
  rcases h : p.outcome s with ⟨r | a, s₁⟩ <;> rw [h] at moved
  · exact moved
  · exact moved.trans (rest a s₁)

theorem grows_map {p : Exec σ ε α} {f : α → β} (grows : Grows p) : Grows (f <$> p) := by
  rw [map_eq_pure_bind]
  exact grows_bind grows fun a => grows_pure (f a)

theorem Grows.attempt {p : Exec σ ε α} (grows : Grows p) (a : α) (s : σ) :
    s ≤ (p.attempt a s).2 := by
  rcases p.attempt_cases a s with ran | ⟨e, failed, -⟩
  · exact grows.of_returns ran
  · have moved := grows s
    rw [failed] at moved
    exact moved

theorem grows_foldlM {f : β → α → Exec σ ε β} (step : ∀ b a, Grows (f b a)) (as : List α)
    (b : β) : Grows (as.foldlM f b) := by
  induction as generalizing b with
  | nil => exact grows_pure b
  | cons a as ih =>
      rw [List.foldlM_cons]
      exact grows_bind (step b a) fun b₁ => ih b₁

end Growth

end Exec

end Mnem.Theory
