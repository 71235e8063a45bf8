/-
# Theory.Separated — records written with separators

A record is a key, a separator, a value and a terminator, one after the other,
with no lengths.  Values delimit themselves; keys do not, so a key that holds
the separator can be read as a shorter key and the front of a value.
`spell_eq_iff` says exactly when two sequences of records are written alike:
when they are equal, or when at the first difference one key runs on past the
other's separator (`Spills`) and the rest agrees.  `titled_eq_iff` is the same for a
title in front.
-/
import Mathlib.Data.List.Basic

namespace Mnem.Theory.Separated

set_option autoImplicit false

variable {β K V : Type}

/-- Two texts with a separator each: they agree on it, or one runs on past the other's. -/
theorem append_cons_eq_iff {a b x y : List β} {c : β} :
    a ++ c :: x = b ++ c :: y ↔ (a = b ∧ x = y) ∨ (∃ s, b = a ++ c :: s ∧ x = s ++ c :: y) ∨
      ∃ s, a = b ++ c :: s ∧ y = s ++ c :: x := by
  constructor
  · intro same
    rcases List.append_eq_append_iff.mp same with ⟨t, longer, rest⟩ | ⟨t, longer, rest⟩
    · cases t with
      | nil =>
          rw [List.nil_append] at rest
          exact .inl ⟨by rw [longer, List.append_nil], (List.cons.inj rest).2⟩
      | cons d s =>
          obtain ⟨rfl, tail⟩ := List.cons.inj rest
          exact .inr (.inl ⟨s, longer, tail⟩)
    · cases t with
      | nil =>
          rw [List.nil_append] at rest
          exact .inl ⟨by rw [longer, List.append_nil], (List.cons.inj rest).2.symm⟩
      | cons d s =>
          obtain ⟨rfl, tail⟩ := List.cons.inj rest
          exact .inr (.inr ⟨s, longer, tail⟩)
  · rintro (⟨rfl, rfl⟩ | ⟨s, rfl, rfl⟩ | ⟨s, rfl, rfl⟩)
    · rfl
    · simp
    · simp

theorem ne_of_longer {a s : List β} {c : β} : a ≠ a ++ c :: s := by
  intro same
  have lengths := congrArg List.length same
  rw [List.length_append, List.length_cons] at lengths
  omega

section Records

variable (key : K → List β) (val : V → List β) (sep stop : β)

/-- The records of a sequence, one after the other. -/
def spell : List (K × V) → List β
  | [] => []
  | (k, v) :: es => key k ++ sep :: (val v ++ stop :: spell es)

/-- The values that satisfy `P` can be read off the front of any text. -/
def SelfDelimiting (P : V → Prop) : Prop :=
  ∀ v w s t, P v → P w → val v ++ s = val w ++ t → v = w ∧ s = t

/-- At the first difference the second sequence's key runs on past the first's separator, and
its rest is written as the value and the records that remain of the first. -/
def Spills (es fs : List (K × V)) : Prop :=
  ∃ common k v es' j w fs' s, es = common ++ (k, v) :: es' ∧ fs = common ++ (j, w) :: fs' ∧
    key j = key k ++ sep :: s ∧
    val v ++ stop :: spell key val sep stop es' =
      s ++ sep :: (val w ++ stop :: spell key val sep stop fs')

variable {key val sep stop}

theorem spell_append (es fs : List (K × V)) : spell key val sep stop (es ++ fs) =
    spell key val sep stop es ++ spell key val sep stop fs := by
  induction es with
  | nil => rfl
  | cons e es ih => simp [spell, ih]

theorem spell_cons_ne_nil (e : K × V) (es : List (K × V)) : spell key val sep stop (e :: es) ≠ [] := by
  simp [spell]

theorem Spills.cons {es fs : List (K × V)} (spills : Spills key val sep stop es fs) (e : K × V) :
    Spills key val sep stop (e :: es) (e :: fs) := by
  obtain ⟨common, k, v, es', j, w, fs', s, rfl, rfl, rest⟩ := spills
  exact ⟨e :: common, k, v, es', j, w, fs', s, rfl, rfl, rest⟩

/-- Sequences that spill are written alike. -/
theorem Spills.spell_eq {es fs : List (K × V)} (spills : Spills key val sep stop es fs) :
    spell key val sep stop es = spell key val sep stop fs := by
  obtain ⟨common, k, v, es', j, w, fs', s, rfl, rfl, longer, rest⟩ := spills
  rw [spell_append, spell_append, spell, spell, longer, rest, List.append_assoc, List.cons_append]

/-- Sequences that spill differ. -/
theorem Spills.ne {es fs : List (K × V)} (spills : Spills key val sep stop es fs) : es ≠ fs := by
  obtain ⟨common, k, v, es', j, w, fs', s, rfl, rfl, longer, -⟩ := spills
  intro same
  obtain ⟨rfl, -⟩ := Prod.mk.inj (List.cons.inj (List.append_cancel_left same)).1
  exact ne_of_longer longer

/-- No key of the second sequence holds the separator, so none spills into the first. -/
theorem not_spills_of_free {es fs : List (K × V)} (free : ∀ e ∈ fs, sep ∉ key e.1) :
    ¬ Spills key val sep stop es fs := by
  rintro ⟨common, k, v, es', j, w, fs', s, rfl, rfl, longer, -⟩
  have clean := free (j, w) (List.mem_append_right _ List.mem_cons_self)
  exact clean (longer ▸ List.mem_append_right _ List.mem_cons_self)

variable {P : V → Prop}

theorem spell_cons_eq_iff (distinct : Function.Injective key) (own : SelfDelimiting val P)
    {e f : K × V} {es fs : List (K × V)} (pe : P e.2) (pf : P f.2) :
    spell key val sep stop (e :: es) = spell key val sep stop (f :: fs) ↔
      (e = f ∧ spell key val sep stop es = spell key val sep stop fs) ∨
        (∃ s, key f.1 = key e.1 ++ sep :: s ∧ val e.2 ++ stop :: spell key val sep stop es =
          s ++ sep :: (val f.2 ++ stop :: spell key val sep stop fs)) ∨
        ∃ s, key e.1 = key f.1 ++ sep :: s ∧ val f.2 ++ stop :: spell key val sep stop fs =
          s ++ sep :: (val e.2 ++ stop :: spell key val sep stop es) := by
  rw [spell, spell, append_cons_eq_iff]
  refine or_congr_left ⟨?_, ?_⟩
  · rintro ⟨keys, rest⟩
    obtain ⟨values, rest⟩ := own e.2 f.2 _ _ pe pf rest
    exact ⟨Prod.ext (distinct keys) values, (List.cons.inj rest).2⟩
  · rintro ⟨rfl, rest⟩
    exact ⟨rfl, by rw [rest]⟩

theorem spell_eq_iff (distinct : Function.Injective key) (own : SelfDelimiting val P)
    {es fs : List (K × V)} (pes : ∀ e ∈ es, P e.2) (pfs : ∀ f ∈ fs, P f.2) :
    spell key val sep stop es = spell key val sep stop fs ↔
      es = fs ∨ Spills key val sep stop es fs ∨ Spills key val sep stop fs es := by
  refine ⟨fun same => ?_, ?_⟩
  · induction es generalizing fs with
    | nil =>
        cases fs with
        | nil => exact .inl rfl
        | cons f fs => exact absurd same.symm (spell_cons_ne_nil f fs)
    | cons e es ih =>
        cases fs with
        | nil => exact absurd same (spell_cons_ne_nil e es)
        | cons f fs =>
            obtain ⟨pe, tail⟩ := List.forall_mem_cons.mp pes
            obtain ⟨pf, tail'⟩ := List.forall_mem_cons.mp pfs
            rcases (spell_cons_eq_iff distinct own pe pf).mp same with
              ⟨rfl, rest⟩ | ⟨s, longer, rest⟩ | ⟨s, longer, rest⟩
            · rcases ih tail tail' rest with rfl | spills | spills
              · exact .inl rfl
              · exact .inr (.inl (spills.cons e))
              · exact .inr (.inr (spills.cons e))
            · exact .inr (.inl ⟨[], e.1, e.2, es, f.1, f.2, fs, s, rfl, rfl, longer, rest⟩)
            · exact .inr (.inr ⟨[], f.1, f.2, fs, e.1, e.2, es, s, rfl, rfl, longer, rest⟩)
  · rintro (rfl | spills | spills)
    · rfl
    · exact spills.spell_eq
    · exact spills.spell_eq.symm

/-! ## A title in front -/

variable (key val sep stop) in
/-- The second title runs on past the first's terminator, through records of the first up to a
terminator of theirs, and the rest is the second's records. -/
def TitleSpills (a : List β) (es : List (K × V)) (b : List β) (fs : List (K × V)) : Prop :=
  ∃ s, b = a ++ stop :: s ∧
    spell key val sep stop es = s ++ stop :: spell key val sep stop fs

theorem TitleSpills.ne {a b : List β} {es fs : List (K × V)}
    (spills : TitleSpills key val sep stop a es b fs) : a ≠ b := by
  obtain ⟨s, rfl, -⟩ := spills
  exact ne_of_longer

theorem not_titleSpills_of_free {a b : List β} {es fs : List (K × V)} (free : stop ∉ b) :
    ¬ TitleSpills key val sep stop a es b fs := by
  rintro ⟨s, rfl, -⟩
  exact free (List.mem_append_right _ List.mem_cons_self)

theorem titled_eq_iff (distinct : Function.Injective key) (own : SelfDelimiting val P)
    {a b : List β} {es fs : List (K × V)} (pes : ∀ e ∈ es, P e.2) (pfs : ∀ f ∈ fs, P f.2) :
    a ++ stop :: spell key val sep stop es = b ++ stop :: spell key val sep stop fs ↔
      (a = b ∧ (es = fs ∨ Spills key val sep stop es fs ∨ Spills key val sep stop fs es)) ∨
        TitleSpills key val sep stop a es b fs ∨ TitleSpills key val sep stop b fs a es := by
  rw [append_cons_eq_iff, spell_eq_iff distinct own pes pfs]
  exact Iff.rfl

end Records

end Mnem.Theory.Separated
