/-
# Theory.Parties — parties that take turns around one shared state

`Parties` is a shared state and what each of several parties holds.  A turn lets
one party act: it may change the shared state and what that party holds, and
nothing else.  A run is any list of turns, so it is any interleaving.

An invariant of a party is about the shared state too, and others change that
between its turns.  `Discipline` says what is needed for the invariants of all
parties to hold in every state of every run: a turn keeps what is common and the
invariant of the one who acts, and `Moves`, which is all that a turn can do to
the shared state, keeps the invariants of the others (`Discipline.run`).
-/
import Mathlib.Data.List.Basic
import Mathlib.Logic.Relation

namespace Mnem.Theory

set_option autoImplicit false

/-- A shared state, and what each party holds. -/
structure Parties (σ π : Type) where
  shared : σ
  held : List π

namespace Parties

variable {σ π ι : Type}

/-- One turn: the party at `index` acts on `input`; nothing happens where there is no party. -/
def turn (act : ι → σ → π → σ × π) (n : Parties σ π) (t : Nat × ι) : Parties σ π :=
  match n.held[t.1]? with
  | none => n
  | some p =>
      let (shared, p) := act t.2 n.shared p
      { shared := shared, held := n.held.set t.1 p }

def run (act : ι → σ → π → σ × π) (n : Parties σ π) (turns : List (Nat × ι)) : Parties σ π :=
  turns.foldl (turn act) n

/-- What is common to all, and what each party holds, are as they should be. -/
structure Holds (Common : σ → Prop) (Own : σ → π → Prop) (n : Parties σ π) : Prop where
  common : Common n.shared
  own : ∀ p ∈ n.held, Own n.shared p

/-- What a turn keeps, and what the turns of others leave alone. -/
structure Discipline (act : ι → σ → π → σ × π) (Common : σ → Prop) (Own : σ → π → Prop)
    (Moves : σ → σ → Prop) : Prop where
  common : ∀ {input s p}, Common s → Own s p → Common (act input s p).1
  own : ∀ {input s p}, Common s → Own s p → Own (act input s p).1 (act input s p).2
  moves : ∀ {input s p}, Common s → Own s p → Moves s (act input s p).1
  stable : ∀ {s s' p}, Common s → Moves s s' → Own s p → Own s' p

variable {act : ι → σ → π → σ × π} {Common : σ → Prop} {Own : σ → π → Prop}
  {Moves : σ → σ → Prop} {n : Parties σ π}

namespace Discipline

theorem turn (d : Discipline act Common Own Moves) (holds : n.Holds Common Own) (t : Nat × ι) :
    (n.turn act t).Holds Common Own ∧
      Relation.ReflTransGen Moves n.shared (n.turn act t).shared := by
  unfold Parties.turn
  cases at_index : n.held[t.1]? with
  | none => exact ⟨holds, .refl⟩
  | some p =>
      have mine : Own n.shared p := holds.own p (List.mem_of_getElem? at_index)
      have moved : Moves n.shared (act t.2 n.shared p).1 := d.moves holds.common mine
      refine ⟨⟨d.common holds.common mine, fun q member => ?_⟩, .single moved⟩
      rcases List.mem_or_eq_of_mem_set member with other | rfl
      · exact d.stable holds.common moved (holds.own q other)
      · exact d.own holds.common mine

/-- The invariants of all parties hold after every run, and its turns are all that moved what is
shared. -/
theorem run (d : Discipline act Common Own Moves) (holds : n.Holds Common Own)
    (turns : List (Nat × ι)) :
    (n.run act turns).Holds Common Own ∧
      Relation.ReflTransGen Moves n.shared (n.run act turns).shared := by
  induction turns generalizing n with
  | nil => exact ⟨holds, .refl⟩
  | cons t turns ih =>
      obtain ⟨kept, moved⟩ := d.turn holds t
      obtain ⟨kept', moved'⟩ := ih kept
      exact ⟨kept', moved.trans moved'⟩

end Discipline

end Parties

end Mnem.Theory
