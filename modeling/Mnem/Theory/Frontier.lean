/-
# Theory.Frontier — the heads of a growing history

A history is a relation `R`, where `R c p` says that `p` is a parent of `c`.
Its heads are advanced by a new element that supersedes a set of old ones: the
new one comes in, then the superseded ones go.  Who advances may have read the
heads some time ago.

* If the new element descends from what it supersedes, the heads go on covering
  everything that was ever a head (`covers_advance`).
* If its parents are exactly what it supersedes, the heads stay pairwise
  unrelated if and only if no head descended from the new element already
  (`antichain_advance_iff`).
-/
import Mathlib.Logic.Relation
import Mathlib.Data.Set.Insert

namespace Mnem.Theory.Frontier

set_option autoImplicit false

open Relation

variable {α : Type*} {R : α → α → Prop} {heads seen superseded : Set α} {new : α}

/-- Everything seen is a head or an ancestor of one. -/
def Covers (R : α → α → Prop) (heads seen : Set α) : Prop :=
  ∀ x ∈ seen, ∃ h ∈ heads, ReflTransGen R h x

/-- No head is a strict ancestor of a head. -/
def Antichain (R : α → α → Prop) (heads : Set α) : Prop :=
  ∀ h ∈ heads, ∀ h' ∈ heads, ¬ TransGen R h h'

/-- The new element comes in, then the superseded ones go. -/
def advance (heads : Set α) (new : α) (superseded : Set α) : Set α :=
  {c | (c = new ∨ c ∈ heads) ∧ c ∉ superseded}

/-- What has a well-founded history is not its own strict ancestor. -/
theorem acyclic_of_acc {c : α} (grounded : Acc (flip R) c) : ¬ TransGen R c c := by
  have upward : Acc (TransGen (flip R)) c := grounded.transGen
  clear grounded
  induction upward with
  | intro c _ ih =>
      intro cycle
      exact ih c (transGen_swap.mpr cycle) cycle

/-- The history of an element is well founded if those of its parents are. -/
theorem acc_of_parents {c : α} (parents : ∀ p, R c p → Acc (flip R) p) : Acc (flip R) c :=
  .intro c fun p link => parents p link

/-- Heads that cover go on covering when the new element is below what it supersedes. -/
theorem covers_advance (covers : Covers R heads seen) (fresh : new ∉ superseded)
    (below : ∀ p ∈ superseded, ReflTransGen R new p) :
    Covers R (advance heads new superseded) (insert new seen) := by
  have newIn : new ∈ advance heads new superseded := ⟨.inl rfl, fresh⟩
  rintro x (rfl | inSeen)
  · exact ⟨x, newIn, .refl⟩
  · obtain ⟨h, inHeads, path⟩ := covers x inSeen
    by_cases gone : h ∈ superseded
    · exact ⟨new, newIn, (below h gone).trans path⟩
    · exact ⟨h, ⟨.inr inHeads, gone⟩, path⟩

/-- **The heads stay unrelated** exactly when none of them descended from the new element:
whoever advances may have read the heads long ago. -/
theorem antichain_advance_iff (covers : Covers R heads seen) (antichain : Antichain R heads)
    (parents : ∀ p, R new p ↔ p ∈ superseded) (old : superseded ⊆ seen)
    (grounded : Acc (flip R) new) :
    Antichain R (advance heads new superseded) ↔ ∀ h ∈ heads, ¬ TransGen R h new := by
  have acyclic := acyclic_of_acc grounded
  have fresh : new ∉ superseded := fun m => acyclic (.single ((parents new).mpr m))
  constructor
  · intro after h inHeads path
    have stays : h ∉ superseded :=
      fun m => acyclic (.head ((parents h).mpr m) path)
    exact after h ⟨.inr inHeads, stays⟩ new ⟨.inl rfl, fresh⟩ path
  · intro unrelated h hIn h' hIn' path
    obtain ⟨rfl | inHeads, -⟩ := hIn
    · obtain ⟨rfl | inHeads', stays'⟩ := hIn'
      · exact acyclic path
      · -- a superseded element lies between the new one and an old head
        obtain ⟨p, link, rest⟩ := TransGen.head'_iff.mp path
        have gone : p ∈ superseded := (parents p).mp link
        obtain ⟨k, inHeads, above⟩ := covers p (old gone)
        rcases reflTransGen_iff_eq_or_transGen.mp rest with rfl | strict
        · exact stays' gone
        · exact antichain k inHeads h' inHeads' (TransGen.trans_right above strict)
    · obtain ⟨rfl | inHeads', -⟩ := hIn'
      · exact unrelated h inHeads path
      · exact antichain h inHeads h' inHeads' path

end Mnem.Theory.Frontier
