/-
# Theory.Quota — the first few of each kind

A list is cut to a quota: of the elements of each kind the first `limit` stay, in
their places.  Appending an element keeps a cut, with the element if its kind has
room left and without it if not.
-/
import Mathlib.Data.List.Basic

namespace Mnem.Theory

set_option autoImplicit false

variable {α κ : Type} [DecidableEq κ] (kind : α → κ)

/-- The elements of one kind. -/
def ofKind (k : κ) (xs : List α) : List α := xs.filter fun x => decide (kind x = k)

/-- Of each kind the first `limit` elements. -/
structure CutTo (limit : Nat) (xs cut : List α) : Prop where
  sublist : cut.Sublist xs
  firsts : ∀ k, ofKind kind k cut = (ofKind kind k xs).take limit

@[simp] theorem ofKind_nil (k : κ) : ofKind kind k ([] : List α) = [] := rfl

theorem ofKind_concat_own (xs : List α) (x : α) :
    ofKind kind (kind x) (xs ++ [x]) = ofKind kind (kind x) xs ++ [x] := by
  simp [ofKind]

theorem ofKind_concat_other {k : κ} (xs : List α) {x : α} (other : kind x ≠ k) :
    ofKind kind k (xs ++ [x]) = ofKind kind k xs := by
  simp [ofKind, other]

/-- Appending to a list that is taken from. -/
theorem take_concat_of_room {limit : Nat} {xs : List α} (x : α) (room : xs.length < limit) :
    (xs ++ [x]).take limit = xs.take limit ++ [x] := by
  have fits : (xs ++ [x]).length ≤ limit := by
    rw [List.length_append]
    exact room
  rw [List.take_of_length_le fits, List.take_of_length_le (Nat.le_of_lt room)]

theorem take_concat_of_full {limit : Nat} {xs : List α} (x : α) (full : limit ≤ xs.length) :
    (xs ++ [x]).take limit = xs.take limit := List.take_append_of_le_length full

theorem CutTo.nil (limit : Nat) : CutTo kind limit ([] : List α) [] :=
  ⟨.slnil, fun _ => by simp⟩

variable {kind} {limit : Nat} {xs cut : List α}

theorem CutTo.concat_room (cutTo : CutTo kind limit xs cut) {x : α}
    (room : (ofKind kind (kind x) xs).length < limit) :
    CutTo kind limit (xs ++ [x]) (cut ++ [x]) := by
  refine ⟨cutTo.sublist.append (List.Sublist.refl _), fun k => ?_⟩
  by_cases own : kind x = k
  · subst own
    rw [ofKind_concat_own, ofKind_concat_own, take_concat_of_room x room, cutTo.firsts]
  · rw [ofKind_concat_other kind cut own, ofKind_concat_other kind xs own, cutTo.firsts]

theorem CutTo.concat_full (cutTo : CutTo kind limit xs cut) {x : α}
    (full : limit ≤ (ofKind kind (kind x) xs).length) : CutTo kind limit (xs ++ [x]) cut := by
  refine ⟨cutTo.sublist.trans (List.sublist_append_left _ _), fun k => ?_⟩
  by_cases own : kind x = k
  · subst own
    rw [ofKind_concat_own, take_concat_of_full x full, cutTo.firsts]
  · rw [ofKind_concat_other kind xs own, cutTo.firsts]

end Mnem.Theory
