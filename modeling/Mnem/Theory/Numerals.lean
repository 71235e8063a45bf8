/-
# Theory.Numerals — the small numerals of a field

A numeral above one is read through a proof that it is at least two.  The proofs
for the numerals that formulas use have names here.
-/
import Mathlib.Data.Nat.Init

namespace Mnem.Theory

instance atLeastTwo_two : Nat.AtLeastTwo 2 := ⟨by decide⟩
instance atLeastTwo_three : Nat.AtLeastTwo 3 := ⟨by decide⟩
instance atLeastTwo_ten : Nat.AtLeastTwo 10 := ⟨by decide⟩

end Mnem.Theory
