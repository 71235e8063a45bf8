/-
# Theory.Utf8 — texts indexed by bytes

A text is a list of characters, and an offset counts the bytes of their UTF-8
encodings.  An offset is a boundary when it is the length of a prefix
(`isBoundary_iff`); a slice between two boundaries in order always exists
(`slice_isSome`), and any other slice fails.  Beside the slices stand the
operations on white space: trimming, and the words between.  The last section is about
single bytes and splitting at a character.
-/
import Mathlib.Data.List.Basic
import Mathlib.Algebra.GroupWithZero.Nat

namespace Mnem.Theory.Utf8

set_option autoImplicit false

abbrev Text := List Char

/-- The length in bytes. -/
def byteLen (t : Text) : Nat := (t.map Char.utf8Size).sum

/-- Split at a byte offset, if it is a character boundary within the text. -/
def splitAtByte : Text → Nat → Option (Text × Text)
  | t, 0 => some ([], t)
  | [], _ + 1 => none
  | c :: t, n + 1 =>
      if c.utf8Size ≤ n + 1 then
        (splitAtByte t (n + 1 - c.utf8Size)).map fun p => (c :: p.1, p.2)
      else none

/-- The text between two byte offsets: `str::get`. -/
def slice (t : Text) (start stop : Nat) : Option Text :=
  if start ≤ stop then do
    let front ← splitAtByte t start
    let back ← splitAtByte front.2 (stop - start)
    return back.1
  else none

/-- An offset between two characters, or at an end. -/
def IsBoundary (t : Text) (n : Nat) : Prop := ∃ front back, t = front ++ back ∧ byteLen front = n

@[simp] theorem byteLen_nil : byteLen [] = 0 := rfl

@[simp] theorem byteLen_cons (c : Char) (t : Text) : byteLen (c :: t) = c.utf8Size + byteLen t :=
  List.sum_cons

@[simp] theorem byteLen_append (t u : Text) : byteLen (t ++ u) = byteLen t + byteLen u := by
  simp [byteLen]

theorem splitAtByte_append (front back : Text) :
    splitAtByte (front ++ back) (byteLen front) = some (front, back) := by
  induction front with
  | nil => cases back <;> rfl
  | cons c front ih =>
      have pos := c.utf8Size_pos
      obtain ⟨n, total⟩ : ∃ n, byteLen (c :: front) = n + 1 := by
        rw [byteLen_cons]
        exact ⟨c.utf8Size + byteLen front - 1, by omega⟩
      have rest : n + 1 - c.utf8Size = byteLen front := by
        rw [byteLen_cons] at total
        omega
      have fits : c.utf8Size ≤ n + 1 := by
        rw [byteLen_cons] at total
        omega
      rw [total, List.cons_append, splitAtByte, if_pos fits, rest, ih]
      rfl

theorem splitAtByte_eq_some {t : Text} {n : Nat} {front back : Text}
    (split : splitAtByte t n = some (front, back)) : t = front ++ back ∧ byteLen front = n := by
  induction t generalizing n front with
  | nil =>
      cases n with
      | zero =>
          cases split
          exact ⟨rfl, rfl⟩
      | succ n => cases split
  | cons c t ih =>
      cases n with
      | zero =>
          cases split
          exact ⟨rfl, rfl⟩
      | succ n =>
          rw [splitAtByte] at split
          by_cases fits : c.utf8Size ≤ n + 1
          · rw [if_pos fits] at split
            obtain ⟨⟨front', back'⟩, inner, same⟩ := Option.map_eq_some_iff.mp split
            cases same
            obtain ⟨whole, length⟩ := ih inner
            refine ⟨by rw [List.cons_append, ← whole], ?_⟩
            rw [byteLen_cons]
            show c.utf8Size + byteLen front' = n + 1
            omega
          · rw [if_neg fits] at split
            cases split

theorem isBoundary_iff {t : Text} {n : Nat} : IsBoundary t n ↔ (splitAtByte t n).isSome := by
  constructor
  · rintro ⟨front, back, rfl, rfl⟩
    rw [splitAtByte_append]
    rfl
  · intro found
    obtain ⟨⟨front, back⟩, split⟩ := Option.isSome_iff_exists.mp found
    obtain ⟨whole, length⟩ := splitAtByte_eq_some split
    exact ⟨front, back, whole, length⟩

/-- Two boundaries of one text: the shorter prefix is a prefix of the longer. -/
theorem IsBoundary.between {t : Text} {m n : Nat} (first : IsBoundary t m)
    (second : IsBoundary t n) (le : m ≤ n) :
    ∃ front mid back, t = front ++ (mid ++ back) ∧ byteLen front = m ∧ byteLen (front ++ mid) = n := by
  obtain ⟨front, back, rfl, rfl⟩ := first
  obtain ⟨front', back', same, rfl⟩ := second
  rcases List.append_eq_append_iff.mp same with ⟨mid, rfl, rfl⟩ | ⟨mid, rfl, rfl⟩
  · exact ⟨front, mid, back', rfl, rfl, rfl⟩
  · -- the other way round the rest between them is empty
    have empty : mid = [] := by
      rw [byteLen_append] at le
      cases mid with
      | nil => rfl
      | cons c mid =>
          have pos := c.utf8Size_pos
          rw [byteLen_cons] at le
          omega
    subst empty
    exact ⟨front', [], back, by simp, by simp, by simp⟩

theorem slice_isSome {t : Text} {start stop : Nat} (first : IsBoundary t start)
    (second : IsBoundary t stop) (le : start ≤ stop) : (slice t start stop).isSome := by
  obtain ⟨front, mid, back, rfl, rfl, rfl⟩ := first.between second le
  have rest : byteLen (front ++ mid) - byteLen front = byteLen mid := by
    rw [byteLen_append]
    omega
  unfold slice
  rw [if_pos le, splitAtByte_append]
  show (splitAtByte (mid ++ back) _ >>= _).isSome = true
  rw [rest, splitAtByte_append]
  rfl

theorem boundaries_of_slice {t u : Text} {start stop : Nat} (found : slice t start stop = some u) :
    IsBoundary t start ∧ IsBoundary t stop ∧ start ≤ stop := by
  unfold slice at found
  by_cases le : start ≤ stop
  · rw [if_pos le] at found
    obtain ⟨⟨front, rest⟩, split, found⟩ := Option.bind_eq_some_iff.mp found
    obtain ⟨⟨mid, back⟩, split', -⟩ := Option.bind_eq_some_iff.mp found
    obtain ⟨rfl, length⟩ := splitAtByte_eq_some split
    obtain ⟨inner, length'⟩ := splitAtByte_eq_some split'
    change rest = mid ++ back at inner
    refine ⟨⟨front, rest, rfl, length⟩, ⟨front ++ mid, back, ?_, ?_⟩, le⟩
    · rw [inner, List.append_assoc]
    · rw [byteLen_append]
      omega
  · rw [if_neg le] at found
    cases found

/-! ## White space -/

/-- The characters of the Unicode property White_Space. -/
def isWhitespace (c : Char) : Bool :=
  let n := c.toNat
  (9 ≤ n && n ≤ 13) || n == 32 || n == 0x85 || n == 0xA0 || n == 0x1680 ||
    (0x2000 ≤ n && n ≤ 0x200A) || n == 0x2028 || n == 0x2029 || n == 0x202F || n == 0x205F ||
    n == 0x3000

def trim (t : Text) : Text :=
  ((t.dropWhile isWhitespace).reverse.dropWhile isWhitespace).reverse

/-- The words of a text, `word` being the end of the one under way. -/
def wordsFrom : Text → Text → List Text
  | word, [] => if word = [] then [] else [word.reverse]
  | word, c :: t =>
      if isWhitespace c then
        if word = [] then wordsFrom [] t else word.reverse :: wordsFrom [] t
      else wordsFrom (c :: word) t

/-- `str::split_whitespace`. -/
def splitWhitespace (t : Text) : List Text := wordsFrom [] t

/-- `str::split` at two line breaks, `part` being the part under way. -/
def paragraphsFrom : Text → Text → List Text
  | part, [] => [part.reverse]
  | part, [c] => [(c :: part).reverse]
  | part, c :: d :: t =>
      if c = '\n' && d = '\n' then part.reverse :: paragraphsFrom [] t
      else paragraphsFrom (c :: part) (d :: t)

def splitParagraphs (t : Text) : List Text := paragraphsFrom [] t

/-! ## Bytes -/

/-- A byte below 128 among the bytes of a character is the whole of it. -/
theorem eq_of_mem_utf8EncodeChar {c d : Char} (ascii : c.toNat < 0x80)
    (mem : UInt8.ofNat c.toNat ∈ String.utf8EncodeChar d) : d = c := by
  have small : (UInt8.ofNat c.toNat).toNat = c.toNat := by
    rw [UInt8.toNat_ofNat']
    omega
  have apart : ∀ n < 256, UInt8.ofNat c.toNat = UInt8.ofNat n → c.toNat = n := by
    intro n byte same
    have numbers := congrArg UInt8.toNat same
    rw [small, UInt8.toNat_ofNat'] at numbers
    omega
  have value : d.toNat = d.val.toNat := rfl
  unfold String.utf8EncodeChar at mem
  dsimp only at mem
  split at mem
  · rename_i one
    have same := apart _ (by omega) (List.mem_singleton.mp mem)
    exact Char.toNat_inj.mp same.symm
  · rename_i more
    exfalso
    split at mem
    · simp only [List.mem_cons, List.not_mem_nil, or_false] at mem
      rcases mem with mem | mem
      · have := apart _ (by omega) mem
        omega
      · have := apart _ (by omega) mem
        omega
    · split at mem
      · simp only [List.mem_cons, List.not_mem_nil, or_false] at mem
        rcases mem with mem | mem | mem <;>
        · have := apart _ (by omega) mem
          omega
      · simp only [List.mem_cons, List.not_mem_nil, or_false] at mem
        rcases mem with mem | mem | mem | mem <;>
        · have := apart _ (by omega) mem
          omega

/-- Split around the first occurrence of a character: `str::split_once`. -/
def splitOnce (c : Char) : Text → Option (Text × Text)
  | [] => none
  | d :: t => if d = c then some ([], t) else (splitOnce c t).map fun p => (d :: p.1, p.2)

theorem not_mem_of_splitOnce {c : Char} {t front back : Text}
    (split : splitOnce c t = some (front, back)) : c ∉ front := by
  induction t generalizing front with
  | nil => cases split
  | cons d t ih =>
      rw [splitOnce] at split
      split at split
      · cases split
        simp
      · rename_i other
        obtain ⟨⟨front', back'⟩, first, same⟩ := Option.map_eq_some_iff.mp split
        cases same
        exact List.not_mem_cons_of_ne_of_not_mem (Ne.symm other) (ih first)

end Mnem.Theory.Utf8
