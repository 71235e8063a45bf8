/-
# Theory.Words — the words of a text, and the boundaries between its parts

The words of a text are its runs of characters that are not white space.  A
blank ends what came before it (`words_append_blank`), so a text is read one
part at a time.  A boundary between two parts may be written as a blank or not
written at all; leaving it out fuses two words exactly if a word ends right
before it and one starts right after it (`words_joined_iff`).
-/
import Mathlib.Data.List.DropRight
import Mnem.Theory.Utf8

namespace Mnem.Theory.Words

open Utf8

set_option autoImplicit false

section Words

variable {b c : Char}

theorem wordsFrom_append_blank (blank : isWhitespace b = true) (s : Text) : ∀ word l : Text,
    wordsFrom word (l ++ b :: s) = wordsFrom word l ++ splitWhitespace s
  | word, [] => by
      rw [List.nil_append, wordsFrom.eq_def]
      simp only [blank, if_true]
      rw [wordsFrom]
      split
      · rfl
      · rfl
  | word, c :: l => by
      rw [List.cons_append, wordsFrom, wordsFrom]
      split
      · split
        · exact wordsFrom_append_blank blank s [] l
        · rw [wordsFrom_append_blank blank s [] l, List.cons_append]
      · exact wordsFrom_append_blank blank s (c :: word) l

/-- A blank ends what came before it. -/
theorem words_append_blank (blank : isWhitespace b = true) (l s : Text) :
    splitWhitespace (l ++ b :: s) = splitWhitespace l ++ splitWhitespace s :=
  wordsFrom_append_blank blank s [] l

theorem words_cons_blank (blank : isWhitespace b = true) (s : Text) :
    splitWhitespace (b :: s) = splitWhitespace s :=
  words_append_blank blank [] s

/-- Which blank it is does not matter. -/
theorem words_blank_congr (blank : isWhitespace b = true) (other : isWhitespace c = true)
    (l s : Text) : splitWhitespace (l ++ b :: s) = splitWhitespace (l ++ c :: s) := by
  rw [words_append_blank blank, words_append_blank other]

theorem words_append_blanks (l : Text) {s : Text} (blank : ∀ d ∈ s, isWhitespace d = true) :
    splitWhitespace (l ++ s) = splitWhitespace l := by
  induction s generalizing l with
  | nil => rw [List.append_nil]
  | cons d s ih =>
      have first := blank d List.mem_cons_self
      have later := ih [] fun e m => blank e (List.mem_cons_of_mem _ m)
      rw [words_append_blank first, show splitWhitespace s = [] from later, List.append_nil]

theorem words_of_blanks {s : Text} (blank : ∀ d ∈ s, isWhitespace d = true) :
    splitWhitespace s = [] :=
  words_append_blanks [] blank

theorem words_dropWhile (t : Text) : splitWhitespace (t.dropWhile isWhitespace) = splitWhitespace t := by
  induction t with
  | nil => rfl
  | cons d t ih =>
      by_cases blank : isWhitespace d = true
      · rw [List.dropWhile_cons_of_pos blank, ih, words_cons_blank blank]
      · rw [List.dropWhile_cons_of_neg blank]

theorem words_trim (t : Text) : splitWhitespace (trim t) = splitWhitespace t := by
  show splitWhitespace ((t.dropWhile isWhitespace).rdropWhile isWhitespace) = _
  have parts : (t.dropWhile isWhitespace).rdropWhile isWhitespace ++
      (t.dropWhile isWhitespace).rtakeWhile isWhitespace = t.dropWhile isWhitespace :=
    List.rdropWhile_append_rtakeWhile
  rw [← words_dropWhile t]
  nth_rewrite 2 [← parts]
  exact (words_append_blanks _ fun d m => List.mem_rtakeWhile_imp m).symm

theorem eq_nil_of_trim {t : Text} (nothing : trim t = []) : ∀ d ∈ t, isWhitespace d = true := by
  have left : t.dropWhile isWhitespace = [] := by
    cases found : t.dropWhile isWhitespace with
    | nil => rfl
    | cons d s =>
        have visible := List.head_dropWhile_not isWhitespace (found ▸ List.cons_ne_nil d s)
        have last := (List.rdropWhile_eq_nil_iff (p := isWhitespace)).mp nothing
        exact absurd (last _ (List.head_mem _)) (by rw [visible]; exact Bool.false_ne_true)
  exact List.dropWhile_eq_nil_iff.mp left

/-- The words hold what is visible, in order. -/
theorem flatten_wordsFrom : ∀ word t : Text,
    (wordsFrom word t).flatten = word.reverse ++ t.filter fun c => !isWhitespace c
  | word, [] => by
      rw [wordsFrom]
      split
      · rename_i none
        rw [none]
        rfl
      · simp
  | word, c :: t => by
      rw [wordsFrom]
      by_cases blank : isWhitespace c = true
      · have left : (c :: t).filter (fun c => !isWhitespace c) = t.filter fun c => !isWhitespace c := by
          simp [blank]
        rw [if_pos blank, left]
        split
        · rename_i none
          rw [flatten_wordsFrom [] t, none]
        · rw [List.flatten_cons, flatten_wordsFrom [] t]
          rfl
      · rw [if_neg blank, flatten_wordsFrom (c :: word) t]
        simp [blank]

theorem flatten_words (t : Text) :
    (splitWhitespace t).flatten = t.filter fun c => !isWhitespace c :=
  flatten_wordsFrom [] t

/-! ## Fused words -/

/-- A text ends within a word, or starts with one. -/
def EndsInWord (l : Text) : Prop := ∃ l' c, l = l' ++ [c] ∧ isWhitespace c = false

def StartsWithWord (s : Text) : Prop := ∃ c s', s = c :: s' ∧ isWhitespace c = false

theorem length_wordsFrom (word word' t : Text) (some : word ≠ []) (some' : word' ≠ []) :
    (wordsFrom word t).length = (wordsFrom word' t).length := by
  induction t generalizing word word' with
  | nil => rw [wordsFrom, wordsFrom, if_neg some, if_neg some']; rfl
  | cons c t ih =>
      rw [wordsFrom, wordsFrom]
      split
      · rfl
      · exact ih _ _ (List.cons_ne_nil _ _) (List.cons_ne_nil _ _)

theorem length_fused {s : Text} (starts : StartsWithWord s) : ∀ word l : Text,
    (l = [] → word ≠ []) → (∀ l' c, l = l' ++ [c] → isWhitespace c = false) →
      (wordsFrom word (l ++ s)).length + 1 = (wordsFrom word l).length + (splitWhitespace s).length
  | word, [], under_way, _ => by
      obtain ⟨c, s, rfl, visible⟩ := starts
      have some := under_way rfl
      have shown : ¬ isWhitespace c = true := by simp [visible]
      have front : ∀ w, wordsFrom w (c :: s) = wordsFrom (c :: w) s := fun w => by
        rw [wordsFrom.eq_def]
        exact if_neg shown
      rw [List.nil_append, splitWhitespace, front, front, wordsFrom, if_neg some]
      have same := length_wordsFrom (c :: word) [c] s (List.cons_ne_nil _ _) (List.cons_ne_nil _ _)
      show (wordsFrom (c :: word) s).length + 1 = 1 + (wordsFrom [c] s).length
      omega
  | word, d :: l, _, last => by
      have last' : ∀ l' c, l = l' ++ [c] → isWhitespace c = false := by
        rintro l' c rfl
        exact last (d :: l') c rfl
      rw [List.cons_append, wordsFrom, wordsFrom]
      by_cases blank : isWhitespace d = true
      · rw [if_pos blank, if_pos blank]
        have more : l = [] → ([] : Text) ≠ [] := by
          rintro rfl
          have visible := last [] d rfl
          rw [blank] at visible
          cases visible
        have rest := length_fused starts [] l more last'
        split
        · exact rest
        · rw [List.length_cons, List.length_cons]
          omega
      · rw [if_neg blank, if_neg blank]
        exact length_fused starts (d :: word) l (fun _ => List.cons_ne_nil _ _) last'

/-- A blank between two parts of a word makes two words of it. -/
theorem length_words_of_fused {l s : Text} (blank : isWhitespace b = true) (ends : EndsInWord l)
    (starts : StartsWithWord s) :
    (splitWhitespace (l ++ b :: s)).length = (splitWhitespace (l ++ s)).length + 1 := by
  obtain ⟨l', c, rfl, visible⟩ := ends
  have last : ∀ l'' d, l' ++ [c] = l'' ++ [d] → isWhitespace d = false := by
    intro l'' d same
    obtain ⟨-, same⟩ := List.append_inj' same rfl
    rw [← List.singleton_injective same]
    exact visible
  have fused := length_fused starts [] (l' ++ [c]) (fun none => by simp at none) last
  rw [words_append_blank blank, List.length_append]
  exact fused.symm

/-- Elsewhere it changes nothing. -/
theorem words_of_not_fused {l s : Text} (blank : isWhitespace b = true)
    (apart : ¬ (EndsInWord l ∧ StartsWithWord s)) :
    splitWhitespace (l ++ b :: s) = splitWhitespace (l ++ s) := by
  rw [words_append_blank blank]
  rcases not_and_or.mp apart with blankBefore | blankAfter
  · rcases List.eq_nil_or_concat' l with rfl | ⟨l', c, rfl⟩
    · rfl
    · have before : isWhitespace c = true := by
        by_contra visible
        exact blankBefore ⟨l', c, rfl, Bool.eq_false_iff.mpr visible⟩
      rw [List.append_assoc, List.singleton_append, words_append_blank before,
        words_append_blank before, show splitWhitespace [] = [] from rfl, List.append_nil]
  · cases s with
    | nil => rw [List.append_nil, show splitWhitespace [] = [] from rfl, List.append_nil]
    | cons c s =>
        have after : isWhitespace c = true := by
          by_contra visible
          exact blankAfter ⟨c, s, rfl, Bool.eq_false_iff.mpr visible⟩
        rw [words_append_blank after, words_cons_blank after]

end Words

/-! ## Boundaries -/

/-- A character, or a boundary that is written or not. -/
inductive Piece where
  | letter (c : Char)
  | gap (written : Bool)
  deriving DecidableEq

/-- Every boundary as a blank, and only those that are written. -/
def parted (ps : List Piece) : Text :=
  ps.map fun
    | .letter c => c
    | .gap _ => ' '

def joined (ps : List Piece) : Text :=
  ps.filterMap fun
    | .letter c => some c
    | .gap true => some ' '
    | .gap false => none

/-- No boundary that is not written has a word right before it and one right after it. -/
def Apart (ps : List Piece) : Prop :=
  ∀ before after, ps = before ++ .gap false :: after →
    ¬ (EndsInWord (parted before) ∧ StartsWithWord (joined after))

@[simp]
theorem parted_append (ps qs : List Piece) : parted (ps ++ qs) = parted ps ++ parted qs :=
  List.map_append

@[simp]
theorem joined_append (ps qs : List Piece) : joined (ps ++ qs) = joined ps ++ joined qs :=
  List.filterMap_append

@[simp]
theorem parted_letters (t : Text) : parted (t.map .letter) = t := by
  rw [parted, List.map_map]
  exact List.map_id t

@[simp]
theorem joined_letters (t : Text) : joined (t.map .letter) = t := by
  rw [joined, List.filterMap_map]
  exact List.filterMap_some

/-- The same, after a text. -/
def ApartFrom : Text → List Piece → Prop
  | _, [] => True
  | before, .letter c :: ps => ApartFrom (before ++ [c]) ps
  | before, .gap true :: ps => ApartFrom (before ++ [' ']) ps
  | before, .gap false :: ps =>
      ¬ (EndsInWord before ∧ StartsWithWord (joined ps)) ∧ ApartFrom (before ++ [' ']) ps

theorem apartFrom_cons_iff {p : Piece} {ps : List Piece} (before : Text)
    (rest : ApartFrom (before ++ parted [p]) ps ↔ ∀ qs after, ps = qs ++ .gap false :: after →
      ¬ (EndsInWord (before ++ parted [p] ++ parted qs) ∧ StartsWithWord (joined after))) :
    ApartFrom before (p :: ps) ↔ ∀ qs after, p :: ps = qs ++ .gap false :: after →
      ¬ (EndsInWord (before ++ parted qs) ∧ StartsWithWord (joined after)) := by
  have later : ∀ qs, before ++ parted [p] ++ parted qs = before ++ parted (p :: qs) := fun qs => by
    rw [List.append_assoc, ← parted_append, List.singleton_append]
  constructor
  · intro apart qs after split
    cases qs with
    | nil =>
        obtain ⟨rfl, rfl⟩ := List.cons.inj split
        rw [show parted [] = [] from rfl, List.append_nil]
        exact apart.1
    | cons q qs =>
        obtain ⟨rfl, rest_split⟩ := List.cons.inj split
        have onwards : ApartFrom (before ++ parted [p]) ps := by
          match p with
          | .letter _ | .gap true => exact apart
          | .gap false => exact apart.2
        rw [← later]
        exact rest.mp onwards qs after rest_split
  · intro apart
    have onwards := rest.mpr fun qs after split => by
      rw [later]
      exact apart (p :: qs) after (by rw [split, List.cons_append])
    match p with
    | .letter _ | .gap true => exact onwards
    | .gap false =>
        have here := apart [] ps rfl
        rw [show parted [] = [] from rfl, List.append_nil] at here
        exact ⟨here, onwards⟩

theorem apartFrom_iff (ps : List Piece) (before : Text) :
    ApartFrom before ps ↔ ∀ qs after, ps = qs ++ .gap false :: after →
      ¬ (EndsInWord (before ++ parted qs) ∧ StartsWithWord (joined after)) := by
  induction ps generalizing before with
  | nil => exact ⟨fun _ qs after split => by simp at split, fun _ => trivial⟩
  | cons p ps ih => exact apartFrom_cons_iff before (ih _)

theorem length_words_joined_le (ps : List Piece) (before : Text) :
    (splitWhitespace (before ++ joined ps)).length ≤
      (splitWhitespace (before ++ parted ps)).length := by
  induction ps generalizing before with
  | nil => exact le_refl _
  | cons p ps ih =>
      have rest := ih (before ++ parted [p])
      rw [List.append_assoc, List.append_assoc, ← parted_append, List.singleton_append] at rest
      match p with
      | .letter _ | .gap true => exact rest
      | .gap false =>
          refine le_trans ?_ rest
          show _ ≤ (splitWhitespace (before ++ ' ' :: joined ps)).length
          by_cases fused : EndsInWord before ∧ StartsWithWord (joined ps)
          · rw [length_words_of_fused (by decide) fused.1 fused.2]
            exact Nat.le_succ _
          · rw [words_of_not_fused (by decide) fused]
            exact le_refl _

theorem words_joined_from_iff (ps : List Piece) (before : Text) :
    splitWhitespace (before ++ parted ps) = splitWhitespace (before ++ joined ps) ↔
      ApartFrom before ps := by
  induction ps generalizing before with
  | nil => exact ⟨fun _ => trivial, fun _ => rfl⟩
  | cons p ps ih =>
      have rest := ih (before ++ parted [p])
      rw [List.append_assoc, List.append_assoc, ← parted_append, List.singleton_append] at rest
      match p with
      | .letter _ | .gap true => exact rest
      | .gap false =>
          change _ = splitWhitespace (before ++ ' ' :: joined ps) ↔ _ at rest
          by_cases fused : EndsInWord before ∧ StartsWithWord (joined ps)
          · refine ⟨fun same => ?_, fun apart => absurd fused apart.1⟩
            -- the blank makes one more word
            have more := length_words_of_fused (b := ' ') (by decide) fused.1 fused.2
            have le := length_words_joined_le ps (before ++ [' '])
            rw [List.append_assoc, List.append_assoc] at le
            have lengths := congrArg List.length same
            change (splitWhitespace (before ++ ' ' :: joined ps)).length ≤
              (splitWhitespace (before ++ parted (.gap false :: ps))).length at le
            change _ = (splitWhitespace (before ++ joined ps)).length at lengths
            omega
          · rw [words_of_not_fused (by decide) fused] at rest
            exact rest.trans ⟨fun apart => ⟨fused, apart⟩, fun apart => apart.2⟩

/-- **Boundaries left out.**  The words are the same with every boundary as with those that are
written, exactly if no other boundary lies between two words. -/
theorem words_joined_iff (ps : List Piece) :
    splitWhitespace (parted ps) = splitWhitespace (joined ps) ↔ Apart ps :=
  (words_joined_from_iff ps []).trans (apartFrom_iff ps [])

instance (ps : List Piece) : Decidable (Apart ps) := decidable_of_iff _ (words_joined_iff ps)

end Mnem.Theory.Words
