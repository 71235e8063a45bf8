/-
# Ingest.Windows — the windows of the two windowed chunkers

`chunk_recursive` walks over the words of a section and `chunk_sentence_recursive`
over its sentences.  Each starts a window where the one before it says, so each
is a walk (`Theory.Spans`): its windows cover the section whatever the budget and
the overlap are.  A window of words always ends later than the one before.  A
window of sentences does so if and only if, wherever sentences are repeated, the
next sentence fits beside them (`Room`, `windows_law`); where it does not, the
window is a piece of the one before.

What the loop of `chunk_sentence_recursive` does is said twice: as the source
counts (`fill`, `reclaim`), and by what is in a window (`Fills`, `Shares`).
-/
import Mnem.Ingest.Chunk
import Mnem.Theory.Spans
import Mathlib.Data.List.TakeDrop

namespace Mnem.Ingest

open Theory Theory.Utf8

set_option autoImplicit false

/-! ## Sums over windows -/

/-- The tokens of the pieces from `i` on, up to `j`. -/
def between (tokens : List Nat) (i j : Nat) : Nat := ((tokens.take j).drop i).sum

theorem sum_take_add (tokens : List Nat) {i j : Nat} (ordered : i ≤ j) :
    (tokens.take i).sum + between tokens i j = (tokens.take j).sum := by
  have cut := List.take_append_drop i (tokens.take j)
  rw [List.take_take, Nat.min_eq_left ordered] at cut
  rw [between, ← List.sum_append, cut]

theorem between_drop (tokens : List Nat) (s k : Nat) :
    between tokens s (s + k) = ((tokens.drop s).take k).sum := by
  rw [between, List.drop_take, Nat.add_sub_cancel_left]

/-- The sums of a longer window and of a shorter one. -/
theorem between_mono (tokens : List Nat) {i i' j j' : Nat} (first : i' ≤ i) (inside : i ≤ j)
    (last : j ≤ j') : between tokens i j ≤ between tokens i' j' := by
  have inner := sum_take_add tokens inside
  have outer := sum_take_add tokens (le_trans first (le_trans inside last))
  have left := sum_take_add tokens first
  have right := sum_take_add tokens last
  omega

theorem between_single (tokens : List Nat) {i : Nat} (here : i < tokens.length) :
    between tokens i (i + 1) = tokens[i] := by
  rw [between_drop, List.take_one_drop_eq_of_lt_length here, List.sum_singleton]
  rfl

/-! ## Windows of sentences -/

/-- The window from `s` to `e` is filled: it fits the budget or is a single sentence, and the next
sentence does not fit beside it. -/
structure Fills (tokens : List Nat) (size s e : Nat) : Prop where
  more : s < e
  within : e ≤ tokens.length
  fits : between tokens s e ≤ size ∨ e = s + 1
  full : e < tokens.length → size < between tokens s (e + 1)

/-- The window after the one from `s` to `e` starts at `t`: it repeats as many sentences as fit the
overlap, but not the first. -/
structure Shares (tokens : List Nat) (overlap s e t : Nat) : Prop where
  ahead : s < t
  within : t ≤ e
  fits : between tokens t e ≤ overlap
  full : s + 1 < t → overlap < between tokens (t - 1) e

/-- The starts of the windows, as the budget and the overlap determine them. -/
inductive Starts (tokens : List Nat) (size overlap : Nat) : Nat → Prop where
  | first : Starts tokens size overlap 0
  | next {s e t : Nat} : Starts tokens size overlap s → Fills tokens size s e → e < tokens.length →
      Shares tokens overlap s e t → Starts tokens size overlap t

/-- Wherever sentences are repeated, the next sentence fits the budget beside them. -/
def Room (tokens : List Nat) (size overlap : Nat) : Prop :=
  ∀ s e t, Starts tokens size overlap s → Fills tokens size s e → e < tokens.length →
    Shares tokens overlap s e t → t < e → between tokens t (e + 1) ≤ size

theorem Fills.unique {tokens : List Nat} {size s e e' : Nat} (one : Fills tokens size s e)
    (two : Fills tokens size s e') : e = e' := by
  have shorter : ∀ {i j : Nat}, Fills tokens size s i → Fills tokens size s j → ¬ i < j := by
    intro i j a b less
    have over_size := a.full (lt_of_lt_of_le less b.within)
    have longer := between_mono tokens (le_refl s) (by have := a.more; omega) (show i + 1 ≤ j from less)
    have more := a.more
    rcases b.fits with fits | single
    · omega
    · omega
  have not_less := shorter one two
  have not_more := shorter two one
  omega

theorem Shares.unique {tokens : List Nat} {overlap s e t t' : Nat}
    (one : Shares tokens overlap s e t) (two : Shares tokens overlap s e t') : t = t' := by
  have shorter : ∀ {i j : Nat}, Shares tokens overlap s e i → Shares tokens overlap s e j →
      ¬ i < j := by
    intro i j a b less
    have over_size := b.full (by have := a.ahead; omega)
    have within := b.within
    have longer := between_mono tokens (show i ≤ j - 1 by omega) (show j - 1 ≤ e by omega)
      (le_refl e)
    have fits := a.fits
    omega
  have not_less := shorter one two
  have not_more := shorter two one
  omega

/-- The window after one ends later than it if and only if there is room for a new sentence. -/
theorem Fills.later_iff {tokens : List Nat} {size e t e' : Nat} (next : Fills tokens size t e')
    (ahead : t ≤ e) (more : e < tokens.length) :
    e < e' ↔ (t < e → between tokens t (e + 1) ≤ size) := by
  constructor
  · intro later repeats
    have longer := between_mono tokens (le_refl t) (by omega) (show e + 1 ≤ e' from later)
    rcases next.fits with fits | single
    · exact le_trans longer fits
    · omega
  · intro room
    by_contra stuck
    have starts := next.more
    have full := next.full (by omega)
    have longer := between_mono tokens (le_refl t) (by omega) (show e' + 1 ≤ e + 1 by omega)
    have fits := room (by omega)
    omega

/-! ## The counts of the source -/

/-- The loop that fills a window takes some of the sentences that are left, and stops where the
next one does not fit. -/
theorem fill_takes (size : Nat) (ts : List Nat) : ∀ (tok n : Nat), tok ≤ size →
    (∀ t ∈ ts, 0 < t) → ∃ k, k ≤ ts.length ∧
      fill size tok n ts = (n + k, tok + (ts.take k).sum) ∧
      (ts ≠ [] → n = 0 → 0 < k) ∧
      (tok + (ts.take k).sum ≤ size ∨ (n = 0 ∧ k = 1)) ∧
      (k < ts.length → size < tok + (ts.take (k + 1)).sum) := by
  induction ts with
  | nil =>
      intro tok n fits _
      exact ⟨0, le_refl 0, rfl, fun some => absurd rfl some, Or.inl fits, fun less => by cases less⟩
  | cons t ts ih =>
      intro tok n fits positive
      rw [fill]
      by_cases full : size < tok + t ∧ 0 < n
      · rw [if_pos (by simpa using full)]
        refine ⟨0, Nat.zero_le _, rfl, fun _ none => by omega, Or.inl fits, fun _ => ?_⟩
        show size < tok + (t + List.sum [])
        rw [List.sum_nil]
        omega
      · rw [if_neg (by simpa using full)]
        by_cases reached : size ≤ tok + t
        · rw [if_pos reached]
          refine ⟨1, by simp, by simp, fun _ _ => Nat.one_pos, ?_, fun less => ?_⟩
          · rcases Nat.eq_zero_or_pos n with none | some
            · exact Or.inr ⟨none, rfl⟩
            · left
              simp only [List.take_succ_cons, List.take_zero, List.sum_cons, List.sum_nil]
              omega
          · cases ts with
            | nil => simp at less
            | cons u us =>
                have later := positive u (by simp)
                simp only [List.take_succ_cons, List.take_zero, List.sum_cons, List.sum_nil]
                omega
        · rw [if_neg reached]
          obtain ⟨k, within, taken, -, small, stops⟩ := ih (tok + t) (n + 1) (by omega)
            (fun u m => positive u (List.mem_cons_of_mem _ m))
          refine ⟨k + 1, by simpa using within, ?_, fun _ _ => Nat.succ_pos k, ?_, fun less => ?_⟩
          · rw [taken, List.take_succ_cons, List.sum_cons]
            congr 1
            · omega
            · omega
          · rw [List.take_succ_cons, List.sum_cons]
            omega
          · have stop := stops (by simpa using less)
            rw [List.take_succ_cons, List.sum_cons]
            omega

/-- The loop that walks back takes what fits the overlap. -/
theorem reclaim_takes (overlap : Nat) (ts : List Nat) : ∀ tok, tok ≤ overlap →
    reclaim overlap tok ts ≤ ts.length ∧
      tok + (ts.take (reclaim overlap tok ts)).sum ≤ overlap ∧
      (reclaim overlap tok ts < ts.length →
        overlap < tok + (ts.take (reclaim overlap tok ts + 1)).sum) := by
  induction ts with
  | nil =>
      intro tok fits
      exact ⟨le_refl 0, fits, fun less => by cases less⟩
  | cons t ts ih =>
      intro tok fits
      rw [reclaim]
      by_cases full : overlap < tok + t
      · rw [if_pos full]
        refine ⟨Nat.zero_le _, fits, fun _ => ?_⟩
        show overlap < tok + (t + List.sum [])
        rw [List.sum_nil]
        exact full
      · rw [if_neg full]
        obtain ⟨within, fit, stops⟩ := ih (tok + t) (by omega)
        rw [Nat.add_comm 1]
        refine ⟨by simpa using within, ?_, fun less => ?_⟩
        · rw [List.take_succ_cons, List.sum_cons]
          omega
        · have stop := stops (by simpa using less)
          rw [List.take_succ_cons, List.sum_cons]
          omega

/-- The end of a window of sentences, from its start on, and how many of them are repeated. -/
def filled (size : Nat) (tokens : List Nat) (s : Nat) : Nat :=
  max (fill size 0 0 (tokens.drop s)).1 1

def repeated (size overlap : Nat) (tokens : List Nat) (s : Nat) : Nat :=
  reclaim overlap 0 (((tokens.drop s).take (filled size tokens s)).drop 1).reverse

section Counts

variable {tokens : List Nat} (size overlap : Nat) {s : Nat}

theorem fills_filled (positive : ∀ t ∈ tokens, 0 < t) (inside : s < tokens.length) :
    Fills tokens size s (s + filled size tokens s) ∧
      (fill size 0 0 (tokens.drop s)).2 = between tokens s (s + filled size tokens s) := by
  obtain ⟨k, within, taken, some, small, stops⟩ := fill_takes size (tokens.drop s) 0 0
    (Nat.zero_le _) (fun t m => positive t (List.mem_of_mem_drop m))
  have left : (tokens.drop s).length = tokens.length - s := List.length_drop
  have not_none : tokens.drop s ≠ [] := by
    intro none
    rw [none, List.length_nil] at left
    omega
  have pos := some not_none rfl
  have count : filled size tokens s = k := by
    rw [filled, taken]
    show max (0 + k) 1 = k
    omega
  rw [count, taken]
  refine ⟨⟨by omega, by omega, ?_, fun less => ?_⟩, ?_⟩
  · rw [between_drop]
    omega
  · rw [Nat.add_assoc, between_drop]
    have stop := stops (by omega)
    omega
  · rw [between_drop]
    exact Nat.zero_add _

/-- The last sentences of a window, but for its first, from the last one on. -/
theorem sum_take_reverse {n k : Nat} (pos : 0 < n) (within : s + n ≤ tokens.length)
    (less : k ≤ n - 1) : ((((tokens.drop s).take n).drop 1).reverse.take k).sum =
      between tokens (s + n - k) (s + n) := by
  have long : (((tokens.drop s).take n).drop 1).length = n - 1 := by
    rw [List.length_drop, List.length_take, List.length_drop]
    omega
  have cut : (tokens.drop s).take n = (tokens.take (s + n)).drop s := by
    rw [List.drop_take, Nat.add_sub_cancel_left]
  rw [List.take_reverse, List.sum_reverse, long, cut, List.drop_drop, List.drop_drop, between]
  congr 2
  omega

theorem shares_repeated (positive : ∀ t ∈ tokens, 0 < t) (inside : s < tokens.length) :
    Shares tokens overlap s (s + filled size tokens s)
      (s + max (filled size tokens s - repeated size overlap tokens s) 1) := by
  obtain ⟨within, fit, stops⟩ := reclaim_takes overlap
    (((tokens.drop s).take (filled size tokens s)).drop 1).reverse 0 (Nat.zero_le _)
  have fills := (fills_filled size positive inside).1
  have more := fills.more
  have long : (((tokens.drop s).take (filled size tokens s)).drop 1).reverse.length =
      filled size tokens s - 1 := by
    rw [List.length_reverse, List.length_drop, List.length_take, List.length_drop]
    have bound := fills.within
    omega
  change repeated size overlap tokens s ≤ _ at within
  change 0 + (List.take (repeated size overlap tokens s) _).sum ≤ overlap at fit
  change repeated size overlap tokens s < _ →
    overlap < 0 + (List.take (repeated size overlap tokens s + 1) _).sum at stops
  rw [long] at within stops
  rw [sum_take_reverse (by omega) fills.within within] at fit
  have start : s + max (filled size tokens s - repeated size overlap tokens s) 1 =
      s + filled size tokens s - repeated size overlap tokens s := by
    omega
  rw [start]
  refine ⟨by omega, by omega, by omega, fun longer => ?_⟩
  have stop := stops (by omega)
  rw [sum_take_reverse (by omega) fills.within (by omega)] at stop
  rw [Nat.sub_sub]
  omega

end Counts

/-! ## The walks -/

/-- Each window has the budget's number of words, if so many are left. -/
def wordSpans (size overlap : Nat) (words : List Text) : List (Nat × Nat) :=
  spans words.length (fun s => min size (words.length - s)) (fun _ => size - overlap) 0

/-- How many words a sentence has. -/
def wordCount (t : Text) : Nat := (splitWhitespace t).length

def sentenceSpans (size overlap : Nat) (sentences : List Text) : List (Nat × Nat) :=
  let tokens := sentences.map wordCount
  spans sentences.length (filled size tokens)
    (fun s => filled size tokens s - repeated size overlap tokens s) 0

/-- The chunk of a window; `count` counts the tokens of a piece. -/
def cut (count : Text → Nat) (path : List String) (pieces : List Text) (w : Nat × Nat) : Chunk :=
  ⟨path, joinBlank ((pieces.take w.2).drop w.1), toU32 (between (pieces.map count) w.1 w.2)⟩

theorem joinBlank_take (pieces : List Text) (s n : Nat) :
    (pieces.drop s).take n = (pieces.take (s + n)).drop s := by
  rw [List.drop_take, Nat.add_sub_cancel_left]

theorem between_ones {pieces : List Text} {i j : Nat} (inside : j ≤ pieces.length) :
    between (pieces.map fun _ => 1) i j = j - i := by
  rw [between, List.map_const', List.take_replicate, List.drop_replicate, List.sum_replicate_nat]
  rw [Nat.mul_one, Nat.min_eq_left inside]

theorem windows_eq (path : List String) {size : Nat} (advance : Nat) (words : List Text) (s : Nat) :
    windows path size advance (words.drop s) =
      (spans words.length (fun s => min size (words.length - s)) (fun _ => advance) s).map
        (cut (fun _ => 1) path words) := by
  induction hn : words.length - s using Nat.strong_induction_on generalizing s with
  | _ n ih =>
      have left : (words.drop s).length = words.length - s := List.length_drop
      rw [windows, spans]
      by_cases inside : s < words.length
      · have some : words.drop s ≠ [] := by
          intro none
          rw [none, List.length_nil] at left
          omega
        rw [if_neg some, if_pos inside]
        have taken : (words.drop s).take size =
            (words.take (s + min size (words.length - s))).drop s := by
          rw [← joinBlank_take, List.take_eq_take_iff]
          omega
        have counted : ((words.drop s).take size).length =
            between (words.map fun _ => 1) s (s + min size (words.length - s)) := by
          rw [between_ones (by omega), List.length_take]
          omega
        rw [List.map_cons, cut, taken, ← counted]
        dsimp only
        rw [taken]
        congr 1
        by_cases last : (words.drop s).length ≤ size
        · rw [if_pos last, if_neg (by omega)]
          rfl
        · rw [if_neg last, if_pos (by omega), List.drop_drop]
          exact ih _ (by omega) _ rfl
      · rw [if_neg inside, if_pos (List.drop_of_length_le (by omega))]
        rfl

theorem sentenceWindows_eq (path : List String) {size : Nat} (overlap : Nat)
    {sentences : List Text} (positive : ∀ t ∈ sentences.map wordCount, 0 < t) (s : Nat) :
    sentenceWindows path size overlap (sentences.drop s) =
      (spans sentences.length (filled size (sentences.map wordCount))
        (fun s => filled size (sentences.map wordCount) s -
          repeated size overlap (sentences.map wordCount) s) s).map
        (cut wordCount path sentences) := by
  induction hn : sentences.length - s using Nat.strong_induction_on generalizing s with
  | _ n ih =>
      have left : (sentences.drop s).length = sentences.length - s := List.length_drop
      rw [sentenceWindows, spans]
      by_cases inside : s < sentences.length
      · have some : sentences.drop s ≠ [] := by
          intro none
          rw [none, List.length_nil] at left
          omega
        have tokens : (sentences.drop s).map (fun t => (splitWhitespace t).length) =
            (sentences.map wordCount).drop s := List.map_drop
        obtain ⟨fills, counted⟩ := fills_filled size positive
          (show s < (sentences.map wordCount).length by rw [List.length_map]; exact inside)
        rw [if_neg some, if_pos inside, tokens, List.map_cons, cut]
        dsimp only
        rw [counted, joinBlank_take]
        change _ :: _ = _ :: _
        congr 1
        by_cases more : s + filled size (sentences.map wordCount) s < sentences.length
        · rw [if_pos more, ← ih _ (by omega) _ rfl, ← List.drop_drop]
          exact if_neg (show ¬ (sentences.drop s).length ≤ filled size (sentences.map wordCount) s
            by omega)
        · rw [if_neg more]
          exact if_pos (show (sentences.drop s).length ≤ filled size (sentences.map wordCount) s
            by omega)
      · rw [if_neg inside, if_pos (List.drop_of_length_le (by omega))]
        rfl

/-! ## The words of sentences -/

theorem exists_word {c : Char} {t : Text} (visible : isWhitespace c = false) :
    ∀ word, c ∈ t ∨ word ≠ [] → wordsFrom word t ≠ [] := by
  induction t with
  | nil =>
      rintro word (inNone | some)
      · cases inNone
      · rw [wordsFrom, if_neg some]
        exact List.cons_ne_nil _ _
  | cons d t ih =>
      intro word found
      rw [wordsFrom]
      by_cases blank : isWhitespace d
      · rw [if_pos blank]
        by_cases none : word = []
        · rw [if_pos none]
          refine ih [] (Or.inl ?_)
          rcases found with inText | some
          · rcases List.mem_cons.mp inText with rfl | later
            · rw [visible] at blank
              cases blank
            · exact later
          · exact absurd none some
        · rw [if_neg none]
          exact List.cons_ne_nil _ _
      · rw [if_neg blank]
        exact ih _ (Or.inr (List.cons_ne_nil _ _))

/-- A trimmed piece with something in it has a word. -/
theorem wordCount_trim_pos {t : Text} (some : trim t ≠ []) : 0 < wordCount (trim t) := by
  have not_none : (t.dropWhile isWhitespace).reverse.dropWhile isWhitespace ≠ [] := by
    intro none
    rw [trim, none] at some
    exact some rfl
  have visible := List.head_dropWhile_not isWhitespace not_none
  rw [wordCount, List.length_pos_iff]
  refine exists_word visible [] (Or.inl ?_)
  rw [trim, List.mem_reverse]
  exact List.head_mem not_none

/-! ## The chunks -/

/-- The words of a section, none if it is blank. -/
def wordsOf (s : Section) : List Text := if trim s.text = [] then [] else splitWhitespace s.text

/-- The sentences of a section, none if it is blank. -/
def sentencesOf (sentenceBounds : Text → List Text) (s : Section) : List Text :=
  if trim s.text = [] then []
  else ((sentenceBounds (trim s.text)).map trim).filter fun t => decide (t ≠ [])

theorem wordCount_pos {bounds : Text → List Text} {s : Section} :
    ∀ n ∈ (sentencesOf bounds s).map wordCount, 0 < n := by
  intro n m
  obtain ⟨t, inSection, rfl⟩ := List.mem_map.mp m
  unfold sentencesOf at inSection
  split at inSection
  · cases inSection
  · obtain ⟨trimmed, some⟩ := List.mem_filter.mp inSection
    obtain ⟨u, -, rfl⟩ := List.mem_map.mp trimmed
    exact wordCount_trim_pos (of_decide_eq_true some)

theorem chunk_perSection {bounds : Text → List Text} {sections : List Section} {kind : ChunkerKind}
    {c : Section → Nat → List Chunk}
    (each : ∀ s i, (if trim s.text = [] then []
      else chunksOfSection bounds (sectionPathFor sections i) s kind) = c s i) :
    (perSection bounds sections kind).map Built.chunk =
      sections.zipIdx.flatMap fun p => c p.1 p.2 := by
  rw [perSection, List.map_flatMap]
  congr 1
  funext p
  rw [← each]
  split
  · rfl
  · rw [List.map_map]
    exact List.map_id _

/-- The chunks of `chunk_recursive` are its windows. -/
theorem chunk_recursive (bounds : Text → List Text) (sections : List Section)
    (maxTokens overlap : Nat) :
    chunk bounds sections (.recursive maxTokens overlap) =
      sections.zipIdx.flatMap fun p =>
        (wordSpans (max maxTokens 1) (min overlap (max maxTokens 1 - 1)) (wordsOf p.1)).map
          (cut (fun _ => 1) (sectionPathFor sections p.2) (wordsOf p.1)) := by
  refine chunk_perSection (c := fun s i =>
    (wordSpans (max maxTokens 1) (min overlap (max maxTokens 1 - 1)) (wordsOf s)).map
      (cut (fun _ => 1) (sectionPathFor sections i) (wordsOf s))) fun s i => ?_
  unfold wordsOf
  split
  · rw [wordSpans, spans]
    rfl
  · exact windows_eq _ _ (splitWhitespace s.text) 0

/-- The chunks of `chunk_sentence_recursive` are its windows. -/
theorem chunk_sentence_recursive (bounds : Text → List Text) (sections : List Section)
    (maxTokens overlap : Nat) :
    chunk bounds sections (.sentenceRecursive maxTokens overlap) =
      sections.zipIdx.flatMap fun p =>
        (sentenceSpans (max maxTokens 1) (min overlap (max maxTokens 1 - 1))
          (sentencesOf bounds p.1)).map
          (cut wordCount (sectionPathFor sections p.2) (sentencesOf bounds p.1)) := by
  refine chunk_perSection (c := fun s i =>
    (sentenceSpans (max maxTokens 1) (min overlap (max maxTokens 1 - 1)) (sentencesOf bounds s)).map
      (cut wordCount (sectionPathFor sections i) (sentencesOf bounds s))) fun s i => ?_
  have positive : ∀ n ∈ (sentencesOf bounds s).map wordCount, 0 < n := wordCount_pos
  unfold sentencesOf at positive ⊢
  split at positive
  · rename_i blank
    rw [if_pos blank, if_pos blank, sentenceSpans, spans]
    rfl
  · rename_i some
    rw [if_neg some, if_neg some]
    exact sentenceWindows_eq _ _ positive 0

/-! ## The law of the windows -/

/-- Windows over the pieces of a section that cover it, each later one with something new, within
the budget and the overlap, and with the estimates of their chunks right. -/
structure Windowed (count : Text → Nat) (size overlap : Nat) (pieces : List Text)
    (ws : List (Nat × Nat)) : Prop where
  covers : Covers pieces.length ws
  grows : ws.IsChain fun w v => w.2 < v.2
  budget : ∀ w ∈ ws, between (pieces.map count) w.1 w.2 ≤ size ∨ w.2 = w.1 + 1
  shared : ws.IsChain fun w v => between (pieces.map count) v.1 w.2 ≤ overlap
  estimate : ∀ path, ∀ w ∈ ws,
    (cut count path pieces w).tokensEstimate = between (pieces.map count) w.1 w.2

theorem toU32_eq_iff {n : Nat} : toU32 n = n ↔ n ≤ 2 ^ 32 - 1 := by
  rw [toU32]
  omega

section Words

variable {size overlap : Nat} (words : List Text)

theorem bounded_words (pos : 0 < size) : Bounded words.length
    (fun s => min size (words.length - s)) (fun _ => size - overlap) := by
  intro s inside
  dsimp only
  exact ⟨by omega, by omega, fun more => by omega⟩

/-- Two windows of words in a row share as many as the overlap says. -/
theorem shared_words (less : overlap < size) :
    (wordSpans size overlap words).IsChain
      fun w v => between (words.map fun _ => 1) v.1 w.2 = overlap := by
  rw [wordSpans, isChain_spans_iff (bounded_words words (by omega))]
  intro s _ more
  dsimp only
  rw [between_ones (by omega)]
  omega

theorem windowed_words (less : overlap < size) (fits : size ≤ 2 ^ 32 - 1) :
    Windowed (fun _ => 1) size overlap words (wordSpans size overlap words) where
  covers := covers_spans (bounded_words words (by omega))
  grows := by
    rw [wordSpans, isChain_spans_iff (bounded_words words (by omega))]
    intro s _ more
    dsimp only
    omega
  budget := by
    intro w m
    obtain ⟨s, -, inside, rfl⟩ := mem_spans_iff.mp m
    rw [between_ones (by omega)]
    omega
  shared := (shared_words words less).imp fun _ _ same => le_of_eq same
  estimate := by
    intro path w m
    obtain ⟨s, -, inside, rfl⟩ := mem_spans_iff.mp m
    refine toU32_eq_iff.mpr ?_
    rw [between_ones (by omega)]
    omega

end Words

section Sentences

variable {size overlap : Nat} {sentences : List Text}

theorem bounded_sentences (size overlap : Nat) (positive : ∀ n ∈ sentences.map wordCount, 0 < n) :
    Bounded sentences.length (filled size (sentences.map wordCount))
      (fun s => filled size (sentences.map wordCount) s -
        repeated size overlap (sentences.map wordCount) s) := by
  intro s inside
  have here : s < (sentences.map wordCount).length := by
    rw [List.length_map]
    exact inside
  have fills := (fills_filled size positive here).1
  have shares := shares_repeated size overlap positive here
  have within := fills.within
  rw [List.length_map] at within
  refine ⟨?_, within, fun _ => ?_⟩
  · have more := fills.more
    omega
  · have ahead := shares.within
    dsimp only
    omega

/-- The walk visits the starts that the budget and the overlap determine. -/
theorem visits_iff (positive : ∀ n ∈ sentences.map wordCount, 0 < n) {s : Nat} :
    Visits sentences.length (filled size (sentences.map wordCount))
      (fun s => filled size (sentences.map wordCount) s -
        repeated size overlap (sentences.map wordCount) s) 0 s ↔
      Starts (sentences.map wordCount) size overlap s := by
  have long : (sentences.map wordCount).length = sentences.length := List.length_map _
  constructor
  · intro visits
    induction visits with
    | start => exact .first
    | next _ more ih =>
        exact ih.next (fills_filled size positive (by omega)).1 (by omega)
          (shares_repeated size overlap positive (by omega))
  · intro starts
    induction starts with
    | first => exact .start
    | next _ fills more shares ih =>
        have begins := fills.more
        have same := fills.unique (fills_filled size positive (by omega)).1
        subst same
        have next := shares.unique (shares_repeated size overlap positive (by omega))
        subst next
        exact ih.next (by omega)

theorem grows_iff (positive : ∀ n ∈ sentences.map wordCount, 0 < n) :
    ((sentenceSpans size overlap sentences).IsChain fun w v => w.2 < v.2) ↔
      Room (sentences.map wordCount) size overlap := by
  have long : (sentences.map wordCount).length = sentences.length := List.length_map _
  rw [sentenceSpans, isChain_spans_iff (bounded_sentences size overlap positive)]
  constructor
  · intro grows s e t starts fills more shares
    have begins := fills.more
    have same := fills.unique (fills_filled size positive (by omega)).1
    subst same
    have next := shares.unique (shares_repeated size overlap positive (by omega))
    subst next
    have ahead := shares.within
    exact ((fills_filled size positive (by omega)).1.later_iff ahead more).mp
      (grows s ((visits_iff positive).mpr starts) (by omega))
  · intro room s visits more
    have fills := (fills_filled size positive (show s < _ by omega)).1
    have shares := shares_repeated size overlap positive
      (show s < _ by omega)
    have ahead := shares.within
    exact ((fills_filled size positive (by omega)).1.later_iff ahead (by omega)).mpr
      (room s _ _ ((visits_iff positive).mp visits) fills (by omega) shares)

theorem budget_sentences (positive : ∀ n ∈ sentences.map wordCount, 0 < n) :
    ∀ w ∈ sentenceSpans size overlap sentences,
      between (sentences.map wordCount) w.1 w.2 ≤ size ∨ w.2 = w.1 + 1 := by
  intro w m
  obtain ⟨s, -, inside, rfl⟩ := mem_spans_iff.mp m
  exact (fills_filled size positive (by rw [List.length_map]; exact inside)).1.fits

theorem shared_sentences (positive : ∀ n ∈ sentences.map wordCount, 0 < n) :
    (sentenceSpans size overlap sentences).IsChain
      fun w v => between (sentences.map wordCount) v.1 w.2 ≤ overlap := by
  rw [sentenceSpans, isChain_spans_iff (bounded_sentences size overlap positive)]
  intro s _ more
  exact (shares_repeated size overlap positive (by rw [List.length_map]; omega)).fits

/-- The estimates are right if and only if each sentence alone has one. -/
theorem estimate_iff (positive : ∀ n ∈ sentences.map wordCount, 0 < n)
    (fits : size ≤ 2 ^ 32 - 1) :
    (∀ path, ∀ w ∈ sentenceSpans size overlap sentences,
      (cut wordCount path sentences w).tokensEstimate =
        between (sentences.map wordCount) w.1 w.2) ↔
      ∀ t ∈ sentences, wordCount t ≤ 2 ^ 32 - 1 := by
  have long : (sentences.map wordCount).length = sentences.length := List.length_map _
  have covers := covers_spans (bounded_sentences size overlap positive)
  constructor
  · intro estimate t m
    obtain ⟨i, inside, rfl⟩ := List.mem_iff_getElem.mp m
    obtain ⟨w, inSpans, first, last⟩ := covers.exists_mem inside
    have small := toU32_eq_iff.mp (estimate [] w inSpans)
    have single := between_single (sentences.map wordCount) (show i < _ by omega)
    rw [List.getElem_map] at single
    have longer := between_mono (sentences.map wordCount) first (Nat.le_add_right i 1)
      (show i + 1 ≤ w.2 from last)
    omega
  · intro small path w m
    refine toU32_eq_iff.mpr ?_
    rcases budget_sentences positive w m with within | single
    · exact le_trans within fits
    · obtain ⟨s, -, inside, rfl⟩ := mem_spans_iff.mp m
      have one := between_single (sentences.map wordCount) (show s < _ by omega)
      rw [List.getElem_map] at one
      rw [single, one]
      exact small _ (List.getElem_mem _)

theorem windowed_sentences_iff (positive : ∀ n ∈ sentences.map wordCount, 0 < n)
    (fits : size ≤ 2 ^ 32 - 1) :
    Windowed wordCount size overlap sentences (sentenceSpans size overlap sentences) ↔
      Room (sentences.map wordCount) size overlap ∧ ∀ t ∈ sentences, wordCount t ≤ 2 ^ 32 - 1 :=
  ⟨fun windowed => ⟨(grows_iff positive).mp windowed.grows,
      (estimate_iff positive fits).mp windowed.estimate⟩,
    fun ⟨room, small⟩ =>
      { covers := covers_spans (bounded_sentences size overlap positive)
        grows := (grows_iff positive).mpr room
        budget := budget_sentences positive
        shared := shared_sentences positive
        estimate := (estimate_iff positive fits).mpr small }⟩

end Sentences

/-- **The windowed chunkers cover the sections.**  The chunks are the windows' chunks; windows of
words share what the overlap says and each ends later than the one before.  So do windows of
sentences, if and only if there is room for a new sentence wherever sentences are repeated; and
their estimates are right if and only if no sentence has more words than the estimate can count. -/
theorem windows_law (bounds : Text → List Text) (sections : List Section)
    (maxTokens overlap : UInt32) :
    let size := max maxTokens.toNat 1
    let shared := min overlap.toNat (size - 1)
    (chunk bounds sections (.recursive maxTokens.toNat overlap.toNat) =
        sections.zipIdx.flatMap fun p => (wordSpans size shared (wordsOf p.1)).map
          (cut (fun _ => 1) (sectionPathFor sections p.2) (wordsOf p.1))) ∧
      (∀ s ∈ sections,
        Windowed (fun _ => 1) size shared (wordsOf s) (wordSpans size shared (wordsOf s)) ∧
          (wordSpans size shared (wordsOf s)).IsChain
            fun w v => between ((wordsOf s).map fun _ => 1) v.1 w.2 = shared) ∧
      (chunk bounds sections (.sentenceRecursive maxTokens.toNat overlap.toNat) =
        sections.zipIdx.flatMap fun p => (sentenceSpans size shared (sentencesOf bounds p.1)).map
          (cut wordCount (sectionPathFor sections p.2) (sentencesOf bounds p.1))) ∧
      ((∀ s ∈ sections, Windowed wordCount size shared (sentencesOf bounds s)
          (sentenceSpans size shared (sentencesOf bounds s))) ↔
        ∀ s ∈ sections, Room ((sentencesOf bounds s).map wordCount) size shared ∧
          ∀ t ∈ sentencesOf bounds s, wordCount t ≤ 2 ^ 32 - 1) := by
  intro size shared
  have small := maxTokens.toNat_lt
  have fits : size ≤ 2 ^ 32 - 1 := by
    omega
  have less : shared < size := by
    omega
  refine ⟨chunk_recursive bounds sections maxTokens.toNat overlap.toNat,
    fun s _ => ⟨windowed_words _ less fits, shared_words _ less⟩,
    chunk_sentence_recursive bounds sections maxTokens.toNat overlap.toNat, ?_⟩
  exact forall_congr' fun s => imp_congr_right fun _ =>
    windowed_sentences_iff wordCount_pos fits

/-- Sentences of five, five and eight words. -/
def threeSentences : Section :=
  ⟨none, 0, "A b c d e. F g h i j. K l m n o p q r.".toList⟩

def cutThree (_ : Text) : List Text :=
  ["A b c d e. ".toList, "F g h i j. ".toList, "K l m n o p q r.".toList]

theorem spans_threeSentences :
    sentenceSpans 10 5 (sentencesOf cutThree threeSentences) = [(0, 2), (1, 2), (2, 3)] := by
  rw [sentenceSpans, spans, if_pos (by decide), if_pos (by decide)]
  rw [spans, if_pos (by decide), if_pos (by decide)]
  rw [spans, if_pos (by decide), if_neg (by decide)]
  decide

/-- The last sentence has no room beside the second, which is repeated, so the second of the three
chunks is the end of the first. -/
theorem chunk_repeats :
    (chunk cutThree [threeSentences] (.sentenceRecursive 10 5)).map (fun c => String.ofList c.text) =
        ["A b c d e. F g h i j.", "F g h i j.", "K l m n o p q r."] ∧
      ¬ ∀ (bounds : Text → List Text) (sections : List Section) (maxTokens overlap : UInt32),
        let size := max maxTokens.toNat 1
        let shared := min overlap.toNat (size - 1)
        ∀ s ∈ sections, Windowed wordCount size shared (sentencesOf bounds s)
          (sentenceSpans size shared (sentencesOf bounds s)) := by
  constructor
  · rw [chunk_sentence_recursive]
    show List.map _ ((sentenceSpans 10 5 (sentencesOf cutThree threeSentences)).map _ ++ []) = _
    rw [spans_threeSentences]
    decide
  · intro law
    have windowed := law cutThree [threeSentences] 10 5 threeSentences List.mem_cons_self
    have grows := windowed.grows
    change (sentenceSpans 10 5 (sentencesOf cutThree threeSentences)).IsChain _ at grows
    rw [spans_threeSentences] at grows
    cases grows with
    | cons_cons less _ => exact absurd less (by decide)

end Mnem.Ingest
