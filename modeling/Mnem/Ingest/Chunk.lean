/-
# Ingest.Chunk — chunkers

Every chunker cuts the texts of the sections and keeps, of the section a chunk
comes from, its breadcrumb of headings alone.  The model keeps the positions of
the sections beside each chunk (`Built`), which the chunks handed on do not
have (`chunk`).  The last heading of a breadcrumb is the section's own when it
has one at a depth of its own (`getLast?_sectionPath`).
-/
import Mnem.Ingest.Extract

namespace Mnem.Ingest

open Theory.Utf8

set_option autoImplicit false

/-- A piece of the document under a breadcrumb of headings, outermost first. -/
structure Chunk where
  sectionPath : List String
  text : Text
  tokensEstimate : Nat
  deriving DecidableEq

/-- A chunk with the positions of the sections it was made of. -/
structure Built where
  chunk : Chunk
  sources : List Nat
  deriving DecidableEq

inductive ChunkerKind where
  | paragraph
  | recursive (maxTokens overlap : Nat)
  | sentenceRecursive (maxTokens overlap : Nat)
  | session (maxMessages : Nat)
  | structural
  deriving DecidableEq

/-! ## Breadcrumbs -/

/-- The nearest heading of each depth, walking back from a section; innermost first. -/
def climb : Nat → List Section → List String
  | _, [] => []
  | lastDepth, s :: before =>
      match s.heading with
      | none => climb lastDepth before
      | some h =>
          if 0 < s.depth && s.depth ≤ lastDepth then
            if s.depth - 1 = 0 then [h] else h :: climb (s.depth - 1) before
          else climb lastDepth before

def sectionPathFor (sections : List Section) (idx : Nat) : List String :=
  match sections[idx]? with
  | none => []
  | some s => (climb s.depth (sections.take (idx + 1)).reverse).reverse

/-- `u32::try_from(n).unwrap_or(u32::MAX)`. -/
def toU32 (n : Nat) : Nat := min n (2 ^ 32 - 1)

def tokenCount (t : Text) : Nat := toU32 (splitWhitespace t).length

/-! ## Chunks of one section -/

def joinBlank (words : List Text) : Text := List.intercalate [' '] words

/-- The trimmed paragraphs with something in them. -/
def paragraphs (path : List String) (t : Text) : List Chunk :=
  (splitParagraphs t).filterMap fun para =>
    if trim para = [] then none else some ⟨path, trim para, tokenCount (trim para)⟩

/-- Windows of `size` words, each `advance` after the one before. -/
def windows (path : List String) (size advance : Nat) (words : List Text) : List Chunk :=
  if words = [] then []
  else
    let slice := words.take size
    ⟨path, joinBlank slice, toU32 slice.length⟩ ::
      if words.length ≤ size then [] else windows path size advance (words.drop (max advance 1))
  termination_by words.length
  decreasing_by
    rw [List.length_drop]
    omega

/-- How many sentences fill a window, and their tokens. -/
def fill (size : Nat) : Nat → Nat → List Nat → Nat × Nat
  | tok, n, [] => (n, tok)
  | tok, n, t :: ts =>
      if size < tok + t && 0 < n then (n, tok)
      else if size ≤ tok + t then (n + 1, tok + t)
      else fill size (tok + t) (n + 1) ts

/-- How many of the sentences before the end fit the overlap, walking back. -/
def reclaim (overlap : Nat) : Nat → List Nat → Nat
  | _, [] => 0
  | tok, t :: ts => if overlap < tok + t then 0 else 1 + reclaim overlap (tok + t) ts

/-- Windows of whole sentences; a sentence is counted by its words. -/
def sentenceWindows (path : List String) (size overlap : Nat) (sentences : List Text) :
    List Chunk :=
  if sentences = [] then []
  else
    let tokens := sentences.map fun s => (splitWhitespace s).length
    let filled := fill size 0 0 tokens
    let n := max filled.1 1
    ⟨path, joinBlank (sentences.take n), toU32 filled.2⟩ ::
      if sentences.length ≤ n then []
      else
        -- the first sentence of a window is never reclaimed
        let back := reclaim overlap 0 ((tokens.take n).drop 1).reverse
        sentenceWindows path size overlap (sentences.drop (max (n - back) 1))
  termination_by sentences.length
  decreasing_by
    have pos : 0 < sentences.length := List.length_pos_iff.mpr ‹_›
    rw [List.length_drop]
    omega

/-- The chunks of one section, given its breadcrumb; `session` cuts otherwise. -/
def chunksOfSection (sentenceBounds : Text → List Text) (path : List String) (s : Section) :
    ChunkerKind → List Chunk
  | .paragraph => paragraphs path s.text
  | .recursive maxTokens overlap =>
      let size := max maxTokens 1
      windows path size (size - min overlap (size - 1)) (splitWhitespace s.text)
  | .sentenceRecursive maxTokens overlap =>
      let size := max maxTokens 1
      sentenceWindows path size (min overlap (size - 1))
        (((sentenceBounds (trim s.text)).map trim).filter fun t => decide (t ≠ []))
  | .structural => [⟨path, trim s.text, tokenCount (trim s.text)⟩]
  | .session _ => []

/-- Sections with nothing but white space are skipped. -/
def perSection (sentenceBounds : Text → List Text) (sections : List Section)
    (kind : ChunkerKind) : List Built :=
  sections.zipIdx.flatMap fun p =>
    if trim p.1.text = [] then []
    else (chunksOfSection sentenceBounds (sectionPathFor sections p.2) p.1 kind).map fun c =>
      ⟨c, [p.2]⟩

/-! ## Session chunks -/

/-- The role in the heading `[role]` of a message. -/
def sectionRole (s : Section) : Option Text := do
  let h ← s.heading
  match h.toList with
  | '[' :: rest => if rest.getLast? = some ']' then some rest.dropLast else none
  | _ => none

/-- The texts of a group of messages under their headings. -/
def sessionText : List (Section × Nat) → Text
  | [] => []
  | p :: rest =>
      ((p.1.heading.map fun h => h.toList ++ ['\n']).getD [] ++ p.1.text) ++
        if rest = [] then [] else ['\n', '\n'] ++ sessionText rest

/-- A chunk of a group of messages, under the breadcrumb of the first. -/
def flush (sections : List Section) (buffer : List (Section × Nat)) : List Built :=
  match buffer with
  | [] => []
  | p :: _ =>
      let text := sessionText buffer
      [⟨⟨sectionPathFor sections p.2, text, toU32 (splitWhitespace text).length⟩,
        buffer.map Prod.snd⟩]

/-- The loop over the messages: a group ends when the user speaks again, or when it is full. -/
def sessions (sections : List Section) (cap : Nat) :
    List (Section × Nat) → Bool → List (Section × Nat) → List Built
  | buffer, _, [] => flush sections buffer
  | buffer, sawNonUser, p :: rest =>
      if trim p.1.text = [] then sessions sections cap buffer sawNonUser rest
      else
        let isUser := sectionRole p.1 == some "user".toList
        let turn := isUser && sawNonUser && !buffer.isEmpty
        let closed := if turn then flush sections buffer else []
        let buffer := (if turn then [] else buffer) ++ [p]
        let sawNonUser := (if turn then false else sawNonUser) || !isUser
        closed ++
          if cap ≤ buffer.length then
            flush sections buffer ++ sessions sections cap [] false rest
          else sessions sections cap buffer sawNonUser rest

/-- The chunks of a document, with the sections each was made of. -/
def built (sentenceBounds : Text → List Text) (sections : List Section) :
    ChunkerKind → List Built
  | .session maxMessages => sessions sections (max maxMessages 1) [] false sections.zipIdx
  | kind => perSection sentenceBounds sections kind

/-- The chunks that are handed on. -/
def chunk (sentenceBounds : Text → List Text) (sections : List Section) (kind : ChunkerKind) :
    List Chunk := (built sentenceBounds sections kind).map Built.chunk

/-! ## What a breadcrumb keeps of its section -/

theorem sectionPathFor_eq {sections : List Section} {idx : Nat} {s : Section}
    (here : sections[idx]? = some s) :
    sectionPathFor sections idx = (climb s.depth (s :: (sections.take idx).reverse)).reverse := by
  unfold sectionPathFor
  rw [here]
  dsimp only
  rw [List.take_add_one, here]
  simp

/-- A section with a heading at a depth of its own ends its breadcrumb. -/
theorem getLast?_sectionPath {sections : List Section} {idx : Nat} {s : Section} {h : String}
    (here : sections[idx]? = some s) (headed : s.heading = some h) (deep : 0 < s.depth) :
    (sectionPathFor sections idx).getLast? = some h := by
  rw [sectionPathFor_eq here, List.getLast?_reverse, climb, headed]
  dsimp only
  rw [if_pos (by simp [deep])]
  split <;> rfl

/-- No heading has a depth above zero and at most zero. -/
theorem climb_zero : ∀ before : List Section, climb 0 before = []
  | [] => rfl
  | s :: before => by
      have shallow : ¬ (0 < s.depth && s.depth ≤ 0) = true := by
        rw [Bool.and_eq_true, decide_eq_true_eq, decide_eq_true_eq]
        omega
      unfold climb
      cases s.heading with
      | none => exact climb_zero before
      | some h => exact (if_neg shallow).trans (climb_zero before)

/-- Prose without a depth has no breadcrumb. -/
theorem sectionPath_of_depth_zero {sections : List Section} {idx : Nat} {s : Section}
    (here : sections[idx]? = some s) (flat : s.depth = 0) : sectionPathFor sections idx = [] := by
  rw [sectionPathFor_eq here, flat, climb_zero]
  rfl

/-- The breadcrumb of a chunk is that of the first section it was made of. -/
structure FromFirst (sections : List Section) (b : Built) (first : Nat) : Prop where
  head : b.sources.head? = some first
  path : b.chunk.sectionPath = sectionPathFor sections first

theorem path_of_windows {path : List String} {size advance : Nat} (n : Nat) :
    ∀ words : List Text, words.length ≤ n → ∀ c ∈ windows path size advance words,
      c.sectionPath = path := by
  induction n with
  | zero =>
      intro words short c m
      rw [List.length_eq_zero_iff.mp (Nat.le_zero.mp short), windows, if_pos rfl] at m
      cases m
  | succ n ih =>
      intro words short c m
      rw [windows] at m
      split at m
      · cases m
      · rcases List.mem_cons.mp m with rfl | later
        · rfl
        · split at later
          · cases later
          · refine ih _ ?_ c later
            rw [List.length_drop]
            omega

theorem path_of_sentenceWindows {path : List String} {size overlap : Nat} (n : Nat) :
    ∀ sentences : List Text, sentences.length ≤ n →
      ∀ c ∈ sentenceWindows path size overlap sentences, c.sectionPath = path := by
  induction n with
  | zero =>
      intro sentences short c m
      rw [List.length_eq_zero_iff.mp (Nat.le_zero.mp short), sentenceWindows, if_pos rfl] at m
      cases m
  | succ n ih =>
      intro sentences short c m
      rw [sentenceWindows] at m
      split at m
      · cases m
      · rcases List.mem_cons.mp m with rfl | later
        · rfl
        · split at later
          · cases later
          · refine ih _ ?_ c later
            rw [List.length_drop]
            omega

theorem path_of_chunksOfSection {bounds : Text → List Text} {path : List String} {s : Section}
    {kind : ChunkerKind} {c : Chunk} (m : c ∈ chunksOfSection bounds path s kind) :
    c.sectionPath = path := by
  cases kind with
  | paragraph =>
      obtain ⟨para, -, found⟩ := List.mem_filterMap.mp m
      split at found
      · cases found
      · cases found
        rfl
  | recursive maxTokens overlap => exact path_of_windows _ _ (le_refl _) c m
  | sentenceRecursive maxTokens overlap => exact path_of_sentenceWindows _ _ (le_refl _) c m
  | session maxMessages => cases m
  | structural =>
      cases List.mem_singleton.mp m
      rfl

/-- A chunk of one section under its breadcrumb. -/
theorem fromFirst_of_perSection {bounds : Text → List Text} {sections : List Section}
    {kind : ChunkerKind} {b : Built} (m : b ∈ perSection bounds sections kind) :
    ∃ i, i < sections.length ∧ b.sources = [i] ∧ FromFirst sections b i := by
  obtain ⟨⟨s, i⟩, here, inSection⟩ := List.mem_flatMap.mp m
  by_cases blank : trim s.text = []
  · rw [if_pos blank] at inSection
    cases inSection
  · rw [if_neg blank] at inSection
    obtain ⟨c, cut, rfl⟩ := List.mem_map.mp inSection
    have inRange := List.mem_zipIdx here
    exact ⟨i, by simpa using inRange.2.1, rfl, rfl, path_of_chunksOfSection cut⟩

theorem fromFirst_of_flush {sections : List Section} {buffer : List (Section × Nat)} {b : Built}
    (m : b ∈ flush sections buffer) :
    b.sources = buffer.map Prod.snd ∧ ∃ i, i ∈ b.sources ∧ FromFirst sections b i := by
  cases buffer with
  | nil => cases m
  | cons p buffer =>
      cases List.mem_singleton.mp m
      exact ⟨rfl, p.2, List.mem_cons_self, rfl, rfl⟩

/-- Every chunk of the loop is flushed from a group of messages. -/
theorem exists_flush_of_sessions {sections : List Section} {cap : Nat}
    (rest : List (Section × Nat)) {buffer : List (Section × Nat)} {sawNonUser : Bool} {b : Built}
    (m : b ∈ sessions sections cap buffer sawNonUser rest) :
    ∃ group, (∀ p ∈ group, p ∈ buffer ++ rest) ∧ b ∈ flush sections group := by
  induction rest generalizing buffer sawNonUser with
  | nil => exact ⟨buffer, fun p inBuffer => List.mem_append_left _ inBuffer, m⟩
  | cons p rest ih =>
      rw [sessions] at m
      split at m
      · obtain ⟨group, inside, flushed⟩ := ih m
        refine ⟨group, fun q inGroup => ?_, flushed⟩
        rcases List.mem_append.mp (inside q inGroup) with old | later
        · exact List.mem_append_left _ old
        · exact List.mem_append_right _ (List.mem_cons_of_mem _ later)
      · dsimp only at m
        generalize (sectionRole p.1 == some "user".toList && sawNonUser && !buffer.isEmpty) = turn
          at m
        have kept : ∀ q ∈ (if turn = true then [] else buffer) ++ [p], q ∈ buffer ++ p :: rest := by
          intro q inNew
          rcases List.mem_append.mp inNew with old | new
          · split at old
            · cases old
            · exact List.mem_append_left _ old
          · rw [List.mem_singleton.mp new]
            exact List.mem_append_right _ List.mem_cons_self
        generalize (if turn = true then [] else buffer) ++ [p] = grown at m kept
        generalize ((if turn = true then false else sawNonUser) ||
          !sectionRole p.1 == some "user".toList) = saw at m
        rcases List.mem_append.mp m with closed | next
        · split at closed
          · exact ⟨buffer, fun q inBuffer => List.mem_append_left _ inBuffer, closed⟩
          · cases closed
        · split at next
          · rcases List.mem_append.mp next with full | later
            · exact ⟨_, kept, full⟩
            · obtain ⟨group, inside, flushed⟩ := ih later
              exact ⟨group, fun q inGroup =>
                List.mem_append_right _ (List.mem_cons_of_mem _ (inside q inGroup)), flushed⟩
          · obtain ⟨group, inside, flushed⟩ := ih next
            refine ⟨group, fun q inGroup => ?_, flushed⟩
            rcases List.mem_append.mp (inside q inGroup) with new | later
            · exact kept q new
            · exact List.mem_append_right _ (List.mem_cons_of_mem _ later)

/-- **Every chunk is made of sections, and is under the breadcrumb of the first.** -/
theorem fromFirst_of_built {bounds : Text → List Text} {sections : List Section}
    {kind : ChunkerKind} {b : Built} (m : b ∈ built bounds sections kind) :
    (∀ j ∈ b.sources, j < sections.length) ∧ ∃ i, i ∈ b.sources ∧ FromFirst sections b i := by
  have perSection_case : b ∈ perSection bounds sections kind →
      (∀ j ∈ b.sources, j < sections.length) ∧ ∃ i, i ∈ b.sources ∧ FromFirst sections b i := by
    intro m
    obtain ⟨i, inRange, sources, first⟩ := fromFirst_of_perSection m
    rw [sources]
    exact ⟨fun j inSources => List.mem_singleton.mp inSources ▸ inRange, i,
      List.mem_singleton_self i, first⟩
  cases kind with
  | session maxMessages =>
      obtain ⟨group, inside, flushed⟩ := exists_flush_of_sessions _ m
      obtain ⟨sources, found⟩ := fromFirst_of_flush flushed
      refine ⟨fun j inSources => ?_, found⟩
      rw [sources] at inSources
      obtain ⟨p, inGroup, rfl⟩ := List.mem_map.mp inSources
      have inRange := List.mem_zipIdx (show (p.1, p.2) ∈ sections.zipIdx from inside p inGroup)
      simpa using inRange.2.1
  | paragraph => exact perSection_case m
  | recursive maxTokens overlap => exact perSection_case m
  | sentenceRecursive maxTokens overlap => exact perSection_case m
  | structural => exact perSection_case m

end Mnem.Ingest
