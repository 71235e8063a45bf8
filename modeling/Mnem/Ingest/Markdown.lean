/-
# Ingest.Markdown — the sections of a Markdown text

`parseMarkdown` folds the events of the Markdown parser into sections.  A
heading opens a section, and the text that follows is added to its body; a
separator is written at the end of a paragraph, at a line break, around fenced
code and nowhere else.

* The text of an event lands in the section of the heading before it
  (`parseMarkdown_placed`).
* The words of the sections are those of the events with a blank at each
  boundary that is written (`words_parseMarkdown`), hence the words of the events
  exactly if no other boundary lies between two words (`parse_markdown_iff`).
  Tight list items and table cells do (`tight_items`).
-/
import Mathlib.Data.List.Infix
import Mnem.Theory.Words

namespace Mnem.Ingest.Markdown

open Theory.Utf8 Theory.Words

set_option autoImplicit false

/-! ## Events -/

inductive HeadingLevel where
  | h1 | h2 | h3 | h4 | h5 | h6
  deriving DecidableEq

inductive CodeBlockKind where
  | indented
  | fenced (lang : Text)
  deriving DecidableEq

/-- The kinds of tags. -/
inductive TagEnd where
  | paragraph | heading | blockQuote | codeBlock | htmlBlock | list | item | table | tableHead
  | tableRow | tableCell | emphasis | strong | strikethrough | link | image
  deriving DecidableEq

inductive Tag where
  | heading (level : HeadingLevel)
  | codeBlock (kind : CodeBlockKind)
  | paragraph | blockQuote | htmlBlock | list | item | table | tableHead | tableRow | tableCell
  | emphasis | strong | strikethrough | link | image
  deriving DecidableEq

def Tag.toEnd : Tag → TagEnd
  | heading _ => .heading
  | codeBlock _ => .codeBlock
  | paragraph => .paragraph
  | blockQuote => .blockQuote
  | htmlBlock => .htmlBlock
  | list => .list
  | item => .item
  | table => .table
  | tableHead => .tableHead
  | tableRow => .tableRow
  | tableCell => .tableCell
  | emphasis => .emphasis
  | strong => .strong
  | strikethrough => .strikethrough
  | link => .link
  | image => .image

/-- A tag of a block, not of a part of a line. -/
def TagEnd.isBlock : TagEnd → Bool
  | emphasis | strong | strikethrough | link | image => false
  | _ => true

inductive Event where
  | start (tag : Tag)
  | stop (tag : TagEnd)
  | text (t : Text)
  | code (t : Text)
  | html (t : Text)
  | inlineHtml (t : Text)
  | softBreak
  | hardBreak
  | rule
  | taskListMarker (checked : Bool)
  deriving DecidableEq

/-- The tags of a stream match, and a heading holds no block. -/
def nested : List Tag → List Event → Bool
  | tags, [] => tags.isEmpty
  | tags, .start tag :: es =>
      !(tag.toEnd.isBlock && tags.any fun t => t.toEnd == .heading) && nested (tag :: tags) es
  | tag :: tags, .stop t :: es => tag.toEnd == t && nested tags es
  | [], .stop _ :: _ => false
  | tags, .text _ :: es | tags, .code _ :: es | tags, .html _ :: es | tags, .inlineHtml _ :: es
  | tags, .softBreak :: es | tags, .hardBreak :: es | tags, .rule :: es
  | tags, .taskListMarker _ :: es => nested tags es

/-! ## The parser -/

/-- A character of a body, and whether it belongs to a marker that the parser writes. -/
structure Glyph where
  char : Char
  marker : Bool
  deriving DecidableEq

def plain (t : Text) : List Glyph := t.map fun c => ⟨c, false⟩

def marks (t : Text) : List Glyph := t.map fun c => ⟨c, true⟩

structure Section where
  heading : Option Text
  depth : Nat
  text : List Glyph
  byteRange : Nat × Nat
  deriving DecidableEq

structure State where
  sections : List Section
  current : Option Section
  inHeading : Option Nat
  headingStart : Nat
  headingBuf : Text

def State.start : State := ⟨[], some ⟨none, 0, [], (0, 0)⟩, none, 0, []⟩

def headingLevelToDepth : HeadingLevel → Nat
  | .h1 => 1
  | .h2 => 2
  | .h3 => 3
  | .h4 => 4
  | .h5 => 5
  | .h6 => 6

def endsWith (suffix : Text) (text : List Glyph) : Bool :=
  suffix.isSuffixOf (text.map Glyph.char)

/-- Nothing of substance in a body. -/
def blank (text : List Glyph) : Bool := (trim (text.map Glyph.char)).isEmpty

def fence : List Glyph := marks ['`', '`', '`']

def newline : List Glyph := plain ['\n']

/-- Add to the body of the section under way. -/
def State.amend (st : State) (added : List Glyph → List Glyph) : State :=
  { st with current := st.current.map fun s => { s with text := s.text ++ added s.text } }

/-- One event, with its byte range. -/
def step (st : State) (e : Event × (Nat × Nat)) : State :=
  match e.1 with
  | .start (.heading level) =>
      let closed := match st.current with
        | some s =>
            if s.heading.isSome || !blank s.text then
              [{ s with byteRange := (s.byteRange.1, e.2.1) }]
            else []
        | none => []
      ⟨st.sections ++ closed, none, some (headingLevelToDepth level), e.2.1, []⟩
  | .stop .heading =>
      { st with
        current := some ⟨some (trim st.headingBuf), st.inHeading.getD 1, [],
          (st.headingStart, e.2.2)⟩
        inHeading := none
        headingBuf := [] }
  | .start (.codeBlock kind) =>
      st.amend fun _ =>
        match kind with
        | .fenced lang => fence ++ marks lang ++ newline
        | .indented => []
  | .stop .codeBlock =>
      st.amend fun text => (if endsWith ['\n'] text then [] else newline) ++ fence ++ newline
  | .text t =>
      if st.inHeading.isSome then { st with headingBuf := st.headingBuf ++ t }
      else st.amend fun _ => plain t
  | .code c =>
      if st.inHeading.isSome then { st with headingBuf := st.headingBuf ++ c }
      else st.amend fun _ => marks ['`'] ++ plain c ++ marks ['`']
  | .softBreak | .hardBreak => if st.inHeading.isNone then st.amend fun _ => newline else st
  | .stop .paragraph =>
      st.amend fun text => if endsWith ['\n', '\n'] text then [] else newline ++ newline
  | _ => st

def run (st : State) (stream : List (Event × (Nat × Nat))) : State := stream.foldl step st

/-- Pop the newlines and spaces at the end of a body. -/
def Section.trimEnd (s : Section) : Section :=
  { s with text := s.text.rdropWhile fun g => g.char == '\n' || g.char == ' ' }

def finish (st : State) (length : Nat) : List Section :=
  let last := match st.current with
    | some s =>
        if s.depth == 0 && s.heading.isNone && blank s.text then []
        else [{ s with byteRange := (s.byteRange.1, length) }]
    | none => []
  (st.sections ++ last).map Section.trimEnd

/-- `parse_markdown`, on the events of an input of some length. -/
def parseMarkdown (stream : List (Event × (Nat × Nat))) (length : Nat) : List Section :=
  finish (run .start stream) length

/-! ## The words of the events and of the sections -/

/-- The text of an event. -/
def Event.content : Event → Text
  | text t | code t => t
  | _ => []

/-- The same, with a blank at a boundary between two blocks or lines. -/
def Event.separated : Event → Text
  | text t | code t => t
  | softBreak | hardBreak | rule => [' ']
  | start tag => if tag.toEnd.isBlock then [' '] else []
  | stop tag => if tag.isBlock then [' '] else []
  | html _ | inlineHtml _ | taskListMarker _ => []

/-- Whether a heading is under way after an event. -/
def Event.inHeading (before : Bool) : Event → Bool
  | start (.heading _) => true
  | stop .heading => false
  | _ => before

/-- The text and the boundaries of an event, written or not. -/
def Event.pieces (inHeading : Bool) : Event → List Piece
  | text t | code t => t.map .letter
  | start (.heading _) | stop .heading => [.gap true]
  | softBreak | hardBreak | start (.codeBlock (.fenced _)) | stop .codeBlock | stop .paragraph =>
      [.gap !inHeading]
  | rule => [.gap false]
  | start tag => if tag.toEnd.isBlock then [.gap false] else []
  | stop tag => if tag.isBlock then [.gap false] else []
  | html _ | inlineHtml _ | taskListMarker _ => []

def pieces : Bool → List Event → List Piece
  | _, [] => []
  | inHeading, e :: es => e.pieces inHeading ++ pieces (e.inHeading inHeading) es

/-- What is not a marker in a body; white space counts in any case. -/
def body (text : List Glyph) : Text :=
  (text.filter fun g => !g.marker || isWhitespace g.char).map Glyph.char

def Section.words (s : Section) : List Text :=
  splitWhitespace (s.heading.getD []) ++ splitWhitespace (body s.text)

def visible (t : Text) : Text := t.filter fun c => !isWhitespace c

def Event.isHeading : Event → Bool
  | start (.heading _) | stop .heading => true
  | _ => false

/-- What comes after a heading lands in its section, and what comes before it in those before. -/
def Placed (stream : List (Event × (Nat × Nat))) (sections : List Section) : Prop :=
  ∀ front level range inside range' after back,
    stream = front ++ (.start (.heading level), range) :: (inside ++
      (.stop .heading, range') :: (after ++ back)) →
    (∀ e ∈ inside, e.1.isHeading = false) → (∀ e ∈ after, e.1.isHeading = false) →
    (∀ e ∈ back.head?, ∃ level, e.1 = .start (.heading level)) →
    ∃ before s rest, sections = before ++ s :: rest ∧
      s.heading = some (trim (inside.flatMap fun e => e.1.content)) ∧
      s.depth = headingLevelToDepth level ∧
      visible (body s.text) = visible (after.flatMap fun e => e.1.content) ∧
      (before.flatMap Section.words).flatten = visible (front.flatMap fun e => e.1.content)

/-- Words are kept apart and in order. -/
structure Faithful (stream : List (Event × (Nat × Nat))) (sections : List Section) : Prop where
  words : sections.flatMap Section.words =
    splitWhitespace (stream.flatMap fun e => e.1.separated)
  placed : Placed stream sections

section Body

variable {text : List Glyph}

@[simp]
theorem body_append (text text' : List Glyph) : body (text ++ text') = body text ++ body text' := by
  rw [body, List.filter_append, List.map_append]
  rfl

@[simp]
theorem body_plain (t : Text) : body (plain t) = t := by
  induction t with
  | nil => rfl
  | cons c t ih => exact congrArg (c :: ·) ih

theorem body_marks (t : Text) : ∀ c ∈ body (marks t), isWhitespace c = true := by
  intro c m
  obtain ⟨g, inText, rfl⟩ := List.mem_map.mp m
  obtain ⟨inMarks, kept⟩ := List.mem_filter.mp inText
  obtain ⟨d, -, rfl⟩ := List.mem_map.mp inMarks
  exact kept

/-- After a newline in a body another blank changes nothing. -/
theorem words_of_endsWith (suffix : Text) (ends : endsWith (suffix ++ ['\n']) text = true)
    (s : Text) : splitWhitespace (body text ++ ' ' :: s) = splitWhitespace (body text ++ s) := by
  obtain ⟨front, same⟩ := List.isSuffixOf_iff_suffix.mp ends
  rw [← List.append_assoc] at same
  obtain ⟨text, last, rfl, -, same⟩ := List.map_eq_append_iff.mp same.symm
  obtain ⟨g, rest, rfl, char, none⟩ := List.map_eq_cons_iff.mp same
  obtain rfl := List.map_eq_nil_iff.mp none
  have shown : body [g] = ['\n'] := by
    have white : isWhitespace '\n' = true := by decide
    simp [body, char, white]
  have white : isWhitespace '\n' = true := by decide
  refine words_of_not_fused (by decide) ?_
  rintro ⟨⟨l, c, split, shows⟩, -⟩
  rw [body_append, shown] at split
  obtain ⟨-, same⟩ := List.append_inj' split rfl
  rw [← List.singleton_injective same, white] at shows
  cases shows

/-- A blank body has no words. -/
theorem words_of_blank (nothing : blank text = true) : splitWhitespace (body text) = [] := by
  have all := eq_nil_of_trim (List.isEmpty_iff.mp nothing)
  refine words_of_blanks fun c m => ?_
  obtain ⟨g, inText, rfl⟩ := List.mem_map.mp m
  exact all _ (List.mem_map_of_mem (List.mem_filter.mp inText).1)

theorem words_body_trimEnd (s : Section) :
    splitWhitespace (body s.trimEnd.text) = splitWhitespace (body s.text) := by
  have parts : s.text.rdropWhile (fun g => g.char == '\n' || g.char == ' ') ++
      s.text.rtakeWhile (fun g => g.char == '\n' || g.char == ' ') = s.text :=
    List.rdropWhile_append_rtakeWhile
  have white : ∀ c ∈ body (s.text.rtakeWhile fun g => g.char == '\n' || g.char == ' '),
      isWhitespace c = true := by
    intro c m
    obtain ⟨g, inText, rfl⟩ := List.mem_map.mp m
    have popped := List.mem_rtakeWhile_imp (List.mem_filter.mp inText).1
    rcases Bool.or_eq_true_iff.mp popped with char | char
    · rw [beq_iff_eq.mp char]
      decide
    · rw [beq_iff_eq.mp char]
      decide
  show splitWhitespace (body (s.text.rdropWhile fun g => g.char == '\n' || g.char == ' ')) = _
  rw [← words_append_blanks _ white, ← body_append, parts]

theorem words_trimEnd (s : Section) : s.trimEnd.words = s.words :=
  congrArg (splitWhitespace (s.heading.getD []) ++ ·) (words_body_trimEnd s)

end Body

/-! ## One event -/

/-- A heading is under way, or a section is. -/
inductive Open : State → Prop
  | section {sections c headingStart headingBuf} :
      Open ⟨sections, some c, none, headingStart, headingBuf⟩
  | heading {sections depth headingStart headingBuf} :
      Open ⟨sections, none, some depth, headingStart, headingBuf⟩

/-- An event does not open a heading within a heading, nor close one elsewhere. -/
def Event.Allowed (inHeading : Bool) (e : Event) : Prop :=
  (∀ level, e = start (.heading level) → inHeading = false) ∧
    (e = stop .heading → inHeading = true)

/-- The words so far, a text being added to what is under way. -/
def pending (st : State) (s : Text) : List Text :=
  st.sections.flatMap Section.words ++
    match st.current with
    | some c => splitWhitespace (c.heading.getD []) ++ splitWhitespace (body c.text ++ s)
    | none => splitWhitespace (st.headingBuf ++ s)

section Step

variable {st : State} {e : Event × (Nat × Nat)}

theorem step_open (isOpen : Open st) (allowed : e.1.Allowed st.inHeading.isSome) :
    Open (step st e) ∧ (step st e).inHeading.isSome = e.1.inHeading st.inHeading.isSome := by
  obtain ⟨e, range⟩ := e
  cases isOpen with
  | «section» =>
      cases e with
      | start tag =>
          cases tag with
          | heading level => exact ⟨.heading, rfl⟩
          | _ => exact ⟨.section, rfl⟩
      | stop tag =>
          cases tag with
          | heading => exact absurd (allowed.2 rfl) Bool.false_ne_true
          | _ => exact ⟨.section, rfl⟩
      | _ => exact ⟨.section, rfl⟩
  | heading =>
      cases e with
      | start tag =>
          cases tag with
          | heading level => exact absurd (allowed.1 level rfl).symm Bool.false_ne_true
          | _ => exact ⟨.heading, rfl⟩
      | stop tag =>
          cases tag with
          | heading => exact ⟨.section, rfl⟩
          | _ => exact ⟨.heading, rfl⟩
      | _ => exact ⟨.heading, rfl⟩

/-- The section that a heading closes keeps its words. -/
theorem words_closed (c : Section) (start : Nat) :
    (if c.heading.isSome || !blank c.text then
        [{ c with byteRange := (c.byteRange.1, start) }] else []).flatMap Section.words =
      splitWhitespace (c.heading.getD []) ++ splitWhitespace (body c.text) := by
  split
  · exact List.append_nil _
  · rename_i dropped
    obtain ⟨noHeading, nothing⟩ := not_or.mp (mt Bool.or_eq_true_iff.mpr dropped)
    have none : c.heading = none := Option.not_isSome_iff_eq_none.mp noHeading
    rw [words_of_blank (by simpa using nothing), none]
    rfl

section Words

variable {sections : List Section} {c : Section} {headingStart : Nat} {headingBuf s : Text}

/-- What is written to the body is read after it. -/
theorem pending_amend {added : List Glyph → List Glyph} {t : Text}
    (same : splitWhitespace (body c.text ++ (body (added c.text) ++ s)) =
      splitWhitespace (body c.text ++ (t ++ s))) :
    pending (State.amend ⟨sections, some c, none, headingStart, headingBuf⟩ added) s =
      pending ⟨sections, some c, none, headingStart, headingBuf⟩ (t ++ s) := by
  show sections.flatMap Section.words ++ (splitWhitespace (c.heading.getD []) ++
      splitWhitespace (body (c.text ++ added c.text) ++ s)) =
    sections.flatMap Section.words ++ (splitWhitespace (c.heading.getD []) ++
      splitWhitespace (body c.text ++ (t ++ s)))
  rw [body_append, List.append_assoc (body c.text), same]

/-- The fences and the ends of paragraphs are read like a blank. -/
theorem words_newline (l : Text) : splitWhitespace (l ++ '\n' :: s) = splitWhitespace (l ++ ' ' :: s) :=
  words_blank_congr (by decide) (by decide) l s

theorem words_newlines (l : Text) :
    splitWhitespace (l ++ '\n' :: '\n' :: s) = splitWhitespace (l ++ ' ' :: s) := by
  rw [words_append_blank (b := '\n') (by decide), words_cons_blank (by decide),
    words_append_blank (b := ' ') (by decide)]

theorem words_openFence (l lang : Text) :
    splitWhitespace (l ++ (body (fence ++ marks lang ++ newline) ++ s)) =
      splitWhitespace (l ++ ([' '] ++ s)) := by
  have shown : body (fence ++ marks lang ++ newline) = body (marks lang) ++ ['\n'] := by
    rw [body_append, body_append, newline, body_plain, show body fence = [] from by decide]
    rfl
  rw [shown, List.append_assoc, ← List.append_assoc l]
  show splitWhitespace (l ++ body (marks lang) ++ '\n' :: s) = splitWhitespace (l ++ ' ' :: s)
  rw [words_append_blank (by decide), words_append_blanks _ (body_marks lang),
    words_append_blank (by decide)]

theorem words_closeFence (text : List Glyph) :
    splitWhitespace (body text ++
      (body ((if endsWith ['\n'] text then [] else newline) ++ fence ++ newline) ++ s)) =
        splitWhitespace (body text ++ ([' '] ++ s)) := by
  split
  · exact words_newline (body text)
  · exact words_newlines (body text)

theorem words_paragraph (text : List Glyph) :
    splitWhitespace (body text ++
      (body (if endsWith ['\n', '\n'] text then [] else newline ++ newline) ++ s)) =
        splitWhitespace (body text ++ ([' '] ++ s)) := by
  split
  · rename_i ends
    exact (words_of_endsWith ['\n'] ends s).symm
  · exact words_newlines (body text)

end Words

theorem pending_section (sections : List Section) (c : Section) (headingStart : Nat)
    (headingBuf : Text) (allowed : e.1.Allowed false) (s : Text) :
    pending (step ⟨sections, some c, none, headingStart, headingBuf⟩ e) s =
      pending ⟨sections, some c, none, headingStart, headingBuf⟩
        (joined (e.1.pieces false) ++ s) := by
  obtain ⟨e, range⟩ := e
  cases e with
  | start tag =>
      cases tag with
      | heading level =>
          show (sections ++ _).flatMap Section.words ++ splitWhitespace ([] ++ s) =
            sections.flatMap Section.words ++ (_ ++ splitWhitespace (body c.text ++ ' ' :: s))
          rw [List.flatMap_append, words_closed, words_append_blank (by decide)]
          simp only [List.append_assoc, List.nil_append]
      | codeBlock kind =>
          cases kind with
          | indented => exact pending_amend rfl
          | fenced lang => exact pending_amend (words_openFence (body c.text) lang)
      | _ => rfl
  | stop tag =>
      cases tag with
      | heading => exact absurd (allowed.2 rfl) Bool.false_ne_true
      | paragraph => exact pending_amend (words_paragraph c.text)
      | codeBlock => exact pending_amend (words_closeFence c.text)
      | _ => rfl
  | text t =>
      show pending (State.amend _ fun _ => plain t) s = pending _ (joined (t.map .letter) ++ s)
      rw [joined_letters]
      exact pending_amend (by rw [body_plain])
  | code t =>
      show pending (State.amend _ fun _ => marks ['`'] ++ plain t ++ marks ['`']) s =
        pending _ (joined (t.map .letter) ++ s)
      rw [joined_letters]
      refine pending_amend ?_
      rw [body_append, body_append, body_plain, show body (marks ['`']) = [] from by decide,
        List.nil_append, List.append_nil]
  | softBreak | hardBreak =>
      show pending (State.amend _ fun _ => newline) s = pending _ ([' '] ++ s)
      exact pending_amend (words_newline (body c.text))
  | _ => rfl

theorem pending_heading (sections : List Section) (depth headingStart : Nat) (headingBuf : Text)
    (allowed : e.1.Allowed true) (s : Text) :
    pending (step ⟨sections, none, some depth, headingStart, headingBuf⟩ e) s =
      pending ⟨sections, none, some depth, headingStart, headingBuf⟩
        (joined (e.1.pieces true) ++ s) := by
  obtain ⟨e, range⟩ := e
  have appended : ∀ t : Text,
      pending ⟨sections, none, some depth, headingStart, headingBuf ++ t⟩ s =
        pending ⟨sections, none, some depth, headingStart, headingBuf⟩
          (joined (t.map .letter) ++ s) := by
    intro t
    rw [joined_letters]
    show _ ++ splitWhitespace (headingBuf ++ t ++ s) = _ ++ splitWhitespace (headingBuf ++ (t ++ s))
    rw [List.append_assoc]
  cases e with
  | start tag =>
      cases tag with
      | heading level => exact absurd (allowed.1 level rfl).symm Bool.false_ne_true
      | codeBlock kind => cases kind <;> rfl
      | _ => rfl
  | stop tag =>
      cases tag with
      | heading =>
          show sections.flatMap Section.words ++ (splitWhitespace (trim headingBuf) ++
              splitWhitespace ([] ++ s)) =
            sections.flatMap Section.words ++ splitWhitespace (headingBuf ++ ' ' :: s)
          rw [words_trim, words_append_blank (by decide), List.nil_append]
      | _ => rfl
  | text t => exact appended t
  | code t => exact appended t
  | _ => rfl

/-- **One event.**  It adds its text and its written boundaries to the words. -/
theorem pending_step (isOpen : Open st) (allowed : e.1.Allowed st.inHeading.isSome) (s : Text) :
    pending (step st e) s = pending st (joined (e.1.pieces st.inHeading.isSome) ++ s) := by
  cases isOpen with
  | «section» => exact pending_section _ _ _ _ allowed s
  | heading => exact pending_heading _ _ _ _ allowed s

end Step

/-! ## Runs -/

/-- Headings open and close in turn, none being open at the end. -/
def Alternates : Bool → List Event → Prop
  | inHeading, [] => inHeading = false
  | inHeading, e :: es => e.Allowed inHeading ∧ Alternates (e.inHeading inHeading) es

def headings (tags : List Tag) : Nat := tags.countP fun t => t.toEnd == .heading

section Nested

variable {e : Event} {es : List Event} {tags : List Tag}

theorem allowed_of_other (other : e.isHeading = false) (inHeading : Bool) :
    e.Allowed inHeading := by
  constructor
  · rintro level rfl
    cases other
  · rintro rfl
    cases other

theorem inHeading_of_other (other : e.isHeading = false) (inHeading : Bool) :
    e.inHeading inHeading = inHeading := by
  cases e with
  | start tag =>
      cases tag with
      | heading level => cases other
      | _ => rfl
  | stop tag =>
      cases tag with
      | heading => cases other
      | _ => rfl
  | _ => rfl

theorem headings_cons (tag : Tag) (tags : List Tag) :
    headings (tag :: tags) = headings tags + if tag.toEnd = .heading then 1 else 0 := by
  rw [headings, List.countP_cons]
  simp only [beq_iff_eq]
  rfl

theorem alternates_other (other : e.isHeading = false) {inHeading : Bool}
    (rest : Alternates inHeading es) : Alternates inHeading (e :: es) :=
  ⟨allowed_of_other other inHeading, by rwa [inHeading_of_other other]⟩

/-- In a nested stream the headings open and close in turn. -/
theorem alternates_of_nested : ∀ (es : List Event) (tags : List Tag), headings tags ≤ 1 →
    nested tags es = true → Alternates (decide (headings tags = 1)) es
  | [], tags, _, holds => by
      obtain rfl := List.isEmpty_iff.mp holds
      rfl
  | .start tag :: es, tags, le, holds => by
      rw [nested, Bool.and_eq_true] at holds
      obtain ⟨fits, rest⟩ := holds
      have count := headings_cons tag tags
      by_cases heading : tag.toEnd = .heading
      · have none : headings tags = 0 := by
          rw [heading] at fits
          refine List.countP_eq_zero.mpr fun t m isHeading => ?_
          rw [show (tags.any fun t => t.toEnd == .heading) = true from
            List.any_eq_true.mpr ⟨t, m, isHeading⟩] at fits
          cases fits
        rw [if_pos heading, none] at count
        have onwards := alternates_of_nested es (tag :: tags) (by omega) rest
        rw [count] at onwards
        rw [none]
        match tag, heading with
        | .heading level, _ => exact ⟨⟨fun _ _ => rfl, nofun⟩, onwards⟩
      · rw [if_neg heading] at count
        have onwards := alternates_of_nested es (tag :: tags) (by omega) rest
        rw [count] at onwards
        refine alternates_other ?_ onwards
        cases tag with
        | heading level => exact absurd rfl heading
        | _ => rfl
  | .stop t :: es, [], _, holds => by
      rw [nested] at holds
      cases holds
  | .stop t :: es, tag :: tags, le, holds => by
      rw [nested, Bool.and_eq_true] at holds
      obtain ⟨same, rest⟩ := holds
      have count := headings_cons tag tags
      rw [beq_iff_eq.mp same] at count
      have onwards := alternates_of_nested es tags (by omega) rest
      by_cases heading : t = .heading
      · subst heading
        rw [if_pos rfl] at count
        have none : headings tags = 0 := by omega
        rw [none] at onwards
        rw [count, none]
        exact ⟨⟨nofun, fun _ => rfl⟩, onwards⟩
      · rw [if_neg heading] at count
        rw [count]
        refine alternates_other ?_ onwards
        cases t with
        | heading => exact absurd rfl heading
        | _ => rfl
  | .text _ :: es, tags, le, holds | .code _ :: es, tags, le, holds
  | .html _ :: es, tags, le, holds | .inlineHtml _ :: es, tags, le, holds
  | .softBreak :: es, tags, le, holds | .hardBreak :: es, tags, le, holds
  | .rule :: es, tags, le, holds | .taskListMarker _ :: es, tags, le, holds => by
      rw [nested] at holds
      exact alternates_other rfl (alternates_of_nested es tags le holds)

end Nested

theorem run_append (st : State) (front back : List (Event × (Nat × Nat))) :
    run st (front ++ back) = run (run st front) back :=
  List.foldl_append

section Run

variable {st : State} {stream : List (Event × (Nat × Nat))}

theorem run_open (isOpen : Open st)
    (alternates : Alternates st.inHeading.isSome (stream.map Prod.fst)) :
    ∃ last, run st stream = last ∧ Open last ∧ last.inHeading = none := by
  induction stream generalizing st with
  | nil => exact ⟨st, rfl, isOpen, Option.not_isSome_iff_eq_none.mp (Bool.eq_false_iff.mp alternates)⟩
  | cons e stream ih =>
      obtain ⟨opened, inHeading⟩ := step_open isOpen alternates.1
      refine ih opened ?_
      rw [inHeading]
      exact alternates.2

/-- **A run.**  It adds the text and the written boundaries of its events to the words. -/
theorem pending_run (isOpen : Open st)
    (alternates : Alternates st.inHeading.isSome (stream.map Prod.fst)) (s : Text) :
    pending (run st stream) s =
      pending st (joined (pieces st.inHeading.isSome (stream.map Prod.fst)) ++ s) := by
  induction stream generalizing st with
  | nil => rfl
  | cons e stream ih =>
      obtain ⟨opened, inHeading⟩ := step_open isOpen alternates.1
      have rest := ih opened (by rw [inHeading]; exact alternates.2)
      rw [inHeading, pending_step isOpen alternates.1] at rest
      show pending (run (step st e) stream) s = _
      rw [rest, List.map_cons, pieces, joined_append, List.append_assoc]

/-- The last section is kept with its words. -/
theorem words_finish (isOpen : Open st) (outside : st.inHeading = none) (length : Nat) :
    (finish st length).flatMap Section.words = pending st [] := by
  cases isOpen with
  | heading => cases outside
  | @«section» sections c headingStart headingBuf =>
      have trimmed : ∀ l : List Section,
          (l.map Section.trimEnd).flatMap Section.words = l.flatMap Section.words := by
        intro l
        rw [List.flatMap_map]
        exact List.flatMap_congr fun s _ => words_trimEnd s
      show ((sections ++ if _ then _ else _).map Section.trimEnd).flatMap Section.words =
        sections.flatMap Section.words ++ (_ ++ splitWhitespace (body c.text ++ []))
      rw [trimmed, List.flatMap_append, List.append_nil]
      congr 1
      split
      · rename_i dropped
        obtain ⟨headless, nothing⟩ := Bool.and_eq_true_iff.mp dropped
        have none := Option.isNone_iff_eq_none.mp (Bool.and_eq_true_iff.mp headless).2
        rw [words_of_blank nothing, none]
        rfl
      · exact List.append_nil _

/-- **The words.**  Those of the events, with a blank at each boundary that is written. -/
theorem words_parseMarkdown (alternates : Alternates false (stream.map Prod.fst)) (length : Nat) :
    (parseMarkdown stream length).flatMap Section.words =
      splitWhitespace (joined (pieces false (stream.map Prod.fst))) := by
  have opening : Open State.start := .section
  obtain ⟨last, same, opened, outside⟩ := run_open opening alternates
  unfold parseMarkdown
  rw [same, words_finish opened outside, ← same, pending_run opening alternates, List.append_nil]
  rfl

end Run

/-! ## Placement -/

section Place

variable {stream : List (Event × (Nat × Nat))} {sections : List Section} {c : Section}

theorem visible_append (t t' : Text) : visible (t ++ t') = visible t ++ visible t' :=
  List.filter_append t t'

theorem visible_event (e : Event) (inHeading : Bool) :
    visible (joined (e.pieces inHeading)) = visible e.content := by
  cases e with
  | start tag =>
      cases tag with
      | codeBlock kind => cases kind <;> cases inHeading <;> rfl
      | _ => rfl
  | stop tag => cases tag <;> cases inHeading <;> rfl
  | text t => exact congrArg visible (joined_letters t)
  | code t => exact congrArg visible (joined_letters t)
  | softBreak => cases inHeading <;> rfl
  | hardBreak => cases inHeading <;> rfl
  | _ => rfl

theorem parted_pieces (es : List Event) (inHeading : Bool) :
    parted (pieces inHeading es) = es.flatMap Event.separated := by
  induction es generalizing inHeading with
  | nil => rfl
  | cons e es ih =>
      have here : parted (e.pieces inHeading) = e.separated := by
        cases e with
        | start tag =>
            cases tag with
            | codeBlock kind => cases kind <;> rfl
            | _ => rfl
        | stop tag => cases tag <;> rfl
        | text t => exact parted_letters t
        | code t => exact parted_letters t
        | _ => rfl
      rw [pieces, parted_append, here, ih, List.flatMap_cons]

/-- The boundaries of a stream are white space. -/
theorem visible_pieces (es : List Event) (inHeading : Bool) :
    visible (joined (pieces inHeading es)) = visible (es.flatMap Event.content) := by
  induction es generalizing inHeading with
  | nil => rfl
  | cons e es ih =>
      have here := visible_event e inHeading
      rw [pieces, joined_append, visible_append, here, ih, List.flatMap_cons, visible_append]

theorem alternates_front {front rest : List Event} {inHeading : Bool}
    (alternates : Alternates inHeading (front ++ rest))
    (outside : ∀ b, Alternates b rest → b = false) : Alternates inHeading front := by
  induction front generalizing inHeading with
  | nil => exact outside _ alternates
  | cons e front ih => exact ⟨alternates.1, ih alternates.2⟩

/-- Within a heading the text is collected. -/
theorem run_heading {depth headingStart : Nat} {headingBuf : Text}
    (others : ∀ e ∈ stream, e.1.isHeading = false) :
    run ⟨sections, none, some depth, headingStart, headingBuf⟩ stream =
      ⟨sections, none, some depth, headingStart,
        headingBuf ++ stream.flatMap fun e => e.1.content⟩ := by
  induction stream generalizing headingBuf with
  | nil => rw [List.flatMap_nil, List.append_nil]; rfl
  | cons e stream ih =>
      have first : step ⟨sections, none, some depth, headingStart, headingBuf⟩ e =
          ⟨sections, none, some depth, headingStart, headingBuf ++ e.1.content⟩ := by
        have other := others e List.mem_cons_self
        obtain ⟨e, range⟩ := e
        have nothing : headingBuf = headingBuf ++ [] := (List.append_nil _).symm
        cases e with
        | start tag =>
            cases tag with
            | heading level => cases other
            | _ => exact congrArg (State.mk sections none (some depth) headingStart) nothing
        | stop tag =>
            cases tag with
            | heading => cases other
            | _ => exact congrArg (State.mk sections none (some depth) headingStart) nothing
        | text t => rfl
        | code t => rfl
        | _ => exact congrArg (State.mk sections none (some depth) headingStart) nothing
      show run (step _ e) stream = _
      rw [first, ih fun e m => others e (List.mem_cons_of_mem _ m), List.flatMap_cons,
        List.append_assoc]

/-- Elsewhere only the body of the section grows, by the text of the event. -/
theorem step_section (sections : List Section) (c : Section) (headingStart : Nat)
    (headingBuf : Text) {e : Event × (Nat × Nat)} (other : e.1.isHeading = false) : ∃ text,
      step ⟨sections, some c, none, headingStart, headingBuf⟩ e =
          ⟨sections, some { c with text := text }, none, headingStart, headingBuf⟩ ∧
        visible (body text) = visible (body c.text) ++ visible e.1.content := by
  have grows : ∃ text, step ⟨sections, some c, none, headingStart, headingBuf⟩ e =
      ⟨sections, some { c with text := text }, none, headingStart, headingBuf⟩ := by
    obtain ⟨e, range⟩ := e
    cases e with
    | start tag =>
        cases tag with
        | heading level => cases other
        | _ => exact ⟨_, rfl⟩
    | stop tag =>
        cases tag with
        | heading => cases other
        | _ => exact ⟨_, rfl⟩
    | _ => exact ⟨_, rfl⟩
  obtain ⟨text, grown⟩ := grows
  refine ⟨text, grown, ?_⟩
  have words := pending_section sections c headingStart headingBuf (allowed_of_other other false) []
  rw [grown] at words
  have shown := congrArg List.flatten (List.append_cancel_left (List.append_cancel_left words))
  rw [flatten_words, flatten_words, List.append_nil, List.append_nil] at shown
  change visible (body text) = visible (body c.text ++ joined (e.1.pieces false)) at shown
  rw [shown, visible_append, visible_event]

theorem run_section (sections : List Section) (c : Section) (headingStart : Nat)
    (headingBuf : Text) (others : ∀ e ∈ stream, e.1.isHeading = false) : ∃ text,
      run ⟨sections, some c, none, headingStart, headingBuf⟩ stream =
          ⟨sections, some { c with text := text }, none, headingStart, headingBuf⟩ ∧
        visible (body text) =
          visible (body c.text) ++ visible (stream.flatMap fun e => e.1.content) := by
  induction stream generalizing c with
  | nil => exact ⟨c.text, rfl, (List.append_nil _).symm⟩
  | cons e stream ih =>
      obtain ⟨text, first, added⟩ := step_section sections c headingStart headingBuf
        (others e List.mem_cons_self)
      obtain ⟨text', rest, added'⟩ := ih { c with text := text }
        fun e m => others e (List.mem_cons_of_mem _ m)
      refine ⟨text', ?_, ?_⟩
      · show run (step _ e) stream = _
        rw [first, rest]
      · rw [added', added, List.flatMap_cons, visible_append, List.append_assoc]

/-- Sections that are closed stay. -/
theorem sections_stay (stream : List (Event × (Nat × Nat))) (st : State) :
    st.sections <+: (run st stream).sections := by
  induction stream generalizing st with
  | nil => exact List.prefix_refl _
  | cons e stream ih =>
      refine List.IsPrefix.trans ?_ (ih (step st e))
      unfold step
      split <;> (try split) <;> first | exact List.prefix_append _ _ | exact List.prefix_refl _

/-- A section under way with a heading is among the sections at the end. -/
theorem finish_section (sections : List Section) (c : Section) (headingStart : Nat)
    (headingBuf : Text) {back : List (Event × (Nat × Nat))} (hasHeading : c.heading.isSome = true)
    (next : ∀ e ∈ back.head?, ∃ level, e.1 = .start (.heading level)) (length : Nat) :
    ∃ range rest, finish (run ⟨sections, some c, none, headingStart, headingBuf⟩ back) length =
      sections.map Section.trimEnd ++ { c with byteRange := range }.trimEnd :: rest := by
  cases back with
  | nil =>
      have kept : ¬ (c.depth == 0 && c.heading.isNone && blank c.text) = true := by
        simp [Option.isSome_iff_ne_none.mp hasHeading]
      refine ⟨(c.byteRange.1, length), [], ?_⟩
      show (sections ++ if _ then _ else _).map Section.trimEnd = _
      rw [if_neg kept, List.map_append]
      rfl
  | cons e back =>
      obtain ⟨level, heading⟩ := next e rfl
      obtain ⟨e, range⟩ := e
      cases heading
      have kept : (c.heading.isSome || !blank c.text) = true := by rw [hasHeading]; rfl
      have closed := sections_stay back
        (step ⟨sections, some c, none, headingStart, headingBuf⟩ (.start (.heading level), range))
      obtain ⟨rest, same⟩ := closed
      change sections ++ (if _ then _ else _) ++ rest = _ at same
      rw [if_pos kept] at same
      have ends : ∀ st : State, ∃ last,
          finish st length = (st.sections ++ last).map Section.trimEnd := fun st => ⟨_, rfl⟩
      obtain ⟨last, finished⟩ := ends (run (step
        ⟨sections, some c, none, headingStart, headingBuf⟩ (.start (.heading level), range)) back)
      refine ⟨(c.byteRange.1, range.1), (rest ++ last).map Section.trimEnd, ?_⟩
      refine finished.trans ?_
      rw [← same, List.append_assoc, List.append_assoc, List.map_append, List.singleton_append,
        List.map_cons]

/-- **Placement.**  The text of an event lands in the section of the heading before it. -/
theorem parseMarkdown_placed (alternates : Alternates false (stream.map Prod.fst)) (length : Nat) :
    Placed stream (parseMarkdown stream length) := by
  rintro front level range inside range' after back rfl insideOnly afterOnly next
  -- the heading opens outside any other
  have frontAlternates : Alternates false (front.map Prod.fst) := by
    rw [List.map_append, List.map_cons] at alternates
    exact alternates_front alternates fun b rest => rest.1.1 level rfl
  have opening : Open State.start := .section
  obtain ⟨st, reached, opened, outside⟩ := run_open opening frontAlternates
  have words := pending_run opening frontAlternates []
  rw [reached] at words
  cases opened with
  | heading => cases outside
  | @«section» sections c headingStart headingBuf =>
      let closed := sections ++ if c.heading.isSome || !blank c.text then
        [{ c with byteRange := (c.byteRange.1, range.1) }] else []
      let s : Section := ⟨some (trim (inside.flatMap fun e => e.1.content)),
        headingLevelToDepth level, [], (range.1, range'.2)⟩
      obtain ⟨text, ran, landed⟩ := run_section closed s range.1 [] afterOnly
      obtain ⟨byteRange, rest, finished⟩ :=
        finish_section closed { s with text := text } range.1 [] rfl next length
      have parsed : run .start (front ++ (.start (.heading level), range) :: (inside ++
          (.stop .heading, range') :: (after ++ back))) =
            run ⟨closed, some { s with text := text }, none, range.1, []⟩ back := by
        rw [run_append, reached]
        show run ⟨closed, none, some _, range.1, []⟩ (inside ++ _) = _
        rw [run_append, run_heading insideOnly]
        show run ⟨closed, some s, none, range.1, []⟩ (after ++ back) = _
        rw [run_append, ran]
      have whole := congrArg (finish · length) parsed
      refine ⟨_, _, _, whole.trans finished, rfl, rfl, ?_, ?_⟩
      · have trimmed := congrArg List.flatten
          (words_body_trimEnd { s with text := text, byteRange := byteRange })
        rw [flatten_words, flatten_words] at trimmed
        exact trimmed.trans landed
      · have kept : (closed.map Section.trimEnd).flatMap Section.words =
            closed.flatMap Section.words := by
          rw [List.flatMap_map]
          exact List.flatMap_congr fun s _ => words_trimEnd s
        have before : closed.flatMap Section.words =
            pending ⟨sections, some c, none, headingStart, headingBuf⟩ [] := by
          show (sections ++ if _ then _ else _).flatMap Section.words =
            sections.flatMap Section.words ++ (_ ++ splitWhitespace (body c.text ++ []))
          rw [List.flatMap_append, words_closed, List.append_nil]
        rw [kept, before, words, List.append_nil]
        show (splitWhitespace (joined (pieces false (front.map Prod.fst)))).flatten = _
        rw [flatten_words]
        refine (visible_pieces (front.map Prod.fst) false).trans ?_
        rw [List.flatMap_map]

end Place

/-- **When words are kept apart.**  Every word of the text is a word of the sections, and the text
after a heading lands in its section, exactly if no boundary that is not written lies between two
words. -/
theorem parse_markdown_iff (stream : List (Event × (Nat × Nat))) (length : Nat)
    (balanced : nested [] (stream.map Prod.fst) = true) :
    Faithful stream (parseMarkdown stream length) ↔ Apart (pieces false (stream.map Prod.fst)) := by
  have alternates : Alternates false (stream.map Prod.fst) :=
    alternates_of_nested _ [] (Nat.zero_le 1) balanced
  have words := words_parseMarkdown alternates length
  have separated : stream.flatMap (fun e => e.1.separated) =
      parted (pieces false (stream.map Prod.fst)) := by
    rw [parted_pieces, List.flatMap_map]
  rw [← words_joined_iff, ← separated, ← words]
  exact ⟨fun faithful => faithful.words.symm,
    fun same => ⟨same.symm, parseMarkdown_placed alternates length⟩⟩

/-- The list `- a`, `- b`, with a blank line between its items. -/
def loose : List (Event × (Nat × Nat)) :=
  [(.start .list, (0, 9)), (.start .item, (0, 5)), (.start .paragraph, (2, 4)), (.text ['a'], (2, 3)),
    (.stop .paragraph, (2, 4)), (.stop .item, (0, 5)), (.start .item, (5, 9)),
    (.start .paragraph, (7, 9)), (.text ['b'], (7, 8)), (.stop .paragraph, (7, 9)),
    (.stop .item, (5, 9)), (.stop .list, (0, 9))]

theorem loose_items : Faithful loose (parseMarkdown loose 9) :=
  (parse_markdown_iff loose 9 (by decide)).mpr (by decide)

/-- The same list without the blank line: no paragraphs. -/
def tight : List (Event × (Nat × Nat)) :=
  [(.start .list, (0, 8)), (.start .item, (0, 4)), (.text ['a'], (2, 3)), (.stop .item, (0, 4)),
    (.start .item, (4, 8)), (.text ['b'], (6, 7)), (.stop .item, (4, 8)), (.stop .list, (0, 8))]

/-- The items of the tight list are read as one word. -/
theorem tight_items :
    nested [] (tight.map Prod.fst) = true ∧
      (parseMarkdown tight 8).flatMap Section.words = [['a', 'b']] ∧
      ¬ Faithful tight (parseMarkdown tight 8) := by
  have fused : (parseMarkdown tight 8).flatMap Section.words = [['a', 'b']] := by decide
  refine ⟨by decide, fused, fun faithful => ?_⟩
  have words := faithful.words
  rw [fused] at words
  revert words
  decide

end Mnem.Ingest.Markdown
