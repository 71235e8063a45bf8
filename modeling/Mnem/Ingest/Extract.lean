/-
# Ingest.Extract — entity mentions and relations of a section

A named-entity provider proposes byte ranges; those that are no slice of the
text are dropped.  Relations pair the mentions of a list by their order in it,
and slice the text between them: a pair whose offsets are not in the text
panics (`none`).  The mentions of a section never do that
(`extractRelations_own`), and they give exactly one relation for each pair that
does not overlap and is close enough.  The default provider finds runs of
capitalized words (`RuleNer`).
-/
import Mnem.Theory.Utf8
import Mathlib.Data.List.Sort

namespace Mnem.Ingest

open Theory.Utf8

set_option autoImplicit false

/-- A region of the source under one heading; depth 0 is prose without a heading. -/
structure Section where
  heading : Option String := none
  depth : Nat := 0
  text : Text
  deriving DecidableEq

/-- What a provider returns: a label, and a byte range of the text it was given. -/
structure NamedEntity where
  label : String
  byteStart : Nat
  byteEnd : Nat
  deriving DecidableEq

/-- A mention of an entity in the text of a section. -/
structure EntitySpan where
  kind : String
  text : Text
  start : Nat
  stop : Nat
  deriving DecidableEq

/-- A candidate relation between the mentions at two positions of a list. -/
structure RelationSpan where
  kind : String
  subjectSpan : Nat
  objectSpan : Nat
  deriving DecidableEq

/-- The rule extractor: its configuration, its provider, and its pattern of verbs. -/
structure RuleExtractor where
  extractNer : Bool := true
  relationWindowTokens : Nat := 6
  ner : Text → List NamedEntity
  verbWindow : Text → Bool

/-! ## Entities -/

/-- `dedup_by`: of neighbours that are alike the first stays. -/
def dedupBy {α : Type} (alike : α → α → Bool) : List α → List α
  | [] => []
  | a :: as =>
      match dedupBy alike as with
      | [] => [a]
      | b :: bs => if alike a b then a :: bs else a :: b :: bs

namespace RuleExtractor

variable (x : RuleExtractor)

/-- The order of mentions: by start, then by kind. -/
def spanLe (a b : EntitySpan) : Bool :=
  a.start < b.start || (a.start == b.start && decide (a.kind ≤ b.kind))

def sameSpan (a b : EntitySpan) : Bool :=
  a.start == b.start && a.stop == b.stop && a.kind == b.kind

/-- A proposal with a label and a non-empty slice. -/
def mention (text : Text) (ne : NamedEntity) : Option EntitySpan :=
  if trim ne.label.toList = [] then none
  else (slice text ne.byteStart ne.byteEnd).bind fun found =>
    if found = [] then none else some ⟨ne.label, found, ne.byteStart, ne.byteEnd⟩

def extractEntities (s : Section) : List EntitySpan :=
  if x.extractNer then
    dedupBy sameSpan (((x.ner s.text).filterMap (mention s.text)).insertionSort
      fun a b => spanLe a b = true)
  else []

end RuleExtractor

/-! ## Relations -/

/-- The pairs of a list in order. -/
def pairs {α : Type} : List α → List (α × α)
  | [] => []
  | a :: as => as.map (fun b => (a, b)) ++ pairs as

namespace RuleExtractor

variable (x : RuleExtractor)

/-- The relation of two mentions; `none` is the panic of a slice out of range. -/
def relate (text : Text) (a b : EntitySpan × Nat) : Option (List RelationSpan) :=
  if b.1.start < a.1.stop then some []
  else
    (slice text a.1.stop b.1.start).map fun between =>
      if x.relationWindowTokens < (splitWhitespace between).length then []
      else [⟨if x.verbWindow between then "acts_on" else "co_occurs_with", a.2, b.2⟩]

def extractRelations (entities : List EntitySpan) (s : Section) : Option (List RelationSpan) :=
  if entities.length < 2 then some []
  else (pairs entities.zipIdx).foldrM (fun p found => (x.relate s.text p.1 p.2).map (· ++ found)) []

/-! ### The mentions of a section -/

/-- A mention lies in the text it was taken from. -/
structure Within (text : Text) (e : EntitySpan) : Prop where
  start : IsBoundary text e.start
  stop : IsBoundary text e.stop

theorem within_of_mention {text : Text} {ne : NamedEntity} {e : EntitySpan}
    (found : mention text ne = some e) : Within text e := by
  unfold mention at found
  by_cases unlabelled : trim ne.label.toList = []
  · rw [if_pos unlabelled] at found
    cases found
  · rw [if_neg unlabelled] at found
    obtain ⟨u, sliced, found⟩ := Option.bind_eq_some_iff.mp found
    by_cases empty : u = []
    · rw [if_pos empty] at found
      cases found
    · rw [if_neg empty] at found
      cases found
      obtain ⟨first, second, -⟩ := boundaries_of_slice sliced
      exact ⟨first, second⟩

theorem mem_dedupBy {α : Type} {alike : α → α → Bool} {as : List α} {a : α}
    (m : a ∈ dedupBy alike as) : a ∈ as := by
  induction as with
  | nil => cases m
  | cons b as ih =>
      unfold dedupBy at m
      cases rest : dedupBy alike as with
      | nil =>
          rw [rest] at m
          exact List.mem_cons.mpr (Or.inl (List.mem_singleton.mp m))
      | cons c cs =>
          rw [rest] at m ih
          dsimp only at m
          split at m
          · rcases List.mem_cons.mp m with rfl | later
            · exact List.mem_cons_self
            · exact List.mem_cons_of_mem _ (ih (List.mem_cons_of_mem _ later))
          · rcases List.mem_cons.mp m with rfl | later
            · exact List.mem_cons_self
            · exact List.mem_cons_of_mem _ (ih later)

/-- Every extracted mention lies in the section's text. -/
theorem within_extractEntities {s : Section} {e : EntitySpan} (m : e ∈ x.extractEntities s) :
    Within s.text e := by
  unfold extractEntities at m
  split at m
  · have proposed := (List.mem_insertionSort _).mp (mem_dedupBy m)
    obtain ⟨ne, -, found⟩ := List.mem_filterMap.mp proposed
    exact within_of_mention found
  · cases m

theorem mem_pairs {α : Type} {as : List α} {p : α × α} (m : p ∈ pairs as) :
    p.1 ∈ as ∧ p.2 ∈ as := by
  induction as with
  | nil => cases m
  | cons a as ih =>
      rcases List.mem_append.mp m with first | rest
      · obtain ⟨b, inTail, rfl⟩ := List.mem_map.mp first
        exact ⟨List.mem_cons_self, List.mem_cons_of_mem _ inTail⟩
      · obtain ⟨left, right⟩ := ih rest
        exact ⟨List.mem_cons_of_mem _ left, List.mem_cons_of_mem _ right⟩

/-- The relation of two mentions in one text, without the panic. -/
def related (text : Text) (a b : EntitySpan × Nat) : Option RelationSpan :=
  if b.1.start < a.1.stop then none
  else
    let between := (slice text a.1.stop b.1.start).getD []
    if x.relationWindowTokens < (splitWhitespace between).length then none
    else some ⟨if x.verbWindow between then "acts_on" else "co_occurs_with", a.2, b.2⟩

theorem relate_of_within {text : Text} {a b : EntitySpan × Nat} (first : Within text a.1)
    (second : Within text b.1) : x.relate text a b = some (x.related text a b).toList := by
  unfold relate related
  by_cases overlap : b.1.start < a.1.stop
  · rw [if_pos overlap, if_pos overlap]
    rfl
  · obtain ⟨between, found⟩ :=
      Option.isSome_iff_exists.mp (slice_isSome first.stop second.start (not_lt.mp overlap))
    rw [if_neg overlap, if_neg overlap, found]
    simp only [Option.map_some, Option.getD_some]
    split <;> rfl

/-- The relations of the mentions of one text: one for each pair in order that does not
overlap and is close enough. -/
def relations (text : Text) (entities : List EntitySpan) : List RelationSpan :=
  (pairs entities.zipIdx).filterMap fun p => x.related text p.1 p.2

theorem foldrM_relate {text : Text} (ps : List ((EntitySpan × Nat) × (EntitySpan × Nat)))
    (within : ∀ p ∈ ps, Within text p.1.1 ∧ Within text p.2.1) :
    ps.foldrM (fun p found => (x.relate text p.1 p.2).map (· ++ found)) [] =
      some (ps.filterMap fun p => x.related text p.1 p.2) := by
  induction ps with
  | nil => rfl
  | cons p ps ih =>
      have rest := ih fun q m => within q (List.mem_cons_of_mem _ m)
      obtain ⟨first, second⟩ := within p List.mem_cons_self
      rw [List.foldrM_cons, rest]
      show (x.relate text p.1 p.2).map _ = _
      rw [x.relate_of_within first second, List.filterMap_cons]
      cases x.related text p.1 p.2 <;> rfl

/-- Mentions within the text never panic. -/
theorem extractRelations_own {s : Section} {entities : List EntitySpan}
    (within : ∀ e ∈ entities, Within s.text e) :
    x.extractRelations entities s = some (x.relations s.text entities) := by
  unfold extractRelations relations
  by_cases few : entities.length < 2
  · rw [if_pos few]
    have none_left : pairs entities.zipIdx = [] := by
      match entities, few with
      | [], _ => rfl
      | [e], _ => rfl
    rw [none_left]
    rfl
  · rw [if_neg few]
    refine x.foldrM_relate _ fun p m => ?_
    obtain ⟨left, right⟩ := mem_pairs m
    exact ⟨within _ (List.fst_mem_of_mem_zipIdx left), within _ (List.fst_mem_of_mem_zipIdx right)⟩

end RuleExtractor

/-! ## The rule-based provider -/

namespace RuleNer

/-- Words that start no phrase. -/
def commonDenylist : List String :=
  ["The", "This", "That", "These", "Those", "A", "An", "And", "Or", "But", "If", "In", "On", "At",
    "To", "From", "With", "By", "For", "Of", "As", "Is", "Was", "Are", "Were", "Be", "Been",
    "Being", "I", "We", "You", "He", "She", "It", "They", "My", "Our", "Your", "His", "Her",
    "Their", "Mr", "Mrs", "Ms", "Dr"]

/-- Tokens that make a phrase an organization. -/
def orgSuffixes : List String :=
  ["Inc", "Inc.", "LLC", "Ltd", "Ltd.", "Corp", "Corp.", "Corporation", "Company", "Co", "Co.",
    "GmbH", "AG", "SA", "BV", "PLC"]

def isAsciiUpper (c : Char) : Bool := 'A' ≤ c && c ≤ 'Z'

def isTokenChar (c : Char) : Bool := isAsciiUpper c || ('a' ≤ c && c ≤ 'z') || c == '.'

/-- A phrase under way: where it starts, its finished tokens, whether one of them is a suffix,
and the token under way, last character first. -/
structure Phrase where
  start : Nat
  tokens : Nat
  sawOrgSuffix : Bool
  token : Text

def Phrase.finish (p : Phrase) : Option Phrase :=
  if p.tokens = 0 && commonDenylist.any (fun w => w.toList == p.token.reverse) then none
  else some { p with
    tokens := p.tokens + 1
    sawOrgSuffix := p.sawOrgSuffix || orgSuffixes.any (fun w => w.toList == p.token.reverse)
    token := [] }

/-- A phrase of two tokens or more that ends at `stop`. -/
def Phrase.emit (p : Phrase) (stop : Nat) : List NamedEntity :=
  if 2 ≤ p.tokens then
    [⟨if p.sawOrgSuffix then "Entity:Organization" else "Entity:Person", p.start, stop⟩]
  else []

/-- The phrases from offset `i` on; between phrases everything up to a capital is skipped. -/
def phrasesFrom : Option Phrase → Nat → Text → List NamedEntity
  | none, _, [] => []
  | some p, i, [] => (p.finish.map fun q => q.emit i).getD []
  | none, i, c :: t =>
      if isAsciiUpper c then phrasesFrom (some ⟨i, 0, false, [c]⟩) (i + c.utf8Size) t
      else phrasesFrom none (i + c.utf8Size) t
  | some p, i, c :: t =>
      if p.token ≠ [] && isTokenChar c then
        phrasesFrom (some { p with token := c :: p.token }) (i + c.utf8Size) t
      else if p.token = [] then
        -- the capital after a blank, which starts the next token
        phrasesFrom (some { p with token := [c] }) (i + c.utf8Size) t
      else
        match p.finish with
        | none => phrasesFrom none (i + c.utf8Size) t
        | some q =>
            if c = ' ' && t.head?.any isAsciiUpper then phrasesFrom (some q) (i + c.utf8Size) t
            else q.emit i ++ phrasesFrom none (i + c.utf8Size) t

def extract (text : Text) : List NamedEntity := phrasesFrom none 0 text

end RuleNer

end Mnem.Ingest
