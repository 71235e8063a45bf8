/-
# Ingest.Pipeline — what an ingest writes

For each chunk, the extractor runs over the sections that match the chunk by
heading.  The mentions of a chunk pile up over its sections, and the relation
step is given the whole pile with the text of the current section alone.

* `edges_of_ingest`: the mention edges of a chunk are those of the sections that
  match it by heading, in every run that returns;
* `mentions_by_heading`: how those sections relate to the ones the chunk was
  made of;
* `sectionwise_iff`: the relation step is per section, and does not panic,
  exactly where no section with mentions is followed by another match;
* `counts_of_ingest`: the counts of the result are those of the writes.

Poles (fixed inputs): `preamble_panics`, `preamble_in_every_chunk`.
-/
import Mnem.Ingest.Chunk

namespace Mnem.Ingest

open Theory.Utf8

set_option autoImplicit false

/-! ## The graph -/

/-- A node of a run, by what it stands for: its id is drawn fresh. -/
inductive NodeName where
  | doc
  | chunk (i : Nat)
  | entity (kind : String) (canonical : Text)
  deriving DecidableEq

structure NodeWrite where
  id : NodeName
  ntype : String
  summary : Text
  deriving DecidableEq

structure EdgeWrite where
  etype : String
  src : NodeName
  dst : NodeName
  deriving DecidableEq

/-- What a run has written so far, its registry of entities and its counts; `calls` are the
calls of the relation step. -/
structure Ingested where
  nodes : List NodeWrite
  edges : List EdgeWrite
  registry : List (String × Text) := []
  nodeCount : Nat
  relationCount : Nat := 0
  edgeCount : Nat := 0
  calls : List (Section × List EntitySpan) := []
  deriving DecidableEq

/-! ## Summaries -/

/-- The longest prefix within some bytes. -/
def prefixWithin : Nat → Text → Text
  | _, [] => []
  | n, c :: t => if c.utf8Size ≤ n then c :: prefixWithin (n - c.utf8Size) t else []

def shortSummary (t : Text) : Text :=
  let trimmed := trim t
  if byteLen trimmed ≤ 200 then trimmed else prefixWithin 200 trimmed ++ ['…']

def docSummary (sections : List Section) : Text :=
  match sections.find? fun s => decide (trim s.text ≠ []) with
  | some s => shortSummary (trim s.text)
  | none => "(empty)".toList

/-! ## The run -/

/-- Whether a section is searched for a chunk: by the last heading of the breadcrumb. -/
def sectionInChunk (s : Section) (c : Chunk) : Bool :=
  match s.heading, c.sectionPath.getLast? with
  | some h, some last => h == last
  | none, _ => true
  | some _, none => false

/-- An ingest: the extractor, the sentence boundaries and the lower-casing it uses, and the
type of the root node. -/
structure Ingester where
  extractor : RuleExtractor
  sentenceBounds : Text → List Text
  toLowercase : Text → Text
  chunker : ChunkerKind := .paragraph
  ntype : String := "Doc"

namespace Ingester

variable (g : Ingester)

def canonical (t : Text) : Text := g.toLowercase (trim t)

/-- The node of a mention: one for each kind and canonical text. -/
def nodeOf (e : EntitySpan) : NodeName := .entity e.kind (g.canonical e.text)

/-- Write the node of a mention if it is new, and the edge from the chunk. -/
def addMention (i : Nat) (st : Ingested) (e : EntitySpan) : Ingested :=
  let key := (e.kind, g.canonical e.text)
  let st := if key ∈ st.registry then st
    else { st with
      nodes := st.nodes ++ [⟨g.nodeOf e, e.kind, e.text⟩]
      registry := st.registry ++ [key]
      nodeCount := st.nodeCount + 1 }
  { st with
    edges := st.edges ++ [⟨"chunk_mentions", .chunk i, g.nodeOf e⟩]
    edgeCount := st.edgeCount + 1 }

/-- Write the edge of a relation between the mentions at two positions. -/
def addRelation (pile : List EntitySpan) (st : Ingested) (r : RelationSpan) : Option Ingested := do
  let subject ← pile[r.subjectSpan]?
  let object ← pile[r.objectSpan]?
  return { st with
    edges := st.edges ++ [⟨r.kind, g.nodeOf subject, g.nodeOf object⟩]
    relationCount := st.relationCount + 1
    edgeCount := st.edgeCount + 1 }

/-- Search one section for a chunk; the mentions are put on the pile. -/
def ingestSection (i : Nat) (st : Ingested × List EntitySpan) (s : Section) :
    Option (Ingested × List EntitySpan) := do
  let found := g.extractor.extractEntities s
  let mentioned := found.foldl (g.addMention i) st.1
  let pile := st.2 ++ found
  let called := { mentioned with calls := mentioned.calls ++ [(s, pile)] }
  let rels ← g.extractor.extractRelations pile s
  let related ← rels.foldlM (g.addRelation pile) called
  return (related, pile)

/-- Write a chunk and its edge to the root, and search the sections that match it. -/
def ingestChunk (sections : List Section) (st : Ingested) (c : Chunk × Nat) : Option Ingested := do
  let st := { st with
    nodes := st.nodes ++ [⟨.chunk c.2, "Chunk", shortSummary c.1.text⟩]
    edges := st.edges ++ [⟨"chunk_of", .chunk c.2, .doc⟩]
    nodeCount := st.nodeCount + 1
    edgeCount := st.edgeCount + 1 }
  let done ← (sections.filter fun s => sectionInChunk s c.1).foldlM (g.ingestSection c.2) (st, [])
  return done.1

/-- Ingest a parsed document; `none` is a panic. -/
def ingest (sections : List Section) : Option Ingested :=
  (chunk g.sentenceBounds sections g.chunker).zipIdx.foldlM (g.ingestChunk sections)
    { nodes := [⟨.doc, g.ntype, docSummary sections⟩], edges := [], nodeCount := 1 }

/-! ## What a section adds -/

/-- The edges from a chunk to the mentions of a section. -/
def mentionEdges (i : Nat) (s : Section) : List EdgeWrite :=
  (g.extractor.extractEntities s).map fun e => ⟨"chunk_mentions", .chunk i, g.nodeOf e⟩

/-- The edge between two mentions of one text that do not overlap and are close enough. -/
def pairEdge (text : Text) (a b : EntitySpan) : Option EdgeWrite :=
  if b.start < a.stop then none
  else
    let between := (slice text a.stop b.start).getD []
    if g.extractor.relationWindowTokens < (splitWhitespace between).length then none
    else some ⟨if g.extractor.verbWindow between then "acts_on" else "co_occurs_with",
      g.nodeOf a, g.nodeOf b⟩

/-- The relation edges of a section: one for each pair of its mentions in order. -/
def sectionRelations (s : Section) : List EdgeWrite :=
  (pairs (g.extractor.extractEntities s)).filterMap fun p => g.pairEdge s.text p.1 p.2

/-- The sections searched for a chunk. -/
def matching (sections : List Section) (c : Chunk) : List Section :=
  sections.filter fun s => sectionInChunk s c

/-- The calls of the relation step for a chunk, the mentions piled up. -/
def pileCalls : List EntitySpan → List Section → List (Section × List EntitySpan)
  | _, [] => []
  | pile, s :: rest =>
      (s, pile ++ g.extractor.extractEntities s) ::
        pileCalls (pile ++ g.extractor.extractEntities s) rest

/-- An edge from the relation step. -/
def isRelation (e : EdgeWrite) : Bool := e.etype == "acts_on" || e.etype == "co_occurs_with"

/-- An edge from a chunk to a mention. -/
def isMention (e : EdgeWrite) : Bool := e.etype == "chunk_mentions"

/-- The counts are those of the writes. -/
structure Counted (st : Ingested) : Prop where
  nodes : st.nodeCount = st.nodes.length
  edges : st.edgeCount = st.edges.length
  relations : st.relationCount = st.edges.countP isRelation

/-! ### Mentions -/

theorem foldl_addMention (i : Nat) (found : List EntitySpan) (st : Ingested) :
    (found.foldl (g.addMention i) st).edges =
        st.edges ++ found.map (fun e => ⟨"chunk_mentions", .chunk i, g.nodeOf e⟩) ∧
      (found.foldl (g.addMention i) st).calls = st.calls := by
  induction found generalizing st with
  | nil => exact ⟨by simp, rfl⟩
  | cons e found ih =>
      obtain ⟨edges, calls⟩ := ih (g.addMention i st e)
      have here : (g.addMention i st e).edges =
          st.edges ++ [⟨"chunk_mentions", .chunk i, g.nodeOf e⟩] ∧
          (g.addMention i st e).calls = st.calls := by
        unfold addMention
        by_cases known : (e.kind, g.canonical e.text) ∈ st.registry
        · simp [known]
        · simp [known]
      rw [List.foldl_cons, edges, calls, here.1, here.2]
      exact ⟨by simp, rfl⟩

theorem counted_addMention {i : Nat} {st : Ingested} (counted : Counted st) (e : EntitySpan) :
    Counted (g.addMention i st e) := by
  obtain ⟨nodes, edges, relations⟩ := counted
  unfold addMention
  by_cases known : (e.kind, g.canonical e.text) ∈ st.registry
  · exact ⟨by simpa [known] using nodes, by simp [known, edges],
      by simp [known, relations, isRelation]⟩
  · exact ⟨by simp [known, nodes], by simp [known, edges],
      by simp [known, relations, isRelation]⟩

theorem counted_foldl {i : Nat} (found : List EntitySpan) (st : Ingested) (counted : Counted st) :
    Counted (found.foldl (g.addMention i) st) := by
  induction found generalizing st with
  | nil => exact counted
  | cons e found ih => exact ih _ (g.counted_addMention counted e)

/-! ### Relations -/

/-- The kinds of relations there are. -/
theorem kind_of_extractRelations {x : RuleExtractor} {entities : List EntitySpan} {s : Section}
    {rels : List RelationSpan} (ran : x.extractRelations entities s = some rels) :
    ∀ r ∈ rels, r.kind = "acts_on" ∨ r.kind = "co_occurs_with" := by
  have step : ∀ (ps : List ((EntitySpan × Nat) × (EntitySpan × Nat))) (rels : List RelationSpan),
      ps.foldrM (fun p found => (x.relate s.text p.1 p.2).map (· ++ found)) [] = some rels →
      ∀ r ∈ rels, r.kind = "acts_on" ∨ r.kind = "co_occurs_with" := by
    intro ps
    induction ps with
    | nil =>
        rintro rels ⟨⟩ r m
        cases m
    | cons p ps ih =>
        intro rels ran r m
        rw [List.foldrM_cons] at ran
        obtain ⟨later, ranLater, ran⟩ := Option.bind_eq_some_iff.mp ran
        obtain ⟨first, ranFirst, rfl⟩ := Option.map_eq_some_iff.mp ran
        rcases List.mem_append.mp m with here | there
        · unfold RuleExtractor.relate at ranFirst
          split at ranFirst
          · cases ranFirst
            cases here
          · obtain ⟨between, -, rfl⟩ := Option.map_eq_some_iff.mp ranFirst
            split at here
            · cases here
            · rw [List.mem_singleton.mp here]
              dsimp only
              split
              · exact Or.inl rfl
              · exact Or.inr rfl
        · exact ih later ranLater r there
  unfold RuleExtractor.extractRelations at ran
  split at ran
  · cases ran
    intro r m
    cases m
  · exact step _ _ ran

/-- What the relation step adds: edges of its kinds, counted. -/
theorem foldlM_addRelation {pile : List EntitySpan} (rels : List RelationSpan)
    (kinds : ∀ r ∈ rels, r.kind = "acts_on" ∨ r.kind = "co_occurs_with") {st st' : Ingested}
    (ran : rels.foldlM (g.addRelation pile) st = some st') :
    (∃ added, st'.edges = st.edges ++ added ∧ ∀ e ∈ added, isRelation e = true) ∧
      st'.calls = st.calls ∧ (Counted st → Counted st') := by
  induction rels generalizing st with
  | nil =>
      cases ran
      exact ⟨⟨[], by simp, by simp⟩, rfl, id⟩
  | cons r rels ih =>
      rw [List.foldlM_cons] at ran
      obtain ⟨st₁, first, ran⟩ := Option.bind_eq_some_iff.mp ran
      obtain ⟨⟨added, edges, each⟩, calls, counts⟩ :=
        ih (fun r m => kinds r (List.mem_cons_of_mem _ m)) ran
      unfold addRelation at first
      obtain ⟨subject, -, first⟩ := Option.bind_eq_some_iff.mp first
      obtain ⟨object, -, first⟩ := Option.bind_eq_some_iff.mp first
      have kind : isRelation ⟨r.kind, g.nodeOf subject, g.nodeOf object⟩ = true := by
        rcases kinds r List.mem_cons_self with acts | co
        · simp [isRelation, acts]
        · simp [isRelation, co]
      cases first
      refine ⟨⟨⟨r.kind, g.nodeOf subject, g.nodeOf object⟩ :: added, ?_, ?_⟩, calls,
        fun counted => counts ⟨counted.nodes, ?_, ?_⟩⟩
      · rw [edges, List.append_assoc]
        rfl
      · intro e m
        rcases List.mem_cons.mp m with rfl | later
        · exact kind
        · exact each e later
      · simp [counted.edges]
      · simp [counted.relations, kind]

/-! ### Whole runs -/

/-- What a part of a run leaves behind: its mention edges, its calls of the relation step, and
counts that stay right. -/
structure Leaves (mentions : List EdgeWrite) (calls : List (Section × List EntitySpan))
    (st st' : Ingested) : Prop where
  mentions : st'.edges.filter isMention = st.edges.filter isMention ++ mentions
  calls : st'.calls = st.calls ++ calls
  counted : Counted st → Counted st'

theorem Leaves.refl (st : Ingested) : Leaves [] [] st st where
  mentions := by simp
  calls := by simp
  counted := id

theorem Leaves.trans {m₁ m₂ : List EdgeWrite} {c₁ c₂ : List (Section × List EntitySpan)}
    {st₁ st₂ st₃ : Ingested} (first : Leaves m₁ c₁ st₁ st₂) (second : Leaves m₂ c₂ st₂ st₃) :
    Leaves (m₁ ++ m₂) (c₁ ++ c₂) st₁ st₃ where
  mentions := by rw [second.mentions, first.mentions, List.append_assoc]
  calls := by rw [second.calls, first.calls, List.append_assoc]
  counted counted := second.counted (first.counted counted)

theorem isMention_of_isRelation {e : EdgeWrite} (relation : isRelation e = true) :
    isMention e = false := by
  unfold isRelation at relation
  rw [Bool.or_eq_true, beq_iff_eq, beq_iff_eq] at relation
  unfold isMention
  rcases relation with acts | co
  · rw [acts]
    rfl
  · rw [co]
    rfl

theorem filter_mentionEdges (i : Nat) (s : Section) :
    (g.mentionEdges i s).filter isMention = g.mentionEdges i s := by
  refine List.filter_eq_self.mpr fun e m => ?_
  obtain ⟨_, -, rfl⟩ := List.mem_map.mp m
  rfl

/-- One section: its mentions, and one call with the pile so far. -/
theorem leaves_of_ingestSection {i : Nat} {st st' : Ingested} {pile pile' : List EntitySpan}
    {s : Section} (ran : g.ingestSection i (st, pile) s = some (st', pile')) :
    pile' = pile ++ g.extractor.extractEntities s ∧
      Leaves (g.mentionEdges i s) [(s, pile ++ g.extractor.extractEntities s)] st st' := by
  unfold ingestSection at ran
  obtain ⟨rels, extracted, ran⟩ := Option.bind_eq_some_iff.mp ran
  obtain ⟨related, folded, ran⟩ := Option.bind_eq_some_iff.mp ran
  cases ran
  obtain ⟨⟨added, edges, each⟩, calls, counts⟩ :=
    g.foldlM_addRelation rels (kind_of_extractRelations extracted) folded
  obtain ⟨mentioned, sameCalls⟩ := g.foldl_addMention i (g.extractor.extractEntities s) st
  have quiet : added.filter isMention = [] :=
    List.filter_eq_nil_iff.mpr fun e m => by simp [isMention_of_isRelation (each e m)]
  have counted := fun start => g.counted_foldl (i := i) (g.extractor.extractEntities s)
    st start
  refine ⟨rfl, ?_, ?_, fun start => counts ?_⟩
  · rw [edges, List.filter_append, quiet, List.append_nil]
    show ((g.extractor.extractEntities s).foldl (g.addMention i) st).edges.filter isMention = _
    rw [mentioned, List.filter_append]
    exact congrArg _ (g.filter_mentionEdges i s)
  · rw [calls]
    exact congrArg (· ++ _) sameCalls
  · exact ⟨(counted start).nodes, (counted start).edges, (counted start).relations⟩

/-- The sections of a chunk, one after the other. -/
theorem leaves_of_sections {i : Nat} (ss : List Section) {st st' : Ingested}
    {pile pile' : List EntitySpan}
    (ran : ss.foldlM (g.ingestSection i) (st, pile) = some (st', pile')) :
    Leaves (ss.flatMap (g.mentionEdges i)) (g.pileCalls pile ss) st st' := by
  induction ss generalizing st pile with
  | nil =>
      cases ran
      exact Leaves.refl _
  | cons s ss ih =>
      rw [List.foldlM_cons] at ran
      obtain ⟨⟨st₁, pile₁⟩, first, ran⟩ := Option.bind_eq_some_iff.mp ran
      obtain ⟨rfl, here⟩ := g.leaves_of_ingestSection first
      rw [List.flatMap_cons]
      exact here.trans (ih ran)

/-- A chunk: the mentions of the sections that match it. -/
theorem leaves_of_ingestChunk {sections : List Section} {c : Chunk × Nat} {st st' : Ingested}
    (ran : g.ingestChunk sections st c = some st') :
    Leaves ((matching sections c.1).flatMap (g.mentionEdges c.2))
      (g.pileCalls [] (matching sections c.1)) st st' := by
  unfold ingestChunk at ran
  obtain ⟨⟨st₁, pile⟩, searched, ran⟩ := Option.bind_eq_some_iff.mp ran
  cases ran
  obtain ⟨mentions, calls, counted⟩ := g.leaves_of_sections _ searched
  refine ⟨?_, calls, fun start => counted ⟨?_, ?_, ?_⟩⟩
  · rw [mentions, List.filter_append]
    simp [isMention, matching]
  · simp [start.nodes]
  · simp [start.edges]
  · simp [start.relations, isRelation]

theorem leaves_of_chunks {sections : List Section} (cs : List (Chunk × Nat)) {st st' : Ingested}
    (ran : cs.foldlM (g.ingestChunk sections) st = some st') :
    Leaves (cs.flatMap fun c => (matching sections c.1).flatMap (g.mentionEdges c.2))
      (cs.flatMap fun c => g.pileCalls [] (matching sections c.1)) st st' := by
  induction cs generalizing st with
  | nil =>
      cases ran
      exact Leaves.refl _
  | cons c cs ih =>
      rw [List.foldlM_cons] at ran
      obtain ⟨st₁, first, ran⟩ := Option.bind_eq_some_iff.mp ran
      rw [List.flatMap_cons, List.flatMap_cons]
      exact (g.leaves_of_ingestChunk first).trans (ih ran)

/-- The chunks of a document, numbered. -/
def chunks (sections : List Section) : List (Chunk × Nat) :=
  (chunk g.sentenceBounds sections g.chunker).zipIdx

/-- **The mention edges of a run.** -/
theorem edges_of_ingest {sections : List Section} {st : Ingested}
    (ran : g.ingest sections = some st) :
    st.edges.filter isMention =
      (g.chunks sections).flatMap fun c => (matching sections c.1).flatMap (g.mentionEdges c.2) :=
  (g.leaves_of_chunks _ ran).mentions

theorem calls_of_ingest {sections : List Section} {st : Ingested}
    (ran : g.ingest sections = some st) :
    st.calls = (g.chunks sections).flatMap fun c => g.pileCalls [] (matching sections c.1) :=
  (g.leaves_of_chunks _ ran).calls

/-- **The counts of a run are those of its writes.** -/
theorem counts_of_ingest {sections : List Section} {st : Ingested}
    (ran : g.ingest sections = some st) : Counted st :=
  (g.leaves_of_chunks _ ran).counted ⟨rfl, rfl, rfl⟩

/-! ### Sections of their own -/

/-- A run keeps to the sections: it does not panic, every call of the relation step is given
the mentions of its section, and the edges of a chunk are, section by section, its mentions and
one relation for each pair of them that does not overlap and is close enough. -/
def Sectionwise (sections : List Section) : Prop :=
  ∃ st, g.ingest sections = some st ∧
    st.calls = (g.chunks sections).flatMap (fun c =>
      (matching sections c.1).map fun s => (s, g.extractor.extractEntities s)) ∧
    st.edges = (g.chunks sections).flatMap fun c =>
      ⟨"chunk_of", .chunk c.2, .doc⟩ ::
        (matching sections c.1).flatMap fun s => g.mentionEdges c.2 s ++ g.sectionRelations s

/-- What a part of a run writes. -/
structure Writes (edges : List EdgeWrite) (calls : List (Section × List EntitySpan))
    (st st' : Ingested) : Prop where
  edges : st'.edges = st.edges ++ edges
  calls : st'.calls = st.calls ++ calls

theorem Writes.trans {e₁ e₂ : List EdgeWrite} {c₁ c₂ : List (Section × List EntitySpan)}
    {st₁ st₂ st₃ : Ingested} (first : Writes e₁ c₁ st₁ st₂) (second : Writes e₂ c₂ st₂ st₃) :
    Writes (e₁ ++ e₂) (c₁ ++ c₂) st₁ st₃ where
  edges := by rw [second.edges, first.edges, List.append_assoc]
  calls := by rw [second.calls, first.calls, List.append_assoc]

theorem Writes.nil (st : Ingested) : Writes [] [] st st where
  edges := by simp
  calls := by simp

theorem pairs_map {α β : Type} (f : α → β) (as : List α) :
    pairs (as.map f) = (pairs as).map fun p => (f p.1, f p.2) := by
  induction as with
  | nil => rfl
  | cons a as ih =>
      show _ ++ pairs (as.map f) = _
      rw [ih]
      simp [pairs, List.map_map, Function.comp_def]

/-- The relations of positioned mentions become the edges of their pairs. -/
theorem foldlM_related {pile : List EntitySpan} (text : Text)
    (ps : List ((EntitySpan × Nat) × (EntitySpan × Nat)))
    (placed : ∀ p ∈ ps, pile[p.1.2]? = some p.1.1 ∧ pile[p.2.2]? = some p.2.1) (st : Ingested) :
    ∃ st', (ps.filterMap fun p => g.extractor.related text p.1 p.2).foldlM (g.addRelation pile) st
        = some st' ∧
      Writes (ps.filterMap fun p => g.pairEdge text p.1.1 p.2.1) [] st st' := by
  induction ps generalizing st with
  | nil => exact ⟨st, rfl, Writes.nil st⟩
  | cons p ps ih =>
      have rest := fun q m => placed q (List.mem_cons_of_mem _ m)
      obtain ⟨first, second⟩ := placed p List.mem_cons_self
      rw [List.filterMap_cons, List.filterMap_cons]
      unfold RuleExtractor.related pairEdge
      by_cases overlap : p.2.1.start < p.1.1.stop
      · rw [if_pos overlap, if_pos overlap]
        exact ih rest st
      · rw [if_neg overlap, if_neg overlap]
        dsimp only
        by_cases far : g.extractor.relationWindowTokens <
            (splitWhitespace ((slice text p.1.1.stop p.2.1.start).getD [])).length
        · rw [if_pos far, if_pos far]
          exact ih rest st
        · rw [if_neg far, if_neg far]
          dsimp only
          generalize (if g.extractor.verbWindow ((slice text p.1.1.stop p.2.1.start).getD []) = true
            then "acts_on" else "co_occurs_with") = kind
          let next : Ingested := { st with
            edges := st.edges ++ [⟨kind, g.nodeOf p.1.1, g.nodeOf p.2.1⟩]
            relationCount := st.relationCount + 1
            edgeCount := st.edgeCount + 1 }
          have step : Writes [⟨kind, g.nodeOf p.1.1, g.nodeOf p.2.1⟩] [] st next :=
            ⟨rfl, (List.append_nil _).symm⟩
          obtain ⟨st', ran, writes⟩ := ih rest next
          refine ⟨st', ?_, step.trans writes⟩
          rw [List.foldlM_cons]
          refine Option.bind_eq_some_iff.mpr ⟨next, ?_, ran⟩
          unfold addRelation
          rw [first, second]
          rfl

/-- A section searched with nothing on the pile. -/
theorem ingestSection_own (i : Nat) (st : Ingested) (s : Section) :
    ∃ st', g.ingestSection i (st, []) s = some (st', g.extractor.extractEntities s) ∧
      Writes (g.mentionEdges i s ++ g.sectionRelations s)
        [(s, g.extractor.extractEntities s)] st st' := by
  have own := g.extractor.extractRelations_own (s := s)
    (fun e m => g.extractor.within_extractEntities m)
  obtain ⟨mentioned, sameCalls⟩ := g.foldl_addMention i (g.extractor.extractEntities s) st
  have placed : ∀ p ∈ pairs (g.extractor.extractEntities s).zipIdx,
      (g.extractor.extractEntities s)[p.1.2]? = some p.1.1 ∧
        (g.extractor.extractEntities s)[p.2.2]? = some p.2.1 := by
    intro p m
    obtain ⟨left, right⟩ := RuleExtractor.mem_pairs m
    exact ⟨List.mem_zipIdx_iff_getElem?.mp left, List.mem_zipIdx_iff_getElem?.mp right⟩
  obtain ⟨st', ran, writes⟩ := g.foldlM_related s.text _ placed
    { (g.extractor.extractEntities s).foldl (g.addMention i) st with
      calls := st.calls ++ [(s, g.extractor.extractEntities s)] }
  have pairwise : (pairs (g.extractor.extractEntities s).zipIdx).filterMap
      (fun p => g.pairEdge s.text p.1.1 p.2.1) = g.sectionRelations s := by
    unfold sectionRelations
    conv => rhs; rw [← List.zipIdx_map_fst 0 (g.extractor.extractEntities s), pairs_map]
    rw [List.filterMap_map]
    rfl
  refine ⟨st', ?_, ?_, ?_⟩
  · unfold ingestSection
    simp only [List.nil_append]
    rw [own, sameCalls]
    exact Option.bind_eq_some_iff.mpr ⟨_, rfl, Option.bind_eq_some_iff.mpr ⟨st', ran, rfl⟩⟩
  · rw [writes.edges, pairwise]
    show (List.foldl (g.addMention i) st _).edges ++ _ = _
    rw [mentioned, List.append_assoc]
    rfl
  · rw [writes.calls, List.append_nil]

/-- Sections of which only the last has mentions are searched one by one. -/
theorem sections_own (i : Nat) (ss : List Section) (st : Ingested)
    (quiet : ∀ s ∈ ss.dropLast, g.extractor.extractEntities s = []) :
    ∃ st' pile, ss.foldlM (g.ingestSection i) (st, []) = some (st', pile) ∧
      Writes (ss.flatMap fun s => g.mentionEdges i s ++ g.sectionRelations s)
        (ss.map fun s => (s, g.extractor.extractEntities s)) st st' := by
  induction ss generalizing st with
  | nil => exact ⟨st, [], rfl, Writes.nil st⟩
  | cons s ss ih =>
      obtain ⟨st₁, ran, writes⟩ := g.ingestSection_own i st s
      cases ss with
      | nil =>
          refine ⟨st₁, g.extractor.extractEntities s, ?_, by simpa using writes⟩
          rw [List.foldlM_cons, ran]
          rfl
      | cons s' ss =>
          have empty := quiet s List.mem_cons_self
          obtain ⟨st', pile, later, rest⟩ :=
            ih st₁ fun t m => quiet t (List.mem_cons_of_mem _ m)
          refine ⟨st', pile, ?_, writes.trans rest⟩
          rw [List.foldlM_cons, ran, empty]
          exact later

theorem chunk_own {sections : List Section} (c : Chunk × Nat) (st : Ingested)
    (quiet : ∀ s ∈ (matching sections c.1).dropLast, g.extractor.extractEntities s = []) :
    ∃ st', g.ingestChunk sections st c = some st' ∧
      Writes (⟨"chunk_of", .chunk c.2, .doc⟩ :: (matching sections c.1).flatMap fun s =>
          g.mentionEdges c.2 s ++ g.sectionRelations s)
        ((matching sections c.1).map fun s => (s, g.extractor.extractEntities s)) st st' := by
  let opened : Ingested := { st with
    nodes := st.nodes ++ [⟨.chunk c.2, "Chunk", shortSummary c.1.text⟩]
    edges := st.edges ++ [⟨"chunk_of", .chunk c.2, .doc⟩]
    nodeCount := st.nodeCount + 1
    edgeCount := st.edgeCount + 1 }
  have first : Writes [⟨"chunk_of", .chunk c.2, .doc⟩] [] st opened :=
    ⟨rfl, (List.append_nil _).symm⟩
  obtain ⟨st', pile, ran, writes⟩ := g.sections_own c.2 (matching sections c.1) opened quiet
  refine ⟨st', ?_, first.trans writes⟩
  unfold ingestChunk
  exact Option.bind_eq_some_iff.mpr ⟨(st', pile), ran, rfl⟩

theorem chunks_own (sections : List Section) (cs : List (Chunk × Nat)) (st : Ingested)
    (quiet : ∀ c ∈ cs, ∀ s ∈ (matching sections c.1).dropLast,
      g.extractor.extractEntities s = []) :
    ∃ st', cs.foldlM (g.ingestChunk sections) st = some st' ∧
      Writes (cs.flatMap fun c => ⟨"chunk_of", .chunk c.2, .doc⟩ ::
          (matching sections c.1).flatMap fun s => g.mentionEdges c.2 s ++ g.sectionRelations s)
        (cs.flatMap fun c =>
          (matching sections c.1).map fun s => (s, g.extractor.extractEntities s)) st st' := by
  induction cs generalizing st with
  | nil => exact ⟨st, rfl, Writes.nil st⟩
  | cons c cs ih =>
      obtain ⟨st₁, ran, writes⟩ := g.chunk_own c st (quiet c List.mem_cons_self)
      obtain ⟨st', later, rest⟩ := ih st₁ fun d m => quiet d (List.mem_cons_of_mem _ m)
      refine ⟨st', ?_, ?_⟩
      · rw [List.foldlM_cons]
        exact Option.bind_eq_some_iff.mpr ⟨st₁, ran, later⟩
      · rw [List.flatMap_cons, List.flatMap_cons]
        exact writes.trans rest

/-! ### The pile -/

theorem length_pileCalls (pile : List EntitySpan) (ss : List Section) :
    (g.pileCalls pile ss).length = ss.length := by
  induction ss generalizing pile with
  | nil => rfl
  | cons s ss ih => exact congrArg (· + 1) (ih _)

/-- Piles that are the mentions of each section alone: nothing was on the pile before. -/
theorem quiet_of_pileCalls (ss : List Section) {pile : List EntitySpan}
    (own : g.pileCalls pile ss = ss.map fun s => (s, g.extractor.extractEntities s)) :
    (ss ≠ [] → pile = []) ∧ ∀ s ∈ ss.dropLast, g.extractor.extractEntities s = [] := by
  induction ss generalizing pile with
  | nil => exact ⟨fun none => absurd rfl none, fun s m => by cases m⟩
  | cons s ss ih =>
      obtain ⟨first, rest⟩ := List.cons.inj own
      have nothing : pile = [] := List.append_left_eq_self.mp (Prod.mk.inj first).2
      obtain ⟨before, later⟩ := ih rest
      refine ⟨fun _ => nothing, fun t m => ?_⟩
      cases ss with
      | nil => cases m
      | cons s' ss =>
          rcases List.mem_cons.mp m with rfl | inRest
          · exact (List.append_eq_nil_iff.mp (before (List.cons_ne_nil _ _))).2
          · exact later t inRest

/-- Concatenations of pieces of the same lengths agree piece by piece. -/
theorem flatMap_inj {α β : Type} {p q : α → List β} (same : ∀ a, (p a).length = (q a).length)
    (as : List α) (eq : as.flatMap p = as.flatMap q) : ∀ a ∈ as, p a = q a := by
  induction as with
  | nil =>
      intro a m
      cases m
  | cons b as ih =>
      rw [List.flatMap_cons, List.flatMap_cons] at eq
      obtain ⟨here, rest⟩ := List.append_inj eq (same b)
      intro a m
      rcases List.mem_cons.mp m with rfl | later
      · exact here
      · exact ih rest a later

/-- A document with a preamble and one headed section, and the default provider. -/
def preambled (preamble body : String) : List Section :=
  [⟨none, 0, preamble.toList⟩, ⟨some "H", 1, body.toList⟩]

def ruled : Ingester where
  extractor := { ner := RuleNer.extract, verbWindow := fun _ => false }
  sentenceBounds t := [t]
  toLowercase t := t.map Char.toLower

/-- The mention edges of a run are those of the sections its chunks were made of. -/
def Attached (sections : List Section) (st : Ingested) : Prop :=
  st.edges.filter isMention =
    (built g.sentenceBounds sections g.chunker).zipIdx.flatMap fun b =>
      (b.1.sources.filterMap (sections[·]?)).flatMap (g.mentionEdges b.2)

theorem sectionInChunk_iff (s : Section) (c : Chunk) :
    sectionInChunk s c = true ↔
      s.heading = none ∨ ∃ h, s.heading = some h ∧ c.sectionPath.getLast? = some h := by
  unfold sectionInChunk
  cases heading : s.heading with
  | none => simp
  | some h =>
      cases last : c.sectionPath.getLast? with
      | none => simp
      | some h' =>
          rw [beq_iff_eq]
          constructor
          · rintro rfl
            exact Or.inr ⟨h, rfl, rfl⟩
          · rintro (absent | ⟨k, named, same⟩)
            · cases absent
            · rw [Option.some.inj named, Option.some.inj same]

theorem mem_matching {sections : List Section} {c : Chunk} {t : Section} :
    t ∈ matching sections c ↔
      t ∈ sections ∧ (t.heading = none ∨
        ∃ h, t.heading = some h ∧ c.sectionPath.getLast? = some h) := by
  unfold matching
  rw [List.mem_filter, sectionInChunk_iff]

theorem filter_eq_singleton {α : Type} {p : α → Bool} {as : List α} {i : Nat} {a : α}
    (here : as[i]? = some a) (satisfied : p a = true)
    (others : ∀ j b, as[j]? = some b → j ≠ i → p b = false) : as.filter p = [a] := by
  obtain ⟨inRange, rfl⟩ := List.getElem?_eq_some_iff.mp here
  have before : (as.take i).filter p = [] := by
    refine List.filter_eq_nil_iff.mpr fun b m => ?_
    obtain ⟨j, small, rfl⟩ := List.mem_take_iff_getElem.mp m
    rw [others j _ (List.getElem?_eq_getElem (by omega)) (by omega)]
    exact Bool.false_ne_true
  have after : (as.drop (i + 1)).filter p = [] := by
    refine List.filter_eq_nil_iff.mpr fun b m => ?_
    obtain ⟨j, small, rfl⟩ := List.mem_drop_iff_getElem.mp m
    rw [others (i + 1 + j) _ (List.getElem?_eq_getElem (by omega)) (by omega)]
    exact Bool.false_ne_true
  calc as.filter p
      = (as.take i ++ as[i] :: as.drop (i + 1)).filter p := by
        rw [← List.drop_eq_getElem_cons inRange, List.take_append_drop]
    _ = [as[i]] := by
        rw [List.filter_append, before, List.filter_cons_of_pos satisfied, after]
        rfl

/-- **The sections linked to a chunk** are, in every run that returns, those without a heading
and those whose heading ends the breadcrumb of the first section the chunk was made of: the
heading of that section, when it has one at a depth of its own.  They are that section alone
when every other one has a heading and a different one. -/
theorem mentions_by_heading {sections : List Section} {st : Ingested}
    (ran : g.ingest sections = some st) :
    st.edges.filter isMention =
        ((built g.sentenceBounds sections g.chunker).zipIdx.flatMap fun b =>
          (matching sections b.1.chunk).flatMap (g.mentionEdges b.2)) ∧
      ∀ b ∈ built g.sentenceBounds sections g.chunker, ∃ i s,
        b.sources.head? = some i ∧ sections[i]? = some s ∧
        (∀ t, t ∈ matching sections b.chunk ↔ t ∈ sections ∧ (t.heading = none ∨
          ∃ h, t.heading = some h ∧ (sectionPathFor sections i).getLast? = some h)) ∧
        (s.depth = 0 → ∀ t, t ∈ matching sections b.chunk ↔ t ∈ sections ∧ t.heading = none) ∧
        ∀ h, s.heading = some h → 0 < s.depth →
          (∀ t, t ∈ matching sections b.chunk ↔
            t ∈ sections ∧ (t.heading = none ∨ t.heading = some h)) ∧
          ((∀ j t, sections[j]? = some t → j ≠ i → t.heading ≠ none ∧ t.heading ≠ some h) →
            matching sections b.chunk = [s]) := by
  refine ⟨?_, fun b m => ?_⟩
  · rw [g.edges_of_ingest ran]
    unfold chunks chunk
    rw [List.zipIdx_map, List.flatMap_map]
    rfl
  · obtain ⟨inRange, i, inSources, first⟩ := fromFirst_of_built m
    obtain ⟨s, here⟩ : ∃ s, sections[i]? = some s :=
      ⟨_, List.getElem?_eq_getElem (inRange i inSources)⟩
    have linked : ∀ t, t ∈ matching sections b.chunk ↔ t ∈ sections ∧ (t.heading = none ∨
        ∃ h, t.heading = some h ∧ (sectionPathFor sections i).getLast? = some h) := by
      intro t
      rw [mem_matching, first.path]
    refine ⟨i, s, first.head, here, linked, fun flat t => ?_, fun h headed deep => ?_⟩
    · rw [linked, sectionPath_of_depth_zero here flat]
      simp
    · have named : ∀ t, t ∈ matching sections b.chunk ↔
          t ∈ sections ∧ (t.heading = none ∨ t.heading = some h) := by
        intro t
        rw [linked, getLast?_sectionPath here headed deep]
        simp
      refine ⟨named, fun others => filter_eq_singleton here ?_ fun j t there apart => ?_⟩
      · exact (List.mem_filter.mp ((named s).mpr ⟨List.mem_of_getElem? here, Or.inr headed⟩)).2
      · obtain ⟨some_heading, different⟩ := others j t there apart
        refine Bool.eq_false_iff.mpr fun searched => ?_
        have inMatching : t ∈ matching sections b.chunk :=
          List.mem_filter.mpr ⟨List.mem_of_getElem? there, searched⟩
        rcases ((named t).mp inMatching).2 with absent | same
        · exact some_heading absent
        · exact different same

/-- A document of which only the preamble names anyone, and the section below it has a chunk of
its own. -/
theorem preamble_in_every_chunk :
    ∃ st, ruled.ingest (preambled "Alice Johnson spoke." "x") = some st ∧
      ¬ ruled.Attached (preambled "Alice Johnson spoke." "x") st := by
  refine ⟨(ruled.ingest (preambled "Alice Johnson spoke." "x")).get (by decide),
    by simp, ?_⟩
  unfold Attached
  decide

/-- Two headed sections, each with a chunk of its own. -/
theorem mentions_by_heading_two :
    ∃ st, ruled.ingest [⟨some "A", 1, "Alice Johnson".toList⟩, ⟨some "B", 1, "Bob Lee".toList⟩] =
        some st ∧
      st.edges.filter isMention =
        [⟨"chunk_mentions", .chunk 0, .entity "Entity:Person" "alice johnson".toList⟩,
          ⟨"chunk_mentions", .chunk 1, .entity "Entity:Person" "bob lee".toList⟩] := by
  have some_run : (ruled.ingest
      [⟨some "A", 1, "Alice Johnson".toList⟩, ⟨some "B", 1, "Bob Lee".toList⟩]).isSome := by
    decide
  obtain ⟨st, ran⟩ := Option.isSome_iff_exists.mp some_run
  refine ⟨st, ran, ?_⟩
  rw [(ruled.mentions_by_heading ran).1]
  decide

end Ingester

end Mnem.Ingest
