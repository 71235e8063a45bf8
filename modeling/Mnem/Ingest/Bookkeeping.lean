/-
# Ingest.Bookkeeping — the counts of an ingest are those of what it stages

The run of `Ingest.Pipeline` names the nodes it writes by what they stand for.
Here the ids are drawn, one for each node and one for each edge, the records are
staged under them in the maps of the transaction, and the registry keeps the id
of each entity, under any extractor.

`Books` says what a run has staged so far: one label for each node, and the
edges by their three kinds.  Every step of the loops keeps it
(`Books.addChunk`, `Books.addEntity`, `Books.addMention`, `Books.addRelation`),
and `ingest_bookkeeping` reads it at the end.
-/
import Mnem.Ingest.Pipeline
import Mnem.Theory.OrdMap
import Mathlib.Data.Prod.Lex
import Mathlib.Data.String.Basic

namespace Mnem.Ingest

open Theory Theory.Utf8

set_option autoImplicit false

/-! ## The run -/

/-- The trait of an extractor; `prepare` may refuse, and a search may panic (`none`). -/
structure Extractor where
  prepare : List Section → Bool
  extractEntities : Section → List EntitySpan
  extractRelations : List EntitySpan → Section → Option (List RelationSpan)

/-- What is kept of a node's record. -/
structure NodeRecord where
  ntype : String
  summary : Text
  content : Option Text := none
  canonical : Option Text := none
  deriving DecidableEq

structure EdgeRecord (N : Type) where
  etype : String
  src : N
  dst : N
  deriving DecidableEq

/-- The ids that `new_v7` draws, in order. -/
structure Supply (N E : Type) where
  node : Nat → N
  edge : Nat → E

/-- A kind with a canonical text: what the registry has one node for. -/
abbrev Entity := String ×ₗ Text

/-- What a run has staged, how many ids it has drawn, its registry and its counters. -/
structure Draft (N E : Type) [LinearOrder N] [LinearOrder E] where
  newNodes : OrdMap N NodeRecord := OrdMap.empty
  newEdges : OrdMap E (EdgeRecord N) := OrdMap.empty
  nodesDrawn : Nat := 0
  edgesDrawn : Nat := 0
  registry : OrdMap Entity N := OrdMap.empty
  nodeCount : Nat := 0
  relationCount : Nat := 0
  edgeCount : Nat := 0

structure IngestResult where
  nodeCount : Nat
  chunkCount : Nat
  entityCount : Nat
  relationCount : Nat
  edgeCount : Nat
  deriving DecidableEq

/-- An ingest with its extractor; `embed` says whether the embedding of a chunk is staged. -/
structure Pipeline where
  extractor : Extractor
  sentenceBounds : Text → List Text
  toLowercase : Text → Text
  embed : Text → Bool := fun _ => true
  chunker : ChunkerKind := .paragraph
  ntype : String := "Doc"

/-- An ingester with the rule extractor, as a pipeline. -/
def Ingester.pipeline (g : Ingester) : Pipeline where
  extractor := ⟨fun _ => true, g.extractor.extractEntities, g.extractor.extractRelations⟩
  sentenceBounds := g.sentenceBounds
  toLowercase := g.toLowercase
  chunker := g.chunker
  ntype := g.ntype

namespace Pipeline

variable {N E : Type} [LinearOrder N] [LinearOrder E] (ids : Supply N E) (g : Pipeline)

/-- Draw an id and stage a node under it. -/
def stageNode (st : Draft N E) (n : NodeRecord) : N × Draft N E :=
  (ids.node st.nodesDrawn, { st with
    newNodes := st.newNodes.insert (ids.node st.nodesDrawn) n
    nodesDrawn := st.nodesDrawn + 1 })

/-- Draw an id and stage an edge under it. -/
def stageEdge (st : Draft N E) (e : EdgeRecord N) : Draft N E :=
  { st with
    newEdges := st.newEdges.insert (ids.edge st.edgesDrawn) e
    edgesDrawn := st.edgesDrawn + 1 }

def canonical (t : Text) : Text := g.toLowercase (trim t)

def entity (e : EntitySpan) : Entity := toLex (e.kind, g.canonical e.text)

/-- The node of a mention: the registry's, or a new one. -/
def resolveEntity (st : Draft N E) (e : EntitySpan) : N × Draft N E :=
  match st.registry.get? (g.entity e) with
  | some existing => (existing, st)
  | none =>
      let staged := stageNode ids st ⟨e.kind, e.text, none, some (g.canonical e.text)⟩
      (staged.1, { staged.2 with
        nodeCount := staged.2.nodeCount + 1
        registry := staged.2.registry.insert (g.entity e) staged.1 })

/-- A mention: its node, the edge from the chunk, and its place among those of the chunk. -/
def addMention (chunkId : N) (acc : Draft N E × List (EntitySpan × N)) (e : EntitySpan) :
    Draft N E × List (EntitySpan × N) :=
  let resolved := g.resolveEntity ids acc.1 e
  let staged := stageEdge ids resolved.2 ⟨"chunk_mentions", chunkId, resolved.1⟩
  ({ staged with edgeCount := staged.edgeCount + 1 }, acc.2 ++ [(e, resolved.1)])

/-- The edge of a relation between the mentions at two positions. -/
def addRelation (ents : List (EntitySpan × N)) (st : Draft N E) (r : RelationSpan) :
    Option (Draft N E) := do
  let subject ← ents[r.subjectSpan]?
  let object ← ents[r.objectSpan]?
  let staged := stageEdge ids st ⟨r.kind, subject.2, object.2⟩
  return { staged with
    relationCount := staged.relationCount + 1
    edgeCount := staged.edgeCount + 1 }

/-- Search one section for a chunk. -/
def ingestSection (chunkId : N) (acc : Draft N E × List (EntitySpan × N)) (s : Section) :
    Option (Draft N E × List (EntitySpan × N)) := do
  let acc := (g.extractor.extractEntities s).foldl (g.addMention ids chunkId) acc
  let rels ← g.extractor.extractRelations (acc.2.map Prod.fst) s
  let st ← rels.foldlM (addRelation ids acc.2) acc.1
  return (st, acc.2)

/-- The node of a chunk and its edge to the root. -/
def commitChunk (doc : N) (st : Draft N E) (c : Chunk) : Option (N × Draft N E) :=
  if g.embed c.text then
    let staged := stageNode ids st ⟨"Chunk", shortSummary c.text, some c.text, none⟩
    some (staged.1, stageEdge ids staged.2 ⟨"chunk_of", staged.1, doc⟩)
  else none

/-- Commit a chunk and search the sections that match it. -/
def ingestChunk (doc : N) (sections : List Section) (st : Draft N E) (c : Chunk) :
    Option (Draft N E) := do
  let committed ← g.commitChunk ids doc st c
  let st := { committed.2 with
    nodeCount := committed.2.nodeCount + 1
    edgeCount := committed.2.edgeCount + 1 }
  let searched ← (sections.filter fun s => sectionInChunk s c).foldlM (g.ingestSection ids committed.1) (st, [])
  return searched.1

/-- Ingest a document that has been parsed (`none` if it could not be) into a transaction. -/
def ingest (newNodes : OrdMap N NodeRecord) (newEdges : OrdMap E (EdgeRecord N))
    (parsed : Option (List Section)) : Option (IngestResult × Draft N E) := do
  let sections ← parsed
  let chunks := chunk g.sentenceBounds sections g.chunker
  if g.extractor.prepare sections then
    let root := stageNode ids { newNodes := newNodes, newEdges := newEdges }
      ⟨g.ntype, docSummary sections, none, none⟩
    let st ← chunks.foldlM (g.ingestChunk ids root.1 sections) { root.2 with nodeCount := 1 }
    return (⟨st.nodeCount, chunks.length, st.registry.entries.length, st.relationCount,
      st.edgeCount⟩, st)
  else none

/-! ## The books of a run -/

/-- A relation between two mentions. -/
structure Related where
  kind : String
  subject : EntitySpan
  object : EntitySpan

/-- The id the registry has for an entity. -/
def idOf (registry : OrdMap Entity N) (p : Entity) : N := (registry.get? p).getD (ids.node 0)

/-- What a node stands for: its type, the content of a chunk, the canonical text of an entity. -/
def label (n : N × NodeRecord) : N × String × Option Text × Option Text :=
  (n.1, n.2.ntype, n.2.content, n.2.canonical)

def chunkLabel (c : N × Chunk) : N × String × Option Text × Option Text :=
  (c.1, "Chunk", some c.2.text, none)

def entityLabel (p : Entity × N) : N × String × Option Text × Option Text :=
  (p.2, p.1.1, none, some p.1.2)

def chunkEdge (doc : N) (c : N × Chunk) : EdgeRecord N := ⟨"chunk_of", c.1, doc⟩

def mentionEdge (entityOf : Entity → N) (m : N × EntitySpan) : EdgeRecord N :=
  ⟨"chunk_mentions", m.1, entityOf (g.entity m.2)⟩

def relationEdge (entityOf : Entity → N) (r : Related) : EdgeRecord N :=
  ⟨r.kind, entityOf (g.entity r.subject), entityOf (g.entity r.object)⟩

/-- The keys a supply will draw are all different, and none is in the map yet. -/
structure Fresh {K V : Type} [LinearOrder K] (draw : Nat → K) (start : OrdMap K V) : Prop where
  injective : Function.Injective draw
  absent : ∀ k, start.get? (draw k) = none

/-- A map that was filled under the first keys of a supply. -/
structure Filled {K V : Type} [LinearOrder K] (draw : Nat → K) (start map : OrdMap K V)
    (drawn : Nat) (added : List (K × V)) : Prop where
  entries : map.entries.Perm (start.entries ++ added)
  keys : ∀ x ∈ added, ∃ k < drawn, x.1 = draw k

theorem Filled.empty {K V : Type} [LinearOrder K] {draw : Nat → K} {start : OrdMap K V} :
    Filled draw start start 0 [] where
  entries := by rw [List.append_nil]
  keys := by
    intro x m
    cases m

theorem Filled.insert {K V : Type} [LinearOrder K] {draw : Nat → K} {start map : OrdMap K V}
    {drawn : Nat} {added : List (K × V)} (filled : Filled draw start map drawn added)
    (fresh : Fresh draw start) (v : V) :
    Filled draw start (map.insert (draw drawn) v) (drawn + 1) (added ++ [(draw drawn, v)]) where
  entries := by
    have absent : map.get? (draw drawn) = none := by
      refine Entries.get?_eq_none_iff.mpr fun x m same => ?_
      rcases List.mem_append.mp (filled.entries.mem_iff.mp m) with old | own
      · exact Entries.get?_eq_none_iff.mp (fresh.absent drawn) x old same
      · obtain ⟨k, below, key⟩ := filled.keys x own
        have again := fresh.injective (key.symm.trans same)
        omega
    calc List.Perm (map.insert (draw drawn) v).entries ((draw drawn, v) :: map.entries) :=
          OrdMap.entries_insert_perm _ v absent
      List.Perm _ ((draw drawn, v) :: (start.entries ++ added)) := filled.entries.cons _
      List.Perm _ ((start.entries ++ added) ++ [(draw drawn, v)]) :=
          (List.perm_append_singleton _ _).symm
      _ = start.entries ++ (added ++ [(draw drawn, v)]) := List.append_assoc _ _ _
  keys := by
    intro x m
    rcases List.mem_append.mp m with old | new
    · obtain ⟨k, below, key⟩ := filled.keys x old
      exact ⟨k, Nat.lt_succ_of_lt below, key⟩
    · rw [List.mem_singleton.mp new]
      exact ⟨drawn, Nat.lt_succ_self _, rfl⟩

variable (newNodes : OrdMap N NodeRecord) (newEdges : OrdMap E (EdgeRecord N))

/-- **The books of a run**: the root, the chunks, the mentions and the relations it has staged,
and its counters. -/
structure Books (doc : N) (st : Draft N E) (written : List (N × Chunk)) (mentions : List (N × EntitySpan))
    (relations : List Related) (nodes : List (N × NodeRecord)) (edges : List (E × EdgeRecord N)) :
    Prop where
  stagedNodes : Filled ids.node newNodes st.newNodes st.nodesDrawn nodes
  stagedEdges : Filled ids.edge newEdges st.newEdges st.edgesDrawn edges
  labels : (nodes.map label).Perm ((doc, g.ntype, none, none) ::
    (written.map chunkLabel ++ st.registry.entries.map entityLabel))
  records : (edges.map Prod.snd).Perm (written.map (chunkEdge doc) ++
    (mentions.map (g.mentionEdge (idOf ids st.registry)) ++
      relations.map (g.relationEdge (idOf ids st.registry))))
  known : ∀ m ∈ mentions, ∃ id, st.registry.get? (g.entity m.2) = some id
  fromChunk : ∀ m ∈ mentions, m.1 ∈ written.map Prod.fst
  related : ∀ r ∈ relations, (∃ m ∈ mentions, m.2 = r.subject) ∧ ∃ m ∈ mentions, m.2 = r.object
  nodeCount : st.nodeCount = nodes.length
  edgeCount : st.edgeCount = edges.length
  relationCount : st.relationCount = relations.length

variable {ids g newNodes newEdges} {doc : N} {st : Draft N E} {written : List (N × Chunk)}
  {mentions : List (N × EntitySpan)} {relations : List Related}
  {nodes : List (N × NodeRecord)} {edges : List (E × EdgeRecord N)}

/-- The edges of mentions and relations depend on the registered entities alone. -/
theorem Books.records_congr (books : Books ids g newNodes newEdges doc st written mentions
    relations nodes edges) {entityOf : Entity → N}
    (same : ∀ p id, st.registry.get? p = some id → entityOf p = idOf ids st.registry p) :
    mentions.map (g.mentionEdge (idOf ids st.registry)) = mentions.map (g.mentionEdge entityOf) ∧
    relations.map (g.relationEdge (idOf ids st.registry)) =
      relations.map (g.relationEdge entityOf) := by
  have known : ∀ m ∈ mentions, entityOf (g.entity m.2) = idOf ids st.registry (g.entity m.2) := by
    intro m inMentions
    obtain ⟨id, found⟩ := books.known m inMentions
    exact same _ id found
  refine ⟨List.map_congr_left fun m inMentions => ?_, List.map_congr_left fun r m => ?_⟩
  · rw [mentionEdge, mentionEdge, known m inMentions]
  · obtain ⟨⟨a, inA, subject⟩, b, inB, object⟩ := books.related r m
    rw [relationEdge, relationEdge, ← subject, ← object, known a inA, known b inB]

omit [LinearOrder N] [LinearOrder E] in
theorem idOf_of_get? {registry : OrdMap Entity N} {p : Entity} {id : N}
    (found : registry.get? p = some id) : idOf ids registry p = id := by
  rw [idOf, found, Option.getD_some]

/-! ### Chunks -/

/-- A chunk with its edge to the root. -/
theorem Books.addChunk (freshNodes : Fresh ids.node newNodes) (freshEdges : Fresh ids.edge newEdges)
    (books : Books ids g newNodes newEdges doc st written mentions relations nodes edges)
    {c : Chunk} {committed : N × Draft N E} (ran : g.commitChunk ids doc st c = some committed) :
    ∃ nodes' edges', Books ids g newNodes newEdges doc
      { committed.2 with
        nodeCount := committed.2.nodeCount + 1
        edgeCount := committed.2.edgeCount + 1 }
      (written ++ [(committed.1, c)]) mentions relations nodes' edges' := by
  unfold commitChunk at ran
  split at ran
  · cases ran
    refine ⟨_, _, books.stagedNodes.insert freshNodes _, books.stagedEdges.insert freshEdges _,
      ?_, ?_, books.known, ?_, books.related, ?_, ?_, books.relationCount⟩
    · rw [List.map_append, List.map_append]
      calc List.Perm (nodes.map label ++ [label (ids.node st.nodesDrawn,
              ⟨"Chunk", shortSummary c.text, some c.text, none⟩)])
            (label (ids.node st.nodesDrawn,
              ⟨"Chunk", shortSummary c.text, some c.text, none⟩) :: nodes.map label) :=
            List.perm_append_singleton _ _
        List.Perm _ _ := books.labels.cons _
        List.Perm _ _ := List.Perm.swap _ _ _
        List.Perm _ _ := by
            refine List.Perm.cons _ ?_
            rw [List.append_assoc]
            exact List.perm_middle.symm
    · rw [List.map_append, List.map_append, List.append_assoc]
      calc List.Perm (edges.map Prod.snd ++ [chunkEdge doc (ids.node st.nodesDrawn, c)])
            (chunkEdge doc (ids.node st.nodesDrawn, c) :: edges.map Prod.snd) :=
            List.perm_append_singleton _ _
        List.Perm _ _ := books.records.cons _
        List.Perm _ _ := List.perm_middle.symm
    · intro m inMentions
      rw [List.map_append]
      exact List.mem_append_left _ (books.fromChunk m inMentions)
    · show st.nodeCount + 1 = _
      rw [books.nodeCount, List.length_append, List.length_singleton]
    · show st.edgeCount + 1 = _
      rw [books.edgeCount, List.length_append, List.length_singleton]
  · cases ran

/-! ### Mentions -/

/-- The registry keeps what it has. -/
def Extends (registry registry' : OrdMap Entity N) : Prop :=
  ∀ p id, registry.get? p = some id → registry'.get? p = some id

/-- The mentions of a chunk have the ids of their entities. -/
def Piled (g : Pipeline) (registry : OrdMap Entity N) (mentions : List (N × EntitySpan))
    (pile : List (EntitySpan × N)) : Prop :=
  ∀ x ∈ pile, registry.get? (g.entity x.1) = some x.2 ∧ ∃ m ∈ mentions, m.2 = x.1

/-- The registry has no entity without a mention. -/
def Named (g : Pipeline) (registry : OrdMap Entity N) (mentions : List (N × EntitySpan)) : Prop :=
  ∀ p id, registry.get? p = some id → ∃ m ∈ mentions, g.entity m.2 = p

/-- The node of a new entity. -/
theorem Books.addEntity (freshNodes : Fresh ids.node newNodes)
    (books : Books ids g newNodes newEdges doc st written mentions relations nodes edges)
    {e : EntitySpan} (unknown : st.registry.get? (g.entity e) = none) :
    (g.resolveEntity ids st e).2.registry = st.registry.insert (g.entity e)
      (g.resolveEntity ids st e).1 ∧
    ∃ nodes', Books ids g newNodes newEdges doc (g.resolveEntity ids st e).2 written mentions
      relations nodes' edges := by
  rw [resolveEntity, unknown]
  have other : ∀ p id, st.registry.get? p = some id →
      idOf ids (st.registry.insert (g.entity e) (ids.node st.nodesDrawn)) p =
        idOf ids st.registry p := by
    intro p id found
    have apart : g.entity e ≠ p := by
      rintro rfl
      rw [unknown] at found
      cases found
    rw [idOf, OrdMap.get?_insert, if_neg apart, idOf]
  have entries := OrdMap.entries_insert_perm st.registry (ids.node st.nodesDrawn) unknown
  refine ⟨rfl, _, books.stagedNodes.insert freshNodes _, books.stagedEdges, ?_, ?_, ?_,
    books.fromChunk, books.related, ?_, books.edgeCount, books.relationCount⟩
  · rw [List.map_append]
    refine (List.perm_append_singleton _ _).trans ((books.labels.cons _).trans ?_)
    refine (List.Perm.swap _ _ _).trans (List.Perm.cons _ ?_)
    exact List.perm_middle.symm.trans (List.Perm.append_left _ (entries.map entityLabel).symm)
  · obtain ⟨inMentions, inRelations⟩ := books.records_congr other
    have records := books.records
    rw [inMentions, inRelations] at records
    exact records
  · intro m inMentions
    obtain ⟨id, found⟩ := books.known m inMentions
    show ∃ id, (st.registry.insert _ _).get? _ = some id
    rw [OrdMap.get?_insert]
    split
    · exact ⟨_, rfl⟩
    · exact ⟨id, found⟩
  · show st.nodeCount + 1 = _
    rw [books.nodeCount, List.length_append, List.length_singleton]

/-- The edge of a mention whose entity is registered. -/
theorem Books.addEdge (freshEdges : Fresh ids.edge newEdges)
    (books : Books ids g newNodes newEdges doc st written mentions relations nodes edges)
    {m : N × EntitySpan} {id : N} (inChunks : m.1 ∈ written.map Prod.fst)
    (found : st.registry.get? (g.entity m.2) = some id) :
    ∃ edges', Books ids g newNodes newEdges doc
      { stageEdge ids st ⟨"chunk_mentions", m.1, id⟩ with
        edgeCount := (stageEdge ids st ⟨"chunk_mentions", m.1, id⟩).edgeCount + 1 }
      written (mentions ++ [m]) relations nodes edges' := by
  have edge : g.mentionEdge (idOf ids st.registry) m = ⟨"chunk_mentions", m.1, id⟩ := by
    rw [mentionEdge, idOf_of_get? found]
  refine ⟨_, books.stagedNodes, books.stagedEdges.insert freshEdges _, books.labels, ?_, ?_, ?_, ?_,
    books.nodeCount, ?_, books.relationCount⟩
  · rw [List.map_append, List.map_append, List.append_assoc (mentions.map _), ← List.append_assoc]
    show List.Perm (edges.map Prod.snd ++ [⟨"chunk_mentions", m.1, id⟩])
      ((written.map (chunkEdge doc) ++ mentions.map (g.mentionEdge (idOf ids st.registry))) ++
        g.mentionEdge (idOf ids st.registry) m ::
          relations.map (g.relationEdge (idOf ids st.registry)))
    rw [edge]
    refine (List.perm_append_singleton _ _).trans ((books.records.cons _).trans ?_)
    rw [← List.append_assoc]
    exact List.perm_middle.symm
  · intro m' inMentions
    rcases List.mem_append.mp inMentions with old | new
    · exact books.known m' old
    · rw [List.mem_singleton.mp new]
      exact ⟨id, found⟩
  · intro m' inMentions
    rcases List.mem_append.mp inMentions with old | new
    · exact books.fromChunk m' old
    · rw [List.mem_singleton.mp new]
      exact inChunks
  · intro r inRelations
    obtain ⟨⟨a, inA, subject⟩, b, inB, object⟩ := books.related r inRelations
    exact ⟨⟨a, List.mem_append_left _ inA, subject⟩, b, List.mem_append_left _ inB, object⟩
  · show st.edgeCount + 1 = _
    rw [books.edgeCount, List.length_append, List.length_singleton]

/-- A mention: its node if the entity is new, and its edge. -/
theorem Books.addMention (freshNodes : Fresh ids.node newNodes)
    (freshEdges : Fresh ids.edge newEdges)
    (books : Books ids g newNodes newEdges doc st written mentions relations nodes edges)
    (named : Named g st.registry mentions) {pile : List (EntitySpan × N)}
    (piled : Piled g st.registry mentions pile) {chunkId : N} (inChunks : chunkId ∈ written.map Prod.fst)
    (e : EntitySpan) :
    ∃ st' pile' nodes' edges', g.addMention ids chunkId (st, pile) e = (st', pile') ∧
      pile'.map Prod.fst = pile.map Prod.fst ++ [e] ∧
      Named g st'.registry (mentions ++ [(chunkId, e)]) ∧
      Piled g st'.registry (mentions ++ [(chunkId, e)]) pile' ∧
      Books ids g newNodes newEdges doc st' written (mentions ++ [(chunkId, e)]) relations
        nodes' edges' := by
  -- once the entity is registered, what is left is the edge
  obtain ⟨resolved, eq⟩ : ∃ resolved, g.resolveEntity ids st e = resolved := ⟨_, rfl⟩
  have settled : Extends st.registry resolved.2.registry ∧
      resolved.2.registry.get? (g.entity e) = some resolved.1 ∧
      (∀ p id, resolved.2.registry.get? p = some id →
        st.registry.get? p = some id ∨ g.entity e = p) ∧
      ∃ nodes', Books ids g newNodes newEdges doc resolved.2 written mentions relations nodes'
        edges := by
    cases lookup : st.registry.get? (g.entity e) with
    | some id =>
        rw [resolveEntity, lookup] at eq
        cases eq
        exact ⟨fun p id found => found, lookup, fun p id found => Or.inl found, nodes, books⟩
    | none =>
        obtain ⟨registry, entered⟩ := books.addEntity freshNodes lookup
        rw [eq] at registry entered
        refine ⟨fun p id found => ?_, ?_, fun p id found => ?_, entered⟩
        · have apart : g.entity e ≠ p := by
            rintro rfl
            rw [lookup] at found
            cases found
          rw [registry, OrdMap.get?_insert, if_neg apart, found]
        · rw [registry, OrdMap.get?_insert, if_pos rfl]
        · rw [registry, OrdMap.get?_insert] at found
          split at found
          · exact Or.inr ‹_›
          · exact Or.inl found
  obtain ⟨grows, found, others, nodes', entered⟩ := settled
  obtain ⟨edges', kept⟩ := entered.addEdge freshEdges (m := (chunkId, e)) inChunks found
  refine ⟨_, pile ++ [(e, resolved.1)], nodes', edges', ?_, ?_, ?_, ?_, kept⟩
  · rw [Pipeline.addMention, eq]
  · rw [List.map_append, List.map_singleton]
  · intro p id registered
    rcases others p id registered with old | rfl
    · obtain ⟨m, inMentions, same⟩ := named p id old
      exact ⟨m, List.mem_append_left _ inMentions, same⟩
    · exact ⟨(chunkId, e), by simp, rfl⟩
  · intro x inPile
    rcases List.mem_append.mp inPile with old | new
    · obtain ⟨registered, m, inMentions, same⟩ := piled x old
      exact ⟨grows _ _ registered, m, List.mem_append_left _ inMentions, same⟩
    · rw [List.mem_singleton.mp new]
      exact ⟨found, (chunkId, e), by simp, rfl⟩

/-- The mentions of a section. -/
theorem Books.foldl_addMention (freshNodes : Fresh ids.node newNodes)
    (freshEdges : Fresh ids.edge newEdges) {chunkId : N} (inChunks : chunkId ∈ written.map Prod.fst)
    (es : List EntitySpan) {st : Draft N E} {mentions : List (N × EntitySpan)}
    {pile : List (EntitySpan × N)} {nodes : List (N × NodeRecord)}
    {edges : List (E × EdgeRecord N)}
    (books : Books ids g newNodes newEdges doc st written mentions relations nodes edges)
    (named : Named g st.registry mentions) (piled : Piled g st.registry mentions pile) :
    ∃ st' pile' nodes' edges', es.foldl (g.addMention ids chunkId) (st, pile) = (st', pile') ∧
      pile'.map Prod.fst = pile.map Prod.fst ++ es ∧
      Named g st'.registry (mentions ++ es.map fun e => (chunkId, e)) ∧
      Piled g st'.registry (mentions ++ es.map fun e => (chunkId, e)) pile' ∧
      Books ids g newNodes newEdges doc st' written (mentions ++ es.map fun e => (chunkId, e))
        relations nodes' edges' := by
  induction es generalizing st mentions pile nodes edges with
  | nil => exact ⟨st, pile, nodes, edges, rfl, by simp, by simpa using named,
      by simpa using piled, by simpa using books⟩
  | cons e es ih =>
      obtain ⟨st₁, pile₁, nodes₁, edges₁, step, texts₁, named₁, piled₁, books₁⟩ :=
        books.addMention freshNodes freshEdges named piled inChunks e
      obtain ⟨st', pile', nodes', edges', rest, texts, named', piled', books'⟩ :=
        ih books₁ named₁ piled₁
      refine ⟨st', pile', nodes', edges', ?_, ?_, ?_, ?_, ?_⟩
      · rw [List.foldl_cons, step, rest]
      · rw [texts, texts₁, List.append_assoc]
        rfl
      all_goals rw [List.append_assoc] at *
      · exact named'
      · exact piled'
      · exact books'

/-! ### Relations -/

/-- The mentions at the positions of a relation. -/
def between (ents : List EntitySpan) (r : RelationSpan) : Option Related := do
  let subject ← ents[r.subjectSpan]?
  let object ← ents[r.objectSpan]?
  return ⟨r.kind, subject, object⟩

/-- A relation edge. -/
theorem Books.addRelation (freshEdges : Fresh ids.edge newEdges)
    (books : Books ids g newNodes newEdges doc st written mentions relations nodes edges)
    {pile : List (EntitySpan × N)} (piled : Piled g st.registry mentions pile) {r : RelationSpan}
    {st' : Draft N E} (ran : addRelation ids pile st r = some st') :
    st'.registry = st.registry ∧ ∃ related edges', between (pile.map Prod.fst) r = some related ∧
      Books ids g newNodes newEdges doc st' written mentions (relations ++ [related]) nodes
        edges' := by
  unfold Pipeline.addRelation at ran
  obtain ⟨subject, first, ran⟩ := Option.bind_eq_some_iff.mp ran
  obtain ⟨object, second, ran⟩ := Option.bind_eq_some_iff.mp ran
  cases ran
  obtain ⟨subjectId, subjectMentioned⟩ := piled subject (List.mem_of_getElem? first)
  obtain ⟨objectId, objectMentioned⟩ := piled object (List.mem_of_getElem? second)
  have edge : g.relationEdge (idOf ids st.registry) ⟨r.kind, subject.1, object.1⟩ =
      ⟨r.kind, subject.2, object.2⟩ := by
    rw [relationEdge, idOf_of_get? subjectId, idOf_of_get? objectId]
  refine ⟨rfl, ⟨r.kind, subject.1, object.1⟩, _, ?_, books.stagedNodes,
    books.stagedEdges.insert freshEdges _, books.labels, ?_, books.known, books.fromChunk, ?_,
    books.nodeCount, ?_, ?_⟩
  · rw [between, List.getElem?_map, List.getElem?_map, first, second]
    rfl
  · rw [List.map_append, List.map_append, ← List.append_assoc, ← List.append_assoc]
    refine List.Perm.append ?_ ?_
    · rw [List.append_assoc]
      exact books.records
    · rw [List.map_singleton, List.map_singleton]
      exact List.Perm.of_eq (congrArg (fun e => [e]) edge.symm)
  · intro r' m
    rcases List.mem_append.mp m with old | new
    · exact books.related r' old
    · rw [List.mem_singleton.mp new]
      exact ⟨subjectMentioned, objectMentioned⟩
  · show st.edgeCount + 1 = _
    rw [books.edgeCount, List.length_append, List.length_singleton]
  · show st.relationCount + 1 = _
    rw [books.relationCount, List.length_append, List.length_singleton]

theorem Books.foldlM_addRelation (freshEdges : Fresh ids.edge newEdges)
    {pile : List (EntitySpan × N)} (rels : List RelationSpan) {st st' : Draft N E}
    {relations : List Related} {edges : List (E × EdgeRecord N)}
    (books : Books ids g newNodes newEdges doc st written mentions relations nodes edges)
    (piled : Piled g st.registry mentions pile)
    (ran : rels.foldlM (Pipeline.addRelation ids pile) st = some st') :
    st'.registry = st.registry ∧ ∃ edges',
      Books ids g newNodes newEdges doc st' written mentions
        (relations ++ rels.filterMap (between (pile.map Prod.fst))) nodes edges' := by
  induction rels generalizing st relations edges with
  | nil =>
      cases ran
      exact ⟨rfl, edges, by simpa using books⟩
  | cons r rels ih =>
      rw [List.foldlM_cons] at ran
      obtain ⟨st₁, first, ran⟩ := Option.bind_eq_some_iff.mp ran
      obtain ⟨registry₁, related, edges₁, found, books₁⟩ := books.addRelation freshEdges piled first
      obtain ⟨registry, edges', books'⟩ := ih books₁ (by rwa [registry₁]) ran
      refine ⟨registry.trans registry₁, edges', ?_⟩
      rw [List.filterMap_cons, found]
      rwa [List.append_assoc] at books'

/-! ### Sections and chunks -/

/-- The relations that the sections of a chunk give, the mentions piled up. -/
def relationsOf (g : Pipeline) : List EntitySpan → List Section → List Related
  | _, [] => []
  | pile, s :: rest =>
      let pile := pile ++ g.extractor.extractEntities s
      ((g.extractor.extractRelations pile s).getD []).filterMap (between pile) ++
        relationsOf g pile rest

/-- The mentions extracted for a chunk. -/
def mentionsOf (g : Pipeline) (sections : List Section) (c : Chunk) : List EntitySpan :=
  (Ingester.matching sections c).flatMap g.extractor.extractEntities

/-- One section of a chunk. -/
theorem Books.ingestSection (freshNodes : Fresh ids.node newNodes)
    (freshEdges : Fresh ids.edge newEdges) {chunkId : N} (inChunks : chunkId ∈ written.map Prod.fst)
    (books : Books ids g newNodes newEdges doc st written mentions relations nodes edges)
    (named : Named g st.registry mentions) {pile pile' : List (EntitySpan × N)}
    (piled : Piled g st.registry mentions pile) {s : Section} {st' : Draft N E}
    (ran : g.ingestSection ids chunkId (st, pile) s = some (st', pile')) :
    let es := g.extractor.extractEntities s
    pile'.map Prod.fst = pile.map Prod.fst ++ es ∧
      Named g st'.registry (mentions ++ es.map fun e => (chunkId, e)) ∧
      Piled g st'.registry (mentions ++ es.map fun e => (chunkId, e)) pile' ∧
      ∃ nodes' edges', Books ids g newNodes newEdges doc st' written
        (mentions ++ es.map fun e => (chunkId, e))
        (relations ++ ((g.extractor.extractRelations (pile.map Prod.fst ++ es) s).getD []).filterMap
          (between (pile.map Prod.fst ++ es))) nodes' edges' := by
  intro es
  obtain ⟨st₁, pile₁, nodes₁, edges₁, folded, texts, named₁, piled₁, books₁⟩ :=
    books.foldl_addMention freshNodes freshEdges inChunks es named piled
  unfold Pipeline.ingestSection at ran
  rw [folded] at ran
  obtain ⟨rels, extracted, ran⟩ := Option.bind_eq_some_iff.mp ran
  obtain ⟨st₂, related, ran⟩ := Option.bind_eq_some_iff.mp ran
  cases ran
  obtain ⟨registry, edges₂, books₂⟩ := books₁.foldlM_addRelation freshEdges rels piled₁ related
  rw [texts] at extracted books₂
  refine ⟨texts, ?_, ?_, nodes₁, edges₂, ?_⟩
  · rwa [registry]
  · rwa [registry]
  · rwa [extracted]

/-- The sections of a chunk. -/
theorem Books.ingestSections (freshNodes : Fresh ids.node newNodes)
    (freshEdges : Fresh ids.edge newEdges) {chunkId : N} (inChunks : chunkId ∈ written.map Prod.fst)
    (ss : List Section) {st st' : Draft N E} {mentions : List (N × EntitySpan)}
    {relations : List Related} {nodes : List (N × NodeRecord)} {edges : List (E × EdgeRecord N)}
    {pile pile' : List (EntitySpan × N)}
    (books : Books ids g newNodes newEdges doc st written mentions relations nodes edges)
    (named : Named g st.registry mentions) (piled : Piled g st.registry mentions pile)
    (ran : ss.foldlM (g.ingestSection ids chunkId) (st, pile) = some (st', pile')) :
    let added := ss.flatMap fun s => (g.extractor.extractEntities s).map fun e => (chunkId, e)
    Named g st'.registry (mentions ++ added) ∧
      ∃ nodes' edges', Books ids g newNodes newEdges doc st' written (mentions ++ added)
        (relations ++ relationsOf g (pile.map Prod.fst) ss) nodes' edges' := by
  induction ss generalizing st mentions relations nodes edges pile with
  | nil =>
      cases ran
      exact ⟨by simpa using named, nodes, edges, by simpa [relationsOf] using books⟩
  | cons s ss ih =>
      rw [List.foldlM_cons] at ran
      obtain ⟨⟨st₁, pile₁⟩, first, ran⟩ := Option.bind_eq_some_iff.mp ran
      obtain ⟨texts, named₁, piled₁, nodes₁, edges₁, books₁⟩ :=
        books.ingestSection freshNodes freshEdges inChunks named piled first
      obtain ⟨named', nodes', edges', books'⟩ := ih books₁ named₁ piled₁ ran
      rw [List.append_assoc] at named'
      rw [List.append_assoc, List.append_assoc, texts] at books'
      exact ⟨named', nodes', edges', books'⟩

/-- One chunk. -/
theorem Books.ingestChunk (freshNodes : Fresh ids.node newNodes)
    (freshEdges : Fresh ids.edge newEdges)
    (books : Books ids g newNodes newEdges doc st written mentions relations nodes edges)
    (named : Named g st.registry mentions) {sections : List Section} {c : Chunk} {st' : Draft N E}
    (ran : g.ingestChunk ids doc sections st c = some st') :
    ∃ chunkId nodes' edges',
      Named g st'.registry (mentions ++ (mentionsOf g sections c).map fun e => (chunkId, e)) ∧
      Books ids g newNodes newEdges doc st' (written ++ [(chunkId, c)])
        (mentions ++ (mentionsOf g sections c).map fun e => (chunkId, e))
        (relations ++ relationsOf g [] (Ingester.matching sections c)) nodes' edges' := by
  unfold Pipeline.ingestChunk at ran
  obtain ⟨committed, first, ran⟩ := Option.bind_eq_some_iff.mp ran
  obtain ⟨⟨st₁, pile⟩, searched, ran⟩ := Option.bind_eq_some_iff.mp ran
  cases ran
  obtain ⟨nodes₁, edges₁, books₁⟩ := books.addChunk freshNodes freshEdges first
  have sameRegistry : committed.2.registry = st.registry := by
    unfold commitChunk at first
    split at first
    · cases first
      rfl
    · cases first
  have nothing : Piled g st.registry mentions ([] : List (EntitySpan × N)) := by
    intro x m
    cases m
  obtain ⟨named', nodes', edges', books'⟩ := books₁.ingestSections freshNodes freshEdges
    (by simp) _ (by rwa [sameRegistry])
    (by rwa [sameRegistry]) searched
  refine ⟨committed.1, nodes', edges', ?_, ?_⟩
  · rw [mentionsOf, List.map_flatMap]
    exact named'
  · rw [mentionsOf, List.map_flatMap]
    exact books'

/-- The chunks of a document. -/
theorem Books.ingestChunks (freshNodes : Fresh ids.node newNodes)
    (freshEdges : Fresh ids.edge newEdges) (sections : List Section) (cs : List Chunk)
    {st st' : Draft N E} {written : List (N × Chunk)} {mentions : List (N × EntitySpan)}
    {relations : List Related} {nodes : List (N × NodeRecord)} {edges : List (E × EdgeRecord N)}
    (books : Books ids g newNodes newEdges doc st written mentions relations nodes edges)
    (named : Named g st.registry mentions)
    (ran : cs.foldlM (g.ingestChunk ids doc sections) st = some st') :
    ∃ newIds : List N, ∃ nodes' edges', newIds.length = cs.length ∧
      let added := (newIds.zip cs).flatMap fun p =>
        (mentionsOf g sections p.2).map fun e => (p.1, e)
      Named g st'.registry (mentions ++ added) ∧
      Books ids g newNodes newEdges doc st' (written ++ newIds.zip cs) (mentions ++ added)
        (relations ++ cs.flatMap fun c => relationsOf g [] (Ingester.matching sections c))
        nodes' edges' := by
  induction cs generalizing st written mentions relations nodes edges with
  | nil =>
      cases ran
      exact ⟨[], nodes, edges, rfl, by simpa using named, by simpa using books⟩
  | cons c cs ih =>
      rw [List.foldlM_cons] at ran
      obtain ⟨st₁, first, ran⟩ := Option.bind_eq_some_iff.mp ran
      obtain ⟨chunkId, nodes₁, edges₁, named₁, books₁⟩ :=
        books.ingestChunk freshNodes freshEdges named first
      obtain ⟨newIds, nodes', edges', length, named', books'⟩ := ih books₁ named₁ ran
      rw [List.append_assoc] at named'
      rw [List.append_assoc, List.append_assoc, List.append_assoc] at books'
      exact ⟨chunkId :: newIds, nodes', edges', congrArg (· + 1) length, named', books'⟩

/-! ## The whole run -/

/-- The books are opened with the root. -/
theorem Books.root (freshNodes : Fresh ids.node newNodes) (summary : Text) :
    Books ids g newNodes newEdges (ids.node 0)
      { newNodes := newNodes.insert (ids.node 0) ⟨g.ntype, summary, none, none⟩
        newEdges := newEdges
        nodesDrawn := 1
        nodeCount := 1 : Draft N E }
      [] [] [] [(ids.node 0, ⟨g.ntype, summary, none, none⟩)] [] where
  stagedNodes := Filled.empty.insert freshNodes _
  stagedEdges := Filled.empty
  labels := List.Perm.refl _
  records := List.Perm.refl _
  known m inMentions := by cases inMentions
  fromChunk m inMentions := by cases inMentions
  related r inRelations := by cases inRelations
  nodeCount := rfl
  edgeCount := rfl
  relationCount := rfl

omit [LinearOrder N] [LinearOrder E] in
theorem entityLabels (registry : OrdMap Entity N) : registry.entries.map entityLabel =
    registry.keys.map fun p => (idOf ids registry p, p.1, none, some p.2) := by
  rw [OrdMap.keys, List.map_map]
  refine List.map_congr_left fun entry m => ?_
  have found : registry.get? entry.1 = some entry.2 := (OrdMap.get?_eq_some_iff _).mpr m
  rw [Function.comp_apply, idOf_of_get? found]
  rfl

theorem Books.mem_keys (books : Books ids g newNodes newEdges doc st written mentions relations
    nodes edges) (named : Named g st.registry mentions) (p : Entity) :
    p ∈ st.registry.keys ↔ ∃ m ∈ mentions, g.entity m.2 = p := by
  rw [OrdMap.mem_keys_iff, Option.isSome_iff_exists]
  constructor
  · rintro ⟨id, found⟩
    exact named p id found
  · rintro ⟨m, inMentions, rfl⟩
    exact books.known m inMentions

/-- No edge refers to a node that is not staged in the run. -/
theorem Books.closed (books : Books ids g newNodes newEdges doc st written mentions relations
    nodes edges) :
    ∀ e ∈ edges, e.2.src ∈ nodes.map Prod.fst ∧ e.2.dst ∈ nodes.map Prod.fst := by
  have named : (nodes.map Prod.fst).Perm (doc :: (written.map Prod.fst ++ st.registry.values)) := by
    have firsts := books.labels.map Prod.fst
    simpa [Function.comp_def, label, chunkLabel, entityLabel, OrdMap.values] using firsts
  have root : doc ∈ nodes.map Prod.fst := named.mem_iff.mpr List.mem_cons_self
  have chunk_mem : ∀ c ∈ written.map Prod.fst, c ∈ nodes.map Prod.fst := fun c m =>
    named.mem_iff.mpr (List.mem_cons_of_mem _ (List.mem_append_left _ m))
  have entity_mem : ∀ m ∈ mentions,
      idOf ids st.registry (g.entity m.2) ∈ nodes.map Prod.fst := by
    intro m inMentions
    obtain ⟨id, found⟩ := books.known m inMentions
    rw [idOf_of_get? found]
    refine named.mem_iff.mpr (List.mem_cons_of_mem _ (List.mem_append_right _ ?_))
    exact List.mem_map_of_mem (f := Prod.snd) ((OrdMap.get?_eq_some_iff _).mp found)
  intro e inEdges
  have record := books.records.mem_iff.mp (List.mem_map_of_mem (f := Prod.snd) inEdges)
  rcases List.mem_append.mp record with ofChunk | other
  · obtain ⟨c, inChunks, eq⟩ := List.mem_map.mp ofChunk
    rw [← eq]
    exact ⟨chunk_mem c.1 (List.mem_map_of_mem inChunks), root⟩
  · rcases List.mem_append.mp other with ofMention | ofRelation
    · obtain ⟨m, inMentions, eq⟩ := List.mem_map.mp ofMention
      rw [← eq]
      exact ⟨chunk_mem _ (books.fromChunk m inMentions), entity_mem m inMentions⟩
    · obtain ⟨r, inRelations, eq⟩ := List.mem_map.mp ofRelation
      obtain ⟨⟨a, inA, subject⟩, b, inB, object⟩ := books.related r inRelations
      rw [← eq, relationEdge, ← subject, ← object]
      exact ⟨entity_mem a inA, entity_mem b inB⟩

omit [LinearOrder N] in
/-- The mentions of the chunks are those found for some chunk. -/
theorem exists_mentions {sections : List Section} {cs : List Chunk} {chunkIds : List N}
    (length : chunkIds.length = cs.length) {P : EntitySpan → Prop} :
    (∃ m ∈ (chunkIds.zip cs).flatMap fun p => (mentionsOf g sections p.2).map fun e => (p.1, e),
      P m.2) ↔ ∃ c ∈ cs, ∃ e ∈ mentionsOf g sections c, P e := by
  constructor
  · rintro ⟨m, inAll, holds⟩
    obtain ⟨p, inZip, inMentions⟩ := List.mem_flatMap.mp inAll
    obtain ⟨e, found, rfl⟩ := List.mem_map.mp inMentions
    exact ⟨p.2, (List.of_mem_zip inZip).2, e, found, holds⟩
  · rintro ⟨c, inChunks, e, found, holds⟩
    obtain ⟨i, inRange, rfl⟩ := List.getElem_of_mem inChunks
    have inZip : (chunkIds[i], cs[i]) ∈ chunkIds.zip cs := by
      have here : (chunkIds.zip cs)[i]? = some (chunkIds[i], cs[i]) := by
        rw [List.getElem?_eq_getElem (by rw [List.length_zip]; omega), List.getElem_zip]
      exact List.mem_of_getElem? here
    exact ⟨(chunkIds[i], e),
      List.mem_flatMap.mpr ⟨_, inZip, List.mem_map_of_mem found⟩, holds⟩

end Pipeline

/-! ## The rule extractor -/

namespace Pipeline

section Agreement

variable {N E : Type} [LinearOrder N] [LinearOrder E] (ids : Supply N E) (g : Ingester)

/-- The two runs have registered the same entities, and count alike. -/
structure Agrees (named : Ingested) (drawn : Draft N E) : Prop where
  registry : ∀ key, key ∈ named.registry ↔ (drawn.registry.get? (toLex key)).isSome
  nodeCount : drawn.nodeCount = named.nodeCount
  relationCount : drawn.relationCount = named.relationCount
  edgeCount : drawn.edgeCount = named.edgeCount

/-- The runs agree, and so do the mentions they have piled up. -/
def AgreesPiled (named : Ingested × List EntitySpan)
    (drawn : Draft N E × List (EntitySpan × N)) : Prop :=
  Agrees named.1 drawn.1 ∧ drawn.2.map Prod.fst = named.2

theorem rel_bind {β γ δ ε : Type} {R : β → γ → Prop} {S : δ → ε → Prop} {x : Option β}
    {y : Option γ} {f : β → Option δ} {h : γ → Option ε} (related : Option.Rel R x y)
    (next : ∀ b c, R b c → Option.Rel S (f b) (h c)) : Option.Rel S (x.bind f) (y.bind h) := by
  cases related with
  | none => exact .none
  | some here => exact next _ _ here

theorem foldlM_rel {α β γ : Type} {R : β → γ → Prop} {f : β → α → Option β}
    {h : γ → α → Option γ} (step : ∀ a b c, R b c → Option.Rel R (f b a) (h c a)) (as : List α)
    {b : β} {c : γ} (related : R b c) : Option.Rel R (as.foldlM f b) (as.foldlM h c) := by
  induction as generalizing b c with
  | nil => exact .some related
  | cons a as ih =>
      rw [List.foldlM_cons, List.foldlM_cons]
      exact rel_bind (step a b c related) fun _ _ next => ih next

theorem agrees_addMention (i : Nat) (chunkId : N) {named : Ingested} {drawn : Draft N E}
    (agrees : Agrees named drawn) (pile : List (EntitySpan × N)) (e : EntitySpan) :
    Agrees (g.addMention i named e) (g.pipeline.addMention ids chunkId (drawn, pile) e).1 ∧
      (g.pipeline.addMention ids chunkId (drawn, pile) e).2.map Prod.fst =
        pile.map Prod.fst ++ [e] := by
  have same := agrees.registry (e.kind, g.canonical e.text)
  refine ⟨?_, by rw [addMention, List.map_append, List.map_singleton]⟩
  unfold Ingester.addMention addMention resolveEntity
  rw [show g.pipeline.entity e = toLex (e.kind, g.canonical e.text) from rfl]
  cases lookup : drawn.registry.get? (toLex (e.kind, g.canonical e.text)) with
  | some id =>
      rw [lookup] at same
      have known := same.mpr rfl
      simp only [known, if_true]
      exact ⟨agrees.registry, agrees.nodeCount, agrees.relationCount,
        congrArg (· + 1) agrees.edgeCount⟩
  | none =>
      rw [lookup] at same
      have unknown : (e.kind, g.canonical e.text) ∉ named.registry := fun m => by
        cases same.mp m
      simp only [unknown, if_false]
      refine ⟨fun key => ?_, congrArg (· + 1) agrees.nodeCount, agrees.relationCount,
        congrArg (· + 1) agrees.edgeCount⟩
      show key ∈ named.registry ++ [_] ↔ ((drawn.registry.insert _ _).get? (toLex key)).isSome
      rw [List.mem_append, List.mem_singleton, agrees.registry key, OrdMap.get?_insert]
      split
      · rename_i eq
        simp [toLex.injective eq]
      · rename_i apart
        exact ⟨fun either => either.elim id fun eq => absurd (congrArg toLex eq.symm) apart,
          Or.inl⟩

theorem agrees_foldl (i : Nat) (chunkId : N) (es : List EntitySpan) {named : Ingested}
    {drawn : Draft N E} (agrees : Agrees named drawn) (pile : List (EntitySpan × N)) :
    AgreesPiled (es.foldl (g.addMention i) named, pile.map Prod.fst ++ es)
      (es.foldl (g.pipeline.addMention ids chunkId) (drawn, pile)) := by
  induction es generalizing named drawn pile with
  | nil => exact ⟨agrees, by simp⟩
  | cons e es ih =>
      obtain ⟨next, grown⟩ :=
        agrees_addMention ids g i chunkId agrees pile e
      have rest := ih next (g.pipeline.addMention ids chunkId (drawn, pile) e).2
      rw [grown, List.append_assoc] at rest
      exact rest

theorem agrees_addRelation (pile : List (EntitySpan × N)) (r : RelationSpan) (named : Ingested)
    (drawn : Draft N E) (agrees : Agrees named drawn) :
    Option.Rel Agrees (g.addRelation (pile.map Prod.fst) named r)
      (addRelation ids pile drawn r) := by
  unfold Ingester.addRelation addRelation
  rw [List.getElem?_map, List.getElem?_map]
  cases pile[r.subjectSpan]? with
  | none => exact .none
  | some subject =>
      cases pile[r.objectSpan]? with
      | none => exact .none
      | some object =>
          exact .some ⟨agrees.registry, agrees.nodeCount, congrArg (· + 1) agrees.relationCount,
            congrArg (· + 1) agrees.edgeCount⟩

theorem agrees_ingestSection (i : Nat) (chunkId : N) (s : Section)
    (named : Ingested × List EntitySpan) (drawn : Draft N E × List (EntitySpan × N))
    (agrees : AgreesPiled named drawn) :
    Option.Rel AgreesPiled (g.ingestSection i named s)
      (g.pipeline.ingestSection ids chunkId drawn s) := by
  obtain ⟨named, piled⟩ := named
  obtain ⟨drawn, pile⟩ := drawn
  obtain ⟨agrees, rfl⟩ := agrees
  obtain ⟨mentioned, grown⟩ := agrees_foldl ids g i chunkId
    (g.extractor.extractEntities s) agrees pile
  unfold Ingester.ingestSection ingestSection
  dsimp only
  rw [show g.pipeline.extractor.extractEntities s = g.extractor.extractEntities s from rfl]
  generalize (g.extractor.extractEntities s).foldl (g.pipeline.addMention ids chunkId)
    (drawn, pile) = acc at mentioned grown
  dsimp only at grown
  rw [grown, show g.pipeline.extractor.extractRelations = g.extractor.extractRelations from rfl]
  cases g.extractor.extractRelations (pile.map Prod.fst ++ g.extractor.extractEntities s) s with
  | none => exact .none
  | some rels =>
      have called : Agrees { (g.extractor.extractEntities s).foldl (g.addMention i) named with
          calls := ((g.extractor.extractEntities s).foldl (g.addMention i) named).calls ++
            [(s, pile.map Prod.fst ++ g.extractor.extractEntities s)] } acc.1 :=
        ⟨mentioned.registry, mentioned.nodeCount, mentioned.relationCount, mentioned.edgeCount⟩
      have related := foldlM_rel (agrees_addRelation ids g acc.2) rels called
      rw [grown] at related
      have paired := rel_bind (S := AgreesPiled)
        (f := fun st => some (st, pile.map Prod.fst ++ g.extractor.extractEntities s))
        (h := fun st => some (st, acc.2)) related fun _ _ next => .some ⟨next, grown⟩
      exact paired

theorem agrees_ingestChunk (doc : N) (sections : List Section) (c : Chunk) (i : Nat)
    (named : Ingested) (drawn : Draft N E) (agrees : Agrees named drawn) :
    Option.Rel Agrees (g.ingestChunk sections named (c, i))
      (g.pipeline.ingestChunk ids doc sections drawn c) := by
  unfold Ingester.ingestChunk ingestChunk commitChunk
  rw [if_pos (show g.pipeline.embed c.text = true from rfl)]
  have committed : AgreesPiled (N := N) (E := E) ({ named with
      nodes := named.nodes ++ [⟨.chunk i, "Chunk", shortSummary c.text⟩]
      edges := named.edges ++ [⟨"chunk_of", .chunk i, .doc⟩]
      nodeCount := named.nodeCount + 1
      edgeCount := named.edgeCount + 1 }, [])
    ({ stageEdge ids (stageNode ids drawn
        ⟨"Chunk", shortSummary c.text, some c.text, none⟩).2
          ⟨"chunk_of", ids.node drawn.nodesDrawn, doc⟩ with
      nodeCount := drawn.nodeCount + 1
      edgeCount := drawn.edgeCount + 1 }, []) :=
    ⟨⟨agrees.registry, congrArg (· + 1) agrees.nodeCount, agrees.relationCount,
      congrArg (· + 1) agrees.edgeCount⟩, rfl⟩
  have searched := foldlM_rel
    (agrees_ingestSection ids g i (ids.node drawn.nodesDrawn))
    (sections.filter fun s => sectionInChunk s c) committed
  have ended := rel_bind (S := Agrees) (f := fun x => some x.1) (h := fun x => some x.1) searched
    fun _ _ next => .some next.1
  exact ended

/-- **The run that draws its ids counts as the one that names its nodes does**, and one of them
returns when the other does. -/
theorem ingest_agrees (newNodes : OrdMap N NodeRecord) (newEdges : OrdMap E (EdgeRecord N))
    (sections : List Section) :
    Option.Rel (fun st (run : IngestResult × Draft N E) =>
        run.1.nodeCount = st.nodeCount ∧ run.1.relationCount = st.relationCount ∧
          run.1.edgeCount = st.edgeCount)
      (g.ingest sections) (g.pipeline.ingest ids newNodes newEdges (some sections)) := by
  have chunks : ∀ (cs : List Chunk) (k : Nat) (named : Ingested) (drawn : Draft N E),
      Agrees named drawn → Option.Rel Agrees ((cs.zipIdx k).foldlM (g.ingestChunk sections) named)
        (cs.foldlM (g.pipeline.ingestChunk ids (ids.node 0) sections) drawn) := by
    intro cs
    induction cs with
    | nil => exact fun k named drawn agrees => .some agrees
    | cons c cs ih =>
        intro k named drawn agrees
        rw [List.zipIdx_cons, List.foldlM_cons, List.foldlM_cons]
        exact rel_bind (agrees_ingestChunk ids g _ sections c k named drawn agrees) fun _ _ next => ih (k + 1) _ _ next
  have run := chunks (chunk g.sentenceBounds sections g.chunker) 0
    { nodes := [⟨.doc, g.ntype, docSummary sections⟩], edges := [], nodeCount := 1 }
    { newNodes := newNodes.insert (ids.node 0) ⟨g.ntype, docSummary sections, none, none⟩
      newEdges := newEdges
      nodesDrawn := 1
      nodeCount := 1 }
    ⟨fun key => by simp, rfl, rfl, rfl⟩
  have counts : Option.Rel (fun st (run : IngestResult × Draft N E) =>
      run.1.nodeCount = st.nodeCount ∧ run.1.relationCount = st.relationCount ∧
        run.1.edgeCount = st.edgeCount) ((g.ingest sections).bind some)
      (g.pipeline.ingest ids newNodes newEdges (some sections)) :=
    rel_bind run fun _ _ agrees => .some ⟨agrees.nodeCount, agrees.relationCount, agrees.edgeCount⟩
  rwa [show (g.ingest sections).bind some = g.ingest sections from Option.bind_fun_some _] at counts

end Agreement

end Pipeline

end Mnem.Ingest
