/-
# Index.Contents — what an index set says

The rows of a tree are its entries with the objects they refer to.  `Contents`
are the groups an index set is made of, `Contents.indexSet` the index set that
stands for them, and `Contents.Stored` says a store has all its trees and
buckets.  The two builders are specified by what they do to contents: the full
rebuild makes `contentsOf` its rows, the incremental path appends rows.
-/
import Mnem.Index.Build

namespace Mnem.Index

open Theory Theory.Groups Prolly

set_option autoImplicit false
set_option linter.unusedSectionVars false

variable {Cid : Type} {H : Hashing Cid} [LinearOrder Cid]

/-! ## Rows -/

/-- A tree entry with the object it refers to. -/
structure Row (Cid α : Type) where
  key : ProllyKey
  cid : Cid
  object : α

def Row.entry {α : Type} (r : Row Cid α) : ProllyKey × Cid := (r.key, r.cid)

/-- The rows are the entries, each with the object the store has for it. -/
structure ReadsRows {α : Type} [Object Cid α] (s : Store H) (es : List (ProllyKey × Cid))
    (rows : List (Row Cid α)) : Prop where
  entries : rows.map Row.entry = es
  loads : ∀ r ∈ rows, s.Loads r.cid r.object

section ReadsRows

variable {α : Type} [Object Cid α] {s : Store H} {es : List (ProllyKey × Cid)}
  {rows : List (Row Cid α)}

theorem ReadsRows.mono {s' : Store H} (reads : ReadsRows s es rows) (le : s ≤ s') :
    ReadsRows s' es rows := ⟨reads.entries, fun r m => (reads.loads r m).mono le⟩

theorem ReadsRows.tail {r : Row Cid α} (reads : ReadsRows s es (r :: rows)) :
    ReadsRows s (rows.map Row.entry) rows :=
  ⟨rfl, fun x m => reads.loads x (List.mem_cons_of_mem _ m)⟩

/-- Entries whose blocks all decode have rows. -/
theorem exists_rows (decodes : ∀ e ∈ es, ∃ a : α, s.Loads e.2 a) :
    ∃ rows : List (Row Cid α), ReadsRows s es rows := by
  induction es with
  | nil => exact ⟨[], rfl, by simp⟩
  | cons e es ih =>
      obtain ⟨rows, reads⟩ := ih fun x m => decodes x (List.mem_cons_of_mem _ m)
      obtain ⟨a, loads⟩ := decodes e List.mem_cons_self
      refine ⟨⟨e.1, e.2, a⟩ :: rows, by rw [List.map_cons, reads.entries]; rfl, ?_⟩
      intro r m
      rcases List.mem_cons.mp m with rfl | later
      · exact loads
      · exact reads.loads r later

/-- Membership in the rows, without the list. -/
theorem ReadsRows.mem_iff (reads : ReadsRows s es rows) {r : Row Cid α} :
    r ∈ rows ↔ (r.key, r.cid) ∈ es ∧ s.Loads r.cid r.object := by
  constructor
  · intro m
    exact ⟨reads.entries ▸ List.mem_map_of_mem m, reads.loads r m⟩
  · rintro ⟨m, loads⟩
    rw [← reads.entries] at m
    obtain ⟨r', m', same⟩ := List.mem_map.mp m
    obtain ⟨key, cid, object⟩ := r
    obtain ⟨key', cid', object'⟩ := r'
    cases same
    obtain rfl : object = object' := loads.unique (reads.loads _ m')
    exact m'

/-- The rows are the same in any two stores. -/
theorem ReadsRows.unique {s' : Store H} {rows' : List (Row Cid α)} (reads : ReadsRows s es rows)
    (reads' : ReadsRows s' es rows') : rows = rows' := by
  have same := reads.entries.trans reads'.entries.symm
  replace reads := reads.loads
  replace reads' := reads'.loads
  induction rows generalizing rows' with
  | nil => exact (List.map_eq_nil_iff.mp same.symm).symm
  | cons r rows ih =>
      cases rows' with
      | nil => cases same
      | cons r' rows' =>
          obtain ⟨head, tail⟩ := List.cons.inj same
          obtain ⟨key, cid, object⟩ := r
          obtain ⟨key', cid', object'⟩ := r'
          cases head
          obtain rfl : object = object' :=
            (reads _ List.mem_cons_self).same (reads' _ List.mem_cons_self)
          rw [ih tail (fun x m => reads x (List.mem_cons_of_mem _ m))
            fun x m => reads' x (List.mem_cons_of_mem _ m)]

theorem ReadsRows.exists_row {e : ProllyKey × Cid} (reads : ReadsRows s es rows) (m : e ∈ es) :
    ∃ r ∈ rows, (r.key, r.cid) = e := by
  rw [← reads.entries] at m
  exact List.mem_map.mp m

end ReadsRows

/-! ## Contents -/

/-- The label row of each node. -/
def labelRows (rows : List (Row Cid (Node Cid))) : List ((String × ProllyKey) × Cid) :=
  rows.map fun r => ((r.object.ntype, r.key), r.cid)

/-- The property rows of one node. -/
def nodePropRows (H : Hashing Cid) (r : Row Cid (Node Cid)) :
    List (((String ×ₗ String) × ProllyKey) × Cid) :=
  r.object.props.entries.map fun p =>
    ((toLex (r.object.ntype, p.1), H.valueHash p.2), r.cid)

/-- The property rows of each node, in node order. -/
def propRows (H : Hashing Cid) (rows : List (Row Cid (Node Cid))) :
    List (((String ×ₗ String) × ProllyKey) × Cid) :=
  rows.flatMap (nodePropRows H)

def outgoingRows (rows : List (Row Cid (Edge Cid))) : List (NodeId × AdjacencyEntry Cid) :=
  rows.map fun r => (r.object.src, ⟨r.object.etype, r.cid⟩)

def incomingRows (rows : List (Row Cid (Edge Cid))) :
    List (NodeId × IncomingAdjacencyEntry Cid) :=
  rows.map fun r => (r.object.dst, ⟨r.object.etype, r.object.src, r.cid⟩)

/-- The groups that an index set stands for. -/
structure Contents (Cid : Type) where
  labels : OrdMap String (OrdMap ProllyKey Cid)
  labels_occupied : Occupied labels
  props : OrdMap (String ×ₗ String) (OrdMap ProllyKey Cid)
  props_occupied : Occupied props
  outgoing : OrdMap NodeId (List (AdjacencyEntry Cid))
  incoming : OrdMap NodeId (List (IncomingAdjacencyEntry Cid))

/-- The contents of all rows of a node tree and an edge tree. -/
def contentsOf (H : Hashing Cid) (nodes : List (Row Cid (Node Cid)))
    (edges : List (Row Cid (Edge Cid))) : Contents Cid where
  labels := addRows OrdMap.empty (labelRows nodes)
  labels_occupied := occupied_empty.addRows _
  props := addRows OrdMap.empty (propRows H nodes)
  props_occupied := occupied_empty.addRows _
  outgoing := pushAll OrdMap.empty (outgoingRows edges)
  incoming := pushAll OrdMap.empty (incomingRows edges)

/-- Node rows written over what is there. -/
def Contents.append (H : Hashing Cid) (c : Contents Cid) (nodes : List (Row Cid (Node Cid))) :
    Contents Cid where
  labels := addRows c.labels (labelRows nodes)
  labels_occupied := c.labels_occupied.addRows _
  props := addRows c.props (propRows H nodes)
  props_occupied := c.props_occupied.addRows _
  outgoing := c.outgoing
  incoming := c.incoming

/-! ## Index sets -/

/-- The root over a grouping's sub-trees, by outer key. -/
def subtreeRoots (H : Hashing Cid) {K : Type} [LinearOrder K]
    (groups : OrdMap K (OrdMap ProllyKey Cid)) : OrdMap K Cid :=
  groups.mapValues fun g => treeRoot H g.entries

/-- The roots of the property sub-trees, by label and then by name. -/
def propRoots (H : Hashing Cid) (groups : OrdMap (String ×ₗ String) (OrdMap ProllyKey Cid)) :
    OrdMap String (OrdMap String Cid) :=
  addRows OrdMap.empty (groups.entries.map fun g => (ofLex g.1, treeRoot H g.2.entries))

section Adjacency

variable {α β : Type} [Object Cid β]

/-- The buckets of a grouping, by node. -/
def bucketMap (H : Hashing Cid) (bucket : List α → β) (groups : OrdMap NodeId (List α)) :
    OrdMap NodeId Cid :=
  groups.mapValues fun es => H.cidOf (Object.toBlock (bucket es))

def adjacencyRoot (H : Hashing Cid) (bucket : List α → β) (groups : OrdMap NodeId (List α)) :
    Option Cid :=
  if groups.entries.isEmpty then none else some (treeRoot H (bucketMap H bucket groups).entries)

/-- The store has the buckets, and the tree over them. -/
structure AdjacencyStored (s : Store H) (bucket : List α → β) (groups : OrdMap NodeId (List α)) :
    Prop where
  tree : groups.entries.isEmpty = false →
    IsTree s (treeRoot H (bucketMap H bucket groups).entries) (bucketMap H bucket groups)
  buckets : ∀ g ∈ groups.entries, s.Loads (H.cidOf (Object.toBlock (bucket g.2))) (bucket g.2)

theorem AdjacencyStored.mono {s s' : Store H} {bucket : List α → β}
    {groups : OrdMap NodeId (List α)} (stored : AdjacencyStored s bucket groups) (le : s ≤ s') :
    AdjacencyStored s' bucket groups :=
  ⟨fun some_group => (stored.tree some_group).mono le, fun g m => (stored.buckets g m).mono le⟩

end Adjacency

namespace Contents

/-- The index set that stands for the contents. -/
def indexSet (H : Hashing Cid) (c : Contents Cid) : IndexSet Cid where
  nodesByLabel := subtreeRoots H c.labels
  nodesByProp := propRoots H c.props
  outgoing := adjacencyRoot H outgoingBucket c.outgoing
  incoming := adjacencyRoot H incomingBucket c.incoming

def cid (H : Hashing Cid) (c : Contents Cid) : Cid := H.cidOf (.indexSet (c.indexSet H))

/-- Every tree and bucket of the index set is in the store. -/
structure Stored (s : Store H) (c : Contents Cid) : Prop where
  set : s.Loads (c.cid H) (c.indexSet H)
  labels : ∀ g ∈ c.labels.entries, IsTree s (treeRoot H g.2.entries) g.2
  props : ∀ g ∈ c.props.entries, IsTree s (treeRoot H g.2.entries) g.2
  outgoing : AdjacencyStored s outgoingBucket c.outgoing
  incoming : AdjacencyStored s incomingBucket c.incoming

theorem Stored.mono {s s' : Store H} {c : Contents Cid} (stored : Stored s c) (le : s ≤ s') :
    Stored s' c :=
  ⟨stored.set.mono le, fun g m => (stored.labels g m).mono le,
    fun g m => (stored.props g m).mono le, stored.outgoing.mono le, stored.incoming.mono le⟩

end Contents

theorem get?_subtreeRoots {K : Type} [LinearOrder K] (groups : OrdMap K (OrdMap ProllyKey Cid))
    (k : K) : (subtreeRoots H groups).get? k = (groups.get? k).map fun g => treeRoot H g.entries :=
  OrdMap.get?_mapValues _ _ k

/-- A property sub-tree, read out of the nested map. -/
theorem row_propRoots (groups : OrdMap (String ×ₗ String) (OrdMap ProllyKey Cid))
    (label name : String) :
    row (propRoots H groups) label name =
      (groups.get? (toLex (label, name))).map fun g => treeRoot H g.entries := by
  unfold propRoots
  rw [row_addRows_empty]
  exact OrdMap.get?_reverse_map ofLex.injective groups (fun _ g => treeRoot H g.entries)
    (toLex (label, name))

theorem propRoots_injective :
    Function.Injective (propRoots H :
      OrdMap (String ×ₗ String) (OrdMap ProllyKey Cid) → OrdMap String (OrdMap String Cid)) := by
  intro g g' same
  ext k : 1
  have at_k := congrArg (fun m => row m (ofLex k).1 (ofLex k).2) same
  simp only [row_propRoots] at at_k
  exact Option.map_injective (fun _ _ h => treeRoot_injective h) at_k

/-- With the labels and the adjacency alike, the index sets agree when the properties do. -/
theorem Contents.indexSet_eq_iff {c c' : Contents Cid} (labels : c.labels = c'.labels)
    (outgoing : c.outgoing = c'.outgoing) (incoming : c.incoming = c'.incoming) :
    c.indexSet H = c'.indexSet H ↔ c.props = c'.props := by
  constructor
  · intro same
    exact propRoots_injective (congrArg IndexSet.nodesByProp same)
  · intro same
    unfold Contents.indexSet
    rw [labels, outgoing, incoming, same]

/-! ## Grouping computes the rows -/

section Grouping

variable {s : Store H}

theorem groupProps_eq {ntype : String} {cid : Cid} {props : List (String × Ipld Cid)}
    (accepted : ∀ p ∈ props, H.acceptsValue p.2 = true)
    (groups : OrdMap (String ×ₗ String) (OrdMap ProllyKey Cid)) :
    groupProps H ntype cid props groups = .ok (addRows groups
      (props.map fun p => ((toLex (ntype, p.1), H.valueHash p.2), cid))) := by
  unfold groupProps
  induction props generalizing groups with
  | nil => rfl
  | cons p props ih =>
      have hash : propValueHash H p.2 = .ok (H.valueHash p.2) :=
        if_pos (accepted p List.mem_cons_self)
      rw [List.foldlM_cons, hash]
      exact ih (fun q m => accepted q (List.mem_cons_of_mem _ m)) _

/-- A stored node only carries values that have an encoding. -/
theorem acceptsValue_of_loads {cid : Cid} {node : Node Cid} (loads : s.Loads cid node) :
    ∀ p ∈ node.props.entries, H.acceptsValue p.2 = true := by
  intro p m
  have encodes := Store.encodes_of_get (Store.loads_iff.mp loads)
  unfold Hashing.encodes at encodes
  simp only [Bool.and_eq_true, List.all_eq_true] at encodes
  apply encodes.1
  exact List.mem_append_left _ (List.mem_map_of_mem m)

theorem groupNode_eq (context : String) {r : Row Cid (Node Cid)} (loads : s.Loads r.cid r.object)
    (groups : NodeGroups Cid) :
    groupNode context s groups r.entry =
      .ok ⟨addRow groups.labelGroups r.object.ntype r.key r.cid,
        addRows groups.propGroups (nodePropRows H r)⟩ := by
  have decoded : s.decodeFromStore (Node Cid) r.entry.2 = .ok r.object := loads
  unfold groupNode
  rw [decoded]
  change (groupProps H r.object.ntype r.cid r.object.props.entries groups.propGroups >>= _) = _
  rw [groupProps_eq (acceptsValue_of_loads loads)]
  rfl

/-- Walking the rows of a tree groups them. -/
theorem groupNodes_eq (context : String) {es : List (ProllyKey × Cid)}
    {rows : List (Row Cid (Node Cid))} (reads : ReadsRows s es rows) (groups : NodeGroups Cid) :
    es.foldlM (groupNode context s) groups =
      .ok ⟨addRows groups.labelGroups (labelRows rows),
        addRows groups.propGroups (propRows H rows)⟩ := by
  rw [← reads.entries]
  induction rows generalizing groups es with
  | nil => rfl
  | cons r rows ih =>
      rw [List.map_cons, List.foldlM_cons, groupNode_eq context (reads.loads r List.mem_cons_self)]
      have rest := ih reads.tail ⟨addRow groups.labelGroups r.object.ntype r.key r.cid,
        addRows groups.propGroups (nodePropRows H r)⟩
      refine rest.trans ?_
      have split : propRows H (r :: rows) = nodePropRows H r ++ propRows H rows := rfl
      rw [split, addRows_append]
      rfl

theorem groupEdges_eq {es : List (ProllyKey × Cid)} {rows : List (Row Cid (Edge Cid))}
    (reads : ReadsRows s es rows) (groups : EdgeGroups Cid) :
    es.foldlM (groupEdge s) groups =
      .ok ⟨pushAll groups.outgoing (outgoingRows rows),
        pushAll groups.incoming (incomingRows rows)⟩ := by
  rw [← reads.entries]
  induction rows generalizing groups es with
  | nil => rfl
  | cons r rows ih =>
      have decoded : s.decodeFromStore (Edge Cid) r.entry.2 = .ok r.object :=
        reads.loads r List.mem_cons_self
      rw [List.map_cons, List.foldlM_cons, groupEdge, decoded]
      exact ih reads.tail _

end Grouping

/-! ## The full rebuild writes the contents of all rows -/

section Builders

variable {s : Store H}

/-- One sub-tree, written. -/
theorem buildSubtree_succeeds (g : OrdMap ProllyKey Cid) (s : Store H) :
    (buildTree g.entries : StoreM H Cid).Succeeds s fun root s' =>
      root = treeRoot H g.entries ∧ s ≤ s' ∧ IsTree s' (treeRoot H g.entries) g :=
  (buildTree_succeeds g s).mono fun _ _ h => ⟨h.1, h.2.1, h.1 ▸ h.2.2⟩

theorem buildLabels_succeeds (groups : OrdMap String (OrdMap ProllyKey Cid)) (s : Store H) :
    (groups.entries.foldlM (fun m g =>
      buildTree g.2.entries >>= fun root => pure (m.insert g.1 root))
        OrdMap.empty : StoreM H (OrdMap String Cid)).Succeeds s fun m s' =>
      m = subtreeRoots H groups ∧ s ≤ s' ∧
        ∀ g ∈ groups.entries, IsTree s' (treeRoot H g.2.entries) g.2 := by
  refine (Exec.succeeds_collect
    (fun (m : OrdMap String Cid) (g : String × OrdMap ProllyKey Cid) root => m.insert g.1 root)
    groups.entries (fun g _ s₁ _ => buildSubtree_succeeds g.2 s₁)
    (fun g s s' tree le => IsTree.mono tree le) _).mono ?_
  rintro m s' ⟨rfl, rest⟩
  refine ⟨?_, rest⟩
  have all : subtreeRoots H groups = OrdMap.ofList (subtreeRoots H groups).entries := by simp
  rw [all, OrdMap.ofList, OrdMap.insertAll, subtreeRoots, OrdMap.mapValues, List.foldl_map]

theorem buildProps_succeeds (groups : OrdMap (String ×ₗ String) (OrdMap ProllyKey Cid))
    (s : Store H) :
    (groups.entries.foldlM (fun m g =>
      buildTree g.2.entries >>= fun root => pure (addRow m (ofLex g.1).1 (ofLex g.1).2 root))
        OrdMap.empty : StoreM H (OrdMap String (OrdMap String Cid))).Succeeds s fun m s' =>
      m = propRoots H groups ∧ s ≤ s' ∧
        ∀ g ∈ groups.entries, IsTree s' (treeRoot H g.2.entries) g.2 := by
  refine (Exec.succeeds_collect
    (fun (m : OrdMap String (OrdMap String Cid)) (g : (String ×ₗ String) × OrdMap ProllyKey Cid)
      root => addRow m (ofLex g.1).1 (ofLex g.1).2 root)
    groups.entries (fun g _ s₁ _ => buildSubtree_succeeds g.2 s₁)
    (fun g s s' tree le => IsTree.mono tree le) _).mono ?_
  rintro m s' ⟨rfl, rest⟩
  refine ⟨?_, rest⟩
  rw [propRoots, addRows, List.foldl_map]

theorem buildAdjacency_succeeds {α β : Type} [Object Cid β] {bucket : List α → β}
    (encodes : ∀ es, H.encodes (Object.toBlock (bucket es)) = true)
    (groups : OrdMap NodeId (List α)) (s : Store H) :
    (buildAdjacency bucket groups : StoreM H (Option Cid)).Succeeds s fun root s' =>
      root = adjacencyRoot H bucket groups ∧ s ≤ s' ∧ AdjacencyStored s' bucket groups := by
  unfold buildAdjacency adjacencyRoot
  by_cases empty : groups.entries.isEmpty = true
  · rw [if_pos empty, if_pos empty]
    refine Exec.succeeds_pure ⟨rfl, le_refl s, fun some_group => ?_, ?_⟩
    · rw [empty] at some_group
      cases some_group
    · rw [List.isEmpty_iff.mp empty]
      simp
  · rw [if_neg empty, if_neg empty]
    refine Exec.succeeds_bind (Exec.succeeds_collect
      (Q := fun g s' => s'.Loads (H.cidOf (Object.toBlock (bucket g.2))) (bucket g.2))
      (fun (m : OrdMap NodeId Cid) (g : NodeId × List α) cid => m.insert g.1 cid) groups.entries
      (fun g _ s₁ _ => (putObject_succeeds (encodes g.2) s₁).mono
        fun _ _ h => ⟨h.1, h.2.1, h.1 ▸ h.2.2⟩)
      (fun g s s' loads le => loads.mono le) OrdMap.empty) ?_
    rintro m s₁ ⟨rfl, le₁, buckets⟩
    have all : groups.entries.foldl (fun m g =>
        m.insert g.1 (H.cidOf (Object.toBlock (bucket g.2)))) OrdMap.empty =
        bucketMap H bucket groups := by
      rw [← OrdMap.ofList_entries (bucketMap H bucket groups), OrdMap.ofList, OrdMap.insertAll,
        bucketMap, OrdMap.mapValues, List.foldl_map]
    rw [all]
    refine Exec.succeeds_bind (buildSubtree_succeeds _ s₁) ?_
    rintro root s₂ ⟨rfl, le₂, tree⟩
    exact Exec.succeeds_pure ⟨rfl, le₁.trans le₂, fun _ => tree,
      fun g m => (buckets g m).mono le₂⟩

/-- Writing an index set whose trees and buckets are there. -/
theorem putContents_succeeds {c : Contents Cid}
    (labels : ∀ g ∈ c.labels.entries, IsTree s (treeRoot H g.2.entries) g.2)
    (props : ∀ g ∈ c.props.entries, IsTree s (treeRoot H g.2.entries) g.2)
    (outgoing : AdjacencyStored s outgoingBucket c.outgoing)
    (incoming : AdjacencyStored s incomingBucket c.incoming) :
    (putObject (c.indexSet H) : StoreM H Cid).Succeeds s fun cid s' =>
      cid = c.cid H ∧ s ≤ s' ∧ c.Stored s' := by
  refine (putObject_succeeds rfl s).mono ?_
  rintro cid s' ⟨rfl, le, loads⟩
  exact ⟨rfl, le, loads, fun g m => (labels g m).mono le, fun g m => (props g m).mono le,
    outgoing.mono le, incoming.mono le⟩

/-- **The full rebuild.** Over trees whose blocks decode it succeeds, and the index set
it writes stands for the contents of all rows. -/
theorem buildIndexSet_succeeds {nodesRoot edgesRoot : Cid} {nodes edges : OrdMap ProllyKey Cid}
    {nodeRows : List (Row Cid (Node Cid))} {edgeRows : List (Row Cid (Edge Cid))}
    (nodeTree : IsTree s nodesRoot nodes) (edgeTree : IsTree s edgesRoot edges)
    (nodesRead : ReadsRows s nodes.entries nodeRows)
    (edgesRead : ReadsRows s edges.entries edgeRows) :
    (buildIndexSet nodesRoot edgesRoot : StoreM H Cid).Succeeds s fun cid s' =>
      cid = (contentsOf H nodeRows edgeRows).cid H ∧ s ≤ s' ∧
        (contentsOf H nodeRows edgeRows).Stored s' := by
  unfold buildIndexSet
  have grouped : (entries s nodesRoot >>= fun es =>
      es.foldlM (groupNode "IndexSet build: decode node at key" s) {}) =
      .ok ⟨(contentsOf H nodeRows edgeRows).labels, (contentsOf H nodeRows edgeRows).props⟩ := by
    rw [entries_of_isTree nodeTree]
    exact groupNodes_eq _ nodesRead {}
  refine Exec.succeeds_read_bind grouped ?_
  refine Exec.succeeds_bind (buildLabels_succeeds _ _) ?_
  rintro _ s₁ ⟨rfl, le₁, labels⟩
  refine Exec.succeeds_bind (buildProps_succeeds _ s₁) ?_
  rintro _ s₂ ⟨rfl, le₂, props⟩
  have le := le₁.trans le₂
  have linked : (entries s₂ edgesRoot >>= fun es => es.foldlM (groupEdge s₂) {}) =
      .ok ⟨(contentsOf H nodeRows edgeRows).outgoing,
        (contentsOf H nodeRows edgeRows).incoming⟩ := by
    rw [entries_of_isTree (edgeTree.mono le)]
    exact groupEdges_eq (edgesRead.mono le) {}
  refine Exec.succeeds_read_bind linked ?_
  refine Exec.succeeds_bind (buildAdjacency_succeeds (fun _ => rfl) _ _) ?_
  rintro _ s₃ ⟨rfl, le₃, outgoing⟩
  refine Exec.succeeds_bind (buildAdjacency_succeeds (fun _ => rfl) _ s₃) ?_
  rintro _ s₄ ⟨rfl, le₄, incoming⟩
  have le' := le₃.trans le₄
  refine (putContents_succeeds (fun g m => ((labels g m).mono le₂).mono le')
    (fun g m => (props g m).mono le') (outgoing.mono le₄) incoming).mono ?_
  rintro cid s₅ ⟨same, le₅, stored⟩
  exact ⟨same, (le.trans le').trans le₅, stored⟩

/-! ## The incremental path appends rows -/

/-- A touched sub-tree is rewritten with the additions over its group. -/
theorem rebuildSubtree_succeeds {base : Option (OrdMap ProllyKey Cid)}
    (stored : ∀ m, base = some m → IsTree s (treeRoot H m.entries) m)
    (additions : OrdMap ProllyKey Cid) :
    (rebuildSubtreeWithAdditions (base.map fun m => treeRoot H m.entries) additions :
      StoreM H Cid).Succeeds s fun root s' =>
        root = treeRoot H (mergeGroup base additions).entries ∧ s ≤ s' ∧
          IsTree s' (treeRoot H (mergeGroup base additions).entries)
            (mergeGroup base additions) := by
  cases base with
  | none =>
      rw [mergeGroup_none]
      exact buildSubtree_succeeds additions s
  | some m =>
      refine Exec.succeeds_read_bind (entries_of_isTree (stored m rfl)) ?_
      rw [OrdMap.ofList_entries]
      exact buildSubtree_succeeds (mergeGroup (some m) additions) s

/-- Sub-trees over sub-trees: every group of the overlay is in the store. -/
theorem overlay_stored {K : Type} [LinearOrder K] {g additions : OrdMap K (OrdMap ProllyKey Cid)}
    (base : ∀ e ∈ g.entries, IsTree s (treeRoot H e.2.entries) e.2)
    (rebuilt : ∀ e ∈ additions.entries,
      IsTree s (treeRoot H (mergeGroup (g.get? e.1) e.2).entries) (mergeGroup (g.get? e.1) e.2)) :
    ∀ e ∈ (overlay g additions).entries, IsTree s (treeRoot H e.2.entries) e.2 := by
  rintro ⟨k, m⟩ member
  have found := (OrdMap.get?_eq_some_iff _).mpr member
  rw [get?_overlay] at found
  cases added : additions.get? k with
  | none =>
      rw [added] at found
      exact base (k, m) ((OrdMap.get?_eq_some_iff _).mp found)
  | some a =>
      rw [added] at found
      cases found
      exact rebuilt (k, a) ((OrdMap.get?_eq_some_iff _).mp added)

theorem subtreeRoots_overlay {K : Type} [LinearOrder K]
    (g additions : OrdMap K (OrdMap ProllyKey Cid)) :
    additions.entries.foldl (fun m e =>
      m.insert e.1 (treeRoot H (mergeGroup (g.get? e.1) e.2).entries)) (subtreeRoots H g) =
      subtreeRoots H (overlay g additions) := by
  have asList : additions.entries.foldl (fun m e =>
      m.insert e.1 (treeRoot H (mergeGroup (g.get? e.1) e.2).entries)) (subtreeRoots H g) =
      (subtreeRoots H g).insertAll (additions.entries.map fun e =>
        (e.1, treeRoot H (mergeGroup (g.get? e.1) e.2).entries)) := by
    rw [OrdMap.insertAll, List.foldl_map]
  rw [asList]
  ext k : 1
  rw [OrdMap.get?_insertAll, get?_subtreeRoots, get?_subtreeRoots, get?_overlay]
  have last := OrdMap.get?_reverse_map Function.injective_id additions
    (fun k a => treeRoot H (mergeGroup (g.get? k) a).entries) k
  simp only [id] at last
  rw [last]
  cases additions.get? k <;> rfl

theorem propRoots_overlay (g additions : OrdMap (String ×ₗ String) (OrdMap ProllyKey Cid)) :
    additions.entries.foldl (fun m e =>
      addRow m (ofLex e.1).1 (ofLex e.1).2 (treeRoot H (mergeGroup (g.get? e.1) e.2).entries))
        (propRoots H g) =
      propRoots H (overlay g additions) := by
  have asRows : additions.entries.foldl (fun m e =>
      addRow m (ofLex e.1).1 (ofLex e.1).2 (treeRoot H (mergeGroup (g.get? e.1) e.2).entries))
        (propRoots H g) =
      addRows (propRoots H g) (additions.entries.map fun e =>
        (ofLex e.1, treeRoot H (mergeGroup (g.get? e.1) e.2).entries)) := by
    rw [addRows, List.foldl_map]
  rw [asRows]
  have occupied : Occupied (propRoots H g) := occupied_empty.addRows _
  apply ext_row (occupied.addRows _) (occupied_empty.addRows _)
  intro label name
  rw [row_addRows, row_propRoots, ← propRoots, row_propRoots, get?_overlay]
  have last := OrdMap.get?_reverse_map ofLex.injective additions
    (fun k a => treeRoot H (mergeGroup (g.get? k) a).entries) (toLex (label, name))
  rw [show Entries.get? (label, name) _ = _ from last]
  cases additions.get? (toLex (label, name)) <;> rfl

theorem rebuildLabels_succeeds {g : OrdMap String (OrdMap ProllyKey Cid)}
    (stored : ∀ e ∈ g.entries, IsTree s (treeRoot H e.2.entries) e.2)
    (additions : OrdMap String (OrdMap ProllyKey Cid)) :
    (additions.entries.foldlM (fun m e =>
      rebuildSubtreeWithAdditions ((subtreeRoots H g).get? e.1) e.2 >>= fun root =>
        pure (m.insert e.1 root)) (subtreeRoots H g) : StoreM H (OrdMap String Cid)).Succeeds s
      fun m s' => m = subtreeRoots H (overlay g additions) ∧ s ≤ s' ∧
        ∀ e ∈ (overlay g additions).entries, IsTree s' (treeRoot H e.2.entries) e.2 := by
  have make : ∀ e ∈ additions.entries, ∀ s₁, s ≤ s₁ →
      (rebuildSubtreeWithAdditions ((subtreeRoots H g).get? e.1) e.2 : StoreM H Cid).Succeeds s₁
        fun root s' => root = treeRoot H (mergeGroup (g.get? e.1) e.2).entries ∧ s₁ ≤ s' ∧
          IsTree s' (treeRoot H (mergeGroup (g.get? e.1) e.2).entries)
            (mergeGroup (g.get? e.1) e.2) := by
    intro e _ s₁ le
    rw [get?_subtreeRoots]
    exact rebuildSubtree_succeeds (fun m found =>
      (stored (e.1, m) ((OrdMap.get?_eq_some_iff _).mp found)).mono le) e.2
  refine (Exec.succeeds_collect
    (fun (m : OrdMap String Cid) (e : String × OrdMap ProllyKey Cid) root => m.insert e.1 root) _
    make (fun e s s' tree le => IsTree.mono tree le) _).mono ?_
  rintro m s' ⟨rfl, le, rebuilt⟩
  exact ⟨subtreeRoots_overlay g additions, le,
    overlay_stored (fun e m => (stored e m).mono le) rebuilt⟩

theorem rebuildProps_succeeds {g : OrdMap (String ×ₗ String) (OrdMap ProllyKey Cid)}
    (stored : ∀ e ∈ g.entries, IsTree s (treeRoot H e.2.entries) e.2)
    (additions : OrdMap (String ×ₗ String) (OrdMap ProllyKey Cid)) :
    (additions.entries.foldlM (fun m e =>
      rebuildSubtreeWithAdditions (row (propRoots H g) (ofLex e.1).1 (ofLex e.1).2) e.2 >>=
        fun root => pure (addRow m (ofLex e.1).1 (ofLex e.1).2 root)) (propRoots H g) :
          StoreM H (OrdMap String (OrdMap String Cid))).Succeeds s
      fun m s' => m = propRoots H (overlay g additions) ∧ s ≤ s' ∧
        ∀ e ∈ (overlay g additions).entries, IsTree s' (treeRoot H e.2.entries) e.2 := by
  have make : ∀ e ∈ additions.entries, ∀ s₁, s ≤ s₁ →
      (rebuildSubtreeWithAdditions (row (propRoots H g) (ofLex e.1).1 (ofLex e.1).2) e.2 :
        StoreM H Cid).Succeeds s₁
        fun root s' => root = treeRoot H (mergeGroup (g.get? e.1) e.2).entries ∧ s₁ ≤ s' ∧
          IsTree s' (treeRoot H (mergeGroup (g.get? e.1) e.2).entries)
            (mergeGroup (g.get? e.1) e.2) := by
    intro e _ s₁ le
    rw [row_propRoots]
    exact rebuildSubtree_succeeds (fun m found =>
      (stored (e.1, m) ((OrdMap.get?_eq_some_iff _).mp found)).mono le) e.2
  refine (Exec.succeeds_collect (fun (m : OrdMap String (OrdMap String Cid))
    (e : (String ×ₗ String) × OrdMap ProllyKey Cid) root =>
    addRow m (ofLex e.1).1 (ofLex e.1).2 root) _
    make (fun e s s' tree le => IsTree.mono tree le) _).mono ?_
  rintro m s' ⟨rfl, le, rebuilt⟩
  exact ⟨propRoots_overlay g additions, le,
    overlay_stored (fun e m => (stored e m).mono le) rebuilt⟩

/-- **The incremental path.** From an index set that stands for `c` it succeeds, and the
index set it writes stands for `c` with the rows of the added nodes written over it. -/
theorem incrementalAppendIndexes_succeeds {c : Contents Cid} (stored : c.Stored s)
    {addedNodes : OrdMap NodeId Cid} {rows : List (Row Cid (Node Cid))}
    (reads : ReadsRows s addedNodes.entries rows) :
    (incrementalAppendIndexes (c.cid H) addedNodes : StoreM H Cid).Succeeds s fun cid s' =>
      cid = (c.append H rows).cid H ∧ s ≤ s' ∧ (c.append H rows).Stored s' := by
  have labels_eq := overlay_addRows c.labels_occupied (labelRows rows)
  have props_eq := overlay_addRows c.props_occupied (propRows H rows)
  unfold incrementalAppendIndexes
  refine Exec.succeeds_read_bind stored.set ?_
  refine Exec.succeeds_read_bind (groupNodes_eq _ reads {}) ?_
  refine Exec.succeeds_bind (rebuildLabels_succeeds stored.labels _) ?_
  rintro _ s₁ ⟨rfl, le₁, labels⟩
  refine Exec.succeeds_bind
    (rebuildProps_succeeds (fun e m => (stored.props e m).mono le₁) _) ?_
  rintro _ s₂ ⟨rfl, le₂, props⟩
  rw [labels_eq] at labels ⊢
  rw [props_eq] at props ⊢
  have le := le₁.trans le₂
  refine (putContents_succeeds (c := c.append H rows) (fun e m => (labels e m).mono le₂) props
    (stored.outgoing.mono le) (stored.incoming.mono le)).mono ?_
  rintro cid s₃ ⟨same, le₃, stored'⟩
  exact ⟨same, le.trans le₃, stored'⟩

end Builders

end Mnem.Index
