/-
# Index.Query — the query engine, through the indexes and by scanning

`Query.execute` has three paths: a point lookup in a property tree, a walk of a
label tree, and a scan of the node tree.  The property tree keeps one node for
each value hash, so the first path answers with at most one node: the holder
with the greatest id (`indexed_query`).  The scan answers with every node the
query selects, in key order (`scan_eq`), and at least one of them even under a
limit of zero.
-/
import Mnem.Repo.Readonly
import Mnem.Addressing

namespace Mnem.Index

open Theory Theory.Groups Prolly Repo

set_option autoImplicit false
set_option linter.unusedSectionVars false

variable {Cid : Type} {H : Hashing Cid} [LinearOrder Cid]

/-- `00000000-0000-7000-8000-6d6e656d0001`, the node that `mnem init` plants. -/
def anchorNodeId : NodeId := ⟨0x000000000000700080006d6e656d0001, by decide⟩

def isSystemNode (n : Node Cid) : Bool := n.id == anchorNodeId

/-- A matched node, with the edges the query asked for. -/
structure QueryHit (Cid : Type) where
  node : Node Cid
  edges : List (Edge Cid)
  incomingEdges : List (Edge Cid)
  edgesTruncated : Bool

/-- A declarative query; `propFilter` is `where_eq`. -/
structure Query (Cid : Type) where
  label : Option String := none
  propFilter : Option (String × Ipld Cid) := none
  withOutgoing : List String := []
  withIncoming : List String := []
  limit : Option Nat := none
  adjacencyCap : Nat := defaultAdjacencyCap
  includeTombstoned : Bool := false
  includeSystem : Bool := false

/-! ## Edges of a hit -/

/-- The first `cap` edges of the wanted labels, and whether there were more. -/
def loadOutgoing (s : Store H) (indexes : Option (IndexSet Cid)) (src : NodeId)
    (want : List String) (cap : Nat) : Except (Error Cid) (List (Edge Cid) × Bool) :=
  if want.isEmpty then .ok ([], false)
  else do
    let bucket ← bucketAt (AdjacencyBucket Cid) s (indexes.bind IndexSet.outgoing) src
    let entries := ((bucket.map AdjacencyBucket.edges).getD []).filter fun e =>
      want.contains e.label
    let edges ← decodeEdges s ((entries.take cap).map AdjacencyEntry.edge)
    return (edges, decide (cap < entries.length))

def loadIncoming (s : Store H) (indexes : Option (IndexSet Cid)) (dst : NodeId)
    (want : List String) (cap : Nat) : Except (Error Cid) (List (Edge Cid) × Bool) :=
  if want.isEmpty then .ok ([], false)
  else do
    let bucket ← bucketAt (IncomingAdjacencyBucket Cid) s (indexes.bind IndexSet.incoming) dst
    let entries := ((bucket.map IncomingAdjacencyBucket.edges).getD []).filter fun e =>
      want.contains e.label
    let edges ← decodeEdges s ((entries.take cap).map IncomingAdjacencyEntry.edge)
    return (edges, decide (cap < entries.length))

namespace Query

/-- Load both directions; the incoming twin of a self-loop is dropped. -/
def buildHit (s : Store H) (q : Query Cid) (indexes : Option (IndexSet Cid)) (node : Node Cid) :
    Except (Error Cid) (QueryHit Cid) := do
  let out ← loadOutgoing s indexes node.id q.withOutgoing q.adjacencyCap
  let inc ← loadIncoming s indexes node.id q.withIncoming q.adjacencyCap
  let inEdges :=
    if !inc.1.isEmpty && !out.1.isEmpty then
      inc.1.filter fun e => !(e.src == e.dst && (out.1.map Edge.id).contains e.id)
    else inc.1
  return ⟨node, out.1, inEdges, out.2 || inc.2⟩

/-- Whether the flags admit a node. -/
def admits (q : Query Cid) (r : ReadonlyRepo Cid) (node : Node Cid) : Bool :=
  (q.includeTombstoned || !r.isTombstoned node.id) && (q.includeSystem || !isSystemNode node)

/-- `node.props.get(prop) == Some(value)`. -/
def hasValue (node : Node Cid) (prop : String) (value : Ipld Cid) : Bool :=
  (node.props.get? prop).any fun v => Ipld.eq v value

/-- Whether a node passes every filter of the query. -/
def selects (q : Query Cid) (r : ReadonlyRepo Cid) (node : Node Cid) : Bool :=
  q.admits r node && q.label.all (fun l => node.ntype == l) &&
    q.propFilter.all fun f => hasValue node f.1 f.2

/-- Decode nodes in order and make hits of those to keep, until the limit is reached;
`found` hits are out already. -/
def scan (s : Store H) (limit : Option Nat) (keep : Node Cid → Bool)
    (hit : Node Cid → Except (Error Cid) (QueryHit Cid)) :
    Nat → List Cid → Except (Error Cid) (List (QueryHit Cid))
  | _, [] => .ok []
  | found, cid :: cids => do
      let node ← s.decodeFromStore (Node Cid) cid
      if keep node then do
        let h ← hit node
        if limit.any fun n => decide (n ≤ found + 1) then return [h]
        else do
          let hs ← scan s limit keep hit (found + 1) cids
          return h :: hs
      else scan s limit keep hit found cids

/-- The indexed point lookup. -/
def indexed (s : Store H) (q : Query Cid) (r : ReadonlyRepo Cid) (indexes : IndexSet Cid)
    (label prop : String) (value : Ipld Cid) : Except (Error Cid) (List (QueryHit Cid)) :=
  match row indexes.nodesByProp label prop with
  | none => .ok []
  | some treeRoot => do
      let key ← propValueHash H value
      match ← lookup s treeRoot key with
      | none => return []
      | some nodeCid => do
          let node ← s.decodeFromStore (Node Cid) nodeCid
          if node.ntype == label && hasValue node prop value && q.admits r node then do
            let h ← buildHit s q (some indexes) node
            return [h]
          else return []

/-- The walk of a label tree. -/
def labelled (s : Store H) (q : Query Cid) (r : ReadonlyRepo Cid) (indexes : IndexSet Cid)
    (label : String) : Except (Error Cid) (List (QueryHit Cid)) :=
  match indexes.nodesByLabel.get? label with
  | none => .ok []
  | some treeRoot => do
      let es ← entries s treeRoot
      scan s q.limit (q.admits r) (buildHit s q (some indexes)) 0 (es.map Prod.snd)

/-- The scan of the node tree. -/
def fallback (s : Store H) (q : Query Cid) (r : ReadonlyRepo Cid) (commit : Commit Cid)
    (indexes : Option (IndexSet Cid)) : Except (Error Cid) (List (QueryHit Cid)) := do
  let es ← entries s commit.nodes
  scan s q.limit (q.selects r) (buildHit s q indexes) 0 (es.map Prod.snd)

def execute (s : Store H) (q : Query Cid) (r : ReadonlyRepo Cid) :
    Except (Error Cid) (List (QueryHit Cid)) :=
  match r.commit with
  | none => .error .uninitialized
  | some commit => do
      let indexes ← indexesOf s commit
      match q.label, q.propFilter, indexes with
      | some label, some (prop, value), some idx => indexed s q r idx label prop value
      | some label, none, some idx => labelled s q r idx label
      | _, _, indexes => fallback s q r commit indexes

/-! ## The scan -/

/-- What a limit leaves of a list when `found` are out already: always at least one. -/
def room {α : Type} (limit : Option Nat) (found : Nat) (xs : List α) : List α :=
  limit.elim xs fun n => xs.take (max 1 (n - found))

theorem room_cons {α : Type} (limit : Option Nat) (found : Nat) (x : α) (xs : List α) :
    room limit found (x :: xs) =
      if limit.any (fun n => decide (n ≤ found + 1)) then [x]
      else x :: room limit (found + 1) xs := by
  cases limit with
  | none => rfl
  | some n =>
      simp only [room, Option.elim_some, Option.any_some, decide_eq_true_eq]
      by_cases last : n ≤ found + 1
      · rw [if_pos last, show max 1 (n - found) = 1 by omega]
        rfl
      · rw [if_neg last, show max 1 (n - found) = max 1 (n - (found + 1)) + 1 by omega]
        rfl

theorem room_nil {α : Type} (limit : Option Nat) (found : Nat) :
    room limit found ([] : List α) = [] := by
  cases limit <;> simp [room]

/-- Over nodes that decode, the scan is a filter cut off at the limit. -/
theorem scan_eq {s : Store H} {rows : List (Row Cid (Node Cid))}
    (loads : ∀ r ∈ rows, s.Loads r.cid r.object) (limit : Option Nat) (keep : Node Cid → Bool)
    {hit : Node Cid → Except (Error Cid) (QueryHit Cid)} {hitOf : Node Cid → QueryHit Cid}
    (hits : ∀ n, hit n = .ok (hitOf n)) (found : Nat) :
    scan s limit keep hit found (rows.map Row.cid) =
      .ok ((room limit found ((rows.map Row.object).filter keep)).map hitOf) := by
  induction rows generalizing found with
  | nil =>
      rw [List.map_nil, List.map_nil, List.filter_nil, room_nil]
      rfl
  | cons r rows ih =>
      have decoded : s.decodeFromStore (Node Cid) r.cid = .ok r.object :=
        loads r List.mem_cons_self
      have rest := ih fun x m => loads x (List.mem_cons_of_mem _ m)
      rw [List.map_cons, List.map_cons, List.filter_cons, scan, decoded]
      change (if keep r.object then _ else _) = _
      by_cases kept : keep r.object = true
      · rw [if_pos kept, if_pos kept, hits, room_cons]
        change (if _ then _ else _) = _
        by_cases last : limit.any (fun n => decide (n ≤ found + 1)) = true
        · rw [if_pos last, if_pos last]
          rfl
        · rw [if_neg last, if_neg last, rest]
          rfl
      · rw [if_neg kept, if_neg kept, rest]

/-! ## Hits over an indexed commit -/

section Hits

variable {s : Store H} {commit : Commit Cid} {nodes : List (Row Cid (Node Cid))}
  {edges : List (Row Cid (Edge Cid))} {c : Contents Cid} {es : List (ProllyKey × Cid)}

theorem loadOutgoing_of_indexed (isIndexed : Indexed s commit nodes edges c)
    (reads : ReadsRows s es edges) (src : NodeId) (want : List String) (cap : Nat) :
    ∃ out, loadOutgoing s (some (c.indexSet H)) src want cap = .ok out := by
  unfold loadOutgoing
  split
  · exact ⟨_, rfl⟩
  · obtain ⟨out, ran, -⟩ := decodeEdges_of_rows reads
      ((((outgoingEntries edges src).filter fun e => want.contains e.label).take cap).map
        AdjacencyEntry.edge) (fun c m => by
        obtain ⟨ae, inBucket, rfl⟩ := List.mem_map.mp m
        obtain ⟨row, inRows, -, rfl⟩ :=
          mem_outgoingEntries.mp (List.mem_of_mem_filter (List.mem_of_mem_take inBucket))
        exact ⟨row, inRows, rfl⟩)
    change ∃ out, (bucketAt (AdjacencyBucket Cid) s (c.indexSet H).outgoing src >>= _) = .ok out
    rw [isIndexed.outgoingBucket]
    change ∃ out, (decodeEdges s ((((outgoingEntries edges src).filter
      fun e => want.contains e.label).take cap).map AdjacencyEntry.edge) >>= _) = .ok out
    rw [ran]
    exact ⟨_, rfl⟩

theorem loadIncoming_of_indexed (isIndexed : Indexed s commit nodes edges c)
    (reads : ReadsRows s es edges) (dst : NodeId) (want : List String) (cap : Nat) :
    ∃ out, loadIncoming s (some (c.indexSet H)) dst want cap = .ok out := by
  unfold loadIncoming
  split
  · exact ⟨_, rfl⟩
  · obtain ⟨out, ran, -⟩ := decodeEdges_of_rows reads
      ((((incomingEntries edges dst).filter fun e => want.contains e.label).take cap).map
        IncomingAdjacencyEntry.edge) (fun c m => by
        obtain ⟨ae, inBucket, rfl⟩ := List.mem_map.mp m
        obtain ⟨row, inRows, -, rfl⟩ :=
          mem_incomingEntries.mp (List.mem_of_mem_filter (List.mem_of_mem_take inBucket))
        exact ⟨row, inRows, rfl⟩)
    change ∃ out, (bucketAt (IncomingAdjacencyBucket Cid) s (c.indexSet H).incoming dst >>= _) =
      .ok out
    rw [isIndexed.incomingBucket]
    change ∃ out, (decodeEdges s ((((incomingEntries edges dst).filter
      fun e => want.contains e.label).take cap).map IncomingAdjacencyEntry.edge) >>= _) = .ok out
    rw [ran]
    exact ⟨_, rfl⟩

/-- A hit can be built for every node, and it is a hit of that node. -/
theorem exists_hitOf (isIndexed : Indexed s commit nodes edges c) (reads : ReadsRows s es edges)
    (q : Query Cid) :
    ∃ hitOf : Node Cid → QueryHit Cid,
      ∀ n, q.buildHit s (some (c.indexSet H)) n = .ok (hitOf n) ∧ (hitOf n).node = n := by
  have each : ∀ n, ∃ h : QueryHit Cid,
      q.buildHit s (some (c.indexSet H)) n = .ok h ∧ h.node = n := by
    intro n
    obtain ⟨out, ranOut⟩ := loadOutgoing_of_indexed isIndexed reads n.id q.withOutgoing
      q.adjacencyCap
    obtain ⟨inc, ranIn⟩ := loadIncoming_of_indexed isIndexed reads n.id q.withIncoming
      q.adjacencyCap
    unfold buildHit
    rw [ranOut, ranIn]
    exact ⟨_, rfl, rfl⟩
  choose hitOf spec using each
  exact ⟨hitOf, spec⟩

/-! ## The point lookup -/

/-- The node the property index has for a value: the greatest holder, if there is one. -/
theorem indexed_of_indexed (isIndexed : Indexed s commit nodes edges c)
    (nodesRead : ∀ r ∈ nodes, s.Loads r.cid r.object) {q : Query Cid} {r : ReadonlyRepo Cid}
    {hitOf : Node Cid → QueryHit Cid}
    (hits : ∀ n, q.buildHit s (some (c.indexSet H)) n = .ok (hitOf n))
    (label prop : String) {value : Ipld Cid} (accepted : H.acceptsValue value = true) :
    (∀ x, row c.props (toLex (label, prop)) (H.valueHash value) = some x.cid → x ∈ nodes →
      x.object.ntype = label →
      indexed s q r (c.indexSet H) label prop value = .ok
        (if hasValue x.object prop value && q.admits r x.object then [hitOf x.object] else [])) ∧
    (row c.props (toLex (label, prop)) (H.valueHash value) = none →
      indexed s q r (c.indexSet H) label prop value = .ok []) := by
  have hash : propValueHash H value = .ok (H.valueHash value) := if_pos accepted
  have root : row (c.indexSet H).nodesByProp label prop =
      (c.props.get? (toLex (label, prop))).map fun g => treeRoot H g.entries :=
    row_propRoots c.props label prop
  unfold indexed
  rw [root]
  unfold Groups.row
  cases found : c.props.get? (toLex (label, prop)) with
  | none => exact ⟨fun x absent => (by cases absent), fun _ => rfl⟩
  | some g =>
      have tree := isIndexed.stored.props _ (c.props.get?_eq_some_iff.mp found)
      simp only [Option.map_some, Option.bind_some, hash]
      change (∀ x, _ → _ → _ → (lookup s (treeRoot H g.entries) (H.valueHash value) >>= _) = _) ∧
        (_ → (lookup s (treeRoot H g.entries) (H.valueHash value) >>= _) = _)
      rw [lookup_of_isTree tree]
      constructor
      · intro x at_hash inRows labelled
        have decoded : s.decodeFromStore (Node Cid) x.cid = .ok x.object := nodesRead x inRows
        rw [at_hash]
        change (s.decodeFromStore (Node Cid) x.cid >>= _) = _
        rw [decoded]
        change (if (x.object.ntype == label && _ && _) = true then _ else _) = _
        rw [labelled, beq_self_eq_true, Bool.true_and]
        split
        · rw [hits]
          rfl
        · rfl
      · intro absent
        rw [absent]
        rfl

end Hits

/-! ## The nodes of the hits -/

section NodesOfHits

variable {s : Store H} {r : ReadonlyRepo Cid} {commit : Commit Cid} {c : Contents Cid}
  {nodes : OrdMap ProllyKey Cid} {rows : List (Row Cid (Node Cid))}
  {edges : List (Row Cid (Edge Cid))}

theorem node_of_buildHit {q : Query Cid} {indexes : Option (IndexSet Cid)} {node : Node Cid}
    {h : QueryHit Cid} (ran : q.buildHit s indexes node = .ok h) : h.node = node := by
  unfold buildHit at ran
  obtain ⟨out, -, ran⟩ := Exec.bind_eq_ok.mp ran
  obtain ⟨inc, -, ran⟩ := Exec.bind_eq_ok.mp ran
  cases ran
  rfl

/-- The hits of a scan are nodes at some of the entries, in order, that were to be kept. -/
theorem scan_hits {limit : Option Nat} {keep : Node Cid → Bool}
    {hit : Node Cid → Except (Error Cid) (QueryHit Cid)}
    (ofNode : ∀ n h, hit n = .ok h → h.node = n) (es : List (ProllyKey × Cid)) {found : Nat}
    {hits : List (QueryHit Cid)}
    (ran : scan s limit keep hit found (es.map Prod.snd) = .ok hits) :
    ∃ sub, List.Sublist sub es ∧
      List.Forall₂ (fun e h => s.Loads e.2 h.node ∧ keep h.node = true) sub hits := by
  induction es generalizing found hits with
  | nil =>
      cases ran
      exact ⟨[], List.Sublist.slnil, .nil⟩
  | cons e es ih =>
      rw [List.map_cons, scan] at ran
      obtain ⟨node, loads, ran⟩ := Exec.bind_eq_ok.mp ran
      by_cases kept : keep node = true
      · rw [if_pos kept] at ran
        obtain ⟨h, built, rest⟩ := Exec.bind_eq_ok.mp ran
        have here : s.Loads e.2 h.node ∧ keep h.node = true := by
          rw [ofNode node h built]
          exact ⟨loads, kept⟩
        split at rest
        · cases rest
          exact ⟨[e], (List.nil_sublist es).cons_cons e, .cons here .nil⟩
        · obtain ⟨hs, later, last⟩ := Exec.bind_eq_ok.mp rest
          cases last
          obtain ⟨sub, inside, each⟩ := ih later
          exact ⟨e :: sub, inside.cons_cons e, .cons here each⟩
      · rw [if_neg kept] at ran
        obtain ⟨sub, inside, each⟩ := ih ran
        exact ⟨sub, inside.cons e, each⟩

/-- The hits are nodes of the head, each once, and satisfy `p`. -/
structure AnswersWith (s : Store H) (r : ReadonlyRepo Cid) (p : Node Cid → Prop)
    (hits : List (QueryHit Cid)) : Prop where
  ids : (hits.map fun h => h.node.id).Nodup
  each : ∀ h ∈ hits, r.lookupNode s h.node.id = .ok (some h.node) ∧ p h.node

theorem lookupNode_of_entry (head : r.commit = some commit)
    (table : NodeTable s commit.nodes nodes) {k : ProllyKey} {cid : Cid} {node : Node Cid}
    (found : nodes.get? k = some cid) (loads : s.Loads cid node) :
    node.id = k ∧ r.lookupNode s node.id = .ok (some node) := by
  obtain ⟨node', loads', filed⟩ := table.filed k cid found
  obtain rfl := loads.unique loads'
  refine ⟨filed, ?_⟩
  have decoded : s.decodeFromStore (Node Cid) cid = .ok node := loads
  unfold ReadonlyRepo.lookupNode
  rw [head, Option.map_some, bucketAt_of_isTree table.tree, filed, found]
  simp only [decoded]
  rfl

theorem AnswersWith.imp {p p' : Node Cid → Prop} {hits : List (QueryHit Cid)}
    (answers : AnswersWith s r p hits) (weaker : ∀ n, p n → p' n) : AnswersWith s r p' hits where
  ids := answers.ids
  each h m := ⟨(answers.each h m).1, weaker _ (answers.each h m).2⟩

/-- Nodes at distinct keys of the table. -/
theorem answersWith_of_forall₂ (head : r.commit = some commit)
    (table : NodeTable s commit.nodes nodes) {p : Node Cid → Prop} {keep : Node Cid → Bool}
    {es : List (ProllyKey × Cid)} {hits : List (QueryHit Cid)} (keys : (es.map Prod.fst).Nodup)
    (filed : ∀ e ∈ es, nodes.get? e.1 = some e.2 ∧ ∀ node : Node Cid, s.Loads e.2 node → p node)
    (each : List.Forall₂ (fun e h => s.Loads e.2 h.node ∧ keep h.node = true) es hits) :
    AnswersWith s r (fun n => p n ∧ keep n = true) hits ∧
      hits.map (fun h => h.node.id) = es.map Prod.fst := by
  induction each with
  | nil => exact ⟨⟨List.nodup_nil, fun h m => by cases m⟩, rfl⟩
  | @cons e h es hits here _ ih =>
      rw [List.map_cons, List.nodup_cons] at keys
      obtain ⟨rest, same⟩ := ih keys.2 fun d m => filed d (List.mem_cons_of_mem _ m)
      obtain ⟨inTable, property⟩ := filed e List.mem_cons_self
      obtain ⟨id, looked⟩ := lookupNode_of_entry head table inTable here.1
      refine ⟨⟨?_, fun g m => ?_⟩, by rw [List.map_cons, List.map_cons, same, id]⟩
      · rw [List.map_cons, List.nodup_cons, same, id]
        exact keys
      · rcases List.mem_cons.mp m with rfl | later
        · exact ⟨looked, property _ here.1, here.2⟩
        · exact rest.each g later

/-- The nodes filed under a label are the nodes of the table that have it. -/
theorem entry_of_label (reads : ReadsRows s nodes.entries rows)
    (isIndexed : Indexed s commit rows edges c) {label : String} {g : OrdMap ProllyKey Cid}
    (found : c.labels.get? label = some g) {e : ProllyKey × Cid} (m : e ∈ g.entries) :
    nodes.get? e.1 = some e.2 ∧ ∀ node : Node Cid, s.Loads e.2 node → node.ntype = label := by
  have at_row : row c.labels label e.1 = some e.2 := by
    unfold Groups.row
    rw [found]
    exact g.get?_eq_some_iff.mpr m
  rw [isIndexed.covers.labels] at at_row
  have inRows : ((label, e.1), e.2) ∈ (labelRows rows).reverse := by
    rw [show (contentsOf H rows edges).labels = addRows OrdMap.empty (labelRows rows) from rfl,
      row_addRows_empty] at at_row
    exact Entries.mem_of_get? at_row
  obtain ⟨x, inTable, same⟩ := List.mem_map.mp (List.mem_reverse.mp inRows)
  obtain ⟨entry, loads⟩ := reads.mem_iff.mp inTable
  obtain ⟨both, cid⟩ := Prod.mk.inj same
  obtain ⟨ntype, key⟩ := Prod.mk.inj both
  rw [key, cid] at entry
  rw [cid] at loads
  exact ⟨nodes.get?_eq_some_iff.mpr entry, fun node loads' => by rw [loads'.unique loads, ntype]⟩

/-- The point lookup answers with a node of the label, or with nothing. -/
theorem answers_of_indexed (head : r.commit = some commit)
    (table : NodeTable s commit.nodes nodes) (reads : ReadsRows s nodes.entries rows)
    (isIndexed : Indexed s commit rows edges c) {q : Query Cid} {label prop : String}
    {value : Ipld Cid} {hits : List (QueryHit Cid)}
    (ran : indexed s q r (c.indexSet H) label prop value = .ok hits) :
    AnswersWith s r (fun n => n.ntype = label ∧ q.admits r n = true) hits := by
  have nothing : AnswersWith s r (fun n => n.ntype = label ∧ q.admits r n = true)
      ([] : List (QueryHit Cid)) := ⟨List.nodup_nil, fun h m => by cases m⟩
  unfold indexed at ran
  rw [show (c.indexSet H).nodesByProp = propRoots H c.props from rfl, row_propRoots] at ran
  cases group : c.props.get? (toLex (label, prop)) with
  | none =>
      rw [group] at ran
      cases ran
      exact nothing
  | some g =>
      have tree := isIndexed.stored.props _ (c.props.get?_eq_some_iff.mp group)
      rw [group, Option.map_some] at ran
      obtain ⟨key, -, ran⟩ := Exec.bind_eq_ok.mp ran
      rw [lookup_of_isTree tree] at ran
      obtain ⟨found, at_key, ran⟩ := Exec.bind_eq_ok.mp ran
      cases found with
      | none =>
          cases ran
          exact nothing
      | some cid =>
          obtain ⟨node, loads, ran⟩ := Exec.bind_eq_ok.mp ran
          split at ran
          · rename_i asked
            obtain ⟨both, admitted⟩ := Bool.and_eq_true_iff.mp asked
            obtain ⟨labelled, -⟩ := Bool.and_eq_true_iff.mp both
            obtain ⟨h, built, ran⟩ := Exec.bind_eq_ok.mp ran
            have here := node_of_buildHit built
            cases ran
            -- the row names a node of the tree
            have named : row c.props (toLex (label, prop)) key = some cid := by
              unfold Groups.row
              rw [group]
              exact Except.ok.inj at_key
            obtain ⟨x, inRows, -, rfl⟩ := isIndexed.covers.named _ _ _ _ named
            obtain ⟨entry, -⟩ := reads.mem_iff.mp inRows
            obtain ⟨-, looked⟩ := lookupNode_of_entry head table
              (nodes.get?_eq_some_iff.mpr entry) loads
            refine ⟨List.nodup_singleton _, fun h' m => ?_⟩
            rw [List.mem_singleton.mp m, here]
            exact ⟨looked, beq_iff_eq.mp labelled, admitted⟩
          · cases ran
            exact nothing

/-- **What a query answers with, on any path**: nodes of the head, each once, with the label and
admitted by the flags. -/
theorem answers_of_execute (head : r.commit = some commit)
    (table : NodeTable s commit.nodes nodes) (reads : ReadsRows s nodes.entries rows)
    (isIndexed : Indexed s commit rows edges c) {q : Query Cid} {hits : List (QueryHit Cid)}
    (ran : q.execute s r = .ok hits) :
    AnswersWith s r (fun n => (∀ l, q.label = some l → n.ntype = l) ∧ q.admits r n = true)
      hits := by
  have ofNode : ∀ indexes n h, q.buildHit s indexes n = .ok h → h.node = n :=
    fun indexes n h built => node_of_buildHit built
  have keys : ∀ {m : OrdMap ProllyKey Cid} {sub : List (ProllyKey × Cid)},
      List.Sublist sub m.entries → (sub.map Prod.fst).Nodup :=
    fun inside => (OrdMap.ascending _).nodup.sublist (inside.map _)
  have scanned : ∀ indexes, q.fallback s r commit indexes = .ok hits → AnswersWith s r
      (fun n => (∀ l, q.label = some l → n.ntype = l) ∧ q.admits r n = true) hits := by
    intro indexes ran
    unfold fallback at ran
    rw [entries_of_isTree table.tree] at ran
    obtain ⟨sub, inside, each⟩ := scan_hits (ofNode indexes) nodes.entries ran
    have answers := (answersWith_of_forall₂ (p := fun _ => True) head table (keys inside)
      (fun e m => ⟨nodes.get?_eq_some_iff.mpr (inside.subset m), fun _ _ => trivial⟩) each).1
    refine answers.imp fun n selected => ?_
    obtain ⟨both, -⟩ := Bool.and_eq_true_iff.mp selected.2
    obtain ⟨admitted, labelled⟩ := Bool.and_eq_true_iff.mp both
    refine ⟨fun l onLabel => ?_, admitted⟩
    rw [onLabel] at labelled
    exact beq_iff_eq.mp labelled
  unfold execute at ran
  rw [head] at ran
  simp only [isIndexed.indexesOf] at ran
  change (match q.label, q.propFilter, some (c.indexSet H) with
    | some label, some (prop, value), some idx => indexed s q r idx label prop value
    | some label, none, some idx => labelled s q r idx label
    | _, _, indexes => fallback s q r commit indexes) = _ at ran
  cases onLabel : q.label with
  | none =>
      rw [onLabel] at ran scanned
      exact scanned _ ran
  | some label =>
      have weaker : ∀ n : Node Cid, n.ntype = label ∧ q.admits r n = true →
          (∀ l, some label = some l → n.ntype = l) ∧ q.admits r n = true := by
        rintro n ⟨labelled, admitted⟩
        exact ⟨fun l same => labelled.trans (Option.some.inj same), admitted⟩
      rw [onLabel] at ran
      cases onProp : q.propFilter with
      | some filter =>
          rw [onProp] at ran
          exact (answers_of_indexed head table reads isIndexed ran).imp weaker
      | none =>
          rw [onProp] at ran
          change labelled s q r (c.indexSet H) label = _ at ran
          unfold labelled at ran
          rw [show (c.indexSet H).nodesByLabel = subtreeRoots H c.labels from rfl,
            get?_subtreeRoots] at ran
          cases found : c.labels.get? label with
          | none =>
              rw [found] at ran
              cases ran
              exact ⟨List.nodup_nil, fun h m => by cases m⟩
          | some g =>
              have tree := isIndexed.stored.labels _ (c.labels.get?_eq_some_iff.mp found)
              rw [found, Option.map_some] at ran
              dsimp only at ran
              rw [entries_of_isTree tree] at ran
              obtain ⟨sub, inside, each⟩ := scan_hits (ofNode _) g.entries ran
              exact (answersWith_of_forall₂ head table (keys inside)
                (fun e m => entry_of_label reads isIndexed found (inside.subset m)) each).1.imp
                weaker

end NodesOfHits

/-! ## The two paths compared -/

/-- At most one node of the label has a value that hashes like the given one, and an
equal value hashes alike. -/
structure OneHolder (H : Hashing Cid) (rows : List (Row Cid (Node Cid))) (label prop : String)
    (value : Ipld Cid) : Prop where
  one : ∀ x ∈ rows, ∀ y ∈ rows, HasProp H label prop (H.valueHash value) x.object →
    HasProp H label prop (H.valueHash value) y.object → x = y
  alike : ∀ x ∈ rows, x.object.ntype = label → hasValue x.object prop value = true →
    HasProp H label prop (H.valueHash value) x.object

theorem selects_iff {q : Query Cid} {r : ReadonlyRepo Cid} {label prop : String}
    {value : Ipld Cid} (onLabel : q.label = some label)
    (onProp : q.propFilter = some (prop, value)) (n : Node Cid) :
    q.selects r n = true ↔ n.ntype = label ∧
      (hasValue n prop value && q.admits r n) = true := by
  unfold selects
  rw [onLabel, onProp]
  simp only [Option.all_some, Bool.and_eq_true, beq_iff_eq]
  tauto

/-- With at most one holder, what the query selects is that holder or nothing. -/
theorem filter_selects_of_oneHolder {q : Query Cid} {r : ReadonlyRepo Cid}
    {rows : List (Row Cid (Node Cid))} (asc : AscendingRows rows) {label prop : String}
    {value : Ipld Cid} (onLabel : q.label = some label)
    (onProp : q.propFilter = some (prop, value)) (one : OneHolder H rows label prop value) :
    (∀ x, Greatest (HasProp H label prop (H.valueHash value)) rows x →
      (rows.map Row.object).filter (q.selects r) = [x.object].filter (q.selects r)) ∧
    ((∀ x ∈ rows, ¬ HasProp H label prop (H.valueHash value) x.object) →
      (rows.map Row.object).filter (q.selects r) = []) := by
  have holder : ∀ x ∈ rows, q.selects r x.object = true →
      HasProp H label prop (H.valueHash value) x.object := by
    intro x m selected
    obtain ⟨labelled, rest⟩ := (selects_iff onLabel onProp x.object).mp selected
    exact one.alike x m labelled (Bool.and_eq_true_iff.mp rest).1
  constructor
  · intro x g
    obtain ⟨before, after, rfl⟩ := List.append_of_mem g.mem
    have apart := asc.nodup
    have alone : ∀ y ∈ before ++ after, q.selects r y.object = false := by
      intro y m
      have inRows : y ∈ before ++ x :: after := by
        rcases List.mem_append.mp m with h | h
        · exact List.mem_append_left _ h
        · exact List.mem_append_right _ (List.mem_cons_of_mem _ h)
      by_contra selected
      have holds := holder y inRows (by simpa using selected)
      obtain rfl := one.one y inRows x g.mem holds g.holds
      rw [List.map_append, List.map_cons, List.nodup_middle, List.nodup_cons,
        ← List.map_append] at apart
      exact apart.1 (List.mem_map_of_mem m)
    have nothing : ∀ l : List (Row Cid (Node Cid)), (∀ y ∈ l, q.selects r y.object = false) →
        (l.map Row.object).filter (q.selects r) = [] := by
      intro l none_selected
      rw [List.filter_eq_nil_iff]
      intro n m
      obtain ⟨y, inL, rfl⟩ := List.mem_map.mp m
      simp [none_selected y inL]
    rw [List.map_append, List.filter_append, List.map_cons, List.filter_cons,
      nothing before fun y m => alone y (List.mem_append_left _ m),
      nothing after fun y m => alone y (List.mem_append_right _ m), List.nil_append,
      List.filter_cons, List.filter_nil]
  · intro none_holds
    rw [List.filter_eq_nil_iff]
    intro n m
    obtain ⟨y, inRows, rfl⟩ := List.mem_map.mp m
    intro selected
    exact none_holds y inRows (holder y inRows selected)

/-- A scan over a stored table answers with the selected nodes, up to the limit. -/
theorem fallback_of_isTree {s : Store H} {commit : Commit Cid} {nodes : OrdMap ProllyKey Cid}
    {rows : List (Row Cid (Node Cid))} (tree : IsTree s commit.nodes nodes)
    (reads : ReadsRows s nodes.entries rows) (q : Query Cid) (r : ReadonlyRepo Cid)
    {idx : IndexSet Cid} {hitOf : Node Cid → QueryHit Cid}
    (hits : ∀ n, q.buildHit s (some idx) n = .ok (hitOf n)) :
    q.fallback s r commit (some idx) =
      .ok ((room q.limit 0 ((rows.map Row.object).filter (q.selects r))).map hitOf) := by
  have cids : nodes.entries.map Prod.snd = rows.map Row.cid := by
    rw [← reads.entries, List.map_map]
    rfl
  unfold fallback
  rw [entries_of_isTree tree]
  change scan s q.limit _ _ 0 (nodes.entries.map Prod.snd) = _
  rw [cids]
  exact scan_eq reads.loads q.limit _ hits 0

/-- One node is within any limit. -/
theorem room_filter_singleton (limit : Option Nat) (keep : Node Cid → Bool) (n : Node Cid) :
    room limit 0 ([n].filter keep) = [n].filter keep := by
  by_cases selected : keep n = true
  · rw [List.filter_cons, if_pos selected, List.filter_nil, room_cons, room_nil, ite_self]
  · rw [List.filter_cons, if_neg selected, List.filter_nil, room_nil]

/-- What the point lookup checks of a node of the label is what the query selects. -/
theorem filter_admits {q : Query Cid} {r : ReadonlyRepo Cid} {label prop : String}
    {value : Ipld Cid} (onLabel : q.label = some label)
    (onProp : q.propFilter = some (prop, value)) (hitOf : Node Cid → QueryHit Cid)
    {n : Node Cid} (labelled : n.ntype = label) :
    (if hasValue n prop value && q.admits r n then [hitOf n] else []) =
      ([n].filter (q.selects r)).map hitOf := by
  by_cases selected : q.selects r n = true
  · rw [if_pos ((selects_iff onLabel onProp n).mp selected).2]
    simp [selected]
  · rw [if_neg fun h => selected ((selects_iff onLabel onProp n).mpr ⟨labelled, h⟩)]
    simp [selected]

def twin (id : NodeId) : Node ℕ :=
  { id := id, ntype := "Person", props := OrdMap.ofList [("name", .string "Alice")] }

def twinsCommit (nodes edges indexes : ℕ) : Commit ℕ where
  changeId := 0
  nodes := nodes
  edges := edges
  schema := edges
  indexes := some indexes
  author := ""
  time := 0
  message := ""

/-- Two people named Alice, indexed from scratch. -/
def twins : StoreM cuttingHashing (ReadonlyRepo ℕ) := do
  let first ← putObject (twin 1)
  let second ← putObject (twin 2)
  let nodes ← buildTree [(1, first), (2, second)]
  let edges ← buildTree []
  let indexes ← buildIndexSet nodes edges
  return {
    opId := 0
    op := { view := 0, author := "", time := 0, description := "" }
    view := {}
    commit := some (twinsCommit nodes edges indexes) }

def namedAlice : Query ℕ :=
  { label := some "Person", propFilter := some ("name", .string "Alice") }

/-- The index answers with one Alice, the scan with both. -/
def answersDiffer (q : Query ℕ) (r : ReadonlyRepo ℕ) (s : Store cuttingHashing) : Bool :=
  r.commit.any fun commit => Exec.okAnd (indexesOf s commit) fun idx =>
    idx.any fun idx => Exec.okAnd (q.execute s r) fun hits =>
      Exec.okAnd (q.fallback s r commit (some idx)) fun scanned =>
        decide (hits.map (fun h => h.node.id) = [2]) &&
          decide (scanned.map (fun h => h.node.id) = [1, 2])

theorem twins_differ : ∃ r s, twins.Returns {} r s ∧ namedAlice.answersDiffer r s = true := by
  have passed : twins.check {} namedAlice.answersDiffer = true := by decide +kernel
  exact Exec.exists_of_check passed

end Query

end Mnem.Index
