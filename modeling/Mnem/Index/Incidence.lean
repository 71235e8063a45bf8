/-
# Index.Incidence — the adjacency indexes list the edges of each node

Over a rebuilt index set, every adjacency read is a filter and a prefix of one
list: the edges of the edge tree at that source, or at that destination, each
once (`adjacency_exact`).  A query hit joins the prefixes of both directions and
drops the incoming twin of a self-loop it has among the outgoing edges.  The
flag speaks of each direction alone: an edge cut off in one direction may be a
self-loop that the other direction still shows (`truncated_but_complete`).
-/
import Mnem.Index.Query

namespace Mnem.Index

open Theory Theory.Groups Prolly Repo

set_option autoImplicit false
set_option linter.unusedSectionVars false

variable {Cid : Type} {H : Hashing Cid} [LinearOrder Cid]

/-- An edge of an edge tree. -/
def InTree (s : Store H) (edges : OrdMap ProllyKey Cid) (e : Edge Cid) : Prop :=
  ∃ cid, edges.get? e.id = some cid ∧ s.Loads cid e

/-- An edge of the tree is known by its id. -/
theorem InTree.unique {s : Store H} {edges : OrdMap ProllyKey Cid} {e e' : Edge Cid}
    (inTree : InTree s edges e) (inTree' : InTree s edges e') (sameId : e.id = e'.id) :
    e = e' := by
  obtain ⟨cid, found, loads⟩ := inTree
  obtain ⟨cid', found', loads'⟩ := inTree'
  rw [← sameId, found] at found'
  obtain rfl := Option.some.inj found'
  exact loads.unique loads'

/-- The edges of the tree that satisfy `P`, each once. -/
structure Lists (s : Store H) (edges : OrdMap ProllyKey Cid) (P : Edge Cid → Prop)
    (all : List (Edge Cid)) : Prop where
  once : (all.map Edge.id).Nodup
  exact : ∀ e, e ∈ all ↔ InTree s edges e ∧ P e

/-- What a hit shows of a node's outgoing and incoming edges. -/
structure Shows (q : Query Cid) (outgoing incoming : List (Edge Cid)) (hit : QueryHit Cid) :
    Prop where
  edges : hit.edges =
    (outgoing.filter fun e => q.withOutgoing.contains e.etype).take q.adjacencyCap
  once : ((hit.edges ++ hit.incomingEdges).map Edge.id).Nodup
  shown : ∀ e, e ∈ hit.edges ++ hit.incomingEdges ↔ e ∈ hit.edges ∨
    e ∈ (incoming.filter fun e => q.withIncoming.contains e.etype).take q.adjacencyCap
  truncated : hit.edgesTruncated = true ↔
    q.adjacencyCap < (outgoing.filter fun e => q.withOutgoing.contains e.etype).length ∨
      q.adjacencyCap < (incoming.filter fun e => q.withIncoming.contains e.etype).length
  complete : hit.edgesTruncated = false → ∀ e, e ∈ hit.edges ++ hit.incomingEdges ↔
    e ∈ outgoing ∧ q.withOutgoing.contains e.etype = true ∨
      e ∈ incoming ∧ q.withIncoming.contains e.etype = true

/-! ## One list for each node and direction -/

section Lists

variable {s : Store H} {edges : OrdMap ProllyKey Cid} {rows : List (Row Cid (Edge Cid))}

theorem decodeEdges_map {cids : List Cid} {f : Cid → Edge Cid}
    (loads : ∀ c ∈ cids, s.Loads c (f c)) : decodeEdges s cids = .ok (cids.map f) := by
  refine Exec.mapM_of_forall₂ ?_
  rw [List.forall₂_map_right_iff, List.forall₂_same]
  exact loads

/-- The edges behind the entries of a bucket, and how reads of the bucket follow from them. -/
structure Behind {α : Type} (label : α → String) (edge : α → Cid) (s : Store H)
    (entries : List α) (all : List (Edge Cid)) : Prop where
  length : ∀ p : String → Bool,
    (entries.filter fun a => p (label a)).length = (all.filter fun e => p e.etype).length
  decoded : ∀ (p : String → Bool) (cap : Option Nat),
    decodeEdges s ((cap.elim (entries.filter fun a => p (label a))
      (entries.filter fun a => p (label a)).take).map edge) =
        .ok (cap.elim (all.filter fun e => p e.etype) (all.filter fun e => p e.etype).take)

/-- The entries that the rows at one node give, in any order. -/
theorem exists_lists {α : Type} {label : α → String} {edge : α → Cid}
    (entry : Row Cid (Edge Cid) → α) (labels : ∀ r, label (entry r) = r.object.etype)
    (cids : ∀ r, edge (entry r) = r.cid) (reads : ReadsRows s edges.entries rows)
    (filed : ∀ r ∈ rows, r.key = r.object.id) {P : Edge Cid → Prop} [DecidablePred P]
    {entries : List α}
    (perm : entries.Perm ((rows.filter fun r => decide (P r.object)).map entry)) :
    ∃ all, Lists s edges P all ∧ Behind label edge s entries all := by
  have total : ∀ c : Cid, ∃ e : Edge Cid, ∀ r ∈ rows, r.cid = c → r.object = e := by
    intro c
    by_cases there : ∃ r ∈ rows, r.cid = c
    · obtain ⟨r, m, rfl⟩ := there
      exact ⟨r.object, fun r' m' same =>
        (reads.loads r' m').unique (same ▸ reads.loads r m)⟩
    · exact ⟨⟨0, "", 0, 0, OrdMap.empty, OrdMap.empty⟩, fun r m same => absurd ⟨r, m, same⟩ there⟩
  choose objectAt at_cid using total
  have at_row : ∀ r ∈ rows, objectAt r.cid = r.object := fun r m => (at_cid r.cid r m rfl).symm
  have from_row : ∀ a ∈ entries, ∃ r ∈ rows, P r.object ∧ entry r = a := by
    intro a m
    obtain ⟨r, inFilter, same⟩ := List.mem_map.mp (perm.mem_iff.mp m)
    obtain ⟨inRows, holds⟩ := List.mem_filter.mp inFilter
    exact ⟨r, inRows, of_decide_eq_true holds, same⟩
  have objects : (entries.map fun a => objectAt (edge a)).Perm
      ((rows.filter fun r => decide (P r.object)).map Row.object) := by
    refine (perm.map _).trans (List.Perm.of_eq ?_)
    rw [List.map_map]
    refine List.map_congr_left fun r m => ?_
    change objectAt (edge (entry r)) = r.object
    rw [cids, at_row r (List.mem_of_mem_filter m)]
  have labelled : ∀ a ∈ entries, label a = (objectAt (edge a)).etype := by
    intro a m
    obtain ⟨r, inRows, -, rfl⟩ := from_row a m
    rw [labels, cids, at_row r inRows]
  have filtered : ∀ p : String → Bool,
      ((entries.map fun a => objectAt (edge a)).filter fun e => p e.etype) =
        (entries.filter fun a => p (label a)).map fun a => objectAt (edge a) := by
    intro p
    rw [List.filter_map]
    congr 1
    refine List.filter_congr fun a m => ?_
    change p (objectAt (edge a)).etype = p (label a)
    rw [labelled a m]
  refine ⟨entries.map fun a => objectAt (edge a), ⟨?_, fun e => ?_⟩, ⟨fun p => ?_, fun p cap => ?_⟩⟩
  · -- the ids of the rows are their keys, and no tree has a key twice
    have keys : (rows.map Row.key).Nodup := by
      have ascending := edges.ascending.nodup
      rw [← reads.entries, List.map_map] at ascending
      exact ascending
    have ids : (rows.map fun r => r.object.id) = rows.map Row.key :=
      List.map_congr_left fun r m => (filed r m).symm
    refine ((objects.map Edge.id).nodup_iff).mpr ?_
    rw [List.map_map]
    refine List.Nodup.sublist (List.Sublist.map _ List.filter_sublist) ?_
    change (rows.map fun r => r.object.id).Nodup
    rw [ids]
    exact keys
  · rw [objects.mem_iff, List.mem_map]
    constructor
    · rintro ⟨r, inFilter, rfl⟩
      obtain ⟨inRows, holds⟩ := List.mem_filter.mp inFilter
      obtain ⟨inTree, loads⟩ := reads.mem_iff.mp inRows
      refine ⟨⟨r.cid, ?_, loads⟩, of_decide_eq_true holds⟩
      rw [← filed r inRows]
      exact edges.get?_eq_some_iff.mpr inTree
    · rintro ⟨⟨cid, found, loads⟩, holds⟩
      refine ⟨⟨e.id, cid, e⟩, List.mem_filter.mpr ⟨?_, decide_eq_true holds⟩, rfl⟩
      exact reads.mem_iff.mpr ⟨edges.get?_eq_some_iff.mp found, loads⟩
  · rw [filtered, List.length_map]
  · rw [filtered]
    have loads : ∀ l : List α, (∀ a ∈ l, a ∈ entries) →
        decodeEdges s (l.map edge) = .ok (l.map fun a => objectAt (edge a)) := by
      intro l inside
      refine (decodeEdges_map (f := objectAt) fun c m => ?_).trans (by rw [List.map_map]; rfl)
      obtain ⟨a, inL, rfl⟩ := List.mem_map.mp m
      obtain ⟨r, inRows, -, rfl⟩ := from_row a (inside a inL)
      rw [cids, at_row r inRows]
      exact reads.loads r inRows
    cases cap with
    | none => exact loads _ fun a m => List.mem_of_mem_filter m
    | some n =>
        refine (loads _ fun a m => List.mem_of_mem_filter (List.mem_of_mem_take m)).trans ?_
        rw [List.map_take]
        rfl

theorem outgoingEntries_perm (rows : List (Row Cid (Edge Cid))) (src : NodeId) :
    (outgoingEntries rows src).Perm ((rows.filter fun r => decide (r.object.src = src)).map
      fun r => ⟨r.object.etype, r.cid⟩) := by
  have at_src : rowsAt (outgoingRows rows) src =
      (rows.filter fun r => decide (r.object.src = src)).map fun r => ⟨r.object.etype, r.cid⟩ := by
    simp [rowsAt, outgoingRows, List.filter_map, Function.comp_def]
  rw [outgoingEntries, get?_pushAll_empty, ← at_src]
  by_cases nothing : rowsAt (outgoingRows rows) src = []
  · simp [nothing]
  · rw [if_neg nothing]
    exact List.perm_insertionSort _ _

theorem incomingEntries_perm (rows : List (Row Cid (Edge Cid))) (dst : NodeId) :
    (incomingEntries rows dst).Perm ((rows.filter fun r => decide (r.object.dst = dst)).map
      fun r => ⟨r.object.etype, r.object.src, r.cid⟩) := by
  have at_dst : rowsAt (incomingRows rows) dst =
      (rows.filter fun r => decide (r.object.dst = dst)).map
        fun r => ⟨r.object.etype, r.object.src, r.cid⟩ := by
    simp [rowsAt, incomingRows, List.filter_map, Function.comp_def]
  rw [incomingEntries, get?_pushAll_empty, ← at_dst]
  by_cases nothing : rowsAt (incomingRows rows) dst = []
  · simp [nothing]
  · rw [if_neg nothing]
    exact List.perm_insertionSort _ _

end Lists

/-! ## The reads -/

section Reads

variable {s : Store H} {edges : OrdMap ProllyKey Cid} {rows : List (Row Cid (Edge Cid))}
  {nodes : List (Row Cid (Node Cid))} {commit : Commit Cid} {c : Contents Cid}
  {r : ReadonlyRepo Cid}

theorem outgoingEdges_behind (head : r.commit = some commit)
    (isIndexed : Indexed s commit nodes rows c) {n : NodeId} {all : List (Edge Cid)}
    (behind : Behind AdjacencyEntry.label AdjacencyEntry.edge s (outgoingEntries rows n) all)
    (f : Option (List String)) :
    r.outgoingEdges s n f = .ok (all.filter fun e => wanted f e.etype) := by
  simp only [ReadonlyRepo.outgoingEdges, head]
  rw [isIndexed.indexesOf]
  change (bucketAt (AdjacencyBucket Cid) s (c.indexSet H).outgoing n >>= _) = _
  rw [isIndexed.outgoingBucket]
  exact behind.decoded (wanted f) none

theorem incomingEdgesCapped_behind (head : r.commit = some commit)
    (isIndexed : Indexed s commit nodes rows c) {n : NodeId} {all : List (Edge Cid)}
    (behind : Behind IncomingAdjacencyEntry.label IncomingAdjacencyEntry.edge s
      (incomingEntries rows n) all) (f : Option (List String)) (cap : Nat) :
    r.incomingEdgesCapped s n f cap = .ok ((all.filter fun e => wanted f e.etype).take cap) := by
  simp only [ReadonlyRepo.incomingEdgesCapped, head]
  rw [isIndexed.indexesOf]
  change (bucketAt (IncomingAdjacencyBucket Cid) s (c.indexSet H).incoming n >>= _) = _
  rw [isIndexed.incomingBucket]
  exact behind.decoded (wanted f) (some cap)

theorem loadOutgoing_behind (isIndexed : Indexed s commit nodes rows c) {n : NodeId}
    {all : List (Edge Cid)}
    (behind : Behind AdjacencyEntry.label AdjacencyEntry.edge s (outgoingEntries rows n) all)
    (want : List String) (cap : Nat) :
    loadOutgoing s (some (c.indexSet H)) n want cap =
      .ok ((all.filter fun e => want.contains e.etype).take cap,
        decide (cap < (all.filter fun e => want.contains e.etype).length)) := by
  unfold loadOutgoing
  by_cases empty : want.isEmpty = true
  · obtain rfl := List.isEmpty_iff.mp empty
    simp
  · rw [if_neg empty]
    change (bucketAt (AdjacencyBucket Cid) s (c.indexSet H).outgoing n >>= _) = _
    rw [isIndexed.outgoingBucket, ← behind.length fun l => want.contains l]
    have decoded := behind.decoded (fun l => want.contains l) (some cap)
    change (decodeEdges s ((((outgoingEntries rows n).filter
      fun e => want.contains e.label).take cap).map AdjacencyEntry.edge) >>= _) = _
    change decodeEdges s ((((outgoingEntries rows n).filter
      fun e => want.contains e.label).take cap).map AdjacencyEntry.edge) = _ at decoded
    rw [decoded]
    rfl

theorem loadIncoming_behind (isIndexed : Indexed s commit nodes rows c) {n : NodeId}
    {all : List (Edge Cid)}
    (behind : Behind IncomingAdjacencyEntry.label IncomingAdjacencyEntry.edge s
      (incomingEntries rows n) all) (want : List String) (cap : Nat) :
    loadIncoming s (some (c.indexSet H)) n want cap =
      .ok ((all.filter fun e => want.contains e.etype).take cap,
        decide (cap < (all.filter fun e => want.contains e.etype).length)) := by
  unfold loadIncoming
  by_cases empty : want.isEmpty = true
  · obtain rfl := List.isEmpty_iff.mp empty
    simp
  · rw [if_neg empty]
    change (bucketAt (IncomingAdjacencyBucket Cid) s (c.indexSet H).incoming n >>= _) = _
    rw [isIndexed.incomingBucket, ← behind.length fun l => want.contains l]
    have decoded := behind.decoded (fun l => want.contains l) (some cap)
    change (decodeEdges s ((((incomingEntries rows n).filter
      fun e => want.contains e.label).take cap).map IncomingAdjacencyEntry.edge) >>= _) = _
    change decodeEdges s ((((incomingEntries rows n).filter
      fun e => want.contains e.label).take cap).map IncomingAdjacencyEntry.edge) = _ at decoded
    rw [decoded]
    rfl

end Reads

/-! ## Hits -/

section Hits

variable {s : Store H} {edges : OrdMap ProllyKey Cid}

/-- What the filter on the incoming edges keeps: those not shown already. -/
theorem mem_dropTwins {n : NodeId} {out inc : List (Edge Cid)}
    (outs : ∀ e ∈ out, InTree s edges e ∧ e.src = n)
    (incs : ∀ e ∈ inc, InTree s edges e ∧ e.dst = n) (e : Edge Cid) :
    e ∈ (if !inc.isEmpty && !out.isEmpty then
        inc.filter fun e => !(e.src == e.dst && (out.map Edge.id).contains e.id) else inc) ↔
      e ∈ inc ∧ e.id ∉ out.map Edge.id := by
  by_cases both : (!inc.isEmpty && !out.isEmpty) = true
  · rw [if_pos both, List.mem_filter]
    refine and_congr_right fun m => ?_
    rw [Bool.not_eq_true', Bool.and_eq_false_iff]
    constructor
    · rintro (apart | fresh)
      · -- an edge of both directions with this id is this edge, and it is a loop
        intro shown
        obtain ⟨e', inOut, sameId⟩ := List.mem_map.mp shown
        obtain ⟨inTree', src⟩ := outs e' inOut
        obtain ⟨inTree, dst⟩ := incs e m
        obtain rfl := inTree'.unique inTree sameId
        rw [src, dst, beq_self_eq_true] at apart
        cases apart
      · simpa using fresh
    · intro fresh
      right
      simpa using fresh
  · rw [if_neg both]
    refine ⟨fun m => ⟨m, ?_⟩, And.left⟩
    have none : out = [] := by
      by_contra some
      refine both ?_
      have more : inc ≠ [] := List.ne_nil_of_mem m
      simp [some, more]
    simp [none]

/-- Dropping the twins of self-loops leaves each edge once. -/
theorem once_of_dropped {out inc kept : List (Edge Cid)}
    (outOnce : (out.map Edge.id).Nodup) (incOnce : (inc.map Edge.id).Nodup)
    (sub : kept.Sublist inc) (fresh : ∀ e ∈ kept, e.id ∉ out.map Edge.id) :
    ((out ++ kept).map Edge.id).Nodup := by
  rw [List.map_append, List.nodup_append]
  refine ⟨outOnce, incOnce.sublist (sub.map _), ?_⟩
  intro a inOut b inKept same
  obtain ⟨e, m, rfl⟩ := List.mem_map.mp inKept
  exact fresh e m (same ▸ inOut)

theorem dropTwins_sublist (out inc : List (Edge Cid)) :
    (if !inc.isEmpty && !out.isEmpty then
        inc.filter fun e => !(e.src == e.dst && (out.map Edge.id).contains e.id)
      else inc).Sublist inc := by
  split
  · exact List.filter_sublist
  · exact List.Sublist.refl _

/-- Joined with the outgoing edges, the incoming ones lose nothing to the filter. -/
theorem mem_joined {n : NodeId} {out inc kept : List (Edge Cid)}
    (outs : ∀ e ∈ out, InTree s edges e ∧ e.src = n)
    (incs : ∀ e ∈ inc, InTree s edges e ∧ e.dst = n)
    (keeps : ∀ e, e ∈ kept ↔ e ∈ inc ∧ e.id ∉ out.map Edge.id) (e : Edge Cid) :
    e ∈ out ++ kept ↔ e ∈ out ∨ e ∈ inc := by
  rw [List.mem_append, keeps]
  constructor
  · rintro (inOut | ⟨inInc, -⟩)
    · exact Or.inl inOut
    · exact Or.inr inInc
  · rintro (inOut | inInc)
    · exact Or.inl inOut
    · by_cases shown : e.id ∈ out.map Edge.id
      · obtain ⟨e', inOut, sameId⟩ := List.mem_map.mp shown
        have same : e' = e := (outs e' inOut).1.unique (incs e inInc).1 sameId
        exact Or.inl (same ▸ inOut)
      · exact Or.inr ⟨inInc, shown⟩

/-- What `buildHit` makes of the reads of both directions. -/
theorem shows_of_loaded {q : Query Cid} {n : Node Cid} {outgoing incoming : List (Edge Cid)}
    {idx : IndexSet Cid} {hit : QueryHit Cid}
    (out : Lists s edges (fun e => e.src = n.id) outgoing)
    (inc : Lists s edges (fun e => e.dst = n.id) incoming)
    (loadOut : loadOutgoing s (some idx) n.id q.withOutgoing q.adjacencyCap =
      .ok ((outgoing.filter fun e => q.withOutgoing.contains e.etype).take q.adjacencyCap,
        decide (q.adjacencyCap < (outgoing.filter fun e => q.withOutgoing.contains e.etype).length)))
    (loadIn : loadIncoming s (some idx) n.id q.withIncoming q.adjacencyCap =
      .ok ((incoming.filter fun e => q.withIncoming.contains e.etype).take q.adjacencyCap,
        decide (q.adjacencyCap < (incoming.filter fun e => q.withIncoming.contains e.etype).length)))
    (built : q.buildHit s (some idx) n = .ok hit) : Shows q outgoing incoming hit := by
  unfold Query.buildHit at built
  rw [loadOut, loadIn] at built
  have sameHit := (Except.ok.inj built).symm
  have fromOut : ∀ e ∈ (outgoing.filter fun e => q.withOutgoing.contains e.etype).take
      q.adjacencyCap, InTree s edges e ∧ e.src = n.id := fun e m =>
    (out.exact e).mp (List.mem_of_mem_filter (List.mem_of_mem_take m))
  have fromIn : ∀ e ∈ (incoming.filter fun e => q.withIncoming.contains e.etype).take
      q.adjacencyCap, InTree s edges e ∧ e.dst = n.id := fun e m =>
    (inc.exact e).mp (List.mem_of_mem_filter (List.mem_of_mem_take m))
  have sub : ∀ (l : List (Edge Cid)) (p : Edge Cid → Bool), (l.map Edge.id).Nodup →
      (((l.filter p).take q.adjacencyCap).map Edge.id).Nodup := fun l p nodup =>
    nodup.sublist (((List.take_sublist _ _).trans List.filter_sublist).map _)
  have kept := mem_dropTwins fromOut fromIn
  have joined := mem_joined fromOut fromIn kept
  have flag : hit.edgesTruncated = true ↔
      q.adjacencyCap < (outgoing.filter fun e => q.withOutgoing.contains e.etype).length ∨
        q.adjacencyCap < (incoming.filter fun e => q.withIncoming.contains e.etype).length := by
    rw [sameHit]
    simp
  constructor
  · rw [sameHit]
  · rw [sameHit]
    exact once_of_dropped (sub _ _ out.once) (sub _ _ inc.once)
      (dropTwins_sublist _ _) fun e m => ((kept e).mp m).2
  · rw [sameHit]
    exact joined
  · exact flag
  · intro unset e
    -- nothing was cut off, so each prefix is the whole list
    have short : ¬ _ := fun long => Bool.false_ne_true (unset.symm.trans (flag.mpr long))
    rw [not_or, not_lt, not_lt] at short
    have both := joined e
    rw [List.take_of_length_le short.1, List.take_of_length_le short.2, List.mem_filter,
      List.mem_filter] at both
    subst sameHit
    refine Iff.trans (iff_of_eq ?_) both
    rw [List.take_of_length_le short.1, List.take_of_length_le short.2]

/-! ### Where hits come from -/

theorem node_of_buildHit {q : Query Cid} {indexes : Option (IndexSet Cid)} {n : Node Cid}
    {hit : QueryHit Cid} (built : q.buildHit s indexes n = .ok hit) : hit.node = n := by
  unfold Query.buildHit at built
  obtain ⟨out, -, built⟩ := Exec.bind_eq_ok.mp built
  obtain ⟨inc, -, built⟩ := Exec.bind_eq_ok.mp built
  cases built
  rfl

theorem buildHit_of_scan {q : Query Cid} {indexes : Option (IndexSet Cid)} {limit : Option Nat}
    {keep : Node Cid → Bool} (cids : List Cid) {found : Nat} {hits : List (QueryHit Cid)}
    (scanned : Query.scan s limit keep (q.buildHit s indexes) found cids = .ok hits) :
    ∀ hit ∈ hits, q.buildHit s indexes hit.node = .ok hit := by
  induction cids generalizing found hits with
  | nil =>
      cases scanned
      simp
  | cons cid cids ih =>
      obtain ⟨n, -, scanned⟩ := Exec.bind_eq_ok.mp scanned
      by_cases kept : keep n = true
      · rw [if_pos kept] at scanned
        obtain ⟨h, built, scanned⟩ := Exec.bind_eq_ok.mp scanned
        have own : q.buildHit s indexes h.node = .ok h := by rw [node_of_buildHit built, built]
        by_cases last : limit.any (fun n => decide (n ≤ found + 1)) = true
        · rw [if_pos last] at scanned
          cases scanned
          intro hit m
          cases List.mem_singleton.mp m
          exact own
        · rw [if_neg last] at scanned
          obtain ⟨hs, rest, scanned⟩ := Exec.bind_eq_ok.mp scanned
          cases scanned
          intro hit m
          rcases List.mem_cons.mp m with rfl | later
          · exact own
          · exact ih rest hit later
      · rw [if_neg kept] at scanned
        exact ih scanned

theorem buildHit_of_indexed {q : Query Cid} {r : ReadonlyRepo Cid} {idx : IndexSet Cid}
    {label prop : String} {value : Ipld Cid} {hits : List (QueryHit Cid)}
    (executed : Query.indexed s q r idx label prop value = .ok hits) :
    ∀ hit ∈ hits, q.buildHit s (some idx) hit.node = .ok hit := by
  have none_of : ∀ hs : List (QueryHit Cid),
      (.ok [] : Except (Error Cid) (List (QueryHit Cid))) = .ok hs →
        ∀ hit ∈ hs, q.buildHit s (some idx) hit.node = .ok hit := by
    rintro hs ⟨⟩
    simp
  unfold Query.indexed at executed
  split at executed
  · exact none_of hits executed
  · obtain ⟨key, -, executed⟩ := Exec.bind_eq_ok.mp executed
    obtain ⟨found, -, executed⟩ := Exec.bind_eq_ok.mp executed
    cases found with
    | none => exact none_of hits executed
    | some nodeCid =>
        obtain ⟨n, -, executed⟩ := Exec.bind_eq_ok.mp executed
        change (if _ then _ else _) = _ at executed
        split at executed
        · obtain ⟨h, built, executed⟩ := Exec.bind_eq_ok.mp executed
          cases executed
          intro hit m
          cases List.mem_singleton.mp m
          rw [node_of_buildHit built, built]
        · exact none_of hits executed

/-- Whichever way a query is answered, its hits are built by `buildHit`. -/
theorem buildHit_of_execute {q : Query Cid} {r : ReadonlyRepo Cid} {commit : Commit Cid}
    {idx : IndexSet Cid} {hits : List (QueryHit Cid)} (head : r.commit = some commit)
    (indexes : indexesOf s commit = .ok (some idx)) (executed : q.execute s r = .ok hits) :
    ∀ hit ∈ hits, q.buildHit s (some idx) hit.node = .ok hit := by
  unfold Query.execute at executed
  rw [head] at executed
  simp only [indexes] at executed
  have scanned : ∀ keep es, Query.scan s q.limit keep (q.buildHit s (some idx)) 0 es = .ok hits →
      ∀ hit ∈ hits, q.buildHit s (some idx) hit.node = .ok hit := fun keep es ran =>
    buildHit_of_scan es ran
  have fellBack : q.fallback s r commit (some idx) = .ok hits →
      ∀ hit ∈ hits, q.buildHit s (some idx) hit.node = .ok hit := by
    intro ran
    obtain ⟨es, -, ran⟩ := Exec.bind_eq_ok.mp ran
    exact scanned _ _ ran
  cases onLabel : q.label with
  | none =>
      rw [onLabel] at executed
      exact fellBack executed
  | some label =>
      rw [onLabel] at executed
      cases onProp : q.propFilter with
      | none =>
          rw [onProp] at executed
          change Query.labelled s q r idx label = .ok hits at executed
          unfold Query.labelled at executed
          split at executed
          · cases executed
            simp
          · obtain ⟨es, -, ran⟩ := Exec.bind_eq_ok.mp executed
            exact scanned _ _ ran
      | some f =>
          rw [onProp] at executed
          change Query.indexed s q r idx label f.1 f.2 = .ok hits at executed
          exact buildHit_of_indexed executed

end Hits

/-! ## Adjacency is exact -/

/-- **The adjacency indexes are exact.**  For each node there is one list of its outgoing
and one of its incoming edges, each edge of the tree once; every read filters that list,
up to the cap, and every query hit shows what `Shows` says of both. -/
theorem adjacency_exact (H : Hashing Cid) {s₀ s₁ s : Store H} {r : ReadonlyRepo Cid}
    {commit : Commit Cid} {nodes edges : OrdMap ProllyKey Cid} {indexesCid : Cid}
    (head : r.commit = some commit) (nodeTable : NodeTable s₀ commit.nodes nodes)
    (edgeTable : EdgeTable s₀ commit.edges edges)
    (built : (buildIndexSet commit.nodes commit.edges : StoreM H Cid).Returns s₀ indexesCid s₁)
    (le : s₁ ≤ s) (root : commit.indexes = some indexesCid) :
    ∃ outgoing incoming : NodeId → List (Edge Cid), ∀ n,
      Lists s edges (fun e => e.src = n) (outgoing n) ∧
      Lists s edges (fun e => e.dst = n) (incoming n) ∧
      (∀ etypes, r.outgoingEdges s n etypes =
        .ok ((outgoing n).filter fun e => wanted etypes e.etype)) ∧
      (∀ etypes cap, r.incomingEdgesCapped s n etypes cap =
        .ok (((incoming n).filter fun e => wanted etypes e.etype).take cap)) ∧
      ∀ (q : Query Cid) (hits : List (QueryHit Cid)), q.execute s r = .ok hits →
        ∀ hit ∈ hits, hit.node.id = n → Shows q (outgoing n) (incoming n) hit := by
  obtain ⟨nodeRows, nodesRead, -⟩ := nodeTable.rows
  obtain ⟨edgeRows, edgesRead, filed⟩ := edgeTable.rows
  obtain ⟨rfl, le₁, stored⟩ :=
    (buildIndexSet_succeeds nodeTable.tree edgeTable.tree nodesRead edgesRead).of_returns built
  have le₀ : s₀ ≤ s := le₁.trans le
  have reads := edgesRead.mono le₀
  have isIndexed : Indexed s commit nodeRows edgeRows (contentsOf H nodeRows edgeRows) :=
    ⟨root, stored.mono le, covers_contentsOf edgeRows nodesRead.ascending⟩
  have outs : ∀ n, ∃ all, Lists s edges (fun e => e.src = n) all ∧
      Behind AdjacencyEntry.label AdjacencyEntry.edge s (outgoingEntries edgeRows n) all :=
    fun n => exists_lists (fun r => ⟨r.object.etype, r.cid⟩) (fun _ => rfl)
      (fun _ => rfl) reads filed (outgoingEntries_perm edgeRows n)
  have incs : ∀ n, ∃ all, Lists s edges (fun e => e.dst = n) all ∧
      Behind IncomingAdjacencyEntry.label IncomingAdjacencyEntry.edge s
        (incomingEntries edgeRows n) all :=
    fun n => exists_lists (fun r => ⟨r.object.etype, r.object.src, r.cid⟩)
      (fun _ => rfl) (fun _ => rfl) reads filed
      (incomingEntries_perm edgeRows n)
  choose outgoing listsOut behindOut using outs
  choose incoming listsIn behindIn using incs
  refine ⟨outgoing, incoming, fun n => ⟨listsOut n, listsIn n, fun etypes => ?_,
    fun etypes cap => ?_, fun q hits executed hit m at_n => ?_⟩⟩
  · exact outgoingEdges_behind head isIndexed (behindOut n) etypes
  · exact incomingEdgesCapped_behind head isIndexed (behindIn n) etypes cap
  · subst at_n
    exact shows_of_loaded (listsOut _) (listsIn _)
      (loadOutgoing_behind isIndexed (behindOut _) q.withOutgoing q.adjacencyCap)
      (loadIncoming_behind isIndexed (behindIn _) q.withIncoming q.adjacencyCap)
      (buildHit_of_execute head isIndexed.indexesOf executed hit m)

/-! ### A node with a loop -/

def loopCommit (nodes edges indexes : ℕ) : Commit ℕ where
  changeId := 0
  nodes := nodes
  edges := edges
  schema := edges
  indexes := some indexes
  author := ""
  time := 0
  message := ""

def loopNode : Node ℕ := { id := 1, ntype := "Person" }

def toOther : Edge ℕ := { id := 1, etype := "knows", src := 1, dst := 2 }

def toItself : Edge ℕ := { id := 2, etype := "likes", src := 1, dst := 1 }

/-- One node with an edge to another node and one to itself, indexed from scratch. -/
def looped : StoreM cuttingHashing (ReadonlyRepo ℕ) := do
  let node ← putObject loopNode
  let other ← putObject toOther
  let itself ← putObject toItself
  let nodes ← buildTree [(1, node)]
  let edges ← buildTree [(1, other), (2, itself)]
  let indexes ← buildIndexSet nodes edges
  return {
    opId := 0
    op := { view := 0, author := "", time := 0, description := "" }
    view := {}
    commit := some (loopCommit nodes edges indexes) }

/-- Both labels in both directions, at most one edge in each. -/
def oneEachWay : Query ℕ :=
  { label := some "Person", withOutgoing := ["knows", "likes"], withIncoming := ["knows", "likes"],
    adjacencyCap := 1 }

/-- The hit has both edges of the tree, and says that some were left out. -/
def allShownTruncated (r : ReadonlyRepo ℕ) (s : Store cuttingHashing) : Bool :=
  r.commit.any fun commit => Exec.okAnd (entries s commit.edges) fun es =>
    Exec.okAnd (oneEachWay.execute s r) fun hits =>
      decide (es.map Prod.fst = [1, 2]) && decide (hits.map QueryHit.edgesTruncated = [true]) &&
        decide (hits.map (fun h => (h.edges ++ h.incomingEdges).map Edge.id) = [[1, 2]])

theorem looped_shown : ∃ r s, looped.Returns {} r s ∧ allShownTruncated r s = true := by
  have passed : looped.check {} allShownTruncated = true := by decide +kernel
  exact Exec.exists_of_check passed

/-- The flag is set, and yet every edge of the tree is shown. -/
theorem truncated_but_complete :
    ∃ r s commit es hits, looped.Returns {} r s ∧ r.commit = some commit ∧
      entries s commit.edges = .ok es ∧ es.map Prod.fst = [1, 2] ∧
      oneEachWay.execute s r = .ok hits ∧ hits.map QueryHit.edgesTruncated = [true] ∧
      hits.map (fun h => (h.edges ++ h.incomingEdges).map Edge.id) = [[1, 2]] := by
  obtain ⟨r, s, ran, passed⟩ := looped_shown
  obtain ⟨commit, head, passed⟩ := (Option.any_eq_true _ _).mp passed
  obtain ⟨es, drained, passed⟩ := Exec.exists_of_okAnd passed
  obtain ⟨hits, executed, passed⟩ := Exec.exists_of_okAnd passed
  rw [Bool.and_eq_true, Bool.and_eq_true, decide_eq_true_eq, decide_eq_true_eq,
    decide_eq_true_eq] at passed
  exact ⟨r, s, commit, es, hits, ran, head, drained, passed.1.1, executed, passed.1.2, passed.2⟩

theorem adjacency_exact_looped :
    ∃ r s edges outgoing, looped.Returns {} r s ∧ toItself ∈ outgoing ∧
      Lists s edges (fun e => e.src = 1) outgoing ∧
      r.outgoingEdges s 1 none = .ok outgoing := by
  obtain ⟨r, s, ran, -⟩ := looped_shown
  have run := ran
  simp only [looped, Exec.returns_bind, Exec.returns_pure] at run
  obtain ⟨c₀, s₁, put₀, c₁, s₂, put₁, c₂, s₃, put₂, nodes, s₄, nodesBuilt, edges, s₅, edgesBuilt,
    idx, s, built, same, rfl⟩ := run
  obtain ⟨-, -, loads₀⟩ := putObject_returns put₀
  obtain ⟨-, le₂, loads₁⟩ := putObject_returns put₁
  obtain ⟨-, le₃, loads₂⟩ := putObject_returns put₂
  let nodeMap : OrdMap ProllyKey ℕ := ⟨[(1, c₀)], by simp [Entries.Ascending]⟩
  let edgeMap : OrdMap ProllyKey ℕ := ⟨[(1, c₁), (2, c₂)], by simp [Entries.Ascending]⟩
  obtain ⟨-, le₄, nodeTree⟩ := (buildTree_succeeds nodeMap s₃).of_returns nodesBuilt
  obtain ⟨-, le₅, edgeTree⟩ := (buildTree_succeeds edgeMap s₄).of_returns edgesBuilt
  have le₆ : s₅ ≤ s := (buildIndexSet_grows nodes edges).of_returns built
  have loads₀' := loads₀.mono (le₂.trans (le₃.trans (le₄.trans le₅)))
  have loads₁' := loads₁.mono (le₃.trans (le₄.trans le₅))
  have loads₂' := loads₂.mono (le₄.trans le₅)
  have nodeTable : NodeTable s₅ nodes nodeMap := by
    refine ⟨nodeTree.mono le₅, fun k cid found => ?_⟩
    cases List.mem_singleton.mp (nodeMap.get?_eq_some_iff.mp found)
    exact ⟨loopNode, loads₀', rfl⟩
  have edgeTable : EdgeTable s₅ edges edgeMap := by
    refine ⟨edgeTree, fun k cid found => ?_⟩
    rcases List.mem_cons.mp (edgeMap.get?_eq_some_iff.mp found) with h | h
    · cases h
      exact ⟨toOther, loads₁', rfl⟩
    · cases List.mem_singleton.mp h
      exact ⟨toItself, loads₂', rfl⟩
  have head : r.commit = some (loopCommit nodes edges idx) := by rw [← same]
  obtain ⟨outgoing, incoming, each⟩ :=
    adjacency_exact cuttingHashing head nodeTable edgeTable built (le_refl s) rfl
  obtain ⟨lists, -, reads, -⟩ := each 1
  refine ⟨r, s, edgeMap, outgoing 1, ran, ?_, lists, ?_⟩
  · exact (lists.exact toItself).mpr ⟨⟨c₂, rfl, loads₂'.mono le₆⟩, rfl⟩
  · rw [reads none]
    exact congrArg Except.ok (List.filter_eq_self.mpr fun _ _ => rfl)

end Mnem.Index
