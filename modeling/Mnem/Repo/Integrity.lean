/-
# Repo.Integrity — every edge joins nodes of its commit

A graph is closed when both endpoints of each of its edges are nodes.  Unions
of closed graphs are closed.  A transaction checks the edges it stages, and
`remove_node` removes the edges of the base at the node; but of those that
point at it, it finds no more than `defaultAdjacencyCap`.  A run keeps all
graphs closed as long as no removed node has more (`closed_of_fewIncoming`),
and a node with one more shows that it need not (`incoming_past_cap`).
-/
import Mnem.Repo.CommitReturns
import Mnem.Repo.Soundness

namespace Mnem.Repo

open Theory Theory.Groups Prolly Index

set_option autoImplicit false
set_option linter.unusedSectionVars false

variable {Cid : Type} {H : Hashing Cid} [LinearOrder Cid]

/-! ## Closed graphs -/

/-- Both endpoints of every edge are nodes. -/
def Graph.Closed (H : Hashing Cid) (g : Graph Cid) : Prop :=
  ∀ k (e : Edge Cid), g.edges.get? k = some (H.cidOf (Object.toBlock e)) →
    (g.nodes.get? e.src).isSome ∧ (g.nodes.get? e.dst).isSome

theorem closed_empty : Graph.Closed H {} := nofun

theorem isSome_unionMap {maps : List (OrdMap ProllyKey Cid)} {m : OrdMap ProllyKey Cid}
    (member : m ∈ maps) {k : ProllyKey} (found : (m.get? k).isSome) :
    ((unionMap maps).get? k).isSome := by
  rw [Option.isSome_iff_ne_none]
  intro absent
  rw [get?_unionMap_eq_none.mp absent m member] at found
  cases found

/-- An edge of a union is an edge of one of the graphs, whose nodes the union has. -/
theorem mergesKeep_closed : MergesKeep (Graph.Closed H) := by
  intro held closed k e found
  obtain ⟨⟨m, member, here⟩, -⟩ := get?_unionMap.mp found
  obtain ⟨h, inHeld, rfl⟩ := List.mem_map.mp member
  obtain ⟨src, dst⟩ := closed h inHeld k e here
  have inMaps : h.2.nodes ∈ held.map fun h => h.2.nodes := List.mem_map_of_mem inHeld
  exact ⟨isSome_unionMap inMaps src, isSome_unionMap inMaps dst⟩

/-! ## Edges that point at a node -/

/-- Whether the block of an edge entry is an edge to the node. -/
def pointsAt (s : Store H) (id : NodeId) (entry : ProllyKey × Cid) : Bool :=
  match s.decodeFromStore (Edge Cid) entry.2 with
  | .ok edge => edge.dst == id
  | .error _ => false

/-- How many edges of the head commit point at a node. -/
def ReadonlyRepo.incomingCount (s : Store H) (r : ReadonlyRepo Cid) (id : NodeId) : Nat :=
  match r.commit with
  | none => 0
  | some commit =>
      match entries s commit.edges with
      | .ok es => es.countP (pointsAt s id)
      | .error _ => 0

section Count

variable {s : Store H} {r : ReadonlyRepo Cid} {commit : Commit Cid} {g : Graph Cid}

theorem countP_pointsAt {es : List (ProllyKey × Cid)} {rows : List (Row Cid (Edge Cid))}
    (reads : ReadsRows s es rows) (id : NodeId) :
    es.countP (pointsAt s id) = (incomingTo rows id).length := by
  rw [← reads.entries, List.countP_map, incomingTo, ← List.countP_eq_length_filter]
  refine List.countP_congr fun row member => ?_
  have decoded : s.decodeFromStore (Edge Cid) row.cid = .ok row.object := reads.loads row member
  change pointsAt s id (row.key, row.cid) = true ↔ _
  simp only [pointsAt, decoded, beq_iff_eq, decide_eq_true_eq]

theorem incomingCount_of_stands (head : r.commit = some commit) (stands : Stands s commit g)
    {rows : List (Row Cid (Edge Cid))} (reads : ReadsRows s g.edges.entries rows) (id : NodeId) :
    r.incomingCount s id = (incomingTo rows id).length := by
  unfold ReadonlyRepo.incomingCount
  simp only [head, entries_of_isTree stands.edges.tree]
  exact countP_pointsAt reads id

theorem incomingCount_mono {s' : Store H} (holds : HeadHolds s r.commit g) (le : s ≤ s')
    (id : NodeId) : r.incomingCount s' id = r.incomingCount s id := by
  cases head : r.commit with
  | none =>
      unfold ReadonlyRepo.incomingCount
      rw [head]
  | some commit =>
      rw [head] at holds
      have stands : Stands s commit g := holds
      obtain ⟨rows, reads, -⟩ := stands.edges.rows
      rw [incomingCount_of_stands head (stands.mono le) (reads.mono le),
        incomingCount_of_stands head stands reads]

/-- The cascade finds every edge of the base at a node, if few point at it. -/
theorem mem_cascade (tx : Transaction Cid) (holds : HeadHolds s tx.base.commit g) {id : NodeId}
    (few : tx.base.incomingCount s id ≤ defaultAdjacencyCap) {k : EdgeId} {e : Edge Cid}
    (found : g.edges.get? k = some (H.cidOf (Object.toBlock e))) (ends : e.src = id ∨ e.dst = id) :
    k ∈ tx.cascade s id := by
  cases head : tx.base.commit with
  | none =>
      rw [head] at holds
      obtain rfl : g = {} := holds
      cases found
  | some commit =>
      rw [head] at holds
      have stands : Stands s commit g := holds
      obtain ⟨e', loads, rfl⟩ := stands.edges.filed k _ found
      obtain rfl := Store.toBlock_injective (H.cidOf_injective loads.cidOf)
      obtain ⟨nodes, edges, c, -, edgesRead, isIndexed⟩ := stands.indexed
      have inRows : (⟨e'.id, H.cidOf (Object.toBlock e'), e'⟩ : Row Cid (Edge Cid)) ∈ edges :=
        edgesRead.mem_iff.mpr ⟨g.edges.get?_eq_some_iff.mp found, loads⟩
      rcases ends with src | dst
      · obtain ⟨out, ran, all⟩ := outgoingEdges_of_indexed head isIndexed edgesRead id
        exact tx.mem_cascade_of_outgoing ran (all _ inRows src)
      · obtain ⟨out, ran, all⟩ := incomingEdges_of_indexed head isIndexed edgesRead id
        rw [incomingCount_of_stands head stands edgesRead] at few
        exact tx.mem_cascade_of_incoming ran (all few _ inRows dst)

end Count

/-! ## What a transaction keeps -/

namespace Transaction

/-- Every edge of the base at a removed node is removed, or overwritten. -/
def Severed (g : Graph Cid) (H : Hashing Cid) (tx : Transaction Cid) : Prop :=
  ∀ id ∈ tx.removedNodes, ∀ k (e : Edge Cid),
    g.edges.get? k = some (H.cidOf (Object.toBlock e)) → e.src = id ∨ e.dst = id →
      k ∈ tx.removedEdges ∨ (tx.newEdges.get? k).isSome

section Keep

variable {s s' : Store H} {tx tx' : Transaction Cid} {g : Graph Cid}

theorem severed_new (base : ReadonlyRepo Cid) : Severed g H (new base) := nofun

/-- Removing edges leaves no edge at a removed node. -/
theorem Severed.removeEdges (severed : Severed g H tx) (ids : List EdgeId) :
    Severed g H (tx.removeEdges ids) := by
  obtain ⟨newEdges, removedEdges, eq, added, removed⟩ := tx.removeEdges_eq ids
  rw [eq]
  intro id m k e found ends
  change k ∈ removedEdges ∨ (newEdges.get? k).isSome
  rw [removed, added]
  by_cases now : k ∈ ids
  · exact .inl (.inl now)
  · rw [if_neg now]
    rcases severed id m k e found ends with before | full
    · exact .inl (.inr before)
    · exact .inr full

/-- Removing a node removes the edges of the base at it. -/
theorem Severed.removeNode (severed : Severed g H tx) (holds : HeadHolds s tx.base.commit g)
    {id : NodeId} (few : tx.base.incomingCount s id ≤ defaultAdjacencyCap) :
    Severed g H (tx.removeNode s id) := by
  rw [removeNode_eq]
  obtain ⟨newEdges, removedEdges, eq, added, removed⟩ :=
    (tx.unstageNode id).removeEdges_eq (tx.cascade s id)
  rw [eq]
  intro id' m k e found ends
  change k ∈ removedEdges ∨ (newEdges.get? k).isSome
  rw [removed, added]
  by_cases now : k ∈ tx.cascade s id
  · exact .inl (.inl now)
  · rw [if_neg now]
    rcases OrdSet.mem_add.mp m with rfl | earlier
    · exact absurd (mem_cascade tx holds few found ends) now
    · rcases severed id' earlier k e found ends with before | full
      · exact .inl (.inr before)
      · exact .inr full

/-- A call keeps the base's edges at removed nodes out, if it removes no node with many. -/
theorem Severed.change {call : Call Cid} (severed : Severed g H tx)
    (holds : HeadHolds s tx.base.commit g)
    (few : ∀ id, call = .removeNode id → tx.base.incomingCount s id ≤ defaultAdjacencyCap)
    (change : Change s s' tx call tx') : Severed g H tx' := by
  cases change with
  | node _ _ => exact fun id m => severed id (OrdSet.mem_remove.mp m).1
  | removal id => exact severed.removeNode holds (few id rfl)
  | @edge edge cid _ =>
      intro id m k e found ends
      change k ∈ tx.removedEdges.remove edge.id ∨ ((tx.newEdges.insert edge.id cid).get? k).isSome
      rw [OrdMap.get?_insert, OrdSet.mem_remove]
      by_cases here : edge.id = k
      · exact .inr (by rw [if_pos here]; rfl)
      · rw [if_neg here]
        rcases severed id m k e found ends with before | full
        · exact .inl ⟨before, Ne.symm here⟩
        · exact .inr full
  | edgeRemoval id => exact severed.removeEdges [id]
  | rest _ same =>
      unfold Severed
      rw [same.removedNodes, same.removedEdges, same.newEdges]
      exact severed
  | _ => exact severed

theorem lookupNode_of_holds {r : ReadonlyRepo Cid} (holds : HeadHolds s r.commit g) (id : NodeId) :
    ∃ found, r.lookupNode s id = .ok found ∧ (found.isSome ↔ (g.nodes.get? id).isSome) := by
  unfold ReadonlyRepo.lookupNode
  cases head : r.commit with
  | none =>
      rw [head] at holds
      obtain rfl : g = {} := holds
      exact ⟨none, rfl, Iff.rfl⟩
  | some commit =>
      rw [head] at holds
      exact bucketAt_table (Stands.nodes holds) id

/-- What passes for an endpoint. -/
theorem checkEndpoint_iff (holds : HeadHolds s tx.base.commit g) {id : NodeId} {role : String} :
    tx.checkEndpoint s id role = .ok () ↔
      id ∉ tx.removedNodes ∧ ((tx.newNodes.get? id).isSome ∨ (g.nodes.get? id).isSome) := by
  obtain ⟨found, looked, isNode⟩ := lookupNode_of_holds holds id
  have check : ∀ b : Bool, (if b = true then .error (.danglingEdge id role) else .ok () :
      Except (Error Cid) Unit) = .ok () ↔ b = false := by
    intro b
    cases b <;> simp
  unfold checkEndpoint
  rw [← isNode, ← OrdSet.not_contains_iff, looked]
  change _ ↔ _ ∧ (tx.newNodes.contains id = true ∨ _)
  by_cases removed : tx.removedNodes.contains id = true
  · rw [if_pos removed]
    refine (check _).trans ?_
    simp [removed]
  · rw [if_neg removed]
    refine (check _).trans ?_
    cases tx.newNodes.contains id <;> simp [removed]

/-- An endpoint that passes the check is a node of the commit. -/
theorem isSome_of_checkEndpoint (holds : HeadHolds s tx.base.commit g) {id : NodeId}
    {role : String} (passed : tx.checkEndpoint s id role = .ok ()) :
    ((tx.committed H g).nodes.get? id).isSome := by
  obtain ⟨stays, isNode⟩ := (checkEndpoint_iff holds).mp passed
  change ((rebuiltEntries g.nodes.entries tx.newNodes tx.removedNodes).get? id).isSome
  rw [get?_rebuiltEntries, if_neg stays, Option.isSome_or]
  exact Bool.or_eq_true_iff.mpr isNode

/-- What a transaction commits onto a closed graph is closed. -/
theorem closed_committed (holds : HeadHolds s tx.base.commit g) (staged : Staged s tx)
    (closed : g.Closed H) (severed : Severed g H tx) (checked : tx.checkEdges s = .ok ()) :
    (tx.committed H g).Closed H := by
  intro k e found
  change (rebuiltEntries g.edges.entries tx.newEdges tx.removedEdges).get? k = _ at found
  rw [get?_rebuiltEntries, Option.or_eq_some_iff] at found
  rcases found with added | ⟨notNew, stays⟩
  · -- a staged edge was checked
    obtain ⟨e', loads, -⟩ := staged.edges k _ added
    obtain rfl := Store.toBlock_injective (H.cidOf_injective loads.cidOf)
    have inValues : H.cidOf (Object.toBlock e') ∈ tx.newEdges.values :=
      List.mem_map_of_mem (tx.newEdges.get?_eq_some_iff.mp added)
    have passed := Exec.forM_eq_ok.mp checked _ inValues
    obtain ⟨e'', decoded, passed⟩ := Exec.bind_eq_ok.mp passed
    obtain rfl := loads.unique decoded
    obtain ⟨_, src, dst⟩ := Exec.bind_eq_ok.mp passed
    exact ⟨isSome_of_checkEndpoint holds src, isSome_of_checkEndpoint holds dst⟩
  · -- an edge of the base that stays has lost neither endpoint
    split at stays
    · cases stays
    · rename_i notRemoved
      have remains : ∀ id, e.src = id ∨ e.dst = id → (g.nodes.get? id).isSome →
          ((tx.committed H g).nodes.get? id).isSome := by
        intro id ends isNode
        change ((rebuiltEntries g.nodes.entries tx.newNodes tx.removedNodes).get? id).isSome
        rw [get?_rebuiltEntries]
        by_cases removed : id ∈ tx.removedNodes
        · rcases severed id removed k e stays ends with gone | full
          · exact absurd gone notRemoved
          · rw [notNew] at full
            cases full
        · rw [if_neg removed]
          cases tx.newNodes.get? id with
          | some cid => rfl
          | none => exact isNode
      obtain ⟨src, dst⟩ := closed k e stays
      exact ⟨remains _ (.inl rfl) src, remains _ (.inr rfl) dst⟩

/-- A transaction that removes no node with many incoming edges keeps a closed graph closed. -/
theorem closed_of_staged {r : ReadonlyRepo Cid} {calls : List (Call Cid)}
    (holds : HeadHolds s r.commit g) (closed : g.Closed H)
    (few : ∀ id, .removeNode id ∈ calls → r.incomingCount s id ≤ defaultAdjacencyCap)
    (checked : ((new r).stage s calls).1.checkEdges ((new r).stage s calls).2 = .ok ()) :
    (((new r).stage s calls).1.committed H g).Closed H := by
  have base := base_stage s (new r) calls
  have severed : s ≤ ((new r).stage s calls).2 ∧ ((new r).stage s calls).1.base = r ∧
      Severed g H ((new r).stage s calls).1 := by
    refine stage_keeps (I := fun s' tx => s ≤ s' ∧ tx.base = r ∧ Severed g H tx) calls ?_
      ⟨le_refl s, rfl, severed_new r⟩
    rintro s' tx call s'' tx' inCalls ⟨le, rfl, severed⟩ le' change
    refine ⟨le.trans le', change.base, severed.change (holds.mono le) (fun id at_call => ?_) change⟩
    rw [incomingCount_mono holds le]
    exact few id (at_call ▸ inCalls)
  have later : HeadHolds ((new r).stage s calls).2 ((new r).stage s calls).1.base.commit g := by
    rw [base]
    exact holds.mono severed.1
  exact closed_committed later ((staged_new s r).stage calls) closed severed.2.2 checked

end Keep

end Transaction

/-! ## Runs -/

/-- Every edge in the edge tree of the head commit is filed under its id, and its endpoints are
in the node tree. -/
def ReadonlyRepo.Intact (s : Store H) (r : ReadonlyRepo Cid) : Prop :=
  ∀ commit, r.commit = some commit → ∃ nodes edges, entries s commit.nodes = .ok nodes ∧
    entries s commit.edges = .ok edges ∧ ∀ entry ∈ edges, ∃ e : Edge Cid, s.Loads entry.2 e ∧
      e.id = entry.1 ∧ e.src ∈ nodes.map Prod.fst ∧ e.dst ∈ nodes.map Prod.fst

theorem Pinned.intact {s : Store H} {r : ReadonlyRepo Cid} {g : Graph Cid}
    (pinned : Pinned (Graph.Closed H) s r g) : r.Intact s := by
  intro commit head
  have closed := pinned.property closed_empty
  have holds := pinned.holds
  rw [head] at holds
  have stands : Stands s commit g := holds
  refine ⟨_, _, entries_of_isTree stands.nodes.tree, entries_of_isTree stands.edges.tree, ?_⟩
  rintro ⟨k, cid⟩ member
  have found := g.edges.get?_eq_some_iff.mpr member
  obtain ⟨e, loads, at_k⟩ := stands.edges.filed k cid found
  rw [← loads.cidOf] at found
  obtain ⟨src, dst⟩ := closed k e found
  exact ⟨e, loads, at_k, g.nodes.mem_keys_iff.mpr src, g.nodes.mem_keys_iff.mpr dst⟩

namespace System

/-- The steps of transactions, ref updates and opens; no position is moved. -/
def Ordinary : Action Cid → Prop
  | .request _ (.updateHeads ..) | .request _ (.switchBranch ..) => False
  | _ => True

/-- No more edges than the cap point at a node that a transaction removes. -/
def FewIncoming (sys : System H) : Action Cid → Prop
  | .request i (.transact calls _) => ∀ r, sys.repos[i]? = some r → ∀ id,
      .removeNode id ∈ calls → r.incomingCount sys.world.store id ≤ defaultAdjacencyCap
  | _ => True

theorem admits_of_fewIncoming {sys : System H} {a : Action Cid} (ordinary : Ordinary a)
    (few : sys.FewIncoming a) : Admits (Graph.Closed H) sys a := by
  cases a with
  | request i request =>
      intro r g held pinned
      cases request with
      | transact calls opts =>
          exact Transaction.closed_of_staged pinned.holds (pinned.property closed_empty)
            (few r held)
      | updateRef name expectedPrev new author now => trivial
      | updateHeads newHead author now => cases ordinary
      | switchBranch newHead branch author now => cases ordinary
  | _ => trivial

/-- **Referential integrity.**  In every run of transactions and merges in which no more edges
than the cap point at the nodes that transactions remove, every operation that was ever a head
can be loaded, and its edges join nodes of its commit; so do those of every repository that is
held, and of the one that opening returns. -/
theorem closed_of_fewIncoming (now : Nat) {actions : List (Action Cid)}
    (ordinary : ∀ a ∈ actions, Ordinary a)
    (few : ∀ before a after, before ++ a :: after = actions →
      ((init now : System H).run before).FewIncoming a) :
    (∀ c ∈ ((init now : System H).run actions).seen, ∃ r,
      ReadonlyRepo.loadAt ((init now : System H).run actions).world.store c = .ok r ∧
        r.Intact ((init now : System H).run actions).world.store) ∧
      (∀ r ∈ ((init now : System H).run actions).repos,
        r.Intact ((init now : System H).run actions).world.store) ∧
      (openRepo : WorldM H _).Succeeds ((init now : System H).run actions).world fun r w =>
        r.Intact w.store := by
  obtain ⟨root, start⟩ := sound_init (H := H) (Graph.Closed H) now
  have sound : Sound (Graph.Closed H) root ((init now : System H).run actions) := by
    refine start.run mergesKeep_closed fun before a after split => ?_
    have inActions : a ∈ actions := by
      rw [← split]
      exact List.mem_append_right _ List.mem_cons_self
    exact admits_of_fewIncoming (ordinary a inActions) (few before a after split)
  refine ⟨fun c member => ?_, fun r member => ?_, ?_⟩
  · obtain ⟨r, g, loaded, -, pinned⟩ := loadAt_of_good (sound.good c member)
    exact ⟨r, loaded, pinned.intact⟩
  · obtain ⟨g, pinned⟩ := sound.repos r member
    exact pinned.intact
  · refine (sound.opens mergesKeep_closed).mono fun r w opened => ?_
    obtain ⟨g, pinned⟩ := opened.pinned
    exact pinned.intact

/-- Checking every held repository. -/
theorem fewIncoming_of_all {sys : System H} {i : Nat} {calls : List (Transaction.Call Cid)}
    {opts : CommitOptions} (passed : (sys.repos.all fun r => calls.all fun call =>
      match call with
      | .removeNode id => decide (r.incomingCount sys.world.store id ≤ defaultAdjacencyCap)
      | _ => true) = true) : sys.FewIncoming (.request i (.transact calls opts)) := by
  intro r held id member
  have each := List.all_eq_true.mp passed r (List.mem_of_getElem? held)
  exact of_decide_eq_true (List.all_eq_true.mp each _ member)

theorem forall_split_cons {C : System H → Action Cid → Prop} {sys : System H} {a : Action Cid}
    {actions : List (Action Cid)} (first : C sys a)
    (rest : ∀ before b after, before ++ b :: after = actions → C ((sys.step a).run before) b) :
    ∀ before b after, before ++ b :: after = a :: actions → C (sys.run before) b
  | [], b, after, split => by
      obtain ⟨rfl, -⟩ := List.cons.inj split
      exact first
  | a' :: before, b, after, split => by
      obtain ⟨rfl, later⟩ := List.cons.inj split
      exact rest before b after later

/-- Two nodes and an edge between them are committed, and one of the nodes is removed. -/
def pairActions : List (Action ℕ) :=
  [.request 0 (.transact [.addNode { id := 1, ntype := "Person" },
      .addNode { id := 2, ntype := "Person" },
      .addEdge { id := 1, etype := "knows", src := 1, dst := 2 }]
      { author := "", message := "pair" }), .advance 0,
    .request 1 (.transact [.removeNode 2] { author := "", message := "remove" }), .advance 0]

theorem closed_of_fewIncoming_pair : (openRepo : WorldM shortHashing _).Succeeds
    ((init 0 : System shortHashing).run pairActions).world fun r w => r.Intact w.store := by
  refine (closed_of_fewIncoming 0 (fun a member => ?_) ?_).2.2
  · simp only [pairActions, List.mem_cons, List.not_mem_nil, or_false] at member
    rcases member with rfl | rfl | rfl | rfl <;> trivial
  · refine forall_split_cons ?_ (forall_split_cons trivial
      (forall_split_cons ?_ (forall_split_cons trivial fun _ _ _ split => by simp at split)))
    · exact fewIncoming_of_all (by decide)
    · exact fewIncoming_of_all (by decide +kernel)

end System

/-! ## More incoming edges than the cap -/

namespace Transaction

section Cap

variable {s s' : Store H} {r : ReadonlyRepo Cid} {tx tx' : Transaction Cid} {g : Graph Cid}

theorem length_incomingEdges_le {dst : NodeId} {out : List (Edge Cid)}
    (ran : r.incomingEdges s dst none = .ok out) : out.length ≤ defaultAdjacencyCap := by
  unfold ReadonlyRepo.incomingEdges ReadonlyRepo.incomingEdgesCapped at ran
  split at ran
  · cases ran
    exact Nat.zero_le _
  · obtain ⟨indexes, -, ran⟩ := Exec.bind_eq_ok.mp ran
    obtain ⟨bucket, -, ran⟩ := Exec.bind_eq_ok.mp ran
    rw [Exec.length_of_mapM ran, List.length_map]
    exact List.length_take_le _ _

theorem outgoingEdges_of_sink (holds : HeadHolds s r.commit g) {id : NodeId}
    (sink : ∀ k (e : Edge Cid), g.edges.get? k = some (H.cidOf (Object.toBlock e)) → e.src ≠ id) :
    r.outgoingEdges s id none = .ok [] := by
  cases head : r.commit with
  | none => simp only [ReadonlyRepo.outgoingEdges, head]
  | some commit =>
      rw [head] at holds
      obtain ⟨nodes, edges, c, -, edgesRead, isIndexed⟩ := Stands.indexed holds
      have nothing : outgoingEntries edges id = [] := by
        refine List.eq_nil_iff_forall_not_mem.mpr fun ae member => ?_
        obtain ⟨row, inRows, at_id, -⟩ := mem_outgoingEntries.mp member
        obtain ⟨inTree, loads⟩ := edgesRead.mem_iff.mp inRows
        refine sink row.key row.object ?_ at_id
        rw [loads.cidOf]
        exact g.edges.get?_eq_some_iff.mpr inTree
      rw [outgoingEdges_eq head isIndexed, nothing]
      rfl

/-- Removing a node first thing stages no edge and no vector. -/
theorem removeNode_new (s : Store H) (r : ReadonlyRepo Cid) (id : NodeId) :
    ((new r).removeNode s id).newEdges.entries = [] ∧
      ((new r).removeNode s id).pendingSparse.entries = [] := by
  obtain ⟨newEdges, removedEdges, eq, added, -⟩ :=
    ((new r).unstageNode id).removeEdges_eq ((new r).cascade s id)
  rw [removeNode_eq, eq]
  refine ⟨OrdMap.entries_eq_nil fun k => ?_, rfl⟩
  change newEdges.get? k = none
  rw [added]
  split <;> rfl

/-- A node without outgoing edges takes no more edges with it than the cap. -/
theorem length_cascade_le (holds : HeadHolds s r.commit g) {id : NodeId}
    (sink : ∀ k (e : Edge Cid), g.edges.get? k = some (H.cidOf (Object.toBlock e)) → e.src ≠ id) :
    ((new r).cascade s id).length ≤ defaultAdjacencyCap := by
  have few : (found (r.incomingEdges s id none)).length ≤ defaultAdjacencyCap := by
    cases ran : r.incomingEdges s id none with
    | error e => exact Nat.zero_le _
    | ok out =>
        change (out.map Edge.id).length ≤ _
        rw [List.length_map]
        exact length_incomingEdges_le ran
  have nothingStaged : ∀ ids, (((new r).unstageNode id).removeEdges ids).stagedIncident s id = [] := by
    intro ids
    obtain ⟨newEdges, removedEdges, eq, added, -⟩ := ((new r).unstageNode id).removeEdges_eq ids
    have nothing : newEdges.entries = [] := OrdMap.entries_eq_nil fun k => by
      rw [added]
      split <;> rfl
    rw [eq]
    unfold stagedIncident
    rw [nothing]
    rfl
  unfold cascade
  dsimp only
  rw [nothingStaged, List.append_nil]
  change (found (r.outgoingEdges s id none) ++ found (r.incomingEdges s id none)).length ≤ _
  rw [outgoingEdges_of_sink holds sink]
  exact few

/-! ### Staging many edges -/

/-- Staging edges touches the two edge maps only, and every edge is staged. -/
theorem stage_addEdges (edges : List (Edge Cid))
    (encodes : ∀ e ∈ edges, H.encodes (Object.toBlock e) = true) (s : Store H)
    (tx : Transaction Cid) :
    ∃ removedEdges, (tx.stage s (edges.map Call.addEdge)).1 = { tx with
      newEdges := tx.newEdges.insertAll (edges.map fun e => (e.id, H.cidOf (Object.toBlock e)))
      removedEdges := removedEdges } := by
  induction edges generalizing s tx with
  | nil => exact ⟨_, rfl⟩
  | cons e edges ih =>
      obtain ⟨s', applied⟩ := exists_apply_addEdge s tx (encodes e List.mem_cons_self)
      obtain ⟨removedEdges, staged⟩ := ih (fun x m => encodes x (List.mem_cons_of_mem _ m)) s'
        (tx.stageEdge e (H.cidOf (Object.toBlock e)))
      refine ⟨removedEdges, ?_⟩
      rw [List.map_cons, stage, applied, staged]
      rfl

end Cap

end Transaction

/-! ### A hub -/

/-- The `i`th of many edges from the first node to the second. -/
def spoke (i : Nat) : Edge Cid := { id := Fin.ofNat _ i, etype := "knows", src := 1, dst := 2 }

def spokes (n : Nat) : List (Edge Cid) := (List.range n).map spoke

/-- Two nodes, and `n` edges from the first to the second. -/
def hubCalls (n : Nat) : List (Transaction.Call Cid) :=
  .addNode { id := 1, ntype := "Person" } :: .addNode { id := 2, ntype := "Person" } ::
    (spokes n).map .addEdge

/-- Commit the hub, then remove the second node. -/
def hubRun (n : Nat) : WorldM H (ReadonlyRepo Cid) := do
  let root ← init 0
  let hub ← root.transact (hubCalls n) { author := "", message := "hub" }
  hub.transact [.removeNode 2] { author := "", message := "remove" }

section Hub

variable {s : Store H} {n : Nat}

theorem nodup_spoke_ids (small : n ≤ 2 ^ 128) :
    ((spokes n : List (Edge Cid)).map Edge.id).Nodup := by
  rw [spokes, List.map_map]
  refine List.Nodup.map_on (fun i iLt j jLt same => ?_) List.nodup_range
  have iSmall := lt_of_lt_of_le (List.mem_range.mp iLt) small
  have jSmall := lt_of_lt_of_le (List.mem_range.mp jLt) small
  have values : i % 2 ^ 128 = j % 2 ^ 128 := congrArg Fin.val same
  rwa [Nat.mod_eq_of_lt iSmall, Nat.mod_eq_of_lt jSmall] at values

/-- The edges of a map are the `n` spokes. -/
def HasSpokes (H : Hashing Cid) (n : Nat) (edges : OrdMap EdgeId Cid) : Prop :=
  ∀ k cid, edges.get? k = some cid ↔
    ∃ i < n, (spoke i : Edge Cid).id = k ∧ H.cidOf (Object.toBlock (spoke i : Edge Cid)) = cid

/-- What the hub's transaction has staged. -/
structure StagedHub (H : Hashing Cid) (n : Nat) (base : ReadonlyRepo Cid) (tx : Transaction Cid) :
    Prop where
  base : tx.base = base
  first : (tx.newNodes.get? 1).isSome
  second : (tx.newNodes.get? 2).isSome
  noRemoval : tx.removedNodes = OrdMap.empty
  edges : HasSpokes H n tx.newEdges
  noSparse : tx.pendingSparse = OrdMap.empty

theorem stagedHub (s : Store H) (base : ReadonlyRepo Cid) (small : n ≤ 2 ^ 128) :
    StagedHub H n base ((Transaction.new base).stage s (hubCalls n)).1 := by
  unfold hubCalls
  obtain ⟨s₁, first⟩ := Transaction.exists_apply_addNode s (Transaction.new base)
    { id := 1, ntype := "Person" } rfl
  rw [Transaction.stage, first]
  dsimp only
  obtain ⟨s₂, second⟩ := Transaction.exists_apply_addNode s₁ _ { id := 2, ntype := "Person" } rfl
  rw [Transaction.stage, second]
  dsimp only
  have encode : ∀ e ∈ (spokes n : List (Edge Cid)), H.encodes (Object.toBlock e) = true := by
    intro e member
    obtain ⟨i, -, rfl⟩ := List.mem_map.mp member
    rfl
  obtain ⟨removedEdges, staged⟩ := Transaction.stage_addEdges (spokes n) encode s₂ _
  rw [staged]
  refine ⟨rfl, ?_, ?_, rfl, fun k cid => ?_, rfl⟩
  · change (((OrdMap.empty.insert 1 _).insert 2 _).get? 1).isSome
    rw [OrdMap.get?_insert, if_neg (by decide), OrdMap.get?_insert, if_pos rfl]
    rfl
  · change ((OrdMap.insert _ 2 _).get? 2).isSome
    rw [OrdMap.get?_insert, if_pos rfl]
    rfl
  · change (OrdMap.empty.insertAll _).get? k = some cid ↔ _
    have nodup : (((spokes n).map fun e : Edge Cid =>
        (e.id, H.cidOf (Object.toBlock e))).reverse.map Prod.fst).Nodup := by
      rw [List.map_reverse, List.nodup_reverse, List.map_map]
      exact nodup_spoke_ids small
    rw [OrdMap.get?_insertAll, show (OrdMap.empty : OrdMap EdgeId Cid).get? k = none from rfl,
      Option.or_none, Entries.get?_eq_some_iff_of_nodup nodup, List.mem_reverse, spokes,
      List.map_map, List.mem_map]
    simp only [List.mem_range, Function.comp_apply, Prod.mk.injEq]

theorem stagedHub_checked {base : ReadonlyRepo Cid} {tx : Transaction Cid}
    (hub : StagedHub H n base tx) (holds : HeadHolds s tx.base.commit {})
    (staged : Transaction.Staged s tx) : tx.checkEdges s = .ok () := by
  refine Exec.forM_eq_ok.mpr fun cid member => ?_
  obtain ⟨⟨k, _⟩, inEntries, rfl⟩ := List.mem_map.mp member
  have found := tx.newEdges.get?_eq_some_iff.mpr inEntries
  obtain ⟨i, -, -, address⟩ := (hub.edges k _).mp found
  obtain ⟨e, loads, -⟩ := staged.edges k _ found
  obtain rfl := Store.toBlock_injective (H.cidOf_injective (address.trans loads.cidOf.symm))
  have decoded : s.decodeFromStore (Edge Cid) _ = .ok (spoke i) := loads
  have stays : ∀ id, id ∉ tx.removedNodes := by
    rw [hub.noRemoval]
    nofun
  refine Exec.bind_eq_ok.mpr ⟨_, decoded, Exec.bind_eq_ok.mpr ⟨(), ?_, ?_⟩⟩
  · exact (Transaction.checkEndpoint_iff holds).mpr ⟨stays _, .inl hub.first⟩
  · exact (Transaction.checkEndpoint_iff holds).mpr ⟨stays _, .inl hub.second⟩

/-- What the hub's commit holds. -/
theorem committed_hub {base : ReadonlyRepo Cid} {tx : Transaction Cid}
    (hub : StagedHub H n base tx) : HasSpokes H n (tx.committed H {}).edges := by
  intro k cid
  change (rebuiltEntries [] tx.newEdges tx.removedEdges).get? k = some cid ↔ _
  rw [← hub.edges]
  have rebuilt := get?_rebuiltEntries OrdMap.empty tx.newEdges tx.removedEdges k
  rw [show (OrdMap.empty : OrdMap ProllyKey Cid).get? k = none from rfl, ite_self, Option.or_none]
    at rebuilt
  rw [← rebuilt]
  rfl

/-- Removing the second node leaves a spoke behind. -/
theorem exists_dangling {r : ReadonlyRepo Cid} {g : Graph Cid} (past : defaultAdjacencyCap < n)
    (small : n ≤ 2 ^ 128) (holds : HeadHolds s r.commit g) (hub : HasSpokes H n g.edges) :
    ∃ i, (((Transaction.new r).removeNode s 2).committed H g).edges.get? (spoke i : Edge Cid).id =
        some (H.cidOf (Object.toBlock (spoke i : Edge Cid))) ∧
      (((Transaction.new r).removeNode s 2).committed H g).nodes.get? 2 = none := by
  have sink : ∀ k (e : Edge Cid), g.edges.get? k = some (H.cidOf (Object.toBlock e)) → e.src ≠ 2 := by
    intro k e found
    obtain ⟨i, -, -, address⟩ := (hub k _).mp found
    obtain rfl := Store.toBlock_injective (H.cidOf_injective address)
    change (1 : NodeId) ≠ 2
    decide
  have short := Transaction.length_cascade_le holds sink
  obtain ⟨id, inSpokes, kept⟩ : ∃ id ∈ (spokes n : List (Edge Cid)).map Edge.id,
      id ∉ (Transaction.new r).cascade s 2 := by
    by_contra all
    push Not at all
    have subset := (List.subperm_of_subset (nodup_spoke_ids small) all).length_le
    rw [List.length_map, spokes, List.length_map, List.length_range] at subset
    omega
  obtain ⟨e, member, rfl⟩ := List.mem_map.mp inSpokes
  obtain ⟨i, inRange, rfl⟩ := List.mem_map.mp member
  obtain ⟨newEdges, removedEdges, removed, added, taken⟩ :=
    ((Transaction.new r).unstageNode 2).removeEdges_eq ((Transaction.new r).cascade s 2)
  rw [Transaction.removeNode_eq, removed]
  refine ⟨i, ?_, ?_⟩
  · change (rebuiltEntries g.edges.entries newEdges removedEdges).get? _ = _
    have stays : (spoke i : Edge Cid).id ∉ removedEdges := fun gone =>
      ((taken _).mp gone).elim kept nofun
    rw [get?_rebuiltEntries, added, if_neg kept, if_neg stays]
    exact (hub _ _).mpr ⟨i, List.mem_range.mp inRange, rfl, rfl⟩
  · change (rebuiltEntries g.nodes.entries _ _).get? 2 = none
    rw [get?_rebuiltEntries]
    rfl

/-- **Past the cap** a removed node leaves edges that point nowhere. -/
theorem hubRun_dangles (past : defaultAdjacencyCap < n) (small : n ≤ 2 ^ 128) :
    ∃ r w, (hubRun n : WorldM H _).Returns {} r w ∧ ¬ r.Intact w.store := by
  obtain ⟨root, w₀, start, -⟩ := System.init_eq (H := H) 0
  obtain ⟨-, pinned₀, -⟩ := init_returns (P := fun _ => True) start
  -- the hub is committed
  have hub := stagedHub w₀.store root small
  have le := Transaction.le_stage w₀.store (Transaction.new root) (hubCalls n)
  have noSparse : ∀ e ∈ ((Transaction.new root).stage w₀.store (hubCalls n)).1.pendingSparse.entries,
      H.encodes (Object.toBlock (Bucket.canonical e.2 : SparseBucket)) = true := by
    rw [hub.noSparse]
    nofun
  have later : HeadHolds ((Transaction.new root).stage w₀.store (hubCalls n)).2
      ((Transaction.new root).stage w₀.store (hubCalls n)).1.base.commit {} := by
    rw [hub.base]
    exact pinned₀.holds.mono le
  have checked := stagedHub_checked hub later
    ((Transaction.staged_new w₀.store root).stage (hubCalls n))
  obtain ⟨r₁, w₁, ran₁, pinned₁, -⟩ := transact_succeeds (hubCalls n)
    { author := "", message := "hub" } rfl pinned₀ ⟨noSparse⟩ checked trivial
  -- the second node is removed
  obtain ⟨noEdges, noSparse₁⟩ := Transaction.removeNode_new w₁.store r₁ 2
  have unchecked : ((Transaction.new r₁).removeNode w₁.store 2).checkEdges w₁.store = .ok () := by
    rw [Transaction.checkEdges, OrdMap.values, noEdges]
    rfl
  have encodes : ((Transaction.new r₁).removeNode w₁.store 2).Encodes H := by
    refine ⟨?_⟩
    rw [noSparse₁]
    nofun
  obtain ⟨r₂, w₂, ran₂, pinned₂, commit, head⟩ := transact_succeeds [.removeNode 2]
    { author := "", message := "remove" } rfl pinned₁ encodes unchecked trivial
  refine ⟨r₂, w₂, ?_, fun intact => ?_⟩
  · exact Exec.returns_bind.mpr ⟨root, w₀, start, Exec.returns_bind.mpr ⟨r₁, w₁, ran₁, ran₂⟩⟩
  · -- one spoke is left, and its end is gone
    obtain ⟨i, dangling, gone⟩ :=
      exists_dangling past small pinned₁.holds (committed_hub hub)
    have holds := pinned₂.holds
    rw [head] at holds
    obtain ⟨nodes, edges, readNodes, readEdges, joined⟩ := intact commit head
    obtain rfl := Except.ok.inj
      ((entries_of_isTree (Stands.nodes holds).tree).symm.trans readNodes)
    obtain rfl := Except.ok.inj
      ((entries_of_isTree (Stands.edges holds).tree).symm.trans readEdges)
    obtain ⟨e, loads, -, -, dst⟩ := joined _ ((OrdMap.get?_eq_some_iff _).mp dangling)
    obtain rfl := Store.toBlock_injective (H.cidOf_injective loads.cidOf)
    exact Option.not_isSome_iff_eq_none.mpr gone ((OrdMap.mem_keys_iff _).mp dst)

end Hub

/-- One edge too many. -/
theorem hub_dangles : ∃ r w,
    (hubRun 10001 : WorldM shortHashing _).Returns {} r w ∧ ¬ r.Intact w.store :=
  hubRun_dangles (by decide) (by omega)

end Mnem.Repo
