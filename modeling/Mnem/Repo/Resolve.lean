/-
# Repo.Resolve — `resolve_or_create_node` against the state of the transaction

The call asks the pending cache for the node that was last added with the
value, then the property index of the base for the one node it has for the
value, and creates a node when neither answers.  What it should answer is read
off the effective state: the staged nodes over those of the base
(`Transaction.node?`), less the tombstoned ones.  `Answers` is the condition
under which the two agree, and `Undisturbed` the one under which a later call
returns the same id; `resolveOrCreateNode_twice_iff` is about both calls, with
any quiet calls between them.
-/
import Mnem.Repo.Session
import Mnem.Index.Query
import Mnem.Addressing

namespace Mnem.Repo

open Theory Theory.Groups Prolly Index Transaction

set_option autoImplicit false
set_option linter.unusedSectionVars false

variable {Cid : Type} {H : Hashing Cid} [LinearOrder Cid]

/-! ## The effective state -/

/-- The node's label and property are those asked for. -/
def carries (label propName : String) (value : Ipld Cid) (node : Node Cid) : Bool :=
  node.ntype == label && Query.hasValue node propName value

/-- The node that the call creates. -/
def entity (fresh : NodeId) (label propName : String) (value : Ipld Cid) : Node Cid :=
  { id := fresh, ntype := label, props := OrdMap.empty.insert propName value }

/-- The node that the property index of the base has for a value. -/
def ReadonlyRepo.indexedNode (s : Store H) (r : ReadonlyRepo Cid) (label propName : String)
    (value : Ipld Cid) : Except (Error Cid) (Option (Node Cid)) := do
  let indexes ← (r.commit.elim (.ok none) (indexesOf s) : Except (Error Cid) (Option (IndexSet Cid)))
  match indexes with
  | none => return none
  | some indexes => lookupByProp s indexes label propName value

namespace Transaction

/-- The effective state: what is staged, else what the base has and is not removed. -/
def node? (s : Store H) (tx : Transaction Cid) (id : NodeId) : Option (Node Cid) :=
  match tx.newNodes.get? id with
  | some cid => (s.decodeFromStore (Node Cid) cid).toOption
  | none => if tx.removedNodes.contains id then none else (tx.base.lookupNode s id).toOption.join

/-- Tombstoned by the base view or by the transaction. -/
def hides (tx : Transaction Cid) (id : NodeId) : Bool :=
  tx.base.isTombstoned id || tx.newTombstones.contains id

/-- A live node with the label and the value. -/
def Live (s : Store H) (tx : Transaction Cid) (label propName : String) (value : Ipld Cid)
    (id : NodeId) : Prop :=
  (tx.node? s id).any (carries label propName value) = true ∧ tx.hides id = false

/-- The node that the pending cache has for a value. -/
def noted (H : Hashing Cid) (tx : Transaction Cid) (label propName : String) (value : Ipld Cid) :
    Option NodeId :=
  tx.pendingByProp.get? (toLex (label, toLex (propName, H.valueHash value)))

/-- The cache has nothing, or a node that the transaction tombstones. -/
def Unnoted (H : Hashing Cid) (tx : Transaction Cid) (label propName : String) (value : Ipld Cid) :
    Prop :=
  ∀ id, tx.noted H label propName value = some id → tx.newTombstones.contains id = true

/-- The index has nothing, or a node that is removed or tombstoned in the base. -/
def Unindexed (tx : Transaction Cid) (found : Option (Node Cid)) : Prop :=
  ∀ n, found = some n → n.id ∈ tx.removedNodes ∨ tx.base.isTombstoned n.id = true

/-- The call finds a live node and leaves the transaction, or it creates one where there is none. -/
def Finds (s s' : Store H) (tx : Transaction Cid) (fresh : NodeId) (label propName : String)
    (value : Ipld Cid) (out : NodeId × Transaction Cid) : Prop :=
  (tx.Live s label propName value out.1 ∧ out.2 = tx) ∨
    ((∀ id, ¬ tx.Live s label propName value id) ∧ out.1 = fresh ∧
      out.2.node? s' fresh = some (entity fresh label propName value))

/-- The noted node is live and still has the value; where none is noted, the indexed one; and where
the index has none to offer, every node with the value is tombstoned. -/
structure Answers (s : Store H) (tx : Transaction Cid) (label propName : String) (value : Ipld Cid)
    (found : Option (Node Cid)) : Prop where
  noted : ∀ id, tx.noted H label propName value = some id → tx.newTombstones.contains id = false →
    tx.base.isTombstoned id = false ∧ (tx.node? s id).any (carries label propName value) = true
  indexed : tx.Unnoted H label propName value → ∀ n, found = some n → n.id ∉ tx.removedNodes →
    tx.base.isTombstoned n.id = false →
      tx.newTombstones.contains n.id = false ∧
        (tx.node? s n.id).any (carries label propName value) = true
  unseen : tx.Unnoted H label propName value → tx.Unindexed found →
    ∀ id, (tx.node? s id).any (carries label propName value) = true → tx.hides id = true

/-- No other live node is noted for the value; one that is tombstoned here is in the way unless the
index has `id` for the value. -/
def Undisturbed (H : Hashing Cid) (tx : Transaction Cid) (label propName : String)
    (value : Ipld Cid) (found : Option (Node Cid)) (id : NodeId) : Prop :=
  ∀ other, tx.noted H label propName value = some other → other ≠ id →
    tx.newTombstones.contains other = true ∧ tx.base.isTombstoned id = false ∧
      ∃ n, found = some n ∧ n.id = id

/-- An id that names nothing yet. -/
structure Unused (s : Store H) (tx : Transaction Cid) (id : NodeId) : Prop where
  absent : tx.node? s id = none
  visible : tx.newTombstones.contains id = false

/-- A call that removes and tombstones nothing. -/
def Call.Quiet : Call Cid → Prop
  | .removeNode _ | .tombstoneNode .. => False
  | _ => True

/-! ## One call -/

/-- How a call that returns was answered. -/
inductive Resolution (s' : Store H) (tx : Transaction Cid) (fresh : NodeId)
    (label propName : String) (value : Ipld Cid) (found : Option (Node Cid)) :
    NodeId × Transaction Cid → Prop where
  | noted {id : NodeId} (noted : tx.noted H label propName value = some id)
      (visible : tx.newTombstones.contains id = false) :
      Resolution s' tx fresh label propName value found (id, tx)
  | indexed {n : Node Cid} (unnoted : tx.Unnoted H label propName value) (here : found = some n)
      (kept : n.id ∉ tx.removedNodes) (visible : tx.base.isTombstoned n.id = false) :
      Resolution s' tx fresh label propName value found (n.id, tx)
  | created {cid : Cid} (unnoted : tx.Unnoted H label propName value) (unindexed : tx.Unindexed found)
      (loads : s'.Loads cid (entity fresh label propName value)) :
      Resolution s' tx fresh label propName value found
        (fresh, tx.stageNode H (entity fresh label propName value) cid)

theorem resolveInBase_eq {s : Store H} {tx : Transaction Cid} {label propName : String}
    {value : Ipld Cid} {found : Option (Node Cid)}
    (ran : tx.base.indexedNode s label propName value = .ok found) :
    tx.resolveInBase s label propName value = .ok ((found.map Node.id).filter fun id =>
      !tx.removedNodes.contains id && !tx.base.view.tombstones.contains id) := by
  obtain ⟨indexes, read, ran⟩ := Exec.bind_eq_ok.mp ran
  unfold resolveInBase
  rw [read]
  cases indexes with
  | none =>
      cases ran
      rfl
  | some indexes =>
      change lookupByProp s indexes label propName value = .ok found at ran
      change (lookupByProp s indexes label propName value >>= _) = _
      rw [ran]
      rfl

/-- Where the value has an encoding and the index can be read, the call returns. -/
theorem resolveOrCreateNode_succeeds {s : Store H} (tx : Transaction Cid) (fresh : NodeId)
    {label propName : String} {value : Ipld Cid} (accepted : H.acceptsValue value = true)
    {found : Option (Node Cid)} (read : tx.base.indexedNode s label propName value = .ok found) :
    (tx.resolveOrCreateNode fresh label propName value : StoreM H _).Succeeds s fun out s' =>
      s ≤ s' ∧ Resolution s' tx fresh label propName value found out := by
  have hashed : propValueHash H value = .ok (H.valueHash value) := if_pos accepted
  refine Exec.succeeds_read_bind hashed ?_
  dsimp only
  split
  · rename_i id noted
    obtain ⟨noted, visible⟩ := Option.filter_eq_some_iff.mp noted
    exact Exec.succeeds_pure ⟨le_refl s, .noted noted (by simpa using visible)⟩
  · rename_i unnoted
    have unnoted : tx.Unnoted H label propName value := by
      intro id noted
      have hidden := Option.filter_eq_none_iff.mp unnoted id noted
      simpa using hidden
    refine Exec.succeeds_read_bind (resolveInBase_eq read) ?_
    split
    · rename_i id resolved
      obtain ⟨known, passed⟩ := Option.filter_eq_some_iff.mp resolved
      obtain ⟨n, here, rfl⟩ := Option.map_eq_some_iff.mp known
      rw [Bool.and_eq_true, OrdSet.not_contains_iff, Bool.not_eq_true'] at passed
      exact Exec.succeeds_pure ⟨le_refl s, .indexed unnoted here passed.1 passed.2⟩
    · rename_i unresolved
      have unindexed : tx.Unindexed found := by
        intro n here
        have failed := Option.filter_eq_none_iff.mp unresolved n.id (by rw [here]; rfl)
        rw [Bool.and_eq_true, OrdSet.not_contains_iff, Bool.not_eq_true', not_and_or, not_not,
          Bool.not_eq_false] at failed
        exact failed
      have encodes : H.encodes (Object.toBlock (entity fresh label propName value)) = true := by
        change (([value] ++ []).all H.acceptsValue && ([] : List UInt32).all finiteWeight) = true
        simp [accepted]
      obtain ⟨cid, s', put, -, le, loads⟩ := putObject_succeeds encodes s
      have added : (tx.addNode (entity fresh label propName value) : StoreM H _).Returns s
          (cid, tx.stageNode H (entity fresh label propName value) cid) s' :=
        Exec.returns_bind.mpr ⟨cid, s', put, Exec.returns_pure.mpr ⟨rfl, rfl⟩⟩
      exact Exec.Returns.succeeds_bind added
        (Exec.succeeds_pure ⟨le, .created unnoted unindexed loads⟩)

/-! ## Calls in between -/

/-- What a call does to the cache, the staged nodes and the staged tombstones. -/
inductive Effect (s : Store H) (tx : Transaction Cid) (call : Call Cid) : Transaction Cid → Prop where
  | added (node : Node Cid) (cid : Cid) : Effect s tx call (tx.stageNode H node cid)
  | removed (id : NodeId) (noisy : ¬ call.Quiet) : Effect s tx call (tx.removeNode s id)
  | kept {tx' : Transaction Cid} (newNodes : tx'.newNodes = tx.newNodes)
      (removedNodes : tx'.removedNodes = tx.removedNodes)
      (pendingByProp : tx'.pendingByProp = tx.pendingByProp)
      (visible : call.Quiet → ∀ id, tx.newTombstones.contains id = false →
        tx'.newTombstones.contains id = false) : Effect s tx call tx'

theorem Effect.refl (s : Store H) (tx : Transaction Cid) (call : Call Cid) : Effect s tx call tx :=
  .kept rfl rfl rfl fun _ _ visible => visible

theorem apply_effect (s : Store H) (tx : Transaction Cid) (call : Call Cid) :
    Effect s tx call (tx.apply s call).1 := by
  rcases (tx.exec call : StoreM H _).attempt_cases tx s with ran | ⟨e, -, same⟩
  · change Effect s tx call ((tx.exec call : StoreM H _).attempt tx s).1
    generalize ((tx.exec call : StoreM H _).attempt tx s).1 = tx' at ran ⊢
    cases call with
    | addNode node =>
        obtain ⟨out, add, rfl⟩ := Exec.returns_map.mp ran
        obtain ⟨-, -, staged⟩ := addNode_returns add
        rw [staged]
        exact .added _ _
    | setEmbedding nodeCid model embedding =>
        obtain ⟨set, -⟩ := Exec.returns_read.mp ran
        obtain ⟨pending, -, rfl⟩ := Exec.map_eq_ok.mp set
        exact .kept rfl rfl rfl fun _ _ visible => visible
    | setSparseEmbedding nodeCid vocabId sparse =>
        obtain ⟨set, -⟩ := Exec.returns_read.mp ran
        obtain ⟨pending, -, rfl⟩ := Exec.map_eq_ok.mp set
        exact .kept rfl rfl rfl fun _ _ visible => visible
    | removeNode id =>
        obtain ⟨removed, -⟩ := Exec.returns_read.mp ran
        cases removed
        exact .removed id nofun
    | addEdge edge =>
        obtain ⟨out, add, rfl⟩ := Exec.returns_map.mp ran
        obtain ⟨cid, s₁, -, done⟩ := Exec.returns_bind.mp add
        obtain ⟨rfl, -⟩ := Exec.returns_pure.mp done
        exact .kept rfl rfl rfl fun _ _ visible => visible
    | removeEdge id =>
        obtain ⟨rfl, -⟩ := Exec.returns_pure.mp ran
        exact .kept rfl rfl rfl fun _ _ visible => visible
    | tombstoneNode id reason =>
        obtain ⟨rfl, -⟩ := Exec.returns_pure.mp ran
        exact .kept rfl rfl rfl nofun
    | untombstoneNode id =>
        obtain ⟨rfl, -⟩ := Exec.returns_pure.mp ran
        refine .kept rfl rfl rfl fun _ k visible => ?_
        change ((tx.newTombstones.erase id).get? k).isSome = false
        rw [OrdMap.get?_erase]
        split
        · rfl
        · exact visible
    | updateRef name target =>
        obtain ⟨rfl, -⟩ := Exec.returns_pure.mp ran
        exact .kept rfl rfl rfl fun _ _ visible => visible
    | setActiveBranch branch =>
        obtain ⟨rfl, -⟩ := Exec.returns_pure.mp ran
        exact .kept rfl rfl rfl fun _ _ visible => visible
    | commitMemory fresh now ntype summary props =>
        obtain ⟨out, written, rfl⟩ := Exec.returns_map.mp ran
        obtain ⟨added, s₁, add, done⟩ := Exec.returns_bind.mp written
        obtain ⟨rfl, -⟩ := Exec.returns_pure.mp done
        obtain ⟨-, -, staged⟩ := addNode_returns add
        rw [staged]
        exact .added _ _
    | resolveOrCreateNode fresh label propName value =>
        obtain ⟨out, resolved, rfl⟩ := Exec.returns_map.mp ran
        obtain ⟨-, same | ⟨node, cid, -, staged⟩⟩ := resolveOrCreateNode_returns resolved
        · rw [same]
          exact Effect.refl s tx _
        · rw [staged]
          exact .added _ _
  · change Effect s tx call ((tx.exec call : StoreM H _).attempt tx s).1
    rw [same]
    exact Effect.refl s tx call

/-- Noting a node's properties keeps every key, under the node's id or what it had. -/
theorem notePending_get? (tx : Transaction Cid) (node : Node Cid)
    (key : String ×ₗ String ×ₗ ProllyKey) :
    (tx.notePending H node).get? key = some node.id ∨
      (tx.notePending H node).get? key = tx.pendingByProp.get? key := by
  unfold notePending
  induction node.props.entries using List.reverseRecOn with
  | nil => exact .inr rfl
  | append_singleton props prop ih =>
      rw [List.foldl_append]
      simp only [List.foldl_cons, List.foldl_nil]
      split
      · rw [OrdMap.get?_insert]
        split
        · exact .inl rfl
        · exact ih
      · exact ih

/-- Every node in the cache is staged. -/
def CacheStaged (tx : Transaction Cid) : Prop :=
  ∀ key id, tx.pendingByProp.get? key = some id → (tx.newNodes.get? id).isSome

theorem CacheStaged.effect {s : Store H} {tx tx' : Transaction Cid} {call : Call Cid}
    (cached : CacheStaged tx) (effect : Effect s tx call tx') : CacheStaged tx' := by
  intro key id here
  cases effect with
  | added node cid =>
      change ((tx.newNodes.insert node.id cid).get? id).isSome
      rw [OrdMap.get?_insert]
      split
      · rfl
      · rename_i other
        rcases tx.notePending_get? (H := H) node key with noted | same
        · exact absurd (Option.some.inj (noted.symm.trans here)) other
        · exact cached key id (same.symm.trans here)
  | removed k _ =>
      obtain ⟨newEdges, removedEdges, eq, -⟩ := (tx.unstageNode k).removeEdges_eq (tx.cascade s k)
      rw [removeNode_eq, eq] at here ⊢
      have member := ((tx.unstageNode k).pendingByProp.get?_eq_some_iff).mp here
      obtain ⟨before, other⟩ := List.mem_filter.mp member
      change ((tx.newNodes.erase k).get? id).isSome
      rw [OrdMap.get?_erase, if_neg (by simpa using other)]
      exact cached key id (tx.pendingByProp.get?_eq_some_iff.mpr before)
  | kept newNodes _ pendingByProp _ =>
      rw [pendingByProp] at here
      rw [newNodes]
      exact cached key id here

/-- What quiet calls keep: an id stays visible and unremoved, and a noted value stays noted. -/
structure Keeps (H : Hashing Cid) (tx tx' : Transaction Cid) : Prop where
  visible : ∀ id, tx.newTombstones.contains id = false → tx'.newTombstones.contains id = false
  unremoved : ∀ id, id ∉ tx.removedNodes → id ∉ tx'.removedNodes
  noted : ∀ label propName value, (tx.noted H label propName value).isSome →
    (tx'.noted H label propName value).isSome

theorem Keeps.effect {s : Store H} {tx₀ tx tx' : Transaction Cid} {call : Call Cid}
    (keeps : Keeps H tx₀ tx) (quiet : call.Quiet) (effect : Effect s tx call tx') :
    Keeps H tx₀ tx' := by
  cases effect with
  | added node cid =>
      refine ⟨keeps.visible, fun id kept removed => ?_, fun label propName value noted => ?_⟩
      · exact keeps.unremoved id kept (OrdSet.mem_remove.mp removed).1
      · change ((tx.notePending H node).get? _).isSome
        rcases tx.notePending_get? (H := H) node (toLex (label, toLex (propName, H.valueHash value)))
          with now | same
        · rw [now]
          rfl
        · rw [same]
          exact keeps.noted label propName value noted
  | removed id noisy => exact absurd quiet noisy
  | kept newNodes removedNodes pendingByProp visible =>
      refine ⟨fun id before => visible quiet id (keeps.visible id before), ?_, ?_⟩
      · rw [removedNodes]
        exact keeps.unremoved
      · intro label propName value before
        change (tx'.pendingByProp.get? _).isSome
        rw [pendingByProp]
        exact keeps.noted label propName value before

end Transaction

/-! ## Reading the base -/

section Read

variable {P : Graph Cid → Prop} {s s' : Store H} {r : ReadonlyRepo Cid} {g : Graph Cid}

/-- A lookup in a table is the same in every larger store. -/
theorem bucketAt_of_le {α : Type} [Object Cid α] {idOf : α → ProllyKey} {root : Cid}
    {m : OrdMap ProllyKey Cid} (table : Table idOf s root m) (le : s ≤ s') (k : ProllyKey) :
    bucketAt α s' (some root) k = bucketAt α s (some root) k := by
  rw [bucketAt_of_isTree table.tree, bucketAt_of_isTree (table.tree.mono le)]
  cases at_k : m.get? k with
  | none => rfl
  | some cid =>
      obtain ⟨a, loads, -⟩ := table.filed k cid at_k
      have now : s.decodeFromStore α cid = .ok a := loads
      have later : s'.decodeFromStore α cid = .ok a := loads.mono le
      simp only [now, later]

theorem lookupNode_of_le (pinned : Pinned P s r g) (le : s ≤ s') (id : NodeId) :
    r.lookupNode s' id = r.lookupNode s id := by
  have holds := pinned.holds
  unfold ReadonlyRepo.lookupNode
  cases head : r.commit with
  | none => rfl
  | some commit =>
      rw [head] at holds
      exact bucketAt_of_le (Stands.nodes holds) le id

/-- The effective state is the same in every larger store. -/
theorem Transaction.node?_of_le {tx : Transaction Cid} (pinned : Pinned P s tx.base g)
    (staged : Staged s tx) (le : s ≤ s') (id : NodeId) : tx.node? s' id = tx.node? s id := by
  unfold node?
  split
  · rename_i cid here
    obtain ⟨n, loads, -⟩ := staged.nodes id cid here
    have now : s.decodeFromStore (Node Cid) cid = .ok n := loads
    have later : s'.decodeFromStore (Node Cid) cid = .ok n := loads.mono le
    rw [now, later]
  · rw [lookupNode_of_le pinned le]

/-- Asking a stored index for a value gives the same answer in every larger store. -/
theorem exists_lookupByProp {nodes : List (Row Cid (Node Cid))} {edges : List (Row Cid (Edge Cid))}
    {commit : Commit Cid} {c : Contents Cid} {es : List (ProllyKey × Cid)}
    (reads : ReadsRows s es nodes) (indexed : Indexed s commit nodes edges c)
    (label propName : String) {value : Ipld Cid} (accepted : H.acceptsValue value = true) :
    ∃ found, ∀ s', s ≤ s' → lookupByProp s' (c.indexSet H) label propName value = .ok found := by
  have hashed : propValueHash H value = .ok (H.valueHash value) := if_pos accepted
  have group_of : Groups.row (c.indexSet H).nodesByProp label propName =
      (c.props.get? (toLex (label, propName))).map fun m => treeRoot H m.entries :=
    row_propRoots c.props label propName
  unfold lookupByProp
  rw [group_of]
  cases group : c.props.get? (toLex (label, propName)) with
  | none => exact ⟨none, fun _ _ => rfl⟩
  | some m =>
      have tree (s' : Store H) (le : s ≤ s') :
          lookup s' (treeRoot H m.entries) (H.valueHash value) = .ok (m.get? (H.valueHash value)) :=
        lookup_of_isTree ((indexed.stored.props _ (c.props.get?_eq_some_iff.mp group)).mono le) _
      simp only [Option.map_some, hashed]
      cases here : m.get? (H.valueHash value) with
      | none =>
          refine ⟨none, fun s' le => ?_⟩
          change (lookup s' (treeRoot H m.entries) (H.valueHash value) >>= _) = _
          rw [tree s' le, here]
          rfl
      | some cid =>
          have named : row c.props (toLex (label, propName)) (H.valueHash value) = some cid := by
            rw [row, group]
            exact here
          obtain ⟨x, member, -, rfl⟩ := indexed.covers.named label propName _ cid named
          have loads := (reads.mem_iff.mp member).2
          refine ⟨if x.object.ntype != label then none
            else if !(x.object.props.get? propName).any fun v => Ipld.eq v value then none
            else some x.object, fun s' le => ?_⟩
          have decoded : s'.decodeFromStore (Node Cid) x.cid = .ok x.object := loads.mono le
          change (lookup s' (treeRoot H m.entries) (H.valueHash value) >>= _) = _
          rw [tree s' le, here]
          change (s'.decodeFromStore (Node Cid) x.cid >>= _) = _
          rw [decoded]
          change (if _ then _ else if _ then _ else _) = _
          split <;> [rfl; split <;> rfl]

/-- The index of the base can be read, and a larger store gives the same node. -/
theorem exists_indexedNode (pinned : Pinned P s r g) (label propName : String)
    {value : Ipld Cid} (accepted : H.acceptsValue value = true) :
    ∃ found, ∀ s', s ≤ s' → r.indexedNode s' label propName value = .ok found := by
  have holds := pinned.holds
  unfold ReadonlyRepo.indexedNode
  cases head : r.commit with
  | none => exact ⟨none, fun _ _ => rfl⟩
  | some commit =>
      rw [head] at holds
      obtain ⟨nodes, edges, c, nodesRead, -, indexed⟩ := Stands.indexed holds
      obtain ⟨found, asks⟩ := exists_lookupByProp nodesRead indexed label propName accepted
      refine ⟨found, fun s' le => ?_⟩
      change (indexesOf s' commit >>= _) = _
      rw [(indexed.mono le).indexesOf]
      exact asks s' le

end Read

/-! ## When the call is right -/

namespace Transaction

section Answers

variable {P : Graph Cid → Prop} {s s' : Store H} {tx tx₁ tx₂ : Transaction Cid} {g : Graph Cid}
  {fresh : NodeId} {label propName : String} {value : Ipld Cid} {found : Option (Node Cid)}

/-- A call finds what it should exactly when the cache and the index answer for the live nodes. -/
theorem finds_iff {out : NodeId × Transaction Cid} (pinned : Pinned P s tx.base g)
    (staged : Staged s tx) (le : s ≤ s') (unused : Unused s tx fresh)
    (resolution : Resolution s' tx fresh label propName value found out) :
    Finds s s' tx fresh label propName value out ↔ Answers s tx label propName value found := by
  have absent : tx.node? s' fresh = none := (node?_of_le pinned staged le fresh).trans unused.absent
  cases resolution with
  | @noted id noted visible =>
      have seen : ¬ tx.Unnoted H label propName value := by
        intro unnoted
        rw [unnoted id noted] at visible
        cases visible
      constructor
      · rintro (⟨⟨here, shown⟩, -⟩ | ⟨-, rfl, created⟩)
        · refine ⟨fun id' noted' _ => ?_, fun h => absurd h seen, fun h => absurd h seen⟩
          obtain rfl := Option.some.inj (noted.symm.trans noted')
          exact ⟨(Bool.or_eq_false_iff.mp shown).1, here⟩
        · rw [absent] at created
          cases created
      · intro answers
        obtain ⟨shown, here⟩ := answers.noted id noted visible
        exact .inl ⟨⟨here, Bool.or_eq_false_iff.mpr ⟨shown, visible⟩⟩, rfl⟩
  | @indexed n unnoted here kept visible =>
      have hidden {id : NodeId} (noted : tx.noted H label propName value = some id)
          (shown : tx.newTombstones.contains id = false) : False := by
        rw [unnoted id noted] at shown
        cases shown
      constructor
      · rintro (⟨⟨carried, shown⟩, -⟩ | ⟨-, rfl, created⟩)
        · refine ⟨fun id noted shown => (hidden noted shown).elim, fun _ n' here' _ _ => ?_,
            fun _ unindexed => ?_⟩
          · obtain rfl := Option.some.inj (here.symm.trans here')
            exact ⟨(Bool.or_eq_false_iff.mp shown).2, carried⟩
          · rcases unindexed n here with removed | tombstoned
            · exact absurd removed kept
            · rw [tombstoned] at visible
              cases visible
        · rw [absent] at created
          cases created
      · intro answers
        obtain ⟨shown, carried⟩ := answers.indexed unnoted n here kept visible
        exact .inl ⟨⟨carried, Bool.or_eq_false_iff.mpr ⟨visible, shown⟩⟩, rfl⟩
  | @created cid unnoted unindexed loads =>
      constructor
      · rintro (⟨⟨here, -⟩, -⟩ | ⟨nothing, -, -⟩)
        · rw [unused.absent] at here
          cases here
        · refine ⟨fun id noted shown => ?_, fun _ n here kept shown => ?_, fun _ _ id carried => ?_⟩
          · rw [unnoted id noted] at shown
            cases shown
          · rcases unindexed n here with removed | tombstoned
            · exact absurd removed kept
            · rw [tombstoned] at shown
              cases shown
          · exact Bool.eq_true_of_not_eq_false fun shown => nothing id ⟨carried, shown⟩
      · intro answers
        refine .inr ⟨fun id live => ?_, rfl, ?_⟩
        · have hidden := answers.unseen unnoted unindexed id live.1
          rw [live.2] at hidden
          cases hidden
        · have decoded : s'.decodeFromStore (Node Cid) cid = .ok (entity fresh label propName value) :=
            loads
          unfold node?
          change (match (tx.newNodes.insert fresh cid).get? fresh with
            | some cid => _
            | none => _) = _
          rw [OrdMap.get?_insert_self]
          change (s'.decodeFromStore (Node Cid) cid).toOption = _
          rw [decoded]
          rfl

/-- What a call leaves for the next one: its node stays, and the cache or the index has it. -/
structure Answered (H : Hashing Cid) (tx : Transaction Cid) (label propName : String)
    (value : Ipld Cid) (found : Option (Node Cid)) (id : NodeId) : Prop where
  unremoved : id ∉ tx.removedNodes
  how : (tx.noted H label propName value = some id ∧ tx.newTombstones.contains id = false) ∨
    ∃ n, found = some n ∧ n.id = id ∧ tx.base.isTombstoned id = false

theorem Resolution.answered {id : NodeId} (accepted : H.acceptsValue value = true)
    (staged : Staged s tx) (cached : CacheStaged tx) (unused : Unused s tx fresh)
    (resolution : Resolution s' tx fresh label propName value found (id, tx₁)) :
    tx₁.base = tx.base ∧ Answered H tx₁ label propName value found id := by
  cases resolution with
  | noted noted visible =>
      refine ⟨rfl, fun removed => ?_, .inl ⟨noted, visible⟩⟩
      have present := cached _ id noted
      rw [staged.nodesApart id removed] at present
      cases present
  | indexed unnoted here kept visible => exact ⟨rfl, kept, .inr ⟨_, here, rfl, visible⟩⟩
  | @created cid unnoted unindexed loads =>
      have hashed : propValueHash H value = .ok (H.valueHash value) := if_pos accepted
      refine ⟨rfl, fun removed => (OrdSet.mem_remove.mp removed).2 rfl, .inl ⟨?_, unused.visible⟩⟩
      change (tx.notePending H (entity fresh label propName value)).get? _ = some fresh
      have single : (entity fresh label propName value).props.entries = [(propName, value)] := rfl
      unfold notePending
      rw [single]
      simp only [List.foldl_cons, List.foldl_nil, hashed]
      exact tx.pendingByProp.get?_insert_self _ _

/-- A second call returns the same id exactly when nothing else was noted in between. -/
theorem Answered.again_iff {id id₂ fresh₂ : NodeId} {tx₃ : Transaction Cid}
    (answered : Answered H tx₁ label propName value found id) (base : tx₂.base = tx₁.base)
    (keeps : Keeps H tx₁ tx₂) (other : fresh₂ ≠ id)
    (resolution : Resolution s' tx₂ fresh₂ label propName value found (id₂, tx₃)) :
    id₂ = id ↔ Undisturbed H tx₂ label propName value found id := by
  obtain ⟨unremoved, how⟩ := answered
  have kept := keeps.unremoved id unremoved
  -- a noted `id` is still noted, or another node is noted over it
  have still {o : NodeId} (unnoted : tx₂.Unnoted H label propName value)
      (noted : tx₁.noted H label propName value = some id ∧ tx₁.newTombstones.contains id = false)
      (here : tx₂.noted H label propName value = some o) : o ≠ id := by
    rintro rfl
    have hidden := unnoted o here
    rw [keeps.visible o noted.2] at hidden
    cases hidden
  cases resolution with
  | noted noted visible =>
      constructor
      · rintro rfl o here differs
        exact absurd (Option.some.inj (here.symm.trans noted)) differs
      · intro undisturbed
        by_contra differs
        have hidden := (undisturbed id₂ noted differs).1
        rw [visible] at hidden
        cases hidden
  | @indexed n unnoted here _ visible =>
      constructor
      · rintro rfl o noted -
        exact ⟨unnoted o noted, visible, n, here, rfl⟩
      · intro undisturbed
        have indexed : ∃ n', found = some n' ∧ n'.id = id := by
          rcases how with noted | ⟨n', here', rfl, -⟩
          · obtain ⟨o, noted₂⟩ := Option.isSome_iff_exists.mp
              (keeps.noted label propName value (by rw [noted.1]; rfl))
            exact (undisturbed o noted₂ (still unnoted noted noted₂)).2.2
          · exact ⟨n', here', rfl⟩
        obtain ⟨n', here', rfl⟩ := indexed
        rw [Option.some.inj (here.symm.trans here')]
  | created unnoted unindexed _ =>
      refine iff_of_false other fun undisturbed => ?_
      have indexed : ∃ n', found = some n' ∧ n'.id = id ∧ tx₂.base.isTombstoned id = false := by
        rcases how with noted | ⟨n', here', rfl, shown⟩
        · obtain ⟨o, noted₂⟩ := Option.isSome_iff_exists.mp
            (keeps.noted label propName value (by rw [noted.1]; rfl))
          obtain ⟨-, shown, n', here', rfl⟩ := undisturbed o noted₂ (still unnoted noted noted₂)
          exact ⟨n', here', rfl, shown⟩
        · exact ⟨n', here', rfl, base ▸ shown⟩
      obtain ⟨n', here', rfl, shown⟩ := indexed
      rcases unindexed n' here' with removed | tombstoned
      · exact kept removed
      · rw [tombstoned] at shown
        cases shown

/-- What every run of calls keeps, as the call and the ones after it need. -/
theorem cacheStaged_stage {s : Store H} {tx : Transaction Cid} (staged : Staged s tx)
    (cached : CacheStaged tx) (calls : List (Call Cid)) : CacheStaged (tx.stage s calls).1 :=
  stage_beside (fun (_ : Unit) _ => ()) (I := fun tx _ => CacheStaged tx) s calls
    (fun s tx _ call _ _ _ cached => cached.effect (apply_effect s tx call)) (le_refl s) staged
    (a := ()) cached

theorem keeps_stage {s : Store H} {tx : Transaction Cid} (staged : Staged s tx)
    {calls : List (Call Cid)} (quiet : ∀ c ∈ calls, c.Quiet) : Keeps H tx (tx.stage s calls).1 :=
  stage_beside (fun (_ : Unit) _ => ()) (I := fun tx' _ => Keeps H tx tx') s calls
    (fun s tx' _ call m _ _ keeps => keeps.effect (quiet call m) (apply_effect s tx' call))
    (le_refl s) staged (a := ()) ⟨fun _ h => h, fun _ h => h, fun _ _ _ h => h⟩

end Answers

end Transaction

/-- Both calls of `resolve_or_create_node` in a transaction: the first is right exactly when the
cache and the index answer for the live nodes, and after any quiet calls the second returns the same
id exactly when it is undisturbed. -/
theorem resolveOrCreateNode_twice_iff {s₀ s : Store H} {r : ReadonlyRepo Cid} {g : Graph Cid}
    {tx : Transaction Cid} {calls : List (Call Cid)} {fresh : NodeId} (label propName : String)
    {value : Ipld Cid} (pinned : Pinned (fun _ => True) s₀ r g)
    (accepted : H.acceptsValue value = true)
    (made : (Transaction.new r).stage s₀ calls = (tx, s)) (unused : tx.Unused s fresh) :
    ∃ found id tx₁ s₁, r.indexedNode s label propName value = .ok found ∧
      (tx.resolveOrCreateNode fresh label propName value : StoreM H _).Returns s (id, tx₁) s₁ ∧
      (tx.Finds s s₁ fresh label propName value (id, tx₁) ↔
        tx.Answers s label propName value found) ∧
      ∀ (between : List (Call Cid)) (fresh₂ : NodeId), (∀ c ∈ between, c.Quiet) → fresh₂ ≠ id →
        ∃ tx₂ s₂ id₂ tx₃ s₃, tx₁.stage s₁ between = (tx₂, s₂) ∧
          (tx₂.resolveOrCreateNode fresh₂ label propName value : StoreM H _).Returns s₂
            (id₂, tx₃) s₃ ∧
          (id₂ = id ↔ tx₂.Undisturbed H label propName value found id) := by
  have base : tx.base = r := by
    have kept := Transaction.base_stage s₀ (Transaction.new r) calls
    rw [made] at kept
    exact kept
  have le : s₀ ≤ s := by
    have grown := Transaction.le_stage s₀ (Transaction.new r) calls
    rw [made] at grown
    exact grown
  have staged : Staged s tx := by
    have kept := (Transaction.staged_new s₀ r).stage calls
    rw [made] at kept
    exact kept
  have cached : tx.CacheStaged := by
    have kept := Transaction.cacheStaged_stage (Transaction.staged_new s₀ r) nofun calls
    rw [made] at kept
    exact kept
  subst base
  obtain ⟨found, reads⟩ := exists_indexedNode pinned label propName accepted
  obtain ⟨⟨id, tx₁⟩, s₁, ran, le₁, resolution⟩ :=
    Transaction.resolveOrCreateNode_succeeds tx fresh accepted (reads s le)
  refine ⟨found, id, tx₁, s₁, reads s le, ran,
    Transaction.finds_iff (pinned.mono le) staged le₁ unused resolution, ?_⟩
  intro between fresh₂ quiet other
  obtain ⟨sameBase, answered⟩ := resolution.answered accepted staged cached unused
  have staged₁ : Staged s₁ tx₁ := by
    have one : (tx.exec (.resolveOrCreateNode fresh label propName value) : StoreM H _).Returns s
        tx₁ s₁ := Exec.returns_map.mpr ⟨(id, tx₁), ran, rfl⟩
    obtain ⟨grown, change⟩ := Transaction.exec_returns one
    exact staged.change grown change
  have base₂ := Transaction.base_stage s₁ tx₁ between
  have keeps := Transaction.keeps_stage staged₁ quiet
  have le₂ := Transaction.le_stage s₁ tx₁ between
  have read : (tx₁.stage s₁ between).1.base.indexedNode (tx₁.stage s₁ between).2 label propName
      value = .ok found := by
    rw [base₂, sameBase]
    exact reads _ ((le.trans le₁).trans le₂)
  obtain ⟨⟨id₂, tx₃⟩, s₃, ran₂, -, resolution₂⟩ :=
    Transaction.resolveOrCreateNode_succeeds _ fresh₂ accepted read
  exact ⟨_, _, id₂, tx₃, s₃, rfl, ran₂, answered.again_iff base₂ keeps other resolution₂⟩

/-! ## A tombstoned node is found -/

/-- A person by name. -/
def namedPerson (id : NodeId) (name : String) : Node ℕ :=
  { id := id, ntype := "Person", props := OrdMap.empty.insert "name" (.string name) }

/-- Node 1 is in the base, and the transaction has tombstoned it. -/
theorem tombstoned_is_found : ∃ (s₀ s : Store shortHashing) (r : ReadonlyRepo ℕ) (g : Graph ℕ)
    (tx : Transaction ℕ), Pinned (fun _ => True) s₀ r g ∧
      (Transaction.new r).stage s₀ [.tombstoneNode 1 "spam"] = (tx, s) ∧ tx.Unused s 9 ∧
      tx.newTombstones.contains 1 = true ∧ ∃ tx₁ s₁, (tx.resolveOrCreateNode 9 "Person" "name"
        (.string "alice") : StoreM shortHashing _).Returns s (1, tx₁) s₁ := by
  have passed : (seeded [.addNode (namedPerson 1 "alice")] : WorldM shortHashing _).check {} (fun r w =>
      let staged := (Transaction.new r).stage w.store [.tombstoneNode 1 "spam"]
      (staged.1.node? staged.2 9).isNone && !staged.1.newTombstones.contains 9 &&
        staged.1.newTombstones.contains 1 &&
        (staged.1.resolveOrCreateNode 9 "Person" "name" (.string "alice")).check staged.2
          fun out _ => decide (out.1 = 1)) = true := by decide +kernel
  obtain ⟨r, w, ran, passed⟩ := Exec.exists_of_check passed
  obtain ⟨g, pinned⟩ := seeded_returns ran
  simp only [Bool.and_eq_true, Option.isNone_iff_eq_none, Bool.not_eq_true'] at passed
  obtain ⟨⟨⟨absent, visible⟩, tombstoned⟩, resolved⟩ := passed
  obtain ⟨⟨id, tx₁⟩, s₁, ran₁, one⟩ := Exec.exists_of_check resolved
  obtain rfl : id = 1 := of_decide_eq_true one
  exact ⟨w.store, _, r, g, _, pinned, rfl, ⟨absent, visible⟩, tombstoned, tx₁, s₁, ran₁⟩

/-- The call answers with the tombstoned node. -/
theorem resolveOrCreateNode_finds_tombstoned : ∃ (s₀ s : Store shortHashing) (r : ReadonlyRepo ℕ)
    (g : Graph ℕ) (tx : Transaction ℕ), Pinned (fun _ => True) s₀ r g ∧
      (Transaction.new r).stage s₀ [.tombstoneNode 1 "spam"] = (tx, s) ∧
      ∃ id tx₁ s₁, (tx.resolveOrCreateNode 9 "Person" "name" (.string "alice") :
        StoreM shortHashing _).Returns s (id, tx₁) s₁ ∧ tx.hides id = true ∧
        ¬ tx.Finds s s₁ 9 "Person" "name" (.string "alice") (id, tx₁) := by
  obtain ⟨s₀, s, r, g, tx, pinned, made, -, tombstoned, tx₁, s₁, ran⟩ := tombstoned_is_found
  have hidden : tx.hides 1 = true := Bool.or_eq_true_iff.mpr (.inr tombstoned)
  refine ⟨s₀, s, r, g, tx, pinned, made, 1, tx₁, s₁, ran, hidden, ?_⟩
  rintro (⟨⟨-, shown⟩, -⟩ | ⟨-, fresh, -⟩)
  · rw [hidden] at shown
    cases shown
  · exact absurd (show (1 : NodeId) = 9 from fresh) (by decide)

theorem resolveOrCreateNode_twice_iff_tombstoned : ∃ (s : Store shortHashing) (r : ReadonlyRepo ℕ)
    (tx : Transaction ℕ) (found : Option (Node ℕ)) (id : NodeId) (tx₁ : Transaction ℕ)
    (s₁ : Store shortHashing), r.indexedNode s "Person" "name" (.string "alice") = .ok found ∧
      (tx.Finds s s₁ 9 "Person" "name" (.string "alice") (id, tx₁) ↔
        tx.Answers s "Person" "name" (.string "alice") found) := by
  obtain ⟨s₀, s, r, g, tx, pinned, made, unused, -⟩ := tombstoned_is_found
  obtain ⟨found, id, tx₁, s₁, reads, -, first, -⟩ :=
    resolveOrCreateNode_twice_iff "Person" "name" pinned
      (show shortHashing.acceptsValue (.string "alice") = true from rfl) made unused
  exact ⟨s, r, tx, found, id, tx₁, s₁, reads, first⟩

end Mnem.Repo
