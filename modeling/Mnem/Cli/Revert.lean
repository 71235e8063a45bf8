/-
# Cli.Revert — taking back an operation

`mnem revert` finds an operation among the first parents of the head, diffs the
node tree and the edge tree of its first parent against its own, and commits the
inverse of every difference that the current graph does not already have taken
back.  A tombstone that the operation added is removed.

`Described` says what is known of the changes that are read, `stageInverse_returns`
that what is staged is a list of calls, and `nodes_foldl` and `trail_foldl_edges`
what these calls come to for one node and for one edge.
-/
import Mnem.Prolly.Diff
import Mnem.Repo.CallFold
import Mnem.Cli.Commands

namespace Mnem.Cli.Revert

open Theory Prolly Repo Transaction

set_option autoImplicit false
set_option linter.unusedSectionVars false

variable {Cid : Type} {H : Hashing Cid} [LinearOrder Cid]

/-! ## The command -/

/-- The most operations that are walked. -/
def maxDepth : Nat := 100000

/-- The target among the first parents of `cur`, with its own first parent. -/
def findOpAndParent (s : Store H) (target : Cid) :
    Nat → Cid → Except (Error Cid) (Option (Operation Cid × Option (Operation Cid)))
  | 0, _ => .ok none
  | n + 1, cur => do
      let op ← s.decodeFromStore (Operation Cid) cur
      if cur = target then
        match op.parents.head? with
        | none => return some (op, none)
        | some parent => do
            let parentOp ← s.decodeFromStore (Operation Cid) parent
            return some (op, some parentOp)
      else
        match op.parents.head? with
        | none => return none
        | some parent => findOpAndParent s target n parent

/-- What an operation did. -/
structure Changes (Cid : Type) where
  nodes : List (DiffEntry Cid)
  edges : List (DiffEntry Cid)
  tombstones : List NodeId

/-- The trees before an operation, empty ones where its parent has no commit. -/
def beforeRoots (parentHead : Option Cid) : StoreM H (Cid × Cid) :=
  match parentHead with
  | some head => Exec.read fun s => do
      let commit ← s.decodeFromStore (Commit Cid) head
      return (commit.nodes, commit.edges)
  | none => do
      let empty ← buildTree []
      return (empty, empty)

def changesOf (op : Operation Cid) (parent : Option (Operation Cid)) : StoreM H (Changes Cid) := do
  let view ← Exec.read fun s => s.decodeFromStore (View Cid) op.view
  match view.heads.head? with
  | none => throw (.invalidInput "op has no head commit")
  | some head => do
      let parentView ← Exec.read fun s => match parent with
        | none => .ok none
        | some parentOp => some <$> s.decodeFromStore (View Cid) parentOp.view
      let commit ← Exec.read fun s => s.decodeFromStore (Commit Cid) head
      let before ← beforeRoots (parentView.bind fun v => v.heads.head?)
      let nodes ← Exec.read fun s => diff s before.1 commit.nodes
      let edges ← Exec.read fun s => diff s before.2 commit.edges
      return {
        nodes
        edges
        tombstones := view.tombstones.keys.filter fun id =>
          !parentView.any fun v => v.tombstones.contains id }

/-- Whether a restored edge would have its endpoint. -/
def checkEndpoint (s : Store H) (r : ReadonlyRepo Cid) (id : NodeId) : Except (Error Cid) Unit := do
  let node ← r.lookupNode s id
  if node.isNone || r.isTombstoned id then bail "edge endpoint no longer exists" else return ()

/-- Before anything is staged: every edge that would be restored has both endpoints. -/
def preflight (s : Store H) (r : ReadonlyRepo Cid) (changes : List (DiffEntry Cid)) :
    Except (Error Cid) Unit :=
  changes.forM fun entry =>
    match entry with
    | .removed _ value => do
        let edge ← s.decodeFromStore (Edge Cid) value
        checkEndpoint s r edge.src
        checkEndpoint s r edge.dst
    | _ => .ok ()

/-- How nodes are taken back, or edges. -/
structure Kind (H : Hashing Cid) (α : Type) where
  id : α → ProllyKey
  lookup : Store H → ReadonlyRepo Cid → ProllyKey → Except (Error Cid) (Option α)
  same : α → α → Bool
  add : α → Call Cid
  remove : ProllyKey → Call Cid

/-- The derived equality of nodes. -/
def nodeEq (a b : Node Cid) : Bool :=
  a.id == b.id && a.ntype == b.ntype && a.summary == b.summary && propsEq a.props b.props &&
    a.content == b.content && a.contextSentence == b.contextSentence && propsEq a.extra b.extra

/-- The derived equality of edges. -/
def edgeEq (a b : Edge Cid) : Bool :=
  a.id == b.id && a.etype == b.etype && a.src == b.src && a.dst == b.dst &&
    propsEq a.props b.props && propsEq a.extra b.extra

def nodeKind : Kind H (Node Cid) where
  id := Node.id
  lookup s r := r.lookupNode s
  same := nodeEq
  add := .addNode
  remove := .removeNode

def edgeKind : Kind H (Edge Cid) where
  id := Edge.id
  lookup s r := r.lookupEdge s
  same := edgeEq
  add := .addEdge
  remove := .removeEdge

section Inverse

variable {α : Type} [Object Cid α]

/-- Read an object of a change and what the repository has in its place. -/
def withCurrent (K : Kind H α) (s : Store H) (r : ReadonlyRepo Cid) (value : Cid)
    (f : α → Option α → Option (Call Cid)) : Except (Error Cid) (Option (Call Cid)) := do
  let x ← s.decodeFromStore α value
  let current ← K.lookup s r (K.id x)
  return f x current

/-- The call that takes a change back, none where there is nothing to take back. -/
def inverse (K : Kind H α) (s : Store H) (r : ReadonlyRepo Cid) :
    DiffEntry Cid → Except (Error Cid) (Option (Call Cid))
  | .added _ value => withCurrent K s r value fun x current =>
      if current.isSome then some (K.remove (K.id x)) else none
  | .removed _ value => withCurrent K s r value fun x current =>
      if current.isNone then some (K.add x) else none
  | .changed _ before _ => withCurrent K s r before fun x current =>
      if current.any fun y => K.same y x then none else some (K.add x)

/-- Stage the inverse of a change, and count it. -/
def takeBack (K : Kind H α) (staged : Transaction Cid × Nat) (entry : DiffEntry Cid) :
    StoreM H (Transaction Cid × Nat) := do
  let call ← Exec.read fun s => inverse K s staged.1.base entry
  match call with
  | none => return staged
  | some call => do
      let tx ← staged.1.exec call
      return (tx, staged.2 + 1)

end Inverse

/-- Remove a tombstone that is still there. -/
def untombstone (staged : Transaction Cid × Nat) (id : NodeId) : Transaction Cid × Nat :=
  if staged.1.base.isTombstoned id then (staged.1.untombstoneNode id, staged.2 + 1) else staged

inductive Outcome (Cid : Type) where
  | nothingToRevert
  | alreadyReverted
  | reverted (r : ReadonlyRepo Cid)

/-- The repository after a revert of `r`. -/
def Outcome.repo (r : ReadonlyRepo Cid) : Outcome Cid → ReadonlyRepo Cid
  | .reverted r' => r'
  | _ => r

/-- Everything that is staged, with its count. -/
def stageInverse (r : ReadonlyRepo Cid) (changes : Changes Cid) :
    StoreM H (Transaction Cid × Nat) := do
  let nodes ← changes.nodes.foldlM (takeBack nodeKind) (Transaction.new r, 0)
  let edges ← changes.edges.foldlM (takeBack edgeKind) nodes
  return changes.tombstones.foldl untombstone edges

/-- `run_revert`, of a repository that is open. -/
def revert (r : ReadonlyRepo Cid) (target : Cid) (opts : CommitOptions) :
    WorldM H (Outcome Cid) := do
  let found ← onStore (Exec.read fun s => findOpAndParent s target maxDepth r.opId)
  match found with
  | none => throw (.invalidInput "op not found in the op-log")
  | some (op, parent) => do
      let changes ← onStore (changesOf op parent)
      if changes.nodes.isEmpty && changes.edges.isEmpty && changes.tombstones.isEmpty then
        return .nothingToRevert
      else do
        onStore (Exec.read fun s => preflight s r changes.edges)
        let staged ← onStore (stageInverse r changes)
        if staged.2 = 0 then return .alreadyReverted
        else do
          let r' ← staged.1.commitOpts opts
          return .reverted r'

/-! ## What taking back means -/

section Meaning

variable {α : Type}

/-- What a change is taken back to, and whether it is: the current state may be as before. -/
def taken (same : α → α → Bool) (before current : Option α) : DiffEntry Cid → Option (Option α)
  | .added _ _ => if current.isSome then some none else none
  | .removed _ _ => if current.isNone then some before else none
  | .changed _ _ _ =>
      if current.any fun y => before.any fun x => same y x then none else some before

/-- The last of some changes at `k` that is taken back. -/
def lastTaken (same : α → α → Bool) (before current : ProllyKey → Option α) (k : ProllyKey)
    (es : List (DiffEntry Cid)) (first : Option (Option α)) : Option (Option α) :=
  es.foldl (fun last e => if e.key = k then (taken same (before k) (current k) e).or last else last)
    first

/-- What an operation that led from `before` to `after` is taken back to. -/
noncomputable def undone (same : α → α → Bool) (before after current : Option α) :
    Option (Option α) :=
  open Classical in
  if before = after then none
  else if before.isNone then if current.isSome then some none else none
  else if after.isNone then if current.isNone then some before else none
  else if current.any fun y => before.any fun x => same y x then none else some before

end Meaning

/-- What taking back an operation, from `a` to `b`, makes of the current state: what the operation
left alone stays, but for an edge that is listed at a node that goes. -/
noncomputable def takenBack (listed : NodeId → List EdgeId) (a b c : GraphState Cid) :
    GraphState Cid where
  nodes id := (undone nodeEq (a.nodes id) (b.nodes id) (c.nodes id)).getD (c.nodes id)
  edges k := (undone edgeEq (a.edges k) (b.edges k) (c.edges k)).getD <|
    open Classical in
    if ∃ id, a.nodes id = none ∧ (b.nodes id).isSome ∧ (c.nodes id).isSome ∧ k ∈ listed id then none
    else c.edges k
  tombstoned id := c.tombstoned id && (a.tombstoned id || !b.tombstoned id)

/-! ## Reading the changes -/

section Reads

variable {α : Type} [Object Cid α] {s s' : Store H} {r : ReadonlyRepo Cid}

/-- The objects of `state`, each under its own id, are the entries of `m`. -/
def Filed (K : Kind H α) (s : Store H) (m : OrdMap ProllyKey Cid) (state : ProllyKey → Option α) :
    Prop :=
  (∀ k, (state k).map (fun x => H.cidOf (Object.toBlock x)) = m.get? k) ∧
    ∀ k x, state k = some x → K.id x = k ∧ s.Loads (H.cidOf (Object.toBlock x)) x

theorem Filed.mono {K : Kind H α} {m : OrdMap ProllyKey Cid} {state : ProllyKey → Option α}
    (filed : Filed K s m state) (le : s ≤ s') : Filed K s' m state :=
  ⟨filed.1, fun k x here => ⟨(filed.2 k x here).1, (filed.2 k x here).2.mono le⟩⟩

theorem Filed.exists_of_mem {K : Kind H α} {m : OrdMap ProllyKey Cid} {state : ProllyKey → Option α}
    (filed : Filed K s m state) {k : ProllyKey} {v : Cid} (member : (k, v) ∈ m.entries) :
    ∃ x : α, s.Loads v x ∧ K.id x = k ∧ state k = some x := by
  have found := filed.1 k
  rw [m.get?_eq_some_iff.mpr member] at found
  obtain ⟨x, here, rfl⟩ := Option.map_eq_some_iff.mp found
  exact ⟨x, (filed.2 k x here).2, (filed.2 k x here).1, here⟩

/-- What a table files. -/
theorem filed_of_table {K : Kind H α} {root : Cid} {m : OrdMap ProllyKey Cid}
    {state : ProllyKey → Option α} (table : Table K.id s root m)
    (addrs : ∀ k, (state k).map (fun x => H.cidOf (Object.toBlock x)) = m.get? k) :
    Filed K s m state := by
  refine ⟨addrs, fun k x here => ?_⟩
  have found := addrs k
  rw [here] at found
  obtain ⟨y, loads, at_k⟩ := table.filed k _ found.symm
  obtain rfl := addr_injective loads.cidOf
  exact ⟨at_k, loads⟩

/-- The current state is what the repository reads. -/
def Kind.Reads (K : Kind H α) (s : Store H) (r : ReadonlyRepo Cid)
    (current : ProllyKey → Option α) : Prop := ∀ k, K.lookup s r k = .ok (current k)

/-- The call that takes a change back. -/
def Kind.call (K : Kind H α) (before current : ProllyKey → Option α) (e : DiffEntry Cid) :
    Option (Call Cid) :=
  (taken K.same (before e.key) (current e.key) e).map fun back =>
    match back with
    | none => K.remove e.key
    | some x => K.add x

variable {K : Kind H α} {ma mb : OrdMap ProllyKey Cid} {before after current : ProllyKey → Option α}

theorem withCurrent_eq (reads : K.Reads s r current) {value : Cid} {x : α} (loads : s.Loads value x)
    (f : α → Option α → Option (Call Cid)) :
    withCurrent K s r value f = .ok (f x (current (K.id x))) := by
  have decoded : s.decodeFromStore α value = .ok x := loads
  unfold withCurrent
  rw [decoded]
  change (K.lookup s r (K.id x) >>= _) = _
  rw [reads]
  rfl

/-- What is read of a change is its call. -/
theorem inverse_eq (reads : K.Reads s r current) (was : Filed K s ma before)
    (became : Filed K s mb after) {e : DiffEntry Cid} (read : e.ReadFrom ma.entries mb.entries) :
    inverse K s r e = .ok (K.call before current e) := by
  cases e with
  | added k v =>
      obtain ⟨x, loads, rfl, -⟩ := became.exists_of_mem read
      rw [inverse, withCurrent_eq reads loads]
      cases here : current (K.id x) <;> simp [Kind.call, taken, DiffEntry.key, here]
  | removed k v =>
      obtain ⟨x, loads, rfl, at_k⟩ := was.exists_of_mem read
      rw [inverse, withCurrent_eq reads loads]
      cases here : current (K.id x) <;> simp [Kind.call, taken, DiffEntry.key, here, at_k]
  | changed k v v' =>
      obtain ⟨x, loads, rfl, at_k⟩ := was.exists_of_mem read.1
      rw [inverse, withCurrent_eq reads loads]
      cases here : current (K.id x) with
      | none => simp [Kind.call, taken, DiffEntry.key, here, at_k]
      | some y => cases same : K.same y x <;>
          simp [Kind.call, taken, DiffEntry.key, here, at_k, same]

/-- Staging the inverse of some changes is making their calls. -/
theorem takeBack_returns (was : Filed K s ma before) (became : Filed K s mb after)
    (reads : ∀ s', s ≤ s' → K.Reads s' r current) {es : List (DiffEntry Cid)}
    (values : ∀ e ∈ es, e.ReadFrom ma.entries mb.entries) {tx : Transaction Cid} {n : Nat}
    (base : tx.base = r) {out : Transaction Cid × Nat} {s₀ : Store H} (le : s ≤ s₀)
    (ran : (es.foldlM (takeBack K) (tx, n)).Returns s₀ out s') :
    tx.stage s₀ (es.filterMap (K.call before current)) = (out.1, s') ∧
      out.2 = n + (es.filterMap (K.call before current)).length := by
  induction es generalizing tx n s₀ with
  | nil =>
      obtain ⟨rfl, rfl⟩ := Exec.returns_pure.mp ran
      exact ⟨rfl, rfl⟩
  | cons e es ih =>
      obtain ⟨mid, s₁, one, others⟩ := Exec.returns_foldlM_cons.mp ran
      obtain ⟨call, s₂, read, ran⟩ := Exec.returns_bind.mp one
      obtain ⟨found, rfl⟩ := Exec.returns_read.mp read
      have here := values e List.mem_cons_self
      rw [base, inverse_eq (reads _ le) (was.mono le) (became.mono le) here] at found
      obtain rfl := Except.ok.inj found
      have rest := fun e m => values e (List.mem_cons_of_mem _ m)
      cases made : K.call before current e with
      | none =>
          rw [made] at ran
          obtain ⟨rfl, rfl⟩ := Exec.returns_pure.mp ran
          rw [List.filterMap_cons, made]
          exact ih rest base le others
      | some call =>
          rw [made] at ran
          obtain ⟨tx', s₃, done, last⟩ := Exec.returns_bind.mp ran
          obtain ⟨rfl, rfl⟩ := Exec.returns_pure.mp last
          have applied : tx.apply s₀ call = (tx', s₃) := by
            unfold Transaction.apply Exec.attempt
            rw [show (tx.exec call).outcome s₀ = (.ok tx', s₃) from done]
          have grown := le_apply s₀ tx call
          have kept := (apply_change s₀ tx call).base
          rw [applied] at grown kept
          obtain ⟨staged, count⟩ := ih rest (kept.trans base) (le.trans grown) others
          rw [List.filterMap_cons, made]
          refine ⟨?_, ?_⟩
          · change (tx.apply s₀ call).1.stage (tx.apply s₀ call).2 _ = _
            rw [applied]
            exact staged
          · rw [count, List.length_cons]
            omega

end Reads

/-! ### A repository's own tables -/

section Pinned

variable {P : Graph Cid → Prop} {s s' : Store H} {r : ReadonlyRepo Cid} {g : Graph Cid}

theorem filed_of_pinned (pinned : Pinned P s r g) :
    Filed nodeKind s g.nodes (GraphState.of s r).nodes ∧
      Filed edgeKind s g.edges (GraphState.of s r).edges := by
  have holds := pinned.holds
  cases head : r.commit with
  | some commit =>
      rw [head] at holds
      exact ⟨filed_of_table (Stands.nodes holds) (GraphState.of_nodes pinned),
        filed_of_table (Stands.edges holds) (GraphState.of_edges pinned)⟩
  | none =>
      have noNode (k : NodeId) : (GraphState.of s r).nodes k = none := by
        change ((r.lookupNode s k).toOption.join) = none
        rw [ReadonlyRepo.lookupNode, head]
        rfl
      have noEdge (k : EdgeId) : (GraphState.of s r).edges k = none := by
        change ((r.lookupEdge s k).toOption.join) = none
        rw [ReadonlyRepo.lookupEdge, head]
        rfl
      refine ⟨⟨GraphState.of_nodes pinned, fun k x here => ?_⟩,
        ⟨GraphState.of_edges pinned, fun k x here => ?_⟩⟩
      · rw [noNode k] at here
        cases here
      · rw [noEdge k] at here
        cases here

/-- What a repository reads stays as the store grows. -/
theorem of_le (pinned : Pinned P s r g) (le : s ≤ s') : GraphState.of s' r = GraphState.of s r := by
  refine GraphState.ext (funext fun k => ?_) (funext fun k => ?_) rfl
  · exact Option.map_injective addr_injective
      ((GraphState.of_nodes (pinned.mono le) k).trans (GraphState.of_nodes pinned k).symm)
  · exact Option.map_injective addr_injective
      ((GraphState.of_edges (pinned.mono le) k).trans (GraphState.of_edges pinned k).symm)

theorem lookup_of_pinned (pinned : Pinned P s r g) :
    (∀ k, r.lookupNode s k = .ok ((GraphState.of s r).nodes k)) ∧
      ∀ k, r.lookupEdge s k = .ok ((GraphState.of s r).edges k) := by
  have holds := pinned.holds
  have joined {α : Type} {x : Except (Error Cid) (Option α)} (returned : ∃ found, x = .ok found) :
      x = .ok (x.toOption.join) := by
    obtain ⟨found, rfl⟩ := returned
    rfl
  refine ⟨fun k => joined ?_, fun k => joined ?_⟩
  · unfold ReadonlyRepo.lookupNode
    cases head : r.commit with
    | none => exact ⟨none, rfl⟩
    | some commit =>
        rw [head] at holds
        obtain ⟨found, ran, -⟩ := bucketAt_table (Stands.nodes holds) k
        exact ⟨found, ran⟩
  · unfold ReadonlyRepo.lookupEdge
    cases head : r.commit with
    | none => exact ⟨none, rfl⟩
    | some commit =>
        rw [head] at holds
        obtain ⟨found, ran, -⟩ := bucketAt_table (Stands.edges holds) k
        exact ⟨found, ran⟩

theorem reads_of_pinned (pinned : Pinned P s r g) (le : s ≤ s') :
    nodeKind.Reads s' r (GraphState.of s r).nodes ∧
      edgeKind.Reads s' r (GraphState.of s r).edges := by
  rw [← of_le pinned le]
  exact lookup_of_pinned (pinned.mono le)

/-- What is listed at a node is an edge at it. -/
theorem exists_of_listed (pinned : Pinned P s r g) {id : NodeId} {k : EdgeId}
    (inListed : k ∈ r.listed s id) :
    ∃ e, (GraphState.of s r).edges k = some e ∧ touches e id = true := by
  have holds := pinned.holds
  unfold ReadonlyRepo.listed at inListed
  cases head : r.commit with
  | none =>
      simp [ReadonlyRepo.outgoingEdges, ReadonlyRepo.incomingEdges,
        ReadonlyRepo.incomingEdgesCapped, head, found] at inListed
  | some commit =>
      rw [head] at holds
      obtain ⟨nodes, edges, c, -, edgesRead, indexed⟩ := Stands.indexed holds
      have filed := (filed_of_pinned pinned).2
      have ofRows {cids : List Cid} (rows : ∀ cid ∈ cids, ∃ row ∈ edges, row.cid = cid ∧
          touches row.object id = true) (listed : k ∈ found (decodeEdges s cids)) :
          ∃ e, (GraphState.of s r).edges k = some e ∧ touches e id = true := by
        have loads : ∀ cid ∈ cids, ∃ e : Edge Cid, s.Loads cid e := by
          intro cid m
          obtain ⟨row, inRows, rfl, -⟩ := rows cid m
          exact ⟨row.object, edgesRead.loads row inRows⟩
        obtain ⟨es, ran, each⟩ := decodeEdges_of_loads loads
        rw [ran] at listed
        obtain ⟨e, inEs, rfl⟩ := List.mem_map.mp listed
        obtain ⟨cid, inCids, loads⟩ := Exec.exists_left_of_forall₂ each inEs
        obtain ⟨row, inRows, rfl, at_id⟩ := rows cid inCids
        obtain rfl := (edgesRead.loads row inRows).unique loads
        obtain ⟨x, loads', at_key, here⟩ := filed.exists_of_mem (edgesRead.mem_iff.mp inRows).1
        obtain rfl := loads.unique loads'
        exact ⟨row.object, by rw [← here]; exact congrArg _ at_key, at_id⟩
      rw [outgoingEdges_eq head indexed, incomingEdges_eq head indexed] at inListed
      rcases List.mem_append.mp inListed with outgoing | incoming
      · refine ofRows (fun cid m => ?_) outgoing
        obtain ⟨ae, inBucket, rfl⟩ := List.mem_map.mp m
        obtain ⟨row, inRows, at_src, rfl⟩ := mem_outgoingEntries.mp inBucket
        exact ⟨row, inRows, rfl, by simp [touches, at_src]⟩
      · refine ofRows (fun cid m => ?_) incoming
        obtain ⟨ae, inBucket, rfl⟩ := List.mem_map.mp m
        obtain ⟨row, inRows, at_dst, rfl⟩ := mem_incomingEntries.mp (List.mem_of_mem_take inBucket)
        exact ⟨row, inRows, rfl, by simp [touches, at_dst]⟩

end Pinned

/-! ## What an operation did -/

/-- The state before an operation. -/
def stateBefore (s : Store H) (parent : Option (ReadonlyRepo Cid)) : GraphState Cid :=
  match parent with
  | none => { nodes := fun _ => none, edges := fun _ => none, tombstoned := fun _ => false }
  | some p => .of s p

/-- The first parent of an operation, if it has one, and what it holds. -/
def Follows (s : Store H) (op : ReadonlyRepo Cid) (parent : Option (ReadonlyRepo Cid))
    (g : Graph Cid) : Prop :=
  op.op.parents.head? = parent.map ReadonlyRepo.opId ∧
    match parent with
    | none => g = {}
    | some p => Pinned (fun _ => True) s p g

/-- The trees of an operation and of its first parent have the same separators. -/
def AlignedWith (s : Store H) (op : ReadonlyRepo Cid) (parent : Option (ReadonlyRepo Cid)) : Prop :=
  ∀ p commit before, parent = some p → op.commit = some commit → p.commit = some before →
    Aligned s before.nodes commit.nodes ∧ Aligned s before.edges commit.edges

section Changes

variable {s s' : Store H} {op : ReadonlyRepo Cid} {parent : Option (ReadonlyRepo Cid)}
  {ga gb g : Graph Cid}

/-- A tree of nothing is a leaf. -/
theorem leaf_of_empty {root : Cid} (tree : IsTree s root OrdMap.empty) :
    loadTreeChunk s root = .ok (.leaf []) := by
  obtain ⟨h, holds⟩ := tree
  cases h with
  | zero => exact loadTreeChunk_leaf holds
  | succ h =>
      obtain ⟨run, parts, -, occupied, spans, flat⟩ := holds_succ.mp holds
      cases spans with
      | nil => exact absurd rfl occupied
      | cons here _ => exact absurd (List.append_eq_nil_iff.mp flat).1 here.ne_nil

/-- What is known of the changes of an operation. -/
structure Described (s : Store H) (op : ReadonlyRepo Cid) (parent : Option (ReadonlyRepo Cid))
    (ga gb : Graph Cid) (changes : Changes Cid) : Prop where
  nodesCover : ∀ e, DiffAt ga.nodes.entries gb.nodes.entries e → e ∈ changes.nodes
  nodesRead : ∀ e ∈ changes.nodes, e.ReadFrom ga.nodes.entries gb.nodes.entries
  nodesDiffer : ∀ e ∈ changes.nodes, e.Differs
  edgesCover : ∀ e, DiffAt ga.edges.entries gb.edges.entries e → e ∈ changes.edges
  edgesRead : ∀ e ∈ changes.edges, e.ReadFrom ga.edges.entries gb.edges.entries
  exact' : AlignedWith s op parent → ExactDiff ga.nodes.entries gb.nodes.entries changes.nodes ∧
    ExactDiff ga.edges.entries gb.edges.entries changes.edges
  tombstones : ∀ id, id ∈ changes.tombstones ↔
    op.isTombstoned id = true ∧ (stateBefore s parent).tombstoned id = false

/-- The trees from which the changes are found. -/
theorem beforeRoots_returns (follows : Follows s op parent ga) {roots : Cid × Cid}
    (ran : (beforeRoots (parent.bind fun p => p.view.heads.head?) : StoreM H _).Returns s roots
      s') :
    s ≤ s' ∧ IsTree s' roots.1 ga.nodes ∧ IsTree s' roots.2 ga.edges ∧
      ((∃ p before, parent = some p ∧ p.commit = some before ∧
          roots = (before.nodes, before.edges) ∧ s' = s) ∨
        loadTreeChunk s' roots.1 = .ok (.leaf []) ∧ loadTreeChunk s' roots.2 = .ok (.leaf [])) := by
  have unborn (nothing : ga = {})
      (ran : (beforeRoots none : StoreM H _).Returns s roots s') : s ≤ s' ∧
        IsTree s' roots.1 ga.nodes ∧ IsTree s' roots.2 ga.edges ∧
          loadTreeChunk s' roots.1 = .ok (.leaf []) ∧
            loadTreeChunk s' roots.2 = .ok (.leaf []) := by
    obtain ⟨root, s₁, built, last⟩ := Exec.returns_bind.mp ran
    obtain ⟨rfl, rfl⟩ := Exec.returns_pure.mp last
    obtain ⟨-, le, tree⟩ := (buildTree_succeeds OrdMap.empty s).of_returns built
    rw [nothing]
    exact ⟨le, tree, tree, leaf_of_empty tree, leaf_of_empty tree⟩
  cases parent with
  | none =>
      obtain ⟨le, nodes, edges, leaves⟩ := unborn follows.2 ran
      exact ⟨le, nodes, edges, .inr leaves⟩
  | some p =>
      have pinned : Pinned (fun _ => True) s p ga := follows.2
      have byHead := pinned.commit
      have holds := pinned.holds
      change (beforeRoots p.view.heads.head? : StoreM H _).Returns s roots s' at ran
      cases first : p.view.heads.head? with
      | none =>
          rw [first] at byHead ran
          have nothing : p.commit = none := byHead
          rw [nothing] at holds
          obtain ⟨le, nodes, edges, leaves⟩ := unborn holds ran
          exact ⟨le, nodes, edges, .inr leaves⟩
      | some head =>
          rw [first] at byHead ran
          obtain ⟨before, here, loads⟩ := byHead
          rw [here] at holds
          obtain ⟨read, rfl⟩ := Exec.returns_read.mp ran
          have decoded : s.decodeFromStore (Commit Cid) head = .ok before := loads
          rw [decoded] at read
          obtain rfl := Except.ok.inj read
          exact ⟨le_refl s, (Stands.nodes holds).tree, (Stands.edges holds).tree,
            .inl ⟨p, before, rfl, here, rfl, rfl⟩⟩

/-- **What is read as the changes of an operation.** -/
theorem changesOf_returns (pinned : Pinned (fun _ => True) s op gb)
    (follows : Follows s op parent ga) {changes : Changes Cid}
    (ran : (changesOf op.op (parent.map ReadonlyRepo.op) : StoreM H _).Returns s changes s') :
    s ≤ s' ∧ Described s op parent ga gb changes := by
  obtain ⟨view, s₁, readView, ran⟩ := Exec.returns_bind.mp ran
  obtain ⟨decodedView, rfl⟩ := Exec.returns_read.mp readView
  have viewLoads : s.decodeFromStore (View Cid) op.op.view = .ok op.view := pinned.view
  obtain rfl := Except.ok.inj (decodedView.symm.trans viewLoads)
  have byHead := pinned.commit
  have holds := pinned.holds
  cases first : op.view.heads.head? with
  | none =>
      rw [first] at ran
      exact absurd ran Exec.returns_throw
  | some head =>
      rw [first] at ran byHead
      obtain ⟨commit, here, loads⟩ := byHead
      rw [here] at holds
      obtain ⟨parentView, s₁, readParent, ran⟩ := Exec.returns_bind.mp ran
      obtain ⟨decodedParent, rfl⟩ := Exec.returns_read.mp readParent
      have asView : parentView = parent.map ReadonlyRepo.view := by
        cases parent with
        | none => exact (Except.ok.inj decodedParent).symm
        | some p =>
            have pinned : Pinned (fun _ => True) s p ga := follows.2
            have loads : s.decodeFromStore (View Cid) p.op.view = .ok p.view := pinned.view
            change some <$> s.decodeFromStore (View Cid) p.op.view = _ at decodedParent
            rw [loads] at decodedParent
            exact (Except.ok.inj decodedParent).symm
      obtain ⟨commit', s₁, readCommit, ran⟩ := Exec.returns_bind.mp ran
      obtain ⟨decodedCommit, rfl⟩ := Exec.returns_read.mp readCommit
      have commitLoads : s.decodeFromStore (Commit Cid) head = .ok commit := loads
      obtain rfl := Except.ok.inj (decodedCommit.symm.trans commitLoads)
      obtain ⟨roots, s₁, before, ran⟩ := Exec.returns_bind.mp ran
      obtain ⟨nodes, s₂, readNodes, ran⟩ := Exec.returns_bind.mp ran
      obtain ⟨diffNodes, rfl⟩ := Exec.returns_read.mp readNodes
      obtain ⟨edges, s₂, readEdges, ran⟩ := Exec.returns_bind.mp ran
      obtain ⟨diffEdges, rfl⟩ := Exec.returns_read.mp readEdges
      obtain ⟨rfl, rfl⟩ := Exec.returns_pure.mp ran
      subst asView
      have asHead : (parent.map ReadonlyRepo.view).bind (fun v => v.heads.head?) =
          parent.bind fun p => p.view.heads.head? := by
        cases parent <;> rfl
      rw [asHead] at before
      obtain ⟨le, nodesTree, edgesTree, either⟩ := beforeRoots_returns follows before
      have stands : Stands s₁ commit' gb := Stands.mono holds le
      obtain ⟨out, ranNodes, nodesWalk⟩ := diff_walk nodesTree stands.nodes.tree
      obtain rfl := Except.ok.inj (ranNodes.symm.trans diffNodes)
      obtain ⟨out', ranEdges, edgesWalk⟩ := diff_walk edgesTree stands.edges.tree
      obtain rfl := Except.ok.inj (ranEdges.symm.trans diffEdges)
      refine ⟨le, nodesWalk.covers, nodesWalk.values, diff_differs diffNodes, edgesWalk.covers,
        edgesWalk.values, fun aligned => ?_, fun id => ?_⟩
      · rcases either with ⟨p, commitBefore, rfl, born, rfl, rfl⟩ | ⟨leafNodes, leafEdges⟩
        · obtain ⟨alignedNodes, alignedEdges⟩ := aligned p _ _ rfl here born
          exact ⟨nodesWalk.exact_of alignedNodes, edgesWalk.exact_of alignedEdges⟩
        · exact ⟨nodesWalk.exact_of (.leafLeft leafNodes), edgesWalk.exact_of (.leafLeft leafEdges)⟩
      · change id ∈ op.view.tombstones.keys.filter _ ↔ op.view.tombstones.contains id = true ∧ _
        rw [List.mem_filter, OrdMap.mem_keys_iff]
        refine and_congr Iff.rfl ?_
        cases parent with
        | none => simp [stateBefore]
        | some p =>
            change (!p.view.tombstones.contains id) = true ↔ p.view.tombstones.contains id = false
            simp

end Changes

/-! ## What is staged -/

section Staging

variable {s s' : Store H} {r op : ReadonlyRepo Cid} {parent : Option (ReadonlyRepo Cid)}
  {ga gb g : Graph Cid} {changes : Changes Cid}

/-- The calls about nodes, about edges and about tombstones. -/
def nodeCalls (before current : GraphState Cid) (changes : Changes Cid) : List (Call Cid) :=
  changes.nodes.filterMap ((nodeKind (H := H)).call before.nodes current.nodes)

def edgeCalls (before current : GraphState Cid) (changes : Changes Cid) : List (Call Cid) :=
  changes.edges.filterMap ((edgeKind (H := H)).call before.edges current.edges)

def tombstoneCalls (current : GraphState Cid) (changes : Changes Cid) : List (Call Cid) :=
  (changes.tombstones.filter current.tombstoned).map .untombstoneNode

def inverseCalls (H : Hashing Cid) (before current : GraphState Cid) (changes : Changes Cid) :
    List (Call Cid) :=
  nodeCalls (H := H) before current changes ++ edgeCalls (H := H) before current changes ++
    tombstoneCalls current changes

theorem stage_append (s : Store H) (tx : Transaction Cid) (first rest : List (Call Cid)) :
    tx.stage s (first ++ rest) = (tx.stage s first).1.stage (tx.stage s first).2 rest := by
  induction first generalizing s tx with
  | nil => rfl
  | cons call first ih => exact ih _ _

theorem untombstone_foldl (s : Store H) (ids : List NodeId) (tx : Transaction Cid) (n : Nat) :
    tx.stage s ((ids.filter tx.base.isTombstoned).map .untombstoneNode) =
        ((ids.foldl untombstone (tx, n)).1, s) ∧
      (ids.foldl untombstone (tx, n)).2 = n + (ids.filter tx.base.isTombstoned).length := by
  induction ids generalizing tx n with
  | nil => exact ⟨rfl, rfl⟩
  | cons id ids ih =>
      rw [List.foldl_cons, untombstone, List.filter_cons]
      by_cases there : tx.base.isTombstoned id = true
      · obtain ⟨staged, count⟩ := ih (tx.untombstoneNode id) (n + 1)
        rw [if_pos there, if_pos there]
        refine ⟨staged, count.trans ?_⟩
        change n + 1 + (ids.filter tx.base.isTombstoned).length = _
        rw [List.length_cons]
        omega
      · rw [if_neg there, if_neg there]
        exact ih tx n

/-- What the parent of an operation had. -/
theorem filed_before (follows : Follows s op parent ga) :
    Filed nodeKind s ga.nodes (stateBefore s parent).nodes ∧
      Filed edgeKind s ga.edges (stateBefore s parent).edges := by
  cases parent with
  | none =>
      obtain rfl : ga = {} := follows.2
      exact ⟨⟨fun _ => rfl, fun _ _ here => nomatch here⟩, fun _ => rfl,
        fun _ _ here => nomatch here⟩
  | some p => exact filed_of_pinned follows.2

/-- **What is staged is the calls that take the changes back.** -/
theorem stageInverse_returns (pinned : Pinned (fun _ => True) s r g)
    (target : Pinned (fun _ => True) s op gb) (follows : Follows s op parent ga)
    (described : Described s op parent ga gb changes) {s₀ : Store H} (le : s ≤ s₀)
    {out : Transaction Cid × Nat} (ran : (stageInverse r changes).Returns s₀ out s') :
    (Transaction.new r).stage s₀ (inverseCalls H (stateBefore s parent) (.of s r) changes) =
        (out.1, s') ∧
      out.2 = (inverseCalls H (stateBefore s parent) (.of s r) changes).length := by
  obtain ⟨nodesWere, edgesWere⟩ := filed_before follows
  obtain ⟨nodesBecame, edgesBecame⟩ := filed_of_pinned target
  obtain ⟨⟨tx₁, n₁⟩, s₁, nodes, ran⟩ := Exec.returns_bind.mp ran
  obtain ⟨⟨tx₂, n₂⟩, s₂, edges, last⟩ := Exec.returns_bind.mp ran
  obtain ⟨rfl, rfl⟩ := Exec.returns_pure.mp last
  obtain ⟨staged₁, count₁⟩ := takeBack_returns nodesWere nodesBecame
    (fun s' le => (reads_of_pinned pinned le).1) described.nodesRead rfl le nodes
  change (Transaction.new r).stage s₀
    (nodeCalls (H := H) (stateBefore s parent) (.of s r) changes) = (tx₁, s₁) at staged₁
  have le₁ := le_stage s₀ (Transaction.new r)
    (nodeCalls (H := H) (stateBefore s parent) (.of s r) changes)
  have base₁ := base_stage s₀ (Transaction.new r)
    (nodeCalls (H := H) (stateBefore s parent) (.of s r) changes)
  rw [staged₁] at le₁ base₁
  obtain ⟨staged₂, count₂⟩ := takeBack_returns edgesWere edgesBecame
    (fun s' le => (reads_of_pinned pinned le).2) described.edgesRead base₁ (le.trans le₁) edges
  change tx₁.stage s₁ (edgeCalls (H := H) (stateBefore s parent) (.of s r) changes) = (tx₂, s₂)
    at staged₂
  have base₂ := base_stage s₁ tx₁ (edgeCalls (H := H) (stateBefore s parent) (.of s r) changes)
  rw [staged₂] at base₂
  obtain ⟨staged₃, count₃⟩ := untombstone_foldl s₂ changes.tombstones tx₂ n₂
  rw [base₂.trans base₁] at staged₃ count₃
  refine ⟨?_, ?_⟩
  · rw [inverseCalls, stage_append, stage_append, staged₁, staged₂]
    exact staged₃
  · dsimp only at count₁ count₂
    rw [count₃, count₂, count₁, inverseCalls, List.length_append, List.length_append,
      tombstoneCalls, List.length_map, Nat.zero_add]
    rfl

end Staging

/-! ## What the calls leave -/

section Effect

variable {α : Type} {same : α → α → Bool} {before current : ProllyKey → Option α}

theorem taken_eq_some {b c : Option α} {e : DiffEntry Cid} {x : α}
    (back : taken same b c e = some (some x)) : b = some x := by
  cases e <;> simp only [taken] at back <;> split at back <;> simp_all

theorem lastTaken_cons (k : ProllyKey) (e : DiffEntry Cid) (es : List (DiffEntry Cid))
    (last : Option (Option α)) : lastTaken same before current k (e :: es) last =
      lastTaken same before current k es
        (if e.key = k then (taken same (before k) (current k) e).or last else last) := rfl

/-- Every object has its own id and an encoding. -/
def Proper (H : Hashing Cid) [Object Cid α] (K : Kind H α) (state : ProllyKey → Option α) : Prop :=
  ∀ k x, state k = some x → K.id x = k ∧ H.encodes (Object.toBlock x) = true

theorem Filed.proper [Object Cid α] {K : Kind H α} {s : Store H} {m : OrdMap ProllyKey Cid}
    {state : ProllyKey → Option α} (filed : Filed K s m state) : Proper H K state :=
  fun k x here =>
    ⟨(filed.2 k x here).1, Store.encodes_of_get (Store.loads_iff.mp (filed.2 k x here).2)⟩

/-- The nodes that the log has after the calls about nodes. -/
theorem nodes_foldl {before current : ProllyKey → Option (Node Cid)}
    (proper : Proper H nodeKind before) (es : List (DiffEntry Cid)) (k : ProllyKey)
    {log : GraphState Cid} {last : Option (Option (Node Cid))} {now : Option (Node Cid)}
    (start : log.nodes k = last.getD now) :
    ((es.filterMap ((nodeKind (H := H)).call before current)).foldl (GraphState.apply H)
      log).nodes k = (lastTaken nodeEq before current k es last).getD now := by
  induction es generalizing log last with
  | nil => exact start
  | cons e es ih =>
      rw [lastTaken_cons, List.filterMap_cons]
      cases back : taken nodeEq (before e.key) (current e.key) e with
      | none =>
          rw [show (nodeKind (H := H)).call before current e = none by
            simp [Kind.call, nodeKind, back]]
          refine ih ?_
          split
          · rename_i at_k
            rw [← at_k, back, Option.none_or, at_k]
            exact start
          · exact start
      | some was =>
          cases was with
          | none =>
              rw [show (nodeKind (H := H)).call before current e = some (.removeNode e.key) by
                simp [Kind.call, nodeKind, back]]
              refine ih ?_
              change Function.update log.nodes e.key none k = _
              split
              · rename_i at_k
                rw [← at_k, back, Function.update_self]
                rfl
              · rename_i elsewhere
                rw [Function.update_of_ne (Ne.symm elsewhere)]
                exact start
          | some x =>
              obtain ⟨filed, encodes⟩ := proper e.key x (taken_eq_some back)
              have at_id : x.id = e.key := filed
              rw [show (nodeKind (H := H)).call before current e = some (.addNode x) by
                simp [Kind.call, nodeKind, back]]
              refine ih ?_
              rw [GraphState.apply, if_pos encodes, at_id]
              change Function.update log.nodes e.key (some x) k = _
              split
              · rename_i at_k
                rw [← at_k, back, Function.update_self]
                rfl
              · rename_i elsewhere
                rw [Function.update_of_ne (Ne.symm elsewhere)]
                exact start

/-- The trail of an edge after a call for it. -/
def trailOf (t : Trail Cid) (last : Option (Option (Edge Cid))) : Trail Cid :=
  last.elim t fun edge => ⟨edge, true, []⟩

/-- The trail of an edge after the calls about edges. -/
theorem trail_foldl_edges {before : ProllyKey → Option (Edge Cid)}
    (proper : Proper H edgeKind before) (current : ProllyKey → Option (Edge Cid))
    (es : List (DiffEntry Cid)) (k : ProllyKey) (t : Trail Cid)
    (last : Option (Option (Edge Cid))) :
    (es.filterMap ((edgeKind (H := H)).call before current)).foldl (Trail.after H k)
        (trailOf t last) = trailOf t (lastTaken edgeEq before current k es last) := by
  induction es generalizing last with
  | nil => rfl
  | cons e es ih =>
      rw [lastTaken_cons, List.filterMap_cons]
      cases back : taken edgeEq (before e.key) (current e.key) e with
      | none =>
          rw [show (edgeKind (H := H)).call before current e = none by
            simp [Kind.call, edgeKind, back]]
          refine (ih last).trans ?_
          split
          · rename_i at_k
            rw [← at_k, back, Option.none_or]
          · rfl
      | some was =>
          cases was with
          | none =>
              rw [show (edgeKind (H := H)).call before current e = some (.removeEdge e.key) by
                simp [Kind.call, edgeKind, back]]
              change List.foldl _ (if e.key = k then ⟨none, true, []⟩ else trailOf t last) _ = _
              split
              · rename_i at_k
                rw [← at_k, back]
                exact at_k ▸ ih (some none)
              · exact ih last
          | some x =>
              obtain ⟨filed, encodes⟩ := proper e.key x (taken_eq_some back)
              have at_id : x.id = e.key := filed
              rw [show (edgeKind (H := H)).call before current e = some (.addEdge x) by
                simp [Kind.call, edgeKind, back]]
              change List.foldl _ (if x.id = k ∧ H.encodes (Object.toBlock x) then
                ⟨some x, true, []⟩ else trailOf t last) _ = _
              rw [at_id]
              split
              · rename_i at_k
                rw [if_pos at_k.1, ← at_k.1, back]
                exact at_k.1 ▸ ih (some (some x))
              · rename_i elsewhere
                rw [if_neg fun at_k => elsewhere ⟨at_k, encodes⟩]
                exact ih last

/-- An edge goes with a node that is taken back to nothing. -/
def cutBy (listed : NodeId → List EdgeId) (before current : ProllyKey → Option (Node Cid))
    (es : List (DiffEntry Cid)) (k : EdgeId) : Bool :=
  es.any fun e => (taken nodeEq (before e.key) (current e.key) e).any Option.isNone &&
    (listed e.key).contains k

/-- The trail of an edge that is not staged, after the calls about nodes. -/
theorem trail_foldl_nodes (before current : ProllyKey → Option (Node Cid))
    (listed : NodeId → List EdgeId) (es : List (DiffEntry Cid)) (k : EdgeId) {t : Trail Cid}
    (unstaged : t.staged = false) :
    ∃ t' : Trail Cid,
      (es.filterMap ((nodeKind (H := H)).call before current)).foldl (Trail.after H k) t = t' ∧
        t'.edge = t.edge ∧ t'.staged = false ∧
          t'.cut listed k = (t.cut listed k || cutBy listed before current es k) := by
  induction es generalizing t with
  | nil => exact ⟨t, rfl, rfl, unstaged, by simp [cutBy]⟩
  | cons e es ih =>
      rw [List.filterMap_cons]
      have unfolded : cutBy listed before current (e :: es) k =
          (((taken nodeEq (before e.key) (current e.key) e).any Option.isNone &&
            (listed e.key).contains k) || cutBy listed before current es k) := rfl
      cases back : taken nodeEq (before e.key) (current e.key) e with
      | none =>
          rw [show (nodeKind (H := H)).call before current e = none by
            simp [Kind.call, nodeKind, back], unfolded, back]
          exact ih unstaged
      | some was =>
          cases was with
          | none =>
              rw [show (nodeKind (H := H)).call before current e = some (.removeNode e.key) by
                simp [Kind.call, nodeKind, back], unfolded, back]
              obtain ⟨t', ran, edge, staged, cut⟩ :=
                ih (t := { t with removals := e.key :: t.removals }) unstaged
              refine ⟨t', ran, edge, staged, cut.trans ?_⟩
              have here : Trail.cut listed k { t with removals := e.key :: t.removals } =
                  ((listed e.key).contains k || t.cut listed k) := by
                simp [Trail.cut, unstaged]
              rw [here]
              cases (listed e.key).contains k <;> cases t.cut listed k <;> rfl
          | some x =>
              rw [show (nodeKind (H := H)).call before current e = some (.addNode x) by
                simp [Kind.call, nodeKind, back], unfolded, back]
              exact ih unstaged

end Effect

end Mnem.Cli.Revert
