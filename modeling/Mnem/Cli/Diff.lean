/-
# Cli.Diff — what `mnem diff --json` reports

The command loads the views of two operations, compares their refs by name, and,
when both views have a head commit, diffs the node trees and the edge trees and
shows each difference by the object it is about.  With one commit missing it
shows none, and where the tree diff repeats itself the report does
(`run_exact_iff`).
-/
import Mnem.Prolly.Diff
import Mnem.Repo.Snapshot

namespace Mnem.Cli.Diff

open Theory Prolly Repo

set_option autoImplicit false
set_option linter.unusedSectionVars false

variable {Cid : Type} {H : Hashing Cid} [LinearOrder Cid]

/-! ## The report -/

inductive DeltaType where
  | added
  | removed
  | changed
  deriving DecidableEq

/-- The kind of a difference. -/
def deltaType : DiffEntry Cid → DeltaType
  | .added _ _ => .added
  | .removed _ _ => .removed
  | .changed _ _ _ => .changed

structure NodeBeforeState where
  ntype : String
  summary : Option String
  deriving DecidableEq

structure NodeDelta where
  deltaType : DeltaType
  id : NodeId
  ntype : String
  summary : Option String
  before : Option NodeBeforeState
  deriving DecidableEq

structure EdgeBeforeState where
  label : String
  src : NodeId
  dst : NodeId
  deriving DecidableEq

/-- Unlike a node, an edge is shown without its id. -/
structure EdgeDelta where
  deltaType : DeltaType
  label : String
  src : NodeId
  dst : NodeId
  before : Option EdgeBeforeState
  deriving DecidableEq

/-- Names with targets; a changed ref has the target before and the target after. -/
structure RefDeltas where
  added : List (String × String)
  removed : List (String × String)
  changed : List (String × String × String)

structure DiffOutput (Cid : Type) where
  opA : Cid
  opB : Cid
  commitA : Option Cid
  commitB : Option Cid
  refDeltas : RefDeltas
  nodeDeltas : List NodeDelta
  edgeDeltas : List EdgeDelta

def refTargetStr (H : Hashing Cid) : RefTarget Cid → String
  | .normal target => H.cidString target
  | .conflicted adds _ => (adds.head?.map H.cidString).getD "<conflicted>"

def refDeltas (H : Hashing Cid) (a b : OrdMap String (RefTarget Cid)) : RefDeltas where
  added := b.entries.filterMap fun e =>
    if (a.get? e.1).isNone then some (e.1, refTargetStr H e.2) else none
  removed := a.entries.filterMap fun e =>
    if (b.get? e.1).isNone then some (e.1, refTargetStr H e.2) else none
  changed := b.entries.filterMap fun e => (a.get? e.1).bind fun prev =>
    if prev ≠ e.2 then some (e.1, refTargetStr H prev, refTargetStr H e.2) else none

section Command

variable (s : Store H)

def nodeFromBlockstore (valueCid : Cid) : Option (Node Cid) :=
  (s.decodeFromStore (Node Cid) valueCid).toOption

def edgeFromBlockstore (valueCid : Cid) : Option (Edge Cid) :=
  (s.decodeFromStore (Edge Cid) valueCid).toOption

def nodeDeltaJson : DiffEntry Cid → Option NodeDelta
  | .added _ value => (nodeFromBlockstore s value).map fun node =>
      { deltaType := .added, id := node.id, ntype := node.ntype, summary := node.summary,
        before := none }
  | .removed _ value => (nodeFromBlockstore s value).map fun node =>
      { deltaType := .removed, id := node.id, ntype := node.ntype, summary := node.summary,
        before := none }
  | .changed _ before after => (nodeFromBlockstore s after).map fun nodeAfter =>
      { deltaType := .changed, id := nodeAfter.id, ntype := nodeAfter.ntype,
        summary := nodeAfter.summary,
        before := (nodeFromBlockstore s before).map fun n => ⟨n.ntype, n.summary⟩ }

def edgeDeltaJson : DiffEntry Cid → Option EdgeDelta
  | .added _ value => (edgeFromBlockstore s value).map fun edge =>
      { deltaType := .added, label := edge.etype, src := edge.src, dst := edge.dst, before := none }
  | .removed _ value => (edgeFromBlockstore s value).map fun edge =>
      { deltaType := .removed, label := edge.etype, src := edge.src, dst := edge.dst, before := none }
  | .changed _ before after => (edgeFromBlockstore s after).map fun edgeAfter =>
      { deltaType := .changed, label := edgeAfter.etype, src := edgeAfter.src, dst := edgeAfter.dst,
        before := (edgeFromBlockstore s before).map fun e => ⟨e.etype, e.src, e.dst⟩ }

/-- The deltas between two head commits, none unless both are there. -/
def headDeltas : Option Cid → Option Cid → Except (Error Cid) (List NodeDelta × List EdgeDelta)
  | some ha, some hb => do
      let commitA ← s.decodeFromStore (Commit Cid) ha
      let commitB ← s.decodeFromStore (Commit Cid) hb
      let nodeChanges ← diff s commitA.nodes commitB.nodes
      let edgeChanges ← diff s commitA.edges commitB.edges
      return (nodeChanges.filterMap (nodeDeltaJson s), edgeChanges.filterMap (edgeDeltaJson s))
  | _, _ => return ([], [])

/-- `mnem diff --json`, of operations that are resolved. -/
def run (aCid bCid : Cid) : Except (Error Cid) (DiffOutput Cid) := do
  let opA ← s.decodeFromStore (Operation Cid) aCid
  let opB ← s.decodeFromStore (Operation Cid) bCid
  let viewA ← s.decodeFromStore (View Cid) opA.view
  let viewB ← s.decodeFromStore (View Cid) opB.view
  let (nodeDeltas, edgeDeltas) ← headDeltas s viewA.heads.head? viewB.heads.head?
  return {
    opA := aCid
    opB := bCid
    commitA := viewA.heads.head?
    commitB := viewB.heads.head?
    refDeltas := refDeltas H viewA.refs viewB.refs
    nodeDeltas
    edgeDeltas }

end Command

/-! ## What it should report -/

/-- What the difference is shown by: the object that there is, or that there was. -/
def shown : DiffEntry Cid → Cid
  | .added _ value => value
  | .removed _ value => value
  | .changed _ _ after => after

def ShowsNode (s : Store H) (e : DiffEntry Cid) (d : NodeDelta) : Prop :=
  d.deltaType = deltaType e ∧ d.id = e.key ∧ ∃ node : Node Cid, s.Loads (shown e) node ∧
    node.id = e.key ∧ d.ntype = node.ntype ∧ d.summary = node.summary

def ShowsEdge (s : Store H) (e : DiffEntry Cid) (d : EdgeDelta) : Prop :=
  d.deltaType = deltaType e ∧ ∃ edge : Edge Cid, s.Loads (shown e) edge ∧
    edge.id = e.key ∧ d.label = edge.etype ∧ d.src = edge.src ∧ d.dst = edge.dst

/-- The deltas show every difference from `a` to `b` once, and nothing else. -/
def Reports {D : Type} (a b : List (ProllyKey × Cid)) (shows : DiffEntry Cid → D → Prop)
    (deltas : List D) : Prop :=
  ∃ es, Listed a b es ∧ List.Forall₂ shows es deltas

/-- The report is of the differences between two graphs. -/
structure Exact (s : Store H) (ga gb : Graph Cid) (nodeDeltas : List NodeDelta)
    (edgeDeltas : List EdgeDelta) : Prop where
  nodes : Reports ga.nodes.entries gb.nodes.entries (ShowsNode s) nodeDeltas
  edges : Reports ga.edges.entries gb.edges.entries (ShowsEdge s) edgeDeltas

section Show

variable {s : Store H}

/-- A difference between two tables is about an object filed under its key. -/
theorem exists_shown {α : Type} [Object Cid α] {idOf : α → ProllyKey} {rootA rootB : Cid}
    {a b : OrdMap ProllyKey Cid} (tableA : Table idOf s rootA a) (tableB : Table idOf s rootB b)
    {e : DiffEntry Cid} (read : e.ReadFrom a.entries b.entries) :
    ∃ x : α, s.Loads (shown e) x ∧ idOf x = e.key := by
  cases e with
  | added k v => exact tableB.filed k v (b.get?_eq_some_iff.mpr read)
  | removed k v => exact tableA.filed k v (a.get?_eq_some_iff.mpr read)
  | changed k x y => exact tableB.filed k y (b.get?_eq_some_iff.mpr read.2)

theorem nodeFromBlockstore_of_loads {cid : Cid} {node : Node Cid} (loads : s.Loads cid node) :
    nodeFromBlockstore s cid = some node := by
  have decoded : s.decodeFromStore (Node Cid) cid = .ok node := loads
  rw [nodeFromBlockstore, decoded]
  rfl

theorem edgeFromBlockstore_of_loads {cid : Cid} {edge : Edge Cid} (loads : s.Loads cid edge) :
    edgeFromBlockstore s cid = some edge := by
  have decoded : s.decodeFromStore (Edge Cid) cid = .ok edge := loads
  rw [edgeFromBlockstore, decoded]
  rfl

theorem exists_nodeDelta {e : DiffEntry Cid} {node : Node Cid} (loads : s.Loads (shown e) node)
    (filed : node.id = e.key) : ∃ d, nodeDeltaJson s e = some d ∧ ShowsNode s e d := by
  have read := nodeFromBlockstore_of_loads loads
  cases e <;> simp only [nodeDeltaJson, shown] at read ⊢ <;> rw [read, Option.map_some] <;>
    exact ⟨_, rfl, rfl, filed, node, loads, filed, rfl, rfl⟩

theorem exists_edgeDelta {e : DiffEntry Cid} {edge : Edge Cid} (loads : s.Loads (shown e) edge)
    (filed : edge.id = e.key) : ∃ d, edgeDeltaJson s e = some d ∧ ShowsEdge s e d := by
  have read := edgeFromBlockstore_of_loads loads
  cases e <;> simp only [edgeDeltaJson, shown] at read ⊢ <;> rw [read, Option.map_some] <;>
    exact ⟨_, rfl, rfl, edge, loads, filed, rfl, rfl, rfl⟩

end Show

section Report

variable {s : Store H} {D : Type} {shows : DiffEntry Cid → D → Prop}

theorem forall₂_filterMap {f : DiffEntry Cid → Option D} {es : List (DiffEntry Cid)}
    (each : ∀ e ∈ es, ∃ d, f e = some d ∧ shows e d) : List.Forall₂ shows es (es.filterMap f) := by
  induction es with
  | nil => exact .nil
  | cons e es ih =>
      obtain ⟨d, made, shown⟩ := each e List.mem_cons_self
      rw [List.filterMap_cons, made]
      exact .cons shown (ih fun e' m => each e' (List.mem_cons_of_mem _ m))

/-- The report of a tree diff is exact when the trees are aligned. -/
theorem reports_iff {rootA rootB : Cid} {a b : List (ProllyKey × Cid)} {out : List (DiffEntry Cid)}
    (walk : WalkSpec s rootA rootB a b out) {f : DiffEntry Cid → Option D}
    (each : ∀ e ∈ out, ∃ d, f e = some d ∧ shows e d) :
    Reports a b shows (out.filterMap f) ↔ Aligned s rootA rootB := by
  have all := forall₂_filterMap each
  constructor
  · rintro ⟨es, listed, shown⟩
    exact walk.aligned (walk.listed_of_length listed (all.length_eq.trans shown.length_eq.symm))
  · exact fun aligned => ⟨out, (walk.exact_of aligned).listed, all⟩

/-- Nothing is to be reported exactly of equal maps. -/
theorem reports_nil_iff (a b : OrdMap ProllyKey Cid) :
    Reports a.entries b.entries shows [] ↔ a = b := by
  constructor
  · rintro ⟨es, listed, shown⟩
    cases shown
    ext k : 1
    by_contra differ
    have none_at : ∀ e : DiffEntry Cid, ¬ DiffAt a.entries b.entries e := fun e at_e =>
      List.not_mem_nil ((listed.2 e).mpr at_e)
    cases inA : a.get? k with
    | none =>
        cases inB : b.get? k with
        | none => exact differ (inA.trans inB.symm)
        | some y => exact none_at (.added k y) ⟨inA, inB⟩
    | some x =>
        cases inB : b.get? k with
        | none => exact none_at (.removed k x) ⟨inA, inB⟩
        | some y =>
            refine none_at (.changed k x y) ⟨inA, inB, fun same => differ ?_⟩
            rw [inA, inB, same]
  · rintro rfl
    exact ⟨[], (exactDiff_self a.entries).listed, .nil⟩

end Report

/-! ## When it does -/

section Run

variable {P : Graph Cid → Prop} {s : Store H} {ra rb : ReadonlyRepo Cid} {ga gb : Graph Cid}

/-- The head of a pinned view is the commit, if there is one. -/
theorem head?_of_commit {r : ReadonlyRepo Cid} {g : Graph Cid} (pinned : Pinned P s r g)
    {commit : Commit Cid} (head : r.commit = some commit) :
    ∃ cid, r.view.heads.head? = some cid ∧ s.Loads cid commit := by
  have byHead := pinned.commit
  cases first : r.view.heads.head? with
  | none =>
      rw [first, head] at byHead
      cases byHead
  | some cid =>
      rw [first] at byHead
      obtain ⟨commit', head', loads⟩ := byHead
      cases head.symm.trans head'
      exact ⟨cid, rfl, loads⟩

theorem stands_of_commit {r : ReadonlyRepo Cid} {g : Graph Cid} (pinned : Pinned P s r g)
    {commit : Commit Cid} (head : r.commit = some commit) : Stands s commit g := by
  have holds := pinned.holds
  rw [head] at holds
  exact holds

theorem head?_of_none {r : ReadonlyRepo Cid} {g : Graph Cid} (pinned : Pinned P s r g)
    (unborn : r.commit = none) : r.view.heads.head? = none := by
  have byHead := pinned.commit
  cases first : r.view.heads.head? with
  | none => rfl
  | some cid =>
      rw [first, unborn] at byHead
      obtain ⟨_, head, -⟩ := byHead
      cases head

theorem headDeltas_of_none {ha hb : Option Cid} (missing : ha = none ∨ hb = none) :
    headDeltas s ha hb = .ok ([], []) := by
  rcases missing with rfl | rfl
  · rfl
  · cases ha <;> rfl

/-- The command returns what it finds between the two heads. -/
theorem run_eq (pinnedA : Pinned P s ra ga) (pinnedB : Pinned P s rb gb)
    {deltas : List NodeDelta × List EdgeDelta}
    (found : headDeltas s ra.view.heads.head? rb.view.heads.head? = .ok deltas) :
    run s ra.opId rb.opId = .ok {
      opA := ra.opId
      opB := rb.opId
      commitA := ra.view.heads.head?
      commitB := rb.view.heads.head?
      refDeltas := refDeltas H ra.view.refs rb.view.refs
      nodeDeltas := deltas.1
      edgeDeltas := deltas.2 } := by
  have opA : s.decodeFromStore (Operation Cid) ra.opId = .ok ra.op := pinnedA.op
  have opB : s.decodeFromStore (Operation Cid) rb.opId = .ok rb.op := pinnedB.op
  have viewA : s.decodeFromStore (View Cid) ra.op.view = .ok ra.view := pinnedA.view
  have viewB : s.decodeFromStore (View Cid) rb.op.view = .ok rb.view := pinnedB.view
  unfold run
  rw [opA, opB]
  change (s.decodeFromStore (View Cid) ra.op.view >>= _) = _
  rw [viewA]
  change (s.decodeFromStore (View Cid) rb.op.view >>= _) = _
  rw [viewB]
  change (headDeltas s ra.view.heads.head? rb.view.heads.head? >>= _) = _
  rw [found]
  rfl

/-- Between two head commits the trees are diffed. -/
theorem headDeltas_of_some {ca cb : Commit Cid} {ha hb : Cid} (loadsA : s.Loads ha ca)
    (loadsB : s.Loads hb cb) {nodeChanges edgeChanges : List (DiffEntry Cid)}
    (nodes : diff s ca.nodes cb.nodes = .ok nodeChanges)
    (edges : diff s ca.edges cb.edges = .ok edgeChanges) :
    headDeltas s (some ha) (some hb) =
      .ok (nodeChanges.filterMap (nodeDeltaJson s), edgeChanges.filterMap (edgeDeltaJson s)) := by
  have decodedA : s.decodeFromStore (Commit Cid) ha = .ok ca := loadsA
  have decodedB : s.decodeFromStore (Commit Cid) hb = .ok cb := loadsB
  change (s.decodeFromStore (Commit Cid) ha >>= _) = _
  rw [decodedA]
  change (s.decodeFromStore (Commit Cid) hb >>= _) = _
  rw [decodedB]
  change (diff s ca.nodes cb.nodes >>= _) = _
  rw [nodes]
  change (diff s ca.edges cb.edges >>= _) = _
  rw [edges]
  rfl

/-- **The report of the command.**  Between two head commits it is exact when the node trees are
aligned and the edge trees are; with a commit missing, when the other one has nothing. -/
theorem run_exact_iff (pinnedA : Pinned P s ra ga) (pinnedB : Pinned P s rb gb) :
    ∃ out, run s ra.opId rb.opId = .ok out ∧
      (∀ ca cb, ra.commit = some ca → rb.commit = some cb →
        (Exact s ga gb out.nodeDeltas out.edgeDeltas ↔
          Aligned s ca.nodes cb.nodes ∧ Aligned s ca.edges cb.edges)) ∧
      (ra.commit = none ∨ rb.commit = none →
        (Exact s ga gb out.nodeDeltas out.edgeDeltas ↔ ga.nodes = gb.nodes ∧ ga.edges = gb.edges)) := by
  by_cases missing : ra.commit = none ∨ rb.commit = none
  · have heads : ra.view.heads.head? = none ∨ rb.view.heads.head? = none :=
      missing.imp (head?_of_none pinnedA) (head?_of_none pinnedB)
    refine ⟨_, run_eq pinnedA pinnedB (headDeltas_of_none heads), fun ca cb headA headB => ?_,
      fun _ => ?_⟩
    · rcases missing with none | none
      · cases none.symm.trans headA
      · cases none.symm.trans headB
    · constructor
      · exact fun exact' => ⟨(reports_nil_iff _ _).mp exact'.nodes, (reports_nil_iff _ _).mp exact'.edges⟩
      · exact fun same => ⟨(reports_nil_iff _ _).mpr same.1, (reports_nil_iff _ _).mpr same.2⟩
  · obtain ⟨bornA, bornB⟩ := not_or.mp missing
    obtain ⟨ca, headA⟩ := Option.ne_none_iff_exists'.mp bornA
    obtain ⟨cb, headB⟩ := Option.ne_none_iff_exists'.mp bornB
    have standsA := stands_of_commit pinnedA headA
    have standsB := stands_of_commit pinnedB headB
    obtain ⟨ha, firstA, loadsA⟩ := head?_of_commit pinnedA headA
    obtain ⟨hb, firstB, loadsB⟩ := head?_of_commit pinnedB headB
    obtain ⟨nodeChanges, nodesRan, nodesWalk⟩ := diff_walk standsA.nodes.tree standsB.nodes.tree
    obtain ⟨edgeChanges, edgesRan, edgesWalk⟩ := diff_walk standsA.edges.tree standsB.edges.tree
    have found := headDeltas_of_some loadsA loadsB nodesRan edgesRan
    rw [← firstA, ← firstB] at found
    have nodes : Reports _ _ (ShowsNode s) _ ↔ Aligned s _ _ :=
        reports_iff nodesWalk (f := nodeDeltaJson s) fun e m => by
      obtain ⟨node, loads, filed⟩ := exists_shown standsA.nodes standsB.nodes (nodesWalk.values e m)
      exact exists_nodeDelta loads filed
    have edges : Reports _ _ (ShowsEdge s) _ ↔ Aligned s _ _ :=
        reports_iff edgesWalk (f := edgeDeltaJson s) fun e m => by
      obtain ⟨edge, loads, filed⟩ := exists_shown standsA.edges standsB.edges (edgesWalk.values e m)
      exact exists_edgeDelta loads filed
    refine ⟨_, run_eq pinnedA pinnedB found, fun ca' cb' headA' headB' => ?_, fun unborn => ?_⟩
    · cases headA.symm.trans headA'
      cases headB.symm.trans headB'
      constructor
      · exact fun exact' => ⟨nodes.mp exact'.nodes, edges.mp exact'.edges⟩
      · exact fun aligned => ⟨nodes.mpr aligned.1, edges.mpr aligned.2⟩
    · exact absurd unborn missing

end Run

end Mnem.Cli.Diff
