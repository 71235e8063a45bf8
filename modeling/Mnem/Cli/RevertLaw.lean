/-
# Cli.RevertLaw — what a revert leaves

Each node and each edge ends where the last report that acts on it takes it
(`revert_effect`).  From there:

* `revert_undoes`: between aligned trees, what the operation left alone stays as
  it is now, and everything else goes back.
* `revert_spares_iff`: between any trees, a node that the operation left alone is
  changed all the same exactly where the diff reports it.
* `revert_restores`: taking back the last operation restores what was before it.
* `revert_refused`: an operation that removed an edge is not taken back while an
  endpoint of the edge is missing or tombstoned.
-/
import Mnem.Cli.Revert
import Mnem.Theory.Fails

namespace Mnem.Cli.Revert

open Theory Prolly Repo Transaction

set_option autoImplicit false
set_option linter.unusedSectionVars false

variable {Cid : Type} {H : Hashing Cid} [LinearOrder Cid]

/-! ## An exact diff -/

section Exact

variable {α : Type} {same : α → α → Bool} {before after current : ProllyKey → Option α}
  {k : ProllyKey}

/-- Nothing happens where no change is taken back. -/
theorem lastTaken_of_none {es : List (DiffEntry Cid)}
    (idle : ∀ e ∈ es, e.key = k → taken same (before k) (current k) e = none)
    (last : Option (Option α)) : lastTaken same before current k es last = last := by
  induction es with
  | nil => rfl
  | cons e es ih =>
      rw [lastTaken_cons]
      have rest := ih fun e' m => idle e' (List.mem_cons_of_mem _ m)
      split
      · rename_i at_k
        rw [idle e List.mem_cons_self at_k, Option.none_or]
        exact rest
      · exact rest

/-- Where every change is taken back to `v` or not at all, one that is decides. -/
theorem lastTaken_of_some {es : List (DiffEntry Cid)} {v : Option α}
    (each : ∀ e ∈ es, e.key = k → taken same (before k) (current k) e = none ∨
      taken same (before k) (current k) e = some v) (last : Option (Option α))
    (acts : last = some v ∨ ∃ e ∈ es, e.key = k ∧ taken same (before k) (current k) e = some v) :
    lastTaken same before current k es last = some v := by
  induction es generalizing last with
  | nil => simpa [lastTaken] using acts
  | cons e es ih =>
      rw [lastTaken_cons]
      refine ih (fun e' m => each e' (List.mem_cons_of_mem _ m)) _ ?_
      have here := each e List.mem_cons_self
      by_cases at_k : e.key = k
      · rw [if_pos at_k]
        rcases here at_k with idle | acting
        · rw [idle, Option.none_or]
          refine acts.imp_right ?_
          rintro ⟨e', member, at_k', acting⟩
          rcases List.mem_cons.mp member with rfl | later
          · rw [idle] at acting
            cases acting
          · exact ⟨e', later, at_k', acting⟩
        · rw [acting]
          exact .inl rfl
      · rw [if_neg at_k]
        refine acts.imp_right ?_
        rintro ⟨e', member, at_k', acting⟩
        rcases List.mem_cons.mp member with rfl | later
        · exact absurd at_k' at_k
        · exact ⟨e', later, at_k', acting⟩

/-- Of differences by ascending key only one is at `k`. -/
theorem lastTaken_of_mem {es : List (DiffEntry Cid)}
    (ascending : es.Pairwise fun x y => x.key < y.key) {e : DiffEntry Cid} (member : e ∈ es)
    (at_k : e.key = k) :
    lastTaken same before current k es none = taken same (before k) (current k) e := by
  induction es with
  | nil => cases member
  | cons e' es ih =>
      obtain ⟨above, rest⟩ := List.pairwise_cons.mp ascending
      rw [lastTaken_cons]
      rcases List.mem_cons.mp member with rfl | later
      · rw [if_pos at_k, Option.or_none]
        exact lastTaken_of_none (fun x m here => absurd here (at_k ▸ above x m : k < x.key).ne') _
      · rw [if_neg fun here => (above e later).ne (here.trans at_k.symm)]
        exact ih rest later

/-- **An exact diff takes each object back for what became of it.** -/
theorem lastTaken_of_exact {ma mb : OrdMap ProllyKey Cid} {addr : α → Cid}
    (injective : Function.Injective addr) (was : ∀ k, (before k).map addr = ma.get? k)
    (became : ∀ k, (after k).map addr = mb.get? k) {es : List (DiffEntry Cid)}
    (exact' : ExactDiff ma.entries mb.entries es) :
    lastTaken same before current k es none = undone same (before k) (after k) (current k) := by
  have at_k (e : DiffEntry Cid) (here : e.key = k) (diffAt : DiffAt ma.entries mb.entries e) :
      lastTaken same before current k es none = taken same (before k) (current k) e :=
    lastTaken_of_mem exact'.1 ((exact'.2 e).mpr diffAt) here
  have was := was k
  have became := became k
  unfold undone
  by_cases level : before k = after k
  · rw [if_pos level]
    refine lastTaken_of_none (fun e member here => ?_) none
    have differ := (exact'.2 e).mp member
    rw [level] at was
    have equal : ma.get? k = mb.get? k := was.symm.trans became
    rw [← here] at equal
    cases e with
    | added k v =>
        have inB : mb.get? k = some v := differ.2
        have inA : ma.get? k = none := differ.1
        cases inA.symm.trans (equal.trans inB)
    | removed k v =>
        have inA : ma.get? k = some v := differ.1
        have inB : mb.get? k = none := differ.2
        cases inB.symm.trans (equal.symm.trans inA)
    | changed k x y =>
        have inA : ma.get? k = some x := differ.1
        have inB : mb.get? k = some y := differ.2.1
        exact absurd (Option.some.inj (inA.symm.trans (equal.trans inB))) differ.2.2
  · rw [if_neg level]
    cases inA : before k with
    | none =>
        cases inB : after k with
        | none => exact absurd (inA.trans inB.symm) level
        | some y =>
            rw [inA] at was
            rw [inB] at became
            rw [at_k (.added k (addr y)) rfl ⟨was.symm, became.symm⟩]
            rfl
    | some x =>
        cases inB : after k with
        | none =>
            rw [inA] at was
            rw [inB] at became
            rw [at_k (.removed k (addr x)) rfl ⟨was.symm, became.symm⟩, inA]
            rfl
        | some y =>
            have apart : addr x ≠ addr y := fun equal =>
              level ((inA.trans (congrArg some (injective equal))).trans inB.symm)
            rw [inA] at was
            rw [inB] at became
            rw [at_k (.changed k (addr x) (addr y)) rfl ⟨was.symm, became.symm, apart⟩, inA]
            rfl

end Exact

/-! ## The law -/

section Law

variable {w w' : World H} {r r' op : ReadonlyRepo Cid} {parent : Option (ReadonlyRepo Cid)}
  {ga gb g : Graph Cid} {opts : CommitOptions}

/-- The operation that is found is the target, with its first parent. -/
theorem findOpAndParent_returns {s : Store H} (target : Pinned (fun _ => True) s op gb)
    (follows : Follows s op parent ga) {n : Nat} {cur : Cid}
    {found : Operation Cid × Option (Operation Cid)}
    (ran : findOpAndParent s op.opId n cur = .ok (some found)) :
    found = (op.op, parent.map ReadonlyRepo.op) := by
  induction n generalizing cur with
  | zero => cases ran
  | succ n ih =>
      unfold findOpAndParent at ran
      obtain ⟨at_cur, decoded, ran⟩ := Exec.bind_eq_ok.mp ran
      split at ran
      · rename_i here
        subst here
        have loads : s.decodeFromStore (Operation Cid) op.opId = .ok op.op := target.op
        obtain rfl := Except.ok.inj (decoded.symm.trans loads)
        rw [follows.1] at ran
        cases parent with
        | none =>
            cases ran
            rfl
        | some p =>
            have pinned : Pinned (fun _ => True) s p ga := follows.2
            have loads : s.decodeFromStore (Operation Cid) p.opId = .ok p.op := pinned.op
            obtain ⟨p', decoded', last⟩ := Exec.bind_eq_ok.mp ran
            obtain rfl := Except.ok.inj (decoded'.symm.trans loads)
            cases last
            rfl
      · split at ran
        · cases ran
        · exact ih ran

/-- What a revert has done: the changes were read, and their calls committed if there are any. -/
theorem revert_returns (pinned : Pinned (fun _ => True) w.store r g)
    (target : Pinned (fun _ => True) w.store op gb) (follows : Follows w.store op parent ga)
    {out : Outcome Cid} (ran : (revert r op.opId opts : WorldM H _).Returns w out w') :
    ∃ (changes : Changes Cid) (s₁ : Store H), w.store ≤ s₁ ∧
      (changesOf op.op (parent.map ReadonlyRepo.op) : StoreM H _).Returns w.store changes s₁ ∧
      Described w.store op parent ga gb changes ∧ preflight s₁ r changes.edges = .ok () ∧
        (inverseCalls H (stateBefore w.store parent) (.of w.store r) changes = [] ∧
            out.repo r = r ∧ w.store ≤ w'.store ∨
          (r.transact (inverseCalls H (stateBefore w.store parent) (.of w.store r) changes) opts :
            WorldM H _).Returns { w with store := s₁ } (out.repo r) w') := by
  obtain ⟨found, w₁, read, ran⟩ := Exec.returns_bind.mp ran
  obtain ⟨walked, sameHeads⟩ := returns_onStore.mp read
  obtain ⟨walk, sameStore⟩ := Exec.returns_read.mp walked
  obtain rfl : w = w₁ := by
    cases w
    cases w₁
    cases sameHeads
    cases sameStore
    rfl
  cases found with
  | none => exact absurd ran Exec.returns_throw
  | some found =>
      obtain rfl := findOpAndParent_returns target follows walk
      obtain ⟨changes, w₁, reads, ran⟩ := Exec.returns_bind.mp ran
      obtain ⟨readChanges, heads₁⟩ := returns_onStore.mp reads
      obtain ⟨le, described⟩ := changesOf_returns target follows readChanges
      split at ran
      · rename_i empty
        obtain ⟨rfl, rfl⟩ := Exec.returns_pure.mp ran
        simp only [Bool.and_eq_true, List.isEmpty_iff] at empty
        obtain ⟨⟨noNodes, noEdges⟩, noTombstones⟩ := empty
        refine ⟨changes, w₁.store, le, readChanges, described, by rw [noEdges]; rfl,
          .inl ⟨?_, rfl, le⟩⟩
        rw [inverseCalls, nodeCalls, edgeCalls, tombstoneCalls, noNodes, noEdges, noTombstones]
        rfl
      · obtain ⟨_, w₂, check, ran⟩ := Exec.returns_bind.mp ran
        obtain ⟨checked, heads₂⟩ := returns_onStore.mp check
        obtain ⟨passed, same₂⟩ := Exec.returns_read.mp checked
        obtain ⟨staged, w₃, stage, ran⟩ := Exec.returns_bind.mp ran
        obtain ⟨staging, heads₃⟩ := returns_onStore.mp stage
        rw [← same₂] at staging
        obtain ⟨made, count⟩ := stageInverse_returns pinned target follows described le staging
        split at ran
        · rename_i none
          obtain ⟨rfl, rfl⟩ := Exec.returns_pure.mp ran
          have nothing := List.length_eq_zero_iff.mp (count.symm.trans none)
          rw [nothing] at made
          refine ⟨changes, w₁.store, le, readChanges, described, passed, .inl ⟨nothing, rfl, ?_⟩⟩
          have same : w₁.store = w₃.store := congrArg Prod.snd made
          exact same ▸ le
        · obtain ⟨r', w₄, committed, last⟩ := Exec.returns_bind.mp ran
          obtain ⟨rfl, rfl⟩ := Exec.returns_pure.mp last
          refine ⟨changes, w₁.store, le, readChanges, described, passed, .inr ?_⟩
          refine Exec.returns_bind.mpr ⟨staged.1, w₃,
            returns_onStore.mpr ⟨Exec.returns_update.mpr made, ?_⟩, committed⟩
          exact heads₃.trans (heads₂.trans heads₁)

/-- Nothing that is staged sets a tombstone. -/
theorem lastTombstone_inverseCalls (before current : GraphState Cid) (changes : Changes Cid)
    (id : NodeId) :
    (inverseCalls H before current changes).foldl (lastTombstone id) none ≠ some true := by
  have kept : ∀ (calls : List (Call Cid)) (last : Option Bool), last ≠ some true →
      (∀ c ∈ calls, ∀ i reason, c ≠ .tombstoneNode i reason) →
        calls.foldl (lastTombstone id) last ≠ some true := by
    intro calls
    induction calls with
    | nil => exact fun last other _ => other
    | cons call calls ih =>
        intro last other plain
        refine ih _ ?_ fun c m => plain c (List.mem_cons_of_mem _ m)
        cases call with
        | tombstoneNode i reason => exact absurd rfl (plain _ List.mem_cons_self i reason)
        | untombstoneNode i =>
            change (if i = id then some false else last) ≠ some true
            split
            · simp
            · exact other
        | _ => exact other
  refine kept _ none (by simp) fun c member i reason => ?_
  unfold inverseCalls nodeCalls edgeCalls tombstoneCalls at member
  simp only [List.mem_append, List.mem_filterMap, List.mem_map] at member
  rintro rfl
  rcases member with (⟨e, -, made⟩ | ⟨e, -, made⟩) | ⟨id, -, made⟩
  · obtain ⟨back, -, made⟩ := Option.map_eq_some_iff.mp made
    cases back <;> cases made
  · obtain ⟨back, -, made⟩ := Option.map_eq_some_iff.mp made
    cases back <;> cases made
  · cases made

theorem logged_inverseCalls (before current : GraphState Cid) (changes : Changes Cid) :
    ∀ c ∈ inverseCalls H before current changes, c.Logged := by
  intro c member
  unfold inverseCalls nodeCalls edgeCalls tombstoneCalls at member
  simp only [List.mem_append, List.mem_filterMap, List.mem_map] at member
  rcases member with (⟨e, -, made⟩ | ⟨e, -, made⟩) | ⟨id, -, rfl⟩
  · obtain ⟨back, -, rfl⟩ := Option.map_eq_some_iff.mp made
    cases back <;> trivial
  · obtain ⟨back, -, rfl⟩ := Option.map_eq_some_iff.mp made
    cases back <;> trivial
  · trivial

theorem untombstone_mem_inverseCalls (before current : GraphState Cid) (changes : Changes Cid)
    (id : NodeId) : .untombstoneNode id ∈ inverseCalls H before current changes ↔
      id ∈ changes.tombstones ∧ current.tombstoned id = true := by
  unfold inverseCalls nodeCalls edgeCalls tombstoneCalls
  simp only [List.mem_append, List.mem_filterMap, List.mem_map, List.mem_filter]
  constructor
  · rintro ((⟨e, -, made⟩ | ⟨e, -, made⟩) | ⟨i, there, made⟩)
    · obtain ⟨back, -, made⟩ := Option.map_eq_some_iff.mp made
      cases back <;> cases made
    · obtain ⟨back, -, made⟩ := Option.map_eq_some_iff.mp made
      cases back <;> cases made
    · cases made
      exact there
  · exact fun there => .inr ⟨id, there, rfl⟩

/-- The calls leave what is not taken back. -/
theorem nodes_inverseCalls {before : GraphState Cid} (proper : Proper H nodeKind before.nodes)
    (current : GraphState Cid) (changes : Changes Cid) (log : GraphState Cid) (id : NodeId) :
    ((inverseCalls H before current changes).foldl (GraphState.apply H) log).nodes id =
      (lastTaken nodeEq before.nodes current.nodes id changes.nodes none).getD (log.nodes id) := by
  have aside : ∀ (calls : List (Call Cid)) (log : GraphState Cid),
      (∀ c ∈ calls, ∀ log : GraphState Cid, (log.apply H c).nodes = log.nodes) →
        (calls.foldl (GraphState.apply H) log).nodes = log.nodes := by
    intro calls
    induction calls with
    | nil => exact fun _ _ => rfl
    | cons call calls ih =>
        intro log plain
        exact (ih _ fun c m => plain c (List.mem_cons_of_mem _ m)).trans
          (plain call List.mem_cons_self log)
  rw [inverseCalls, List.foldl_append, List.foldl_append, aside, aside]
  · exact nodes_foldl proper changes.nodes id rfl
  · intro c member log
    obtain ⟨e, -, made⟩ := List.mem_filterMap.mp member
    obtain ⟨back, -, rfl⟩ := Option.map_eq_some_iff.mp made
    cases back with
    | none => rfl
    | some x =>
        change (GraphState.apply H log (.addEdge x)).nodes = _
        rw [GraphState.apply]
        split <;> rfl
  · intro c member log
    obtain ⟨i, -, rfl⟩ := List.mem_map.mp member
    rfl

/-- The trail of an edge after all calls. -/
theorem trail_inverseCalls {before : GraphState Cid} (proper : Proper H edgeKind before.edges)
    (current : GraphState Cid) (listed : NodeId → List EdgeId) (changes : Changes Cid) (k : EdgeId)
    (edge : Option (Edge Cid)) :
    let t := (inverseCalls H before current changes).foldl (Trail.after H k) { edge := edge }
    (if t.cut listed k then none else t.edge) =
      (lastTaken edgeEq before.edges current.edges k changes.edges none).getD
        (if cutBy listed before.nodes current.nodes changes.nodes k then none else edge) := by
  have aside : ∀ (ids : List NodeId) (t : Trail Cid),
      (ids.map Call.untombstoneNode).foldl (Trail.after H k) t = t := by
    intro ids
    induction ids with
    | nil => exact fun _ => rfl
    | cons id ids ih => exact fun t => ih t
  obtain ⟨t, nodesRan, kept, unstaged, cut⟩ := trail_foldl_nodes (H := H) before.nodes current.nodes
    listed changes.nodes k (t := { edge := edge }) rfl
  have edgesRan := trail_foldl_edges proper current.edges changes.edges k t none
  dsimp only
  rw [inverseCalls, List.foldl_append, List.foldl_append, tombstoneCalls, aside, nodeCalls,
    nodesRan, edgeCalls, show t = trailOf t none from rfl, edgesRan]
  cases lastTaken edgeEq before.edges current.edges k changes.edges none with
  | none =>
      change (if t.cut listed k then none else t.edge) = _
      rw [cut, kept]
      rfl
  | some back => rfl

/-- **What a revert leaves**, whatever the diff reports. -/
theorem revert_effect (pinned : Pinned (fun _ => True) w.store r g)
    (target : Pinned (fun _ => True) w.store op gb) (follows : Follows w.store op parent ga)
    {out : Outcome Cid} (ran : (revert r op.opId opts : WorldM H _).Returns w out w') :
    ∃ (changes : Changes Cid) (s₁ : Store H),
      (changesOf op.op (parent.map ReadonlyRepo.op) : StoreM H _).Returns w.store changes s₁ ∧
      Described w.store op parent ga gb changes ∧
      let a := stateBefore w.store parent
      let c := GraphState.of w.store r
      let d := GraphState.of w'.store (out.repo r)
      (∀ id, d.nodes id =
        (lastTaken nodeEq a.nodes c.nodes id changes.nodes none).getD (c.nodes id)) ∧
      (∀ k, d.edges k = (lastTaken edgeEq a.edges c.edges k changes.edges none).getD
        (if cutBy (r.listed w.store) a.nodes c.nodes changes.nodes k then none else c.edges k)) ∧
      ∀ id, d.tombstoned id = true ↔ c.tombstoned id = true ∧ id ∉ changes.tombstones := by
  obtain ⟨changes, s₁, le, read, described, -, ran⟩ := revert_returns pinned target follows ran
  obtain ⟨nodesWere, edgesWere⟩ := filed_before follows
  refine ⟨changes, s₁, read, described, ?_⟩
  rcases ran with ⟨nothing, same, le'⟩ | ran
  · -- without calls the log is where it started
    have nodes := nodes_inverseCalls nodesWere.proper (.of w.store r) changes (.of w.store r)
    have edges := trail_inverseCalls edgesWere.proper (.of w.store r) (r.listed w.store) changes
    rw [nothing] at nodes edges
    rw [same, of_le pinned le']
    refine ⟨nodes, fun k => edges k _, fun id => ⟨fun there => ⟨there, fun member => ?_⟩, And.left⟩⟩
    have made := (untombstone_mem_inverseCalls (H := H) (stateBefore w.store parent) _ changes
      id).mpr ⟨member, there⟩
    rw [nothing] at made
    exact List.not_mem_nil made
  · obtain ⟨nodes, edges, tombstones⟩ := transact_beside (pinned.mono le)
      (logged_inverseCalls _ _ _) ran
    have start : GraphState.of s₁ r = GraphState.of w.store r := of_le pinned le
    have listed : r.listed s₁ = r.listed w.store :=
      funext fun id => ReadonlyRepo.listed_of_le pinned le id
    dsimp only at nodes edges
    rw [start] at nodes edges
    rw [listed] at edges
    refine ⟨fun id => ?_, fun k => ?_, fun id => ?_⟩
    · rw [nodes]
      exact nodes_inverseCalls nodesWere.proper _ changes _ id
    · rw [edges]
      exact trail_inverseCalls edgesWere.proper _ _ changes k _
    · rw [tombstones, untombstone_mem_inverseCalls,
        or_iff_right (lastTombstone_inverseCalls _ _ _ id)]
      change ¬ (id ∈ changes.tombstones ∧ r.isTombstoned id = true) ∧ r.isTombstoned id = true ↔
        r.isTombstoned id = true ∧ id ∉ changes.tombstones
      tauto

/-- The state that an operation led to, and the one before it, by the addresses of their objects. -/
theorem was_became (target : Pinned (fun _ => True) w.store op gb)
    (follows : Follows w.store op parent ga) :
    (∀ k, ((stateBefore w.store parent).nodes k).map (fun n => H.cidOf (Object.toBlock n)) =
        ga.nodes.get? k) ∧
      (∀ k, ((GraphState.of w.store op).nodes k).map (fun n => H.cidOf (Object.toBlock n)) =
        gb.nodes.get? k) ∧
      (∀ k, ((stateBefore w.store parent).edges k).map (fun e => H.cidOf (Object.toBlock e)) =
        ga.edges.get? k) ∧
      ∀ k, ((GraphState.of w.store op).edges k).map (fun e => H.cidOf (Object.toBlock e)) =
        gb.edges.get? k :=
  ⟨(filed_before follows).1.1, GraphState.of_nodes target, (filed_before follows).2.1,
    GraphState.of_edges target⟩

/-- Between aligned trees the nodes that are taken back to nothing are those that were added. -/
theorem cutBy_iff {before after : ProllyKey → Option (Node Cid)} {ma mb : OrdMap ProllyKey Cid}
    (was : ∀ k, (before k).map (fun n => H.cidOf (Object.toBlock n)) = ma.get? k)
    (became : ∀ k, (after k).map (fun n => H.cidOf (Object.toBlock n)) = mb.get? k)
    {es : List (DiffEntry Cid)} (exact' : ExactDiff ma.entries mb.entries es)
    (current : ProllyKey → Option (Node Cid)) (listed : NodeId → List EdgeId) (k : EdgeId) :
    cutBy listed before current es k = true ↔ ∃ id, before id = none ∧ (after id).isSome = true ∧
      (current id).isSome = true ∧ k ∈ listed id := by
  unfold cutBy
  rw [List.any_eq_true]
  constructor
  · rintro ⟨e, member, lost⟩
    obtain ⟨dropped, inListed⟩ := Bool.and_eq_true_iff.mp lost
    have inListed : k ∈ listed e.key := by simpa using inListed
    have diffAt := (exact'.2 e).mp member
    cases e with
    | added id v =>
        have inA : ma.get? id = none := diffAt.1
        have inB : mb.get? id = some v := diffAt.2
        refine ⟨id, ?_, ?_, ?_, inListed⟩
        · exact Option.map_eq_none_iff.mp ((was id).trans inA)
        · rw [← Option.isSome_map, became id, inB]
          rfl
        · by_contra absent
          simp [taken, DiffEntry.key, absent] at dropped
    | removed id v =>
        have inA : ma.get? id = some v := diffAt.1
        obtain ⟨x, here, -⟩ := Option.map_eq_some_iff.mp ((was id).trans inA)
        cases there : (current id).isNone <;>
          simp [taken, DiffEntry.key, here, there] at dropped
    | changed id v v' =>
        have inA : ma.get? id = some v := diffAt.1
        obtain ⟨x, here, -⟩ := Option.map_eq_some_iff.mp ((was id).trans inA)
        cases there : (current id).any fun y => nodeEq y x <;>
          simp [taken, DiffEntry.key, here, there] at dropped
  · rintro ⟨id, inA, inB, there, inListed⟩
    obtain ⟨x, inB⟩ := Option.isSome_iff_exists.mp inB
    refine ⟨.added id (H.cidOf (Object.toBlock x)), (exact'.2 _).mpr ⟨?_, ?_⟩, ?_⟩
    · exact (was id).symm.trans (by rw [inA]; rfl)
    · exact (became id).symm.trans (by rw [inB]; rfl)
    · simp [taken, DiffEntry.key, there, inListed]

theorem effect_of_aligned (pinned : Pinned (fun _ => True) w.store r g)
    (target : Pinned (fun _ => True) w.store op gb) (follows : Follows w.store op parent ga)
    (aligned : AlignedWith w.store op parent) {out : Outcome Cid}
    (ran : (revert r op.opId opts : WorldM H _).Returns w out w') :
    GraphState.of w'.store (out.repo r) = takenBack (r.listed w.store) (stateBefore w.store parent)
      (.of w.store op) (.of w.store r) := by
  obtain ⟨changes, -, -, described, nodes, edges, tombstones⟩ :=
    revert_effect pinned target follows ran
  obtain ⟨nodesExact, edgesExact⟩ := described.exact' aligned
  obtain ⟨nodesWere, nodesBecame, edgesWere, edgesBecame⟩ := was_became target follows
  refine GraphState.ext (funext fun id => ?_) (funext fun k => ?_) (funext fun id => ?_)
  · rw [nodes, lastTaken_of_exact addr_injective nodesWere nodesBecame nodesExact]
    rfl
  · rw [edges, lastTaken_of_exact addr_injective edgesWere edgesBecame edgesExact]
    have cut := cutBy_iff nodesWere nodesBecame nodesExact (GraphState.of w.store r).nodes
      (r.listed w.store) k
    dsimp only [takenBack]
    by_cases lost : cutBy (r.listed w.store) (stateBefore w.store parent).nodes
        (GraphState.of w.store r).nodes changes.nodes k = true
    · rw [if_pos lost, if_pos (cut.mp lost)]
    · rw [if_neg lost, if_neg fun h => lost (cut.mpr h)]
  · rw [Bool.eq_iff_iff, tombstones, described.tombstones]
    change _ ↔ (r.isTombstoned id && ((stateBefore w.store parent).tombstoned id ||
      !op.isTombstoned id)) = true
    change r.isTombstoned id = true ∧ _ ↔ _
    cases r.isTombstoned id <;> cases (stateBefore w.store parent).tombstoned id <;>
      cases op.isTombstoned id <;> simp

/-- The operation that a revert is about, and its first parent, as they load. -/
def Sides (s : Store H) (target : Cid) (op : ReadonlyRepo Cid)
    (parent : Option (ReadonlyRepo Cid)) : Prop :=
  ReadonlyRepo.loadAt s target = .ok op ∧
    match op.op.parents.head? with
    | none => parent = none
    | some p => ∃ q, ReadonlyRepo.loadAt s p = .ok q ∧ parent = some q

/-- A pinned repository is what loads at its operation. -/
theorem loadAt_of_pinned {s : Store H} (pinned : Pinned (fun _ => True) s r g) :
    ReadonlyRepo.loadAt s r.opId = .ok r := by
  have opLoads : s.decodeFromStore (Operation Cid) r.opId = .ok r.op := pinned.op
  have viewLoads : s.decodeFromStore (View Cid) r.op.view = .ok r.view := pinned.view
  have byHead := pinned.commit
  unfold ReadonlyRepo.loadAt
  rw [opLoads]
  change (s.decodeFromStore (View Cid) r.op.view >>= _) = _
  rw [viewLoads]
  dsimp only [bind, Except.bind]
  cases first : r.view.heads.head? with
  | none =>
      rw [first] at byHead
      have unborn : r.commit = none := byHead
      cases r
      cases unborn
      rfl
  | some head =>
      rw [first] at byHead
      obtain ⟨commit, here, loads⟩ := byHead
      have decoded : s.decodeFromStore (Commit Cid) head = .ok commit := loads
      dsimp only
      rw [decoded]
      cases r
      cases here
      rfl

theorem Sides.eq_of_pinned {s : Store H} {r₁ : ReadonlyRepo Cid} {g₁ : Graph Cid}
    (sides : Sides s r₁.opId op parent) (pinned : Pinned (fun _ => True) s r g)
    (pinned₁ : Pinned (fun _ => True) s r₁ g₁) (first : r₁.op.parents.head? = some r.opId) :
    op = r₁ ∧ parent = some r := by
  obtain ⟨loaded, below⟩ := sides
  obtain rfl := Except.ok.inj (loaded.symm.trans (loadAt_of_pinned pinned₁))
  rw [first] at below
  obtain ⟨q, loadedParent, rfl⟩ := below
  obtain rfl := Except.ok.inj (loadedParent.symm.trans (loadAt_of_pinned pinned))
  exact ⟨rfl, rfl⟩

/-- What is found in the log of a good operation is good. -/
theorem good_of_found {s : Store H} {target : Cid} {n : Nat} {cur : Cid}
    (good : GoodOp (fun _ => True) s cur) {found : Operation Cid × Option (Operation Cid)}
    (ran : findOpAndParent s target n cur = .ok (some found)) :
    GoodOp (fun _ => True) s target := by
  induction n generalizing cur with
  | zero => cases ran
  | succ n ih =>
      unfold findOpAndParent at ran
      obtain ⟨op, decoded, ran⟩ := Exec.bind_eq_ok.mp ran
      split at ran
      · rename_i here
        exact here ▸ good
      · split at ran
        · cases ran
        · rename_i p first
          cases good with
          | intro op' view loads viewLoads heads parents =>
              have same : s.decodeFromStore (Operation Cid) cur = .ok op' := loads
              obtain rfl := Except.ok.inj (decoded.symm.trans same)
              exact ih (parents p (List.mem_of_head? first)) ran

/-- A good operation has sides. -/
theorem exists_sides {s : Store H} {target : Cid} (good : GoodOp (fun _ => True) s target) :
    ∃ op parent ga gb, Sides s target op parent ∧ op.opId = target ∧
      Pinned (fun _ => True) s op gb ∧ Follows s op parent ga := by
  obtain ⟨op, gb, loaded, at_op, pinned⟩ := loadAt_of_good good
  have parents : ∀ p ∈ op.op.parents, GoodOp (fun _ => True) s p := by
    cases good with
    | intro op' view loads viewLoads heads parents =>
        have opLoads := pinned.op
        rw [at_op] at opLoads
        obtain rfl := opLoads.unique loads
        exact parents
  cases first : op.op.parents.head? with
  | none => exact ⟨op, none, {}, gb, ⟨loaded, by rw [first]⟩, at_op, pinned, first, rfl⟩
  | some p =>
      obtain ⟨q, ga, loadedParent, at_p, pinnedParent⟩ :=
        loadAt_of_good (parents p (List.mem_of_head? first))
      refine ⟨op, some q, ga, gb, ⟨loaded, ?_⟩, at_op, pinned, ?_, pinnedParent⟩
      · rw [first]
        exact ⟨q, loadedParent, rfl⟩
      · rw [first, Option.map_some, at_p]

/-- A revert that returns has found its target. -/
theorem sides_of_returns (pinned : Pinned (fun _ => True) w.store r g) {target : Cid}
    {out : Outcome Cid} (ran : (revert r target opts : WorldM H _).Returns w out w') :
    ∃ op parent ga gb, Sides w.store target op parent ∧ op.opId = target ∧
      Pinned (fun _ => True) w.store op gb ∧ Follows w.store op parent ga := by
  obtain ⟨found, w₁, read, ran⟩ := Exec.returns_bind.mp ran
  obtain ⟨walked, -⟩ := returns_onStore.mp read
  obtain ⟨walk, -⟩ := Exec.returns_read.mp walked
  cases found with
  | none => exact absurd ran Exec.returns_throw
  | some found => exact exists_sides (good_of_found pinned.good walk)

/-- **Taking back an operation**, between aligned trees: what it left alone stays as it is now, but
for an edge that is listed at a node that goes; what it added goes; what it removed or changed comes
back, unless it is there again or is as it was; and the tombstones that it added go. -/
theorem revert_undoes (pinned : Pinned (fun _ => True) w.store r g) {target : Cid}
    {out : Outcome Cid} (ran : (revert r target opts : WorldM H _).Returns w out w') :
    ∃ op parent, Sides w.store target op parent ∧ (AlignedWith w.store op parent →
      GraphState.of w'.store (out.repo r) = takenBack (r.listed w.store)
        (stateBefore w.store parent) (.of w.store op) (.of w.store r)) := by
  obtain ⟨op, parent, ga, gb, sides, rfl, pinnedOp, follows⟩ := sides_of_returns pinned ran
  exact ⟨op, parent, sides, fun aligned => effect_of_aligned pinned pinnedOp follows aligned ran⟩

/-- How a node that the operation left alone can be reported. -/
theorem report_of_level {before after : ProllyKey → Option (Node Cid)}
    {ma mb : OrdMap ProllyKey Cid}
    (was : ∀ k, (before k).map (fun n => H.cidOf (Object.toBlock n)) = ma.get? k)
    (became : ∀ k, (after k).map (fun n => H.cidOf (Object.toBlock n)) = mb.get? k) {id : NodeId}
    (level : before id = after id) {e : DiffEntry Cid} (read : e.ReadFrom ma.entries mb.entries)
    (differs : e.Differs) (at_id : e.key = id) :
    (∃ v, e = .added id v) ∨ ∃ v, e = .removed id v ∧ (before id).isSome = true := by
  have equal : ma.get? id = mb.get? id := by rw [← was, ← became, level]
  subst at_id
  cases e with
  | added id v => exact .inl ⟨v, rfl⟩
  | removed id v =>
      have inA : ma.get? id = some v := ma.get?_eq_some_iff.mpr read
      refine .inr ⟨v, rfl, ?_⟩
      change (before id).isSome = true
      rw [← Option.isSome_map, was id, inA]
      rfl
  | changed id x y =>
      have inA : ma.get? id = some x := ma.get?_eq_some_iff.mpr read.1
      have inB : mb.get? id = some y := mb.get?_eq_some_iff.mpr read.2
      exact absurd (Option.some.inj (inA.symm.trans (equal.trans inB))) differs

section Kept

variable {same : Node Cid → Node Cid → Bool} {before current : ProllyKey → Option (Node Cid)}
  {es : List (DiffEntry Cid)} {id : NodeId}
  (reports : ∀ e ∈ es, e.key = id →
    (∃ v, e = .added id v) ∨ ∃ v, e = .removed id v ∧ (before id).isSome = true)

include reports

theorem kept_of_present {n : Node Cid} (now : current id = some n) :
    (lastTaken same before current id es none).getD (some n) = some n ↔ ∀ v, .added id v ∉ es := by
  constructor
  · intro kept v member
    have dropped : lastTaken same before current id es none = some none := by
      refine lastTaken_of_some (fun e m at_id => ?_) none
        (.inr ⟨_, member, rfl, by simp [taken, now]⟩)
      rcases reports e m at_id with ⟨v', rfl⟩ | ⟨v', rfl, -⟩ <;> simp [taken, now]
    rw [dropped] at kept
    cases kept
  · intro absent
    have idle : lastTaken same before current id es none = none := by
      refine lastTaken_of_none (fun e m at_id => ?_) none
      rcases reports e m at_id with ⟨v, rfl⟩ | ⟨v, rfl, -⟩
      · exact absurd m (absent v)
      · simp [taken, now]
    rw [idle]
    rfl

theorem kept_of_absent (now : current id = none) :
    (lastTaken same before current id es none).getD none = none ↔ ∀ v, .removed id v ∉ es := by
  constructor
  · intro kept v member
    have back : lastTaken same before current id es none = some (before id) := by
      refine lastTaken_of_some (fun e m at_id => ?_) none
        (.inr ⟨_, member, rfl, by simp [taken, now]⟩)
      rcases reports e m at_id with ⟨v', rfl⟩ | ⟨v', rfl, -⟩ <;> simp [taken, now]
    obtain ⟨v', here⟩ | ⟨-, -, there⟩ := reports _ member rfl
    · cases here
    · rw [back] at kept
      rw [show before id = none from kept] at there
      cases there
  · intro absent
    have idle : lastTaken same before current id es none = none := by
      refine lastTaken_of_none (fun e m at_id => ?_) none
      rcases reports e m at_id with ⟨v, rfl⟩ | ⟨v, rfl, -⟩
      · simp [taken, now]
      · exact absurd m (absent v)
    rw [idle]
    rfl

end Kept

/-- **The nodes that an operation left alone stay as they are exactly where the diff reports them
neither as added, if they are there now, nor as removed, if they are not.** -/
theorem revert_spares_iff (pinned : Pinned (fun _ => True) w.store r g) {target : Cid}
    {out : Outcome Cid} (ran : (revert r target opts : WorldM H _).Returns w out w') :
    ∃ op parent changes s₁, Sides w.store target op parent ∧
      (changesOf op.op (parent.map ReadonlyRepo.op) : StoreM H _).Returns w.store changes s₁ ∧
      ∀ id, (stateBefore w.store parent).nodes id = (GraphState.of w.store op).nodes id →
        ((GraphState.of w'.store (out.repo r)).nodes id = (GraphState.of w.store r).nodes id ↔
          ∀ v, (if ((GraphState.of w.store r).nodes id).isSome then DiffEntry.added id v
            else DiffEntry.removed id v) ∉ changes.nodes) := by
  obtain ⟨op, parent, ga, gb, sides, rfl, pinnedOp, follows⟩ := sides_of_returns pinned ran
  obtain ⟨changes, s₁, read, described, nodes, -⟩ := revert_effect pinned pinnedOp follows ran
  obtain ⟨nodesWere, nodesBecame, -⟩ := was_became pinnedOp follows
  refine ⟨op, parent, changes, s₁, sides, read, fun id level => ?_⟩
  rw [nodes id]
  have reports (e : DiffEntry Cid) (member : e ∈ changes.nodes) (at_id : e.key = id) :=
    report_of_level nodesWere nodesBecame level (described.nodesRead e member)
      (described.nodesDiffer e member) at_id
  cases now : (GraphState.of w.store r).nodes id with
  | some n => exact kept_of_present reports now
  | none => exact kept_of_absent reports now

/-- An endpoint that passes is there. -/
theorem checkEndpoint_ok {s : Store H} (pinned : Pinned (fun _ => True) s r g) {id : NodeId}
    (passed : checkEndpoint s r id = .ok ()) :
    ((GraphState.of s r).nodes id).isSome = true ∧ r.isTombstoned id = false := by
  unfold checkEndpoint at passed
  rw [(lookup_of_pinned pinned).1] at passed
  change (if ((GraphState.of s r).nodes id).isNone || r.isTombstoned id then bail _
    else return ()) = Except.ok () at passed
  split at passed
  · cases passed
  · rename_i here
    simpa [Option.isSome_iff_ne_none] using here

/-- What the check before staging makes sure of. -/
theorem preflight_ok {s : Store H} (pinned : Pinned (fun _ => True) s r g)
    {changes : List (DiffEntry Cid)} (passed : preflight s r changes = .ok ()) {k : EdgeId}
    {v : Cid} (member : .removed k v ∈ changes) {edge : Edge Cid} (loads : s.Loads v edge)
    {id : NodeId} (endpoint : touches edge id = true) :
    ((GraphState.of s r).nodes id).isSome = true ∧ r.isTombstoned id = false := by
  have here := Exec.forM_eq_ok.mp passed _ member
  have decoded : s.decodeFromStore (Edge Cid) v = .ok edge := loads
  obtain ⟨edge', found, here⟩ := Exec.bind_eq_ok.mp here
  obtain rfl := Except.ok.inj (found.symm.trans decoded)
  obtain ⟨_, src, dst⟩ := Exec.bind_eq_ok.mp here
  rcases Bool.or_eq_true_iff.mp endpoint with at_src | at_dst
  · exact eq_of_beq at_src ▸ checkEndpoint_ok pinned src
  · exact eq_of_beq at_dst ▸ checkEndpoint_ok pinned dst

/-- **An operation that removed an edge is not taken back** while an endpoint of the edge is missing
or tombstoned: the command fails and publishes nothing.  So it is with an operation that removed a
node together with an edge at it, as long as the node is gone. -/
theorem revert_refused (pinned : Pinned (fun _ => True) w.store r g)
    (target : Pinned (fun _ => True) w.store op gb) (follows : Follows w.store op parent ga)
    {k : EdgeId} {edge : Edge Cid} (was : (stateBefore w.store parent).edges k = some edge)
    (gone : (GraphState.of w.store op).edges k = none) {id : NodeId}
    (endpoint : touches edge id = true)
    (missing : (GraphState.of w.store r).nodes id = none ∨ r.isTombstoned id = true) :
    ∃ e w', (revert r op.opId opts : WorldM H _).Fails w e w' ∧ w'.opHeads = w.opHeads := by
  obtain ⟨-, -, edgesWere, edgesBecame⟩ := was_became target follows
  have diffAt : DiffAt ga.edges.entries gb.edges.entries
      (.removed k (H.cidOf (Object.toBlock edge))) :=
    ⟨(edgesWere k).symm.trans (by rw [was]; rfl), (edgesBecame k).symm.trans (by rw [gone]; rfl)⟩
  have loads := ((filed_before follows).2.2 k edge was).2
  have refused {changes : Changes Cid} {s₁ : Store H} (le : w.store ≤ s₁)
      (described : Described w.store op parent ga gb changes) :
      preflight s₁ r changes.edges ≠ .ok () := by
    intro passed
    obtain ⟨there, untombstoned⟩ := preflight_ok (pinned.mono le) passed
      (described.edgesCover _ diffAt) (loads.mono le) endpoint
    rw [of_le pinned le] at there
    rcases missing with none | tombstoned
    · rw [none] at there
      cases there
    · rw [tombstoned] at untombstoned
      cases untombstoned
  rcases Exec.returns_or_fails (revert r op.opId opts : WorldM H _) w with
    ⟨out, w', ran⟩ | ⟨e, w', fails⟩
  · obtain ⟨changes, s₁, le, -, described, passed, -⟩ := revert_returns pinned target follows ran
    exact absurd passed (refused le described)
  · refine ⟨e, w', fails, ?_⟩
    rcases Exec.fails_bind.mp fails with unread | ⟨found, w₁, read, fails⟩
    · obtain ⟨-, -, rfl⟩ := Exec.fails_zoom.mp unread
      rfl
    · obtain ⟨walked, heads₁⟩ := returns_onStore.mp read
      obtain ⟨walk, same₁⟩ := Exec.returns_read.mp walked
      cases found with
      | none =>
          obtain ⟨-, rfl⟩ := Exec.fails_throw.mp fails
          exact heads₁
      | some found =>
          obtain rfl := findOpAndParent_returns target follows walk
          rcases Exec.fails_bind.mp fails with unread | ⟨changes, w₂, reads, fails⟩
          · obtain ⟨-, -, rfl⟩ := Exec.fails_zoom.mp unread
            exact heads₁
          · obtain ⟨readChanges, heads₂⟩ := returns_onStore.mp reads
            rw [← same₁] at readChanges
            obtain ⟨le, described⟩ := changesOf_returns target follows readChanges
            split at fails
            · exact absurd fails Exec.not_fails_pure
            · rcases Exec.fails_bind.mp fails with stopped | ⟨_, w₃, check, -⟩
              · obtain ⟨-, -, rfl⟩ := Exec.fails_zoom.mp stopped
                exact heads₂.trans heads₁
              · obtain ⟨checked, -⟩ := returns_onStore.mp check
                obtain ⟨passed, -⟩ := Exec.returns_read.mp checked
                exact absurd passed (refused le described)

/-! ### The operation at the head -/

/-- The same object, up to the derived equality. -/
def AsBefore {α : Type} (same : α → α → Bool) (before now : Option α) : Prop :=
  now = before ∨ ∃ x y, before = some x ∧ now = some y ∧ same y x = true

/-- The last operation is taken back wherever it made a difference. -/
theorem undone_last {α : Type} (same : α → α → Bool) (before after : Option α) :
    undone same before after after = none ∧ AsBefore same before after ∨
      undone same before after after = some before := by
  unfold undone
  by_cases level : before = after
  · exact .inl ⟨if_pos level, .inl level.symm⟩
  · rw [if_neg level]
    cases before with
    | none =>
        cases after with
        | none => exact absurd rfl level
        | some y => exact .inr rfl
    | some x =>
        cases after with
        | none => exact .inr rfl
        | some y =>
            cases equal : same y x with
            | true => exact .inl ⟨by simp [equal], .inr ⟨x, y, rfl, rfl, equal⟩⟩
            | false => exact .inr (by simp [equal])

theorem touches_of_edgeEq {x y : Edge Cid} (equal : edgeEq y x = true) (id : NodeId) :
    touches x id = touches y id := by
  unfold edgeEq at equal
  simp only [Bool.and_eq_true, beq_iff_eq] at equal
  rw [touches, touches, equal.1.1.1.2, equal.1.1.2]

/-- **Taking back the last operation restores what its first parent had**, up to the derived
equality of nodes and edges, if the operation did not add a node at which an edge dangled.  The
tombstones that are left were there before the operation and after it. -/
theorem revert_restores {r₁ : ReadonlyRepo Cid} {g₁ : Graph Cid}
    (pinned : Pinned (fun _ => True) w.store r g) (pinned₁ : Pinned (fun _ => True) w.store r₁ g₁)
    (parent : r₁.op.parents.head? = some r.opId) (aligned : AlignedWith w.store r₁ (some r))
    (dangling : ∀ k e id, (GraphState.of w.store r).edges k = some e → touches e id = true →
      (GraphState.of w.store r).nodes id = none → (GraphState.of w.store r₁).nodes id = none)
    {out : Outcome Cid} (ran : (revert r₁ r₁.opId opts : WorldM H _).Returns w out w') :
    (∀ id, AsBefore nodeEq ((GraphState.of w.store r).nodes id)
        ((GraphState.of w'.store (out.repo r₁)).nodes id)) ∧
      (∀ k, AsBefore edgeEq ((GraphState.of w.store r).edges k)
        ((GraphState.of w'.store (out.repo r₁)).edges k)) ∧
      ∀ id, (out.repo r₁).isTombstoned id = true ↔
        r.isTombstoned id = true ∧ r₁.isTombstoned id = true := by
  have law := effect_of_aligned pinned₁ pinned₁
    (show Follows w.store r₁ (some r) g from ⟨parent, pinned⟩) aligned ran
  change _ = takenBack (r₁.listed w.store) (GraphState.of w.store r) (GraphState.of w.store r₁)
    (GraphState.of w.store r₁) at law
  rw [law]
  refine ⟨fun id => ?_, fun k => ?_, fun id => ?_⟩
  · dsimp only [takenBack]
    rcases undone_last nodeEq ((GraphState.of w.store r).nodes id)
      ((GraphState.of w.store r₁).nodes id) with ⟨idle, same⟩ | back
    · rw [idle]
      exact same
    · rw [back]
      exact .inl rfl
  · dsimp only [takenBack]
    rcases undone_last edgeEq ((GraphState.of w.store r).edges k)
      ((GraphState.of w.store r₁).edges k) with ⟨idle, same⟩ | back
    · rw [idle, if_neg]
      · exact same
      · -- an edge from before that is cut would be at a node that was added
        rintro ⟨id, absent, there, -, inListed⟩
        obtain ⟨e, here, at_id⟩ := exists_of_listed pinned₁ inListed
        rcases same with level | ⟨x, y, was, became, equal⟩
        · rw [dangling k e id (level ▸ here) at_id absent] at there
          cases there
        · obtain rfl := Option.some.inj (here.symm.trans became)
          rw [dangling k x id was ((touches_of_edgeEq equal id).trans at_id) absent] at there
          cases there
    · rw [back]
      exact .inl rfl
  · have at_id := congrFun (congrArg GraphState.tombstoned law) id
    change (out.repo r₁).isTombstoned id =
      (r₁.isTombstoned id && (r.isTombstoned id || !r₁.isTombstoned id)) at at_id
    rw [at_id]
    cases r.isTombstoned id <;> cases r₁.isTombstoned id <;> simp

end Law

/-! ### One operation taken back -/

section Example

/-- Two transactions, and a revert of the second. -/
def revertLast (first second : List (Call Cid)) :
    WorldM H (ReadonlyRepo Cid × ReadonlyRepo Cid × World H × Outcome Cid) := do
  let p ← transactTwice first second
  let w ← Exec.read fun w => .ok w
  let out ← revert p.2 p.2.opId { author := "", message := "revert" }
  return (p.1, p.2, w, out)

def isReverted : Outcome Cid → Bool
  | .reverted _ => true
  | _ => false

def twoNodes : List (Call ℕ) :=
  [.addNode { id := 1, ntype := "N" }, .addNode { id := 2, ntype := "N" }]

def oneEdge : Call ℕ := .addEdge { id := 1, etype := "e", src := 1, dst := 2 }

/-- A node is changed, and a node and an edge are added. -/
def edits : List (Call ℕ) :=
  [.addNode { id := 1, ntype := "M" }, .addNode { id := 3, ntype := "N" }, oneEdge]

def isLeaf (s : Store H) (root : Cid) : Bool :=
  match loadTreeChunk s root with
  | .ok (.leaf _) => true
  | _ => false

/-- The trees of a repository are leaves. -/
def leafRoots (s : Store H) (r : ReadonlyRepo Cid) : Bool :=
  r.commit.all fun c => isLeaf s c.nodes && isLeaf s c.edges

theorem aligned_of_isLeaf {s : Store H} {root : Cid} (leaf : isLeaf s root = true) (other : Cid) :
    Aligned s root other := by
  unfold isLeaf at leaf
  split at leaf
  · exact .leafLeft ‹_›
  · cases leaf

theorem alignedWith_of_leafRoots {s : Store H} {r : ReadonlyRepo Cid} (leaf : leafRoots s r = true)
    (op : ReadonlyRepo Cid) : AlignedWith s op (some r) := by
  intro p commit before same _ born
  cases same
  unfold leafRoots at leaf
  rw [born] at leaf
  obtain ⟨nodes, edges⟩ := Bool.and_eq_true_iff.mp leaf
  exact ⟨aligned_of_isLeaf nodes _, aligned_of_isLeaf edges _⟩

/-- Both repositories of two transactions are pinned, one on top of the other. -/
theorem pinned_of_transactTwice {first second : List (Call Cid)} {r r₁ : ReadonlyRepo Cid}
    {w : World H} (ran : (transactTwice first second : WorldM H _).Returns {} (r, r₁) w) :
    ∃ g g₁, Pinned (fun _ => True) w.store r g ∧ Pinned (fun _ => True) w.store r₁ g₁ ∧
      r₁.op.parents.head? = some r.opId := by
  obtain ⟨w₀, g, pinned, le, committed⟩ := transactTwice_returns ran
  obtain ⟨tx, s₁, -, grown, rfl, staged, commit⟩ := transact_returns committed
  have after := Transaction.commitOpts_returns (w := { w₀ with store := s₁ }) (pinned.mono grown)
    staged (fun _ => trivial) commit
  exact ⟨g, _, pinned.mono le, after.pinned, by rw [after.parents]; rfl⟩

theorem revertLast_returns {first second : List (Call Cid)} {r r₁ : ReadonlyRepo Cid}
    {w w' : World H} {out : Outcome Cid}
    (ran : (revertLast first second : WorldM H _).Returns {} (r, r₁, w, out) w') :
    ∃ g g₁, Pinned (fun _ => True) w.store r g ∧ Pinned (fun _ => True) w.store r₁ g₁ ∧
      r₁.op.parents.head? = some r.opId ∧
        (revert r₁ r₁.opId { author := "", message := "revert" } : WorldM H _).Returns w out
          w' := by
  obtain ⟨⟨r', r₁'⟩, w₁, twice, ran⟩ := Exec.returns_bind.mp ran
  obtain ⟨w₂, w₃, here, ran⟩ := Exec.returns_bind.mp ran
  obtain ⟨same, rfl⟩ := Exec.returns_read.mp here
  obtain rfl := Except.ok.inj same
  obtain ⟨out', w₄, reverted, last⟩ := Exec.returns_bind.mp ran
  obtain ⟨⟨⟩, rfl⟩ := Exec.returns_pure.mp last
  obtain ⟨g, g₁, pinned, pinned₁, parent⟩ := pinned_of_transactTwice twice
  exact ⟨g, g₁, pinned, pinned₁, parent, reverted⟩

def hasNoEdges (s : Store H) (r : ReadonlyRepo Cid) : Bool :=
  r.commit.all fun c => Exec.okAnd (entries s c.edges) List.isEmpty

theorem edges_of_hasNoEdges {s : Store H} {r : ReadonlyRepo Cid} {g : Graph Cid}
    (pinned : Pinned (fun _ => True) s r g) (nothing : hasNoEdges s r = true) (k : EdgeId) :
    (GraphState.of s r).edges k = none := by
  have holds := pinned.holds
  unfold hasNoEdges at nothing
  have noEdges : g.edges.entries = [] := by
    cases head : r.commit with
    | none =>
        rw [head] at holds
        obtain rfl : g = {} := holds
        rfl
    | some commit =>
        rw [head] at holds nothing
        obtain ⟨es, read, empty⟩ : ∃ es, entries s commit.edges = .ok es ∧ es.isEmpty = true :=
          Exec.exists_of_okAnd nothing
        rw [entries_of_isTree (Stands.edges holds).tree] at read
        rw [Except.ok.inj read]
        exact List.isEmpty_iff.mp empty
  refine Option.map_eq_none_iff.mp ((GraphState.of_edges pinned k).trans ?_)
  rw [OrdMap.get?, noEdges]
  rfl

/-- The run: what the second transaction did is taken back. -/
theorem exists_revertLast : ∃ r r₁ w out w',
    (revertLast twoNodes edits : WorldM quickHashing _).Returns {} (r, r₁, w, out) w' ∧
      leafRoots w.store r = true ∧ hasNoEdges w.store r = true ∧ isReverted out = true := by
  have passed : (revertLast twoNodes edits : WorldM quickHashing _).check {} (fun x _ =>
      leafRoots x.2.2.1.store x.1 && hasNoEdges x.2.2.1.store x.1 &&
        isReverted x.2.2.2) = true := by
    decide +kernel
  obtain ⟨⟨r, r₁, w, out⟩, w', ran, passed⟩ := Exec.exists_of_check passed
  simp only [Bool.and_eq_true] at passed
  exact ⟨r, r₁, w, out, w', ran, passed.1.1, passed.1.2, passed.2⟩

theorem revert_undoes_edits : ∃ (r r₁ : ReadonlyRepo ℕ) (w w' : World quickHashing)
    (out : Outcome ℕ), isReverted out = true ∧ GraphState.of w'.store (out.repo r₁) =
      takenBack (r₁.listed w.store) (.of w.store r) (.of w.store r₁) (.of w.store r₁) := by
  obtain ⟨r, r₁, w, out, w', ran, leaf, -, reverted⟩ := exists_revertLast
  obtain ⟨g, g₁, pinned, pinned₁, parent, ran⟩ := revertLast_returns ran
  obtain ⟨op, parent', sides, law⟩ := revert_undoes pinned₁ ran
  obtain ⟨rfl, rfl⟩ := sides.eq_of_pinned pinned pinned₁ parent
  exact ⟨r, op, w, w', out, reverted, law (alignedWith_of_leafRoots leaf op)⟩

theorem revert_spares_edits : ∃ (r r₁ : ReadonlyRepo ℕ) (w w' : World quickHashing)
    (out : Outcome ℕ) (changes : Changes ℕ), isReverted out = true ∧
      ∀ id, (GraphState.of w.store r).nodes id = (GraphState.of w.store r₁).nodes id →
        ((GraphState.of w'.store (out.repo r₁)).nodes id = (GraphState.of w.store r₁).nodes id ↔
          ∀ v, (if ((GraphState.of w.store r₁).nodes id).isSome then DiffEntry.added id v
            else DiffEntry.removed id v) ∉ changes.nodes) := by
  obtain ⟨r, r₁, w, out, w', ran, -, -, reverted⟩ := exists_revertLast
  obtain ⟨g, g₁, pinned, pinned₁, parent, ran⟩ := revertLast_returns ran
  obtain ⟨op, parent', changes, -, sides, -, law⟩ := revert_spares_iff pinned₁ ran
  obtain ⟨rfl, rfl⟩ := sides.eq_of_pinned pinned pinned₁ parent
  exact ⟨r, op, w, w', out, changes, reverted, law⟩

theorem revert_restores_edits : ∃ (r r₁ : ReadonlyRepo ℕ) (w w' : World quickHashing)
    (out : Outcome ℕ), isReverted out = true ∧ ∀ id, AsBefore nodeEq
      ((GraphState.of w.store r).nodes id) ((GraphState.of w'.store (out.repo r₁)).nodes id) := by
  obtain ⟨r, r₁, w, out, w', ran, leaf, noEdges, reverted⟩ := exists_revertLast
  obtain ⟨g, g₁, pinned, pinned₁, parent, ran⟩ := revertLast_returns ran
  have law := revert_restores pinned pinned₁ parent (alignedWith_of_leafRoots leaf r₁)
    (fun k e id here _ _ => by
      rw [edges_of_hasNoEdges pinned noEdges k] at here
      cases here) ran
  exact ⟨r, r₁, w, w', out, reverted, law.1⟩

/-- A node goes, and with it an edge. -/
def removal : List (Call ℕ) := [.removeNode 1]

theorem revert_refused_removal : ∃ (r₁ : ReadonlyRepo ℕ) (w : World quickHashing) (e : Error ℕ)
    (w' : World quickHashing),
    (revert r₁ r₁.opId { author := "", message := "" } : WorldM quickHashing _).Fails w e w' ∧
      w'.opHeads = w.opHeads := by
  have passed : (transactTwice (twoNodes ++ [oneEdge]) removal :
      WorldM quickHashing _).check {} (fun x w =>
      ((GraphState.of w.store x.1).edges 1).any (touches · 1) &&
        ((GraphState.of w.store x.2).edges 1).isNone &&
          ((GraphState.of w.store x.2).nodes 1).isNone) = true := by
    decide +kernel
  obtain ⟨⟨r, r₁⟩, w, ran, passed⟩ := Exec.exists_of_check passed
  obtain ⟨g, g₁, pinned, pinned₁, parent⟩ := pinned_of_transactTwice ran
  simp only [Bool.and_eq_true, Option.any_eq_true, Option.isNone_iff_eq_none] at passed
  obtain ⟨⟨⟨edge, was, endpoint⟩, gone⟩, missing⟩ := passed
  obtain ⟨e, w', fails, heads⟩ := revert_refused pinned₁ pinned₁
    (show Follows w.store r₁ (some r) g from ⟨parent, pinned⟩) was gone endpoint (.inl missing)
  exact ⟨r₁, w, e, w', fails, heads⟩

end Example

end Mnem.Cli.Revert
