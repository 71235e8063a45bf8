/-
# Repo.Concurrent — what becomes of the writes of concurrent transactions

Transactions begin at one operation and are committed in some order; then the
repository is opened, which merges the heads.  The merge unites the node trees
and does not look at the tree that the transactions began with.  So at a node
that one transaction touched, its entry meets the old one, which the other
heads still carry: of two CIDs the greater one stays, and a removal is undone
(`open_after_commits`).
-/
import Mnem.Repo.HeadMerge
import Mnem.Repo.Session

namespace Mnem.Repo

open Theory Prolly Index

set_option autoImplicit false
set_option linter.unusedSectionVars false

variable {Cid : Type} {H : Hashing Cid} [LinearOrder Cid]

/-! ## Transactions in flight -/

/-- A transaction on `base` after some calls, made while the store grew to `s`. -/
inductive Begun (base : ReadonlyRepo Cid) : Store H → Transaction Cid → Prop where
  | new (s : Store H) : Begun base s (Transaction.new base)
  | call {s s' : Store H} {tx : Transaction Cid} (call : Transaction.Call Cid)
      (begun : Begun base s tx) (le : s ≤ s') :
      Begun base (tx.apply s' call).2 (tx.apply s' call).1
  | later {s s' : Store H} {tx : Transaction Cid} (begun : Begun base s tx) (le : s ≤ s') :
      Begun base s' tx

/-- The transaction added, overwrote or removed the node. -/
def Transaction.Touches (tx : Transaction Cid) (id : NodeId) : Prop :=
  (tx.newNodes.get? id).isSome ∨ id ∈ tx.removedNodes

/-- Transactions that began at `base` are committed in the default mode, one after the other,
while the store grows. -/
inductive Commits (base : ReadonlyRepo Cid) (w : World H) :
    List (Transaction Cid) → List (ReadonlyRepo Cid) → World H → Prop where
  | start : Commits base w [] [] w
  | grow {txs : List (Transaction Cid)} {repos : List (ReadonlyRepo Cid)} {w₁ : World H}
      {s : Store H} (run : Commits base w txs repos w₁) (le : w₁.store ≤ s) :
      Commits base w txs repos { w₁ with store := s }
  | commit {txs : List (Transaction Cid)} {repos : List (ReadonlyRepo Cid)} {w₁ w₂ : World H}
      {tx : Transaction Cid} {opts : CommitOptions} {r : ReadonlyRepo Cid}
      (run : Commits base w txs repos w₁) (begun : Begun base w₁.store tx)
      (default : opts.linearize = false) (ran : (tx.commitOpts opts : WorldM H _).Returns w₁ r w₂) :
      Commits base w (txs ++ [tx]) (repos ++ [r]) w₂

section Runs

variable {s : Store H} {base : ReadonlyRepo Cid} {tx : Transaction Cid} {g : Graph Cid}
  {w w' : World H} {txs : List (Transaction Cid)} {repos : List (ReadonlyRepo Cid)}

theorem Begun.keeps (begun : Begun base s tx) : tx.base = base ∧ Transaction.Staged s tx := by
  induction begun with
  | new s => exact ⟨rfl, Transaction.staged_new s base⟩
  | @call s s' tx call _ le ih =>
      have change := Transaction.apply_change s' tx call
      exact ⟨change.base.trans ih.1,
        (ih.2.mono le).change (Transaction.le_apply s' tx call) change⟩
  | later _ le ih => exact ⟨ih.1, ih.2.mono le⟩

/-- A repository that a transaction on `base` left, with the graph that it committed. -/
structure LeftBy (g : Graph Cid) (base : ReadonlyRepo Cid) (s : Store H) (tx : Transaction Cid)
    (r : ReadonlyRepo Cid) : Prop where
  pinned : Pinned (fun _ => True) s r (tx.committed H g)
  parents : r.op.parents = [base.opId]
  commit : ∃ commit, r.commit = some commit

theorem LeftBy.mono {s' : Store H} {r : ReadonlyRepo Cid} (left : LeftBy g base s tx r)
    (le : s ≤ s') : LeftBy g base s' tx r :=
  ⟨left.pinned.mono le, left.parents, left.commit⟩

theorem LeftBy.fresh {r : ReadonlyRepo Cid} (left : LeftBy g base s tx r) :
    r.opId ≠ base.opId := by
  intro same
  refine not_mem_parents left.pinned.op ?_
  rw [left.parents, same]
  exact List.mem_cons_self

/-- The commits of a run are the heads, once there is one. -/
structure Landed (g : Graph Cid) (base : ReadonlyRepo Cid) (w : World H)
    (txs : List (Transaction Cid)) (repos : List (ReadonlyRepo Cid)) : Prop where
  pinned : Pinned (fun _ => True) w.store base g
  each : List.Forall₂ (LeftBy g base w.store) txs repos
  heads : ∀ c, c ∈ w.opHeads ↔ (txs = [] ∧ c = base.opId) ∨ ∃ r ∈ repos, r.opId = c

theorem Commits.landed (run : Commits base w txs repos w')
    (pinned : Pinned (fun _ => True) w.store base g) (alone : ∀ c, c ∈ w.opHeads ↔ c = base.opId) :
    Landed g base w' txs repos := by
  induction run with
  | start => exact ⟨pinned, .nil, fun c => by simp [alone]⟩
  | grow _ le ih =>
      exact ⟨ih.pinned.mono le, ih.each.imp fun _ _ left => left.mono le, ih.heads⟩
  | @commit txs repos w₁ w₂ tx opts r _ begun _ ran ih =>
      obtain ⟨rfl, staged⟩ := begun.keeps
      have done := Transaction.commitOpts_returns ih.pinned staged (fun _ => trivial) ran
      have left : LeftBy g tx.base w₂.store tx r :=
        ⟨done.pinned, done.parents, done.commit.imp fun _ here => here.1⟩
      have each : List.Forall₂ (LeftBy g tx.base w₂.store) (txs ++ [tx]) (repos ++ [r]) :=
        List.rel_append (ih.each.imp fun _ _ left => left.mono done.grows) (.cons left .nil)
      refine ⟨ih.pinned.mono done.grows, each, fun c => ?_⟩
      rw [done.heads, OpHeads.mem_update, ih.heads, List.mem_singleton]
      constructor
      · rintro ⟨rfl | ⟨-, here⟩ | ⟨r', member, rfl⟩, other⟩
        · exact .inr ⟨r, List.mem_append_right _ List.mem_cons_self, rfl⟩
        · exact absurd here other
        · exact .inr ⟨r', List.mem_append_left _ member, rfl⟩
      · rintro (⟨nothing, -⟩ | ⟨r', member, rfl⟩)
        · simp at nothing
        · obtain ⟨tx', -, left'⟩ := Exec.exists_left_of_forall₂ each member
          refine ⟨?_, left'.fresh⟩
          rcases List.mem_append.mp member with before | here
          · exact .inr (.inr ⟨r', before, rfl⟩)
          · obtain rfl := List.mem_singleton.mp here
            exact .inl rfl

end Runs

/-! ## The union of what the transactions committed -/

section Union

variable {g : Graph Cid} {tx : Transaction Cid} {txs : List (Transaction Cid)} {id : NodeId}

/-- Where the maps have no more than two entries, the union has the greater one; an absent entry
gives way. -/
theorem get?_unionMap_of_two {maps : List (OrdMap ProllyKey Cid)} {k : ProllyKey}
    {a b : Option Cid} (first : ∃ m ∈ maps, m.get? k = a) (second : ∃ m ∈ maps, m.get? k = b)
    (only : ∀ m ∈ maps, m.get? k = a ∨ m.get? k = b) :
    (unionMap maps).get? k = Option.merge max a b := by
  obtain ⟨m, inMaps, here⟩ := first
  obtain ⟨m', inMaps', here'⟩ := second
  have bound : ∀ w : Cid, (∀ v, a = some v → v ≤ w) → (∀ v, b = some v → v ≤ w) →
      w ∈ upperBounds {v | ∃ m ∈ maps, m.get? k = some v} := by
    rintro w belowA belowB v ⟨m, member, found⟩
    rcases only m member with at_a | at_b
    · exact belowA v (at_a.symm.trans found)
    · exact belowB v (at_b.symm.trans found)
  cases a with
  | none =>
      cases b with
      | none => exact get?_unionMap_eq_none.mpr fun m member => (only m member).elim id id
      | some y =>
          refine get?_unionMap.mpr ⟨⟨m', inMaps', here'⟩, bound y nofun ?_⟩
          rintro v ⟨⟩
          exact le_rfl
  | some x =>
      cases b with
      | none =>
          refine get?_unionMap.mpr ⟨⟨m, inMaps, here⟩, bound x ?_ nofun⟩
          rintro v ⟨⟩
          exact le_rfl
      | some y =>
          refine get?_unionMap.mpr ⟨?_, bound (max x y) ?_ ?_⟩
          · rcases max_choice x y with left | right
            · exact ⟨m, inMaps, here.trans (congrArg some left.symm)⟩
            · exact ⟨m', inMaps', here'.trans (congrArg some right.symm)⟩
          · rintro v ⟨⟩
            exact le_max_left _ _
          · rintro v ⟨⟩
            exact le_max_right _ _

theorem get?_committed_nodes (tx : Transaction Cid) (g : Graph Cid) (id : NodeId) :
    (tx.committed H g).nodes.get? id =
      (tx.newNodes.get? id).or (if id ∈ tx.removedNodes then none else g.nodes.get? id) :=
  get?_rebuiltEntries _ _ _ _

theorem committed_of_untouched (untouched : ¬ tx.Touches id) :
    (tx.committed H g).nodes.get? id = g.nodes.get? id := by
  obtain ⟨notNew, stays⟩ := not_or.mp untouched
  rw [get?_committed_nodes, Option.not_isSome_iff_eq_none.mp notNew, if_neg stays, Option.none_or]

/-- A touched node has its new entry, or none. -/
theorem committed_of_touched (touched : tx.Touches id) :
    (tx.committed H g).nodes.get? id = tx.newNodes.get? id := by
  rw [get?_committed_nodes]
  cases added : tx.newNodes.get? id with
  | some c => rfl
  | none =>
      rcases touched with new | removed
      · rw [added] at new
        cases new
      · rw [if_pos removed]
        rfl

/-- The union at a node that no transaction touched. -/
theorem get?_union_of_untouched (some_tx : txs ≠ []) (untouched : ∀ tx ∈ txs, ¬ tx.Touches id) :
    (unionMap (txs.map fun tx => (tx.committed H g).nodes)).get? id = g.nodes.get? id := by
  have all : ∀ m ∈ txs.map fun tx => (tx.committed H g).nodes, m.get? id = g.nodes.get? id := by
    intro m member
    obtain ⟨tx, inTxs, rfl⟩ := List.mem_map.mp member
    exact committed_of_untouched (untouched tx inTxs)
  obtain ⟨tx, inTxs⟩ := List.exists_mem_of_ne_nil _ some_tx
  have here := List.mem_map_of_mem (f := fun tx => (tx.committed H g).nodes) inTxs
  rw [get?_unionMap_of_two ⟨_, here, all _ here⟩ ⟨_, here, all _ here⟩ fun m member =>
    .inl (all m member)]
  cases g.nodes.get? id with
  | none => rfl
  | some t => exact congrArg some (max_self t)

/-- The union at a node that one of several transactions touched: the greater of the entry it
committed and the old one. -/
theorem get?_union_of_touched {before after : List (Transaction Cid)} (several : before ++ after ≠ [])
    (touched : tx.Touches id) (alone : ∀ other ∈ before ++ after, ¬ other.Touches id) :
    (unionMap ((before ++ tx :: after).map fun tx => (tx.committed H g).nodes)).get? id =
      Option.merge max (tx.newNodes.get? id) (g.nodes.get? id) := by
  have inTxs : ∀ other ∈ before ++ after, other ∈ before ++ tx :: after := by
    intro other member
    rcases List.mem_append.mp member with h | h
    · exact List.mem_append_left _ h
    · exact List.mem_append_right _ (List.mem_cons_of_mem _ h)
  obtain ⟨other, member⟩ := List.exists_mem_of_ne_nil _ several
  refine get?_unionMap_of_two
    ⟨_, List.mem_map_of_mem (List.mem_append_right _ List.mem_cons_self),
      committed_of_touched touched⟩
    ⟨_, List.mem_map_of_mem (inTxs other member), committed_of_untouched (alone other member)⟩ ?_
  intro m inMaps
  obtain ⟨tx', inAll, rfl⟩ := List.mem_map.mp inMaps
  rcases List.mem_append.mp inAll with h | h
  · exact .inr (committed_of_untouched (alone tx' (List.mem_append_left _ h)))
  · rcases List.mem_cons.mp h with rfl | h
    · exact .inl (committed_of_touched touched)
    · exact .inr (committed_of_untouched (alone tx' (List.mem_append_right _ h)))

end Union

/-! ## Opening -/

section Open

variable {P : Graph Cid → Prop} {s : Store H} {r r' : ReadonlyRepo Cid} {g g' : Graph Cid}

/-- An operation determines the repository that is pinned to it, and its graph. -/
theorem Pinned.unique (pinned : Pinned P s r g) (pinned' : Pinned P s r' g')
    (same : r.opId = r'.opId) : r = r' ∧ g = g' := by
  obtain ⟨opId, op, view, commit⟩ := r
  obtain ⟨opId', op', view', commit'⟩ := r'
  obtain ⟨-, opLoads, viewLoads, byHead, holds⟩ := pinned
  obtain ⟨-, opLoads', viewLoads', byHead', holds'⟩ := pinned'
  dsimp only at *
  subst same
  obtain rfl := opLoads.unique opLoads'
  obtain rfl := viewLoads.unique viewLoads'
  cases first : view.heads.head? with
  | none =>
      rw [first] at byHead byHead'
      obtain rfl : commit = none := byHead
      obtain rfl : commit' = none := byHead'
      obtain rfl : g = {} := holds
      exact ⟨rfl, Eq.symm holds'⟩
  | some head =>
      rw [first] at byHead byHead'
      obtain ⟨c, rfl, loads⟩ := byHead
      obtain ⟨c', rfl, loads'⟩ := byHead'
      obtain rfl := loads.unique loads'
      exact ⟨rfl, Stands.unique holds holds'⟩

variable {base : ReadonlyRepo Cid} {w w' : World H} {txs : List (Transaction Cid)}
  {repos : List (ReadonlyRepo Cid)}

/-- The graphs that a merge of the heads merges are those that the transactions committed. -/
theorem Landed.held_iff (landed : Landed g base w txs repos) {heads : List Cid}
    (sameHeads : ∀ c, c ∈ heads ↔ ∃ r ∈ repos, r.opId = c) {loaded : List (LoadedHead Cid)}
    {held : List (Cid × Graph Cid)}
    (loadedGood : List.Forall₂ (LoadedGood (fun _ => True) w.store) heads loaded)
    (holds : List.Forall₂ (CommitHolds w.store) ((loaded.map LoadedHead.commit).filterMap id) held)
    (g' : Graph Cid) :
    (∃ h ∈ held, h.2 = g') ↔ ∃ tx ∈ txs, tx.committed H g = g' := by
  -- a head is a repository that a transaction left, and its commit holds what that committed
  have atHead : ∀ (tx : Transaction Cid) (r : ReadonlyRepo Cid) (l : LoadedHead Cid)
      (p : Cid × Commit Cid) (h : Cid × Graph Cid), LeftBy g base w.store tx r →
      LoadedGood (fun _ => True) w.store r.opId l → l.commit = some p → CommitHolds w.store p h →
        h.2 = tx.committed H g := by
    intro tx r l p h left here has held
    have head := here.commit_eq left.pinned
    rw [has] at head
    have stands := left.pinned.holds
    rw [← head] at stands
    exact held.stands.unique stands
  constructor
  · rintro ⟨h, inHeld, rfl⟩
    obtain ⟨p, inCommits, commitHolds⟩ := Exec.exists_left_of_forall₂ holds inHeld
    obtain ⟨o, inOptions, has⟩ := List.mem_filterMap.mp inCommits
    obtain ⟨l, inLoaded, rfl⟩ := List.mem_map.mp inOptions
    obtain ⟨c, inHeads, here⟩ := Exec.exists_left_of_forall₂ loadedGood inLoaded
    obtain ⟨r, inRepos, rfl⟩ := (sameHeads c).mp inHeads
    obtain ⟨tx, inTxs, left⟩ := Exec.exists_left_of_forall₂ landed.each inRepos
    exact ⟨tx, inTxs, (atHead tx r l p h left here has commitHolds).symm⟩
  · rintro ⟨tx, inTxs, rfl⟩
    obtain ⟨r, inRepos, left⟩ := Exec.exists_right_of_forall₂ landed.each inTxs
    have inHeads := (sameHeads r.opId).mpr ⟨r, inRepos, rfl⟩
    obtain ⟨l, inLoaded, here⟩ := Exec.exists_right_of_forall₂ loadedGood inHeads
    obtain ⟨commit, head⟩ := left.commit
    have same := here.commit_eq left.pinned
    rw [head] at same
    obtain ⟨p, has, -⟩ := Option.map_eq_some_iff.mp same
    have inCommits : p ∈ (loaded.map LoadedHead.commit).filterMap id :=
      List.mem_filterMap.mpr ⟨_, List.mem_map_of_mem inLoaded, has⟩
    obtain ⟨h, inHeld, commitHolds⟩ := Exec.exists_right_of_forall₂ holds inCommits
    exact ⟨h, inHeld, atHead tx r l p h left here has commitHolds⟩

/-- The head commit of a repository holds these nodes. -/
def HeadNodes (s : Store H) (r : ReadonlyRepo Cid) (nodes : OrdMap ProllyKey Cid) : Prop :=
  ∃ commit, r.commit = some commit ∧ IsTree s commit.nodes nodes

/-- Opening after the commits returns a repository whose nodes are the union of what the
transactions committed. -/
theorem Landed.opens (landed : Landed g base w txs repos) (some_tx : txs ≠ []) :
    (openRepo : WorldM H _).Succeeds w fun r w' =>
      HeadNodes w'.store r (unionMap (txs.map fun tx => (tx.committed H g).nodes)) := by
  have heads : ∀ c, c ∈ w.opHeads ↔ ∃ r ∈ repos, r.opId = c := by
    intro c
    rw [landed.heads]
    simp [some_tx]
  have current : ∀ c, c ∈ OpHeads.current w.opHeads ↔ ∃ r ∈ repos, r.opId = c :=
    fun c => OpHeads.mem_current.trans (heads c)
  have left : ∀ c ∈ w.opHeads, ∃ tx ∈ txs, ∃ r, r.opId = c ∧ LeftBy g base w.store tx r := by
    intro c member
    obtain ⟨r, inRepos, at_c⟩ := (heads c).mp member
    obtain ⟨tx, inTxs, here⟩ := Exec.exists_left_of_forall₂ landed.each inRepos
    exact ⟨tx, inTxs, r, at_c, here⟩
  obtain ⟨tx₀, inTxs₀⟩ := List.exists_mem_of_ne_nil _ some_tx
  obtain ⟨r₀, inRepos₀, left₀⟩ := Exec.exists_right_of_forall₂ landed.each inTxs₀
  have good : ∀ c ∈ w.opHeads, GoodOp (fun _ => True) w.store c := by
    intro c member
    obtain ⟨tx, -, r, rfl, here⟩ := left c member
    exact here.pinned.good
  have rooted : ∀ c ∈ w.opHeads, Relation.ReflTransGen (OpParent H) c base.opId := by
    intro c member
    obtain ⟨tx, -, r, rfl, here⟩ := left c member
    refine .single ((opParent_iff here.pinned.op.cidOf).mpr ?_)
    rw [here.parents]
    exact List.mem_cons_self
  refine (openRepo_succeeds (fun _ _ => trivial) good ⟨r₀.opId, (heads _).mpr ⟨r₀, inRepos₀, rfl⟩⟩
    rooted).mono fun r w'' opened => ?_
  cases opened with
  | single alone pinned =>
      -- all transactions left the one head
      have same : ∀ r' ∈ repos, r'.opId = r.opId := by
        intro r' member
        have inHeads := (current r'.opId).mpr ⟨r', member, rfl⟩
        rw [alone] at inHeads
        exact List.mem_singleton.mp inHeads
      obtain ⟨rfl, -⟩ := left₀.pinned.unique pinned (same r₀ inRepos₀)
      obtain ⟨commit, head⟩ := left₀.commit
      have stands := left₀.pinned.holds
      rw [head] at stands
      refine ⟨commit, head, ?_⟩
      have graphs : ∀ m ∈ txs.map fun tx => (tx.committed H g).nodes,
          m = (tx₀.committed H g).nodes := by
        intro m member
        obtain ⟨tx, inTxs, rfl⟩ := List.mem_map.mp member
        obtain ⟨r', inRepos, here⟩ := Exec.exists_right_of_forall₂ landed.each inTxs
        rw [(here.pinned.unique left₀.pinned (same r' inRepos)).2]
      rw [unionMap_of_forall_eq (List.mem_map_of_mem inTxs₀) graphs]
      exact (Stands.nodes stands).tree
  | @merged w'' g' loaded held out several merged pinned advanced =>
      have sorted : ∀ c, c ∈ (OpHeads.current w.opHeads).insertionSort (· ≤ ·) ↔
          ∃ r ∈ repos, r.opId = c := fun c => (List.mem_insertionSort _).trans (current c)
      have heldIff := landed.held_iff sorted merged.loadedGood merged.holds
      have nodes : unionMap (held.map fun h => h.2.nodes) =
          unionMap (txs.map fun tx => (tx.committed H g).nodes) := by
        refine unionMap_congr fun m => ?_
        simp only [List.mem_map]
        constructor
        · rintro ⟨h, inHeld, rfl⟩
          obtain ⟨tx, inTxs, same⟩ := (heldIff h.2).mp ⟨h, inHeld, rfl⟩
          exact ⟨tx, inTxs, by rw [same]⟩
        · rintro ⟨tx, inTxs, rfl⟩
          obtain ⟨h, inHeld, same⟩ := (heldIff _).mpr ⟨tx, inTxs, rfl⟩
          exact ⟨h, inHeld, by rw [same]⟩
      obtain ⟨h₀, inHeld₀, -⟩ := (heldIff _).mpr ⟨tx₀, inTxs₀, rfl⟩
      obtain ⟨cid, rfl⟩ : ∃ cid, out = some cid := by
        cases merged.result with
        | empty nothing =>
            rw [nothing] at inHeld₀
            cases inHeld₀
        | same first rest _ _ => exact ⟨_, rfl⟩
        | union first rest _ _ cid _ _ _ => exact ⟨cid, rfl⟩
      obtain ⟨commit, head, -, stands⟩ := merged.head pinned
      refine ⟨commit, head, ?_⟩
      rw [← nodes]
      exact stands.nodes.tree

/-- **Concurrent transactions, after the heads are merged.**  Several transactions begin at one
operation, the only head, and are committed in some order.  Opening then returns; a node that
none of them touched is as it was, and at a node that one of them touched there is the greater
of the CID it committed and the old one, where an absent entry gives way. -/
theorem open_after_commits (H : Hashing Cid) {w w' : World H} {base : ReadonlyRepo Cid}
    {g : Graph Cid} (pinned : Pinned (fun _ => True) w.store base g)
    (alone : ∀ c, c ∈ w.opHeads ↔ c = base.opId) {txs : List (Transaction Cid)}
    {repos : List (ReadonlyRepo Cid)} (run : Commits base w txs repos w') (several : 2 ≤ txs.length) :
    (openRepo : WorldM H _).Succeeds w' fun r w'' => ∃ commit, r.commit = some commit ∧ ∀ id,
      ((∀ tx ∈ txs, ¬ tx.Touches id) →
        lookup w''.store commit.nodes id = .ok (g.nodes.get? id)) ∧
      ∀ before tx after, txs = before ++ tx :: after → tx.Touches id →
        (∀ other ∈ before ++ after, ¬ other.Touches id) →
          lookup w''.store commit.nodes id =
            .ok (Option.merge max (tx.newNodes.get? id) (g.nodes.get? id)) := by
  have some_tx : txs ≠ [] := by
    rintro rfl
    simp at several
  refine ((run.landed pinned alone).opens some_tx).mono ?_
  rintro r w'' ⟨commit, head, tree⟩
  refine ⟨commit, head, fun id => ⟨fun untouched => ?_, ?_⟩⟩
  · rw [lookup_of_isTree tree, get?_union_of_untouched some_tx untouched]
  · rintro before tx after rfl touched others
    have another : before ++ after ≠ [] := by
      intro none_other
      obtain ⟨rfl, rfl⟩ := List.append_eq_nil_iff.mp none_other
      simp at several
    rw [lookup_of_isTree tree, get?_union_of_touched another touched others]

end Open

/-! ## Two writers -/

theorem begun_stage {base : ReadonlyRepo Cid} {s : Store H} {tx : Transaction Cid}
    (begun : Begun base s tx) (calls : List (Transaction.Call Cid)) :
    Begun base (tx.stage s calls).2 (tx.stage s calls).1 := by
  induction calls generalizing s tx with
  | nil => exact begun
  | cons call calls ih => exact ih (begun.call call (le_refl s))

/-- A transaction that is begun and committed in one go extends a run. -/
theorem Commits.transact {base r : ReadonlyRepo Cid} {w w₁ w₂ : World H}
    {txs : List (Transaction Cid)} {repos : List (ReadonlyRepo Cid)}
    (run : Commits base w txs repos w₁) {calls : List (Transaction.Call Cid)} {opts : CommitOptions}
    (default : opts.linearize = false)
    (ran : (base.transact calls opts : WorldM H _).Returns w₁ r w₂) :
    Commits base w (txs ++ [((Transaction.new base).stage w₁.store calls).1]) (repos ++ [r]) w₂ := by
  obtain ⟨tx, s₁, staged, le, -, -, commit⟩ := transact_returns ran
  have begun := begun_stage (Begun.new w₁.store : Begun base w₁.store _) calls
  rw [staged] at begun ⊢
  exact .commit (run.grow le) begun default commit

/-- A base commit, two transactions on it, and what opening returns; with the heads before them. -/
def race (setup first second : List (Transaction.Call Cid)) :
    WorldM H (List Cid × ReadonlyRepo Cid × ReadonlyRepo Cid) := do
  let root ← init 0
  let base ← root.transact setup { author := "", message := "base" }
  let heads ← readHeads
  let _ ← base.transact first { author := "", message := "first" }
  let _ ← base.transact second { author := "", message := "second" }
  let merged ← openRepo
  return (heads, base, merged)

theorem race_returns {setup first second : List (Transaction.Call Cid)} {base merged : ReadonlyRepo Cid}
    {w'' : World H} (ran : (race setup first second : WorldM H _).Returns {}
      ([base.opId], base, merged) w'') :
    ∃ (g : Graph Cid) (w w' : World H) (s₁ s₂ : Store H) (repos : List (ReadonlyRepo Cid)),
      Pinned (fun _ => True) w.store base g ∧ (∀ c, c ∈ w.opHeads ↔ c = base.opId) ∧
        Commits base w [((Transaction.new base).stage s₁ first).1,
          ((Transaction.new base).stage s₂ second).1] repos w' ∧
        (openRepo : WorldM H _).Returns w' merged w'' := by
  obtain ⟨root, w₀, start, ran⟩ := Exec.returns_bind.mp ran
  obtain ⟨base', w₁, atBase, ran⟩ := Exec.returns_bind.mp ran
  obtain ⟨heads, w₂, read, ran⟩ := Exec.returns_bind.mp ran
  obtain ⟨alone, rfl⟩ := returns_readHeads.mp read
  obtain ⟨r₁, w₃, commit₁, ran⟩ := Exec.returns_bind.mp ran
  obtain ⟨r₂, w₄, commit₂, ran⟩ := Exec.returns_bind.mp ran
  obtain ⟨merged', w₅, opened, done⟩ := Exec.returns_bind.mp ran
  obtain ⟨⟨⟩, rfl⟩ := Exec.returns_pure.mp done
  obtain ⟨-, pinned₀, -⟩ := init_returns start
  obtain ⟨-, g, pinned, -⟩ := transact_atCommit pinned₀ atBase
  refine ⟨g, w₁, w₄, w₁.store, w₃.store, [] ++ [r₁] ++ [r₂], pinned,
    OrdSet.keys_eq_singleton_iff.mp alone, ?_, opened⟩
  exact ((Commits.start : Commits base w₁ [] [] w₁).transact rfl commit₁).transact rfl commit₂

/-- A transaction that removes a node, and nothing else, touches that node. -/
theorem stage_removeNode (base : ReadonlyRepo Cid) (s : Store H) (id : NodeId) :
    ((Transaction.new base).stage s [.removeNode id]).1.Touches id ∧
      ((Transaction.new base).stage s [.removeNode id]).1.newNodes.get? id = none := by
  change ((Transaction.new base).removeNode s id).Touches id ∧ _
  obtain ⟨newEdges, removedEdges, eq, -, -⟩ :=
    ((Transaction.new base).unstageNode id).removeEdges_eq ((Transaction.new base).cascade s id)
  change _ ∧ ((Transaction.new base).removeNode s id).newNodes.get? id = none
  rw [Transaction.removeNode_eq, eq]
  refine ⟨.inr (OrdSet.mem_add.mpr (.inl rfl)), ?_⟩
  change ((Transaction.new base).newNodes.erase id).get? id = none
  rw [OrdMap.get?_erase, if_pos rfl]

/-- A transaction that adds a node, and nothing else, touches no other. -/
theorem stage_addNode (base : ReadonlyRepo Cid) (s : Store H) {node : Node Cid}
    (encodes : H.encodes (Object.toBlock node) = true) {id : NodeId} (other : node.id ≠ id) :
    ¬ ((Transaction.new base).stage s [.addNode node]).1.Touches id := by
  obtain ⟨s', applied⟩ := Transaction.exists_apply_addNode s (Transaction.new base) node encodes
  rw [Transaction.stage, applied]
  rintro (new | removed)
  · change ((OrdMap.empty.insert node.id _).get? id).isSome at new
    rw [OrdMap.get?_insert, if_neg other] at new
    cases new
  · exact absurd (OrdSet.mem_remove.mp removed).1 nofun

/-- One writer removes a node, the other adds one. -/
def removalRace : WorldM shortHashing (List ℕ × ReadonlyRepo ℕ × ReadonlyRepo ℕ) :=
  race [.addNode { id := 1, ntype := "Person" }] [.removeNode 1]
    [.addNode { id := 2, ntype := "Person" }]

theorem removalRace_holds : ∃ base merged w commit,
    removalRace.Returns {} ([base.opId], base, merged) w ∧ merged.commit = some commit ∧
      lookup w.store commit.nodes 1 ≠ .ok none := by
  have passed : removalRace.check {} (fun out w =>
      decide (out.1 = [out.2.1.opId]) && out.2.2.commit.any fun commit =>
        Exec.okAnd (lookup w.store commit.nodes 1) Option.isSome) = true := by decide +kernel
  obtain ⟨⟨heads, base, merged⟩, w, ran, passed⟩ := Exec.exists_of_check passed
  obtain ⟨alone, held⟩ := Bool.and_eq_true_iff.mp passed
  obtain rfl : heads = [base.opId] := of_decide_eq_true alone
  obtain ⟨commit, head, held⟩ := (Option.any_eq_true _ _).mp held
  obtain ⟨found, looked, isSome⟩ := Exec.exists_of_okAnd held
  refine ⟨base, merged, w, commit, ran, head, fun absent => ?_⟩
  obtain rfl := Except.ok.inj (looked.symm.trans absent)
  cases isSome

/-- A removal that no other transaction touches is undone by the merge. -/
theorem removal_undone : ∃ (base merged : ReadonlyRepo ℕ) (g : Graph ℕ) (tx tx' : Transaction ℕ)
    (repos : List (ReadonlyRepo ℕ)) (w w' w'' : World shortHashing) (commit : Commit ℕ),
    Pinned (fun _ => True) w.store base g ∧ (∀ c, c ∈ w.opHeads ↔ c = base.opId) ∧
      Commits base w [tx, tx'] repos w' ∧ tx.Touches 1 ∧ ¬ tx'.Touches 1 ∧
      tx.newNodes.get? 1 = none ∧ (openRepo : WorldM shortHashing _).Returns w' merged w'' ∧
      merged.commit = some commit ∧ lookup w''.store commit.nodes 1 ≠ .ok none := by
  obtain ⟨base, merged, w'', commit, ran, head, held⟩ := removalRace_holds
  obtain ⟨g, w, w', s₁, s₂, repos, pinned, alone, run, opened⟩ := race_returns ran
  obtain ⟨touched, absent⟩ := stage_removeNode base s₁ 1
  exact ⟨base, merged, g, _, _, repos, w, w', w'', commit, pinned, alone, run, touched,
    stage_addNode base s₂ rfl (by decide), absent, opened, head, held⟩

theorem open_after_commits_removal : ∃ (w' : World shortHashing) (tx : Transaction ℕ) (g : Graph ℕ),
    (openRepo : WorldM shortHashing _).Succeeds w' fun r w'' => ∃ commit, r.commit = some commit ∧
      lookup w''.store commit.nodes 1 =
        .ok (Option.merge max (tx.newNodes.get? 1) (g.nodes.get? 1)) := by
  obtain ⟨base, merged, w'', commit, ran, -⟩ := removalRace_holds
  obtain ⟨g, w, w', s₁, s₂, repos, pinned, alone, run, opened⟩ := race_returns ran
  refine ⟨w', ((Transaction.new base).stage s₁ [.removeNode 1]).1, g,
    (open_after_commits shortHashing pinned alone run (by simp)).mono ?_⟩
  rintro r w₃ ⟨commit, head, law⟩
  refine ⟨commit, head, (law 1).2 [] _ _ rfl (stage_removeNode base s₁ 1).1 fun other member => ?_⟩
  obtain rfl := List.mem_singleton.mp member
  exact stage_addNode base s₂ rfl (by decide)

end Mnem.Repo
