/-
# Repo.MergeEffects — what a merge writes, reports and fast-forwards

A merge that stops at conflicts has written the detector's view and operation,
and nothing else.  What it reports about nodes is exactly the divergent ones:
the detector runs without operation heads and with empty views, so tombstones
play no part.  It fast-forwards exactly when one commit is an ancestor of the
other.
-/
import Mnem.Repo.Completeness

namespace Mnem.Repo

open Theory Theory.Groups Prolly Index

set_option autoImplicit false
set_option linter.unusedSectionVars false

variable {Cid : Type} {H : Hashing Cid} [LinearOrder Cid]

section Frame

variable {s s' : Store H} {left right : Cid} {strategy : MergeStrategy}

/-- The addresses of what is written for the detector. -/
def detectionViewCid (H : Hashing Cid) (commit : Cid) : Cid :=
  H.cidOf (.view (detectionView commit))

def detectionOpCid (H : Hashing Cid) (commit : Cid) : Cid :=
  H.cidOf (.operation (detectionOperation (detectionViewCid H commit)))

/-- Writing for the detector changes nothing exactly when both blocks are there. -/
theorem detectionStore_same_iff (s : Store H) (commit : Cid) :
    (∀ c, (detectionStore s commit).get c = s.get c) ↔
      (s.get (detectionViewCid H commit)).isSome ∧ (s.get (detectionOpCid H commit)).isSome := by
  have get : ∀ c, (detectionStore s commit).get c =
      if detectionOpCid H commit = c then
        some (.operation (detectionOperation (detectionViewCid H commit)))
      else if detectionViewCid H commit = c then some (.view (detectionView commit))
      else s.get c := fun c => rfl
  constructor
  · intro same
    refine ⟨?_, ?_⟩
    · rw [← same, get]
      split
      · rfl
      · rw [if_pos rfl]
        rfl
    · rw [← same, get, if_pos rfl]
      rfl
  · rintro ⟨hasView, hasOp⟩ c
    obtain ⟨v, viewAt⟩ := Option.isSome_iff_exists.mp hasView
    obtain ⟨o, opAt⟩ := Option.isSome_iff_exists.mp hasOp
    rw [get]
    split
    · rename_i here
      subst here
      rw [opAt, H.cidOf_injective (Store.cidOf_of_get opAt)]
    · split
      · rename_i here
        subst here
        rw [viewAt, H.cidOf_injective (Store.cidOf_of_get viewAt)]
      · rfl

/-- **The frame of a merge** that writes no commit: fast-forwards and disjoint histories leave
the store alone, and a reported conflict does exactly when the detector's blocks were there. -/
theorem mergeThreeWay_keeps_store_iff (s : Store H) (left right : Cid) :
    (∀ strategy cid s', (mergeThreeWay left right strategy : StoreM H _).Returns s
      (.fastForward cid) s' → s' = s) ∧
    (findCommitLca s left right = .ok none → ∀ strategy,
      (mergeThreeWay left right strategy : StoreM H _).outcome s =
        (.error .noCommonAncestor, s)) ∧
    ∀ record s', (mergeThreeWay left right .manual : StoreM H _).Returns s (.conflicts record) s' →
      ((∀ c, s'.get c = s.get c) ↔
        (s.get (detectionViewCid H left)).isSome ∧ (s.get (detectionOpCid H left)).isSome) := by
  refine ⟨fun strategy cid s' ran => ?_, fun disjoint strategy => ?_, fun record s' ran => ?_⟩
  · cases mergeThreeWay_returns ran with
    | keepLeft _ => rfl
    | takeRight _ => rfl
  · unfold mergeThreeWay
    rw [Exec.outcome_bind]
    have read : (Exec.read fun s => findCommitLca s left right : StoreM H _).outcome s =
        (.ok none, s) := Prod.ext disjoint rfl
    rw [read]
    rfl
  · cases mergeThreeWay_returns ran with
    | conflicts _ _ _ => exact detectionStore_same_iff s left

end Frame

/-- The record of a merge that stopped. -/
def MergeOutcome.record? : MergeOutcome Cid → Option (MergeConflicts Cid)
  | .conflicts record => some record
  | _ => none

theorem MergeOutcome.eq_conflicts {out : MergeOutcome Cid} {record : MergeConflicts Cid}
    (h : out.record? = some record) : out = .conflicts record := by
  cases out with
  | conflicts r => exact congrArg _ (Option.some.inj h)
  | _ => cases h

/-- Both branches rename one person. -/
def renamedTwice : WorldM shortHashing (ReadonlyRepo ℕ × ReadonlyRepo ℕ × ReadonlyRepo ℕ) :=
  fork [.addNode (person 1 "a")] [.addNode (person 1 "b")] [.addNode (person 1 "c")]

/-- Merging the branches stops at a conflict, with a new block in the store. -/
def stopsAndWrites (left right : ℕ) (w : World shortHashing) : Bool :=
  (mergeThreeWay left right .manual).check w.store fun out s' =>
    out.record?.isSome && (s'.get (detectionOpCid shortHashing left)).isSome &&
      (w.store.get (detectionOpCid shortHashing left)).isNone

theorem renamedTwice_stops : ∃ b l r w left right, renamedTwice.Returns {} (b, l, r) w ∧
    l.view.heads = [left] ∧ r.view.heads = [right] ∧ stopsAndWrites left right w = true := by
  have passed : renamedTwice.check {} (fun repos w => repos.2.1.onlyHead fun left =>
      repos.2.2.onlyHead fun right => stopsAndWrites left right w) = true := by decide +kernel
  obtain ⟨⟨b, l, r⟩, w, ran, passed⟩ := Exec.exists_of_check passed
  obtain ⟨left, atLeft, passed⟩ := ReadonlyRepo.exists_of_onlyHead passed
  obtain ⟨right, atRight, passed⟩ := ReadonlyRepo.exists_of_onlyHead passed
  exact ⟨b, l, r, w, left, right, ran, atLeft, atRight, passed⟩

/-- A reported conflict that left the detector's operation behind. -/
theorem mergeThreeWay_writes_on_conflict : ∃ b l r w left right record s',
    renamedTwice.Returns {} (b, l, r) w ∧ l.view.heads = [left] ∧ r.view.heads = [right] ∧
      (mergeThreeWay left right .manual).Returns w.store (.conflicts record) s' ∧
      ¬ ∀ c, s'.get c = w.store.get c := by
  obtain ⟨b, l, r, w, left, right, ran, atLeft, atRight, stops⟩ := renamedTwice_stops
  obtain ⟨out, s', merged, passed⟩ := Exec.exists_of_check stops
  simp only [Bool.and_eq_true, Option.isSome_iff_exists, Option.isNone_iff_eq_none] at passed
  obtain ⟨⟨⟨record, isRecord⟩, ⟨block, after⟩⟩, before⟩ := passed
  obtain rfl := MergeOutcome.eq_conflicts isRecord
  refine ⟨b, l, r, w, left, right, record, s', ran, atLeft, atRight, merged, fun same => ?_⟩
  rw [same, before] at after
  cases after

theorem mergeThreeWay_keeps_store_iff_renamed : ∃ (s s' : Store shortHashing) (left right : ℕ)
    (record : MergeConflicts ℕ),
      (mergeThreeWay left right .manual).Returns s (.conflicts record) s' ∧
      ((∀ c, s'.get c = s.get c) ↔ (s.get (detectionViewCid shortHashing left)).isSome ∧
        (s.get (detectionOpCid shortHashing left)).isSome) := by
  obtain ⟨b, l, r, w, left, right, -, -, -, stops⟩ := renamedTwice_stops
  obtain ⟨out, s', merged, passed⟩ := Exec.exists_of_check stops
  simp only [Bool.and_eq_true, Option.isSome_iff_exists] at passed
  obtain ⟨⟨⟨record, isRecord⟩, -⟩, -⟩ := passed
  obtain rfl := MergeOutcome.eq_conflicts isRecord
  exact ⟨w.store, s', left, right, record, merged,
    (mergeThreeWay_keeps_store_iff w.store left right).2.2 record s' merged⟩

/-! ## Reported nodes -/

section Entries

variable {s s' : Store H} {left right base : Cid} {nodes edges : Three (OrdMap ProllyKey Cid)}
  {record : MergeConflicts Cid}

/-- The nodes that have an entry are the divergent ones. -/
theorem exists_node_entry_iff {policy : ConflictPolicy} {sides : Sides Cid} {k : NodeId} :
    (∃ c ∈ foundConflicts policy left right sides, c.nodeId = some k) ↔
      NodeDiverges (sides.leftNodes.get? k) (sides.rightNodes.get? k) (sides.baseNodes.get? k) := by
  constructor
  · rintro ⟨c, member, at_k⟩
    rcases List.mem_append.mp member with atNode | atEdge
    · obtain ⟨key, -, found⟩ := List.mem_filterMap.mp atNode
      obtain ⟨-, id, diverges⟩ := nodeConflict_eq_some found
      obtain rfl : key = k := Option.some.inj (id.symm.trans at_k)
      exact diverges
    · obtain ⟨key, -, found⟩ := List.mem_filterMap.mp atEdge
      rw [(edgeConflict_eq_some found).2.1] at at_k
      cases at_k
  · intro diverges
    have present : k ∈ (allKeys sides.leftNodes sides.rightNodes).keys := by
      obtain ⟨lc, rc, atLeft, -⟩ := diverges
      exact mem_allKeys.mpr (.inl (by rw [atLeft]; rfl))
    cases found : nodeConflict policy k false false (sides.leftNodes.get? k)
        (sides.rightNodes.get? k) (sides.baseNodes.get? k) with
    | none => exact absurd diverges (nodeConflict_eq_none.mp found)
    | some c =>
        refine ⟨c, List.mem_append_left _ (List.mem_filterMap.mpr ⟨k, present, found⟩), ?_⟩
        exact (nodeConflict_eq_some found).2.1

end Entries

/-- The left branch tombstones the person that the right branch renames. -/
def tombstonedAndRenamed : WorldM shortHashing (ReadonlyRepo ℕ × ReadonlyRepo ℕ × ReadonlyRepo ℕ) :=
  fork [.addNode (person 1 "a")] [.tombstoneNode 1 "gone"] [.addNode (person 1 "b")]

section FastForward

variable {s : Store H} {left right : Cid} {S T : Cid → Prop}

theorem mergeThreeWay_of_lca {lca : Cid} (found : findCommitLca s left right = .ok (some lca))
    (strategy : MergeStrategy) (atOne : lca = right ∨ lca = left) :
    ∃ cid, (mergeThreeWay left right strategy : StoreM H _).Returns s (.fastForward cid) s := by
  have read : (Exec.read fun s => findCommitLca s left right : StoreM H _).Returns s (some lca) s :=
    Exec.returns_read.mpr ⟨found, rfl⟩
  by_cases atRight : lca = right
  · refine ⟨left, Exec.returns_bind.mpr ⟨_, _, read, ?_⟩⟩
    dsimp only
    rw [if_pos atRight]
    exact Exec.returns_pure.mpr ⟨rfl, rfl⟩
  · refine ⟨right, Exec.returns_bind.mpr ⟨_, _, read, ?_⟩⟩
    dsimp only
    rw [if_neg atRight, if_pos (atOne.resolve_left atRight)]
    exact Exec.returns_pure.mpr ⟨rfl, rfl⟩

/-- A merge fast-forwards exactly when one commit is an ancestor of the other. -/
theorem mergeThreeWay_fastForward_iff (dag : Dag s (commitParents s) T) (inLeft : T left)
    (inRight : T right) (strategy : MergeStrategy) :
    (∃ cid s', (mergeThreeWay left right strategy : StoreM H _).Returns s (.fastForward cid) s') ↔
      Relation.ReflTransGen (Parent (commitParents s)) left right ∨
        Relation.ReflTransGen (Parent (commitParents s)) right left := by
  obtain ⟨out, found, isLca⟩ := findCommitLca_isLca dag inLeft inRight
  constructor
  · rintro ⟨cid, s', ran⟩
    cases mergeThreeWay_returns ran with
    | keepLeft lca =>
        obtain rfl := Except.ok.inj (found.symm.trans lca)
        exact .inl ((isLca.least _ rfl).1.1 left (by simp))
    | takeRight lca =>
        obtain rfl := Except.ok.inj (found.symm.trans lca)
        exact .inr ((isLca.least _ rfl).1.1 right (by simp))
  · rintro (path | path)
    · obtain rfl := isLca.eq_of_ancestor dag (by simp) inRight path
      obtain ⟨cid, ran⟩ := mergeThreeWay_of_lca found strategy (.inl rfl)
      exact ⟨cid, s, ran⟩
    · obtain rfl := isLca.eq_of_ancestor dag (by simp [or_comm]) inLeft path
      obtain ⟨cid, ran⟩ := mergeThreeWay_of_lca found strategy (.inr rfl)
      exact ⟨cid, s, ran⟩

/-- A stored operation DAG: stored operations with their parents, none its own ancestor. -/
structure OperationDag (s : Store H) (S : Cid → Prop) : Prop where
  closed : ∀ c, S c → ∃ op : Operation Cid, s.Loads c op ∧ ∀ p ∈ op.parents, S p
  acyclic : ∀ c, S c → ¬ Relation.TransGen (Parent (operationParents s)) c c

/-- A stored commit DAG. -/
structure CommitDag (s : Store H) (T : Cid → Prop) : Prop where
  closed : ∀ c, T c → ∃ commit : Commit Cid, s.Loads c commit ∧ ∀ p ∈ commit.parents, T p
  acyclic : ∀ c, T c → ¬ Relation.TransGen (Parent (commitParents s)) c c

theorem OperationDag.dag (ops : OperationDag s S) : Dag s (operationParents s) S where
  closed c inside := by
    obtain ⟨op, loads, stays⟩ := ops.closed c inside
    refine ⟨op.parents, Object.toBlock op, ?_, stays, Store.loads_iff.mp loads, ?_⟩
    · exact Exec.map_eq_ok.mpr ⟨op, loads, rfl⟩
    · simp [Object.toBlock, Block.links]
  acyclic := ops.acyclic

theorem CommitDag.dag (commits : CommitDag s T) : Dag s (commitParents s) T where
  closed c inside := by
    obtain ⟨commit, loads, stays⟩ := commits.closed c inside
    refine ⟨commit.parents, Object.toBlock commit, ?_, stays, Store.loads_iff.mp loads, ?_⟩
    · exact Exec.map_eq_ok.mpr ⟨commit, loads, rfl⟩
    · simp only [Object.toBlock, Block.links, List.length_append]
      omega
  acyclic := commits.acyclic

/-- **Lowest common ancestors are exact**, on operations and on commits, for any list of heads
with the same members, and a merge fast-forwards exactly along them. -/
theorem lca_exact (ops : OperationDag s S) (commits : CommitDag s T) :
    (∀ heads : List Cid, heads ≠ [] → (∀ h ∈ heads, S h) →
      ∃ out, findLcaMany s heads = .ok out ∧ IsLca (operationParents s) heads out ∧
        ∀ heads' : List Cid, (∀ h, h ∈ heads' ↔ h ∈ heads) → findLcaMany s heads' = .ok out) ∧
    ∀ left right : Cid, T left → T right →
      (∃ out, findCommitLca s left right = .ok out ∧
        IsLca (commitParents s) [left, right] out ∧ findCommitLca s right left = .ok out) ∧
      ∀ strategy, (∃ cid s', (mergeThreeWay left right strategy : StoreM H _).Returns s
          (.fastForward cid) s') ↔
        Relation.ReflTransGen (Parent (commitParents s)) left right ∨
          Relation.ReflTransGen (Parent (commitParents s)) right left := by
  have opDag := ops.dag
  have commitDag := commits.dag
  refine ⟨fun heads nonempty inside => ?_, fun left right inLeft inRight => ⟨?_, ?_⟩⟩
  · obtain ⟨out, found, isLca⟩ := findLcaMany_isLca opDag nonempty inside
    refine ⟨out, found, isLca, fun heads' same => ?_⟩
    obtain ⟨h, m⟩ := List.exists_mem_of_ne_nil _ nonempty
    obtain ⟨out', found', isLca'⟩ := findLcaMany_isLca opDag
      (List.ne_nil_of_mem ((same h).mpr m)) fun h m => inside h ((same h).mp m)
    rw [found', isLca'.unique isLca same]
  · obtain ⟨out, found, isLca⟩ := findCommitLca_isLca commitDag inLeft inRight
    obtain ⟨out', found', isLca'⟩ := findCommitLca_isLca commitDag inRight inLeft
    refine ⟨out, found, isLca, ?_⟩
    rw [found', isLca'.unique isLca fun h => by simp [or_comm]]
  · exact mergeThreeWay_fastForward_iff commitDag inLeft inRight

end FastForward

/-! ### Two operations and two commits, one after the other -/

def bareCommit (parents : List ℕ) : Commit ℕ where
  changeId := 0
  parents := parents
  nodes := 0
  edges := 0
  schema := 0
  author := ""
  time := 0
  message := ""

def bareOperation (parents : List ℕ) : Operation ℕ where
  parents := parents
  view := 0
  author := ""
  time := 0
  description := ""

def rootCid : ℕ := shortHashing.cidOf (.commit (bareCommit []))

def rootOpCid : ℕ := shortHashing.cidOf (.operation (bareOperation []))

def chainStore : Store shortHashing :=
  (((({} : Store shortHashing).insert (.commit (bareCommit [])) rfl).insert
    (.commit (bareCommit [rootCid])) rfl).insert (.operation (bareOperation [])) rfl).insert
      (.operation (bareOperation [rootOpCid])) rfl

/-- What a block links to has a smaller address. -/
theorem operation_parent_lt {s : Store shortHashing} {c p : ℕ}
    (link : Parent (operationParents s) c p) : p < c := by
  obtain ⟨ps, found, member⟩ := link
  obtain ⟨op, loads, rfl⟩ := Exec.map_eq_ok.mp found
  have loads' : s.Loads c op := loads
  rw [← loads'.cidOf]
  exact Addressing.lt_shortCidOf (List.mem_append_left _ member)

theorem commit_parent_lt {s : Store shortHashing} {c p : ℕ}
    (link : Parent (commitParents s) c p) : p < c := by
  obtain ⟨ps, found, member⟩ := link
  obtain ⟨commit, loads, rfl⟩ := Exec.map_eq_ok.mp found
  have loads' : s.Loads c commit := loads
  rw [← loads'.cidOf]
  refine Addressing.lt_shortCidOf ?_
  simp [Object.toBlock, Block.links, member]

theorem acyclic_of_lt {R : ℕ → ℕ → Prop} (below : ∀ c p, R c p → p < c) (c : ℕ) :
    ¬ Relation.TransGen R c c := by
  have descends : ∀ {a b : ℕ}, Relation.TransGen R a b → b < a := by
    intro a b path
    induction path with
    | single link => exact below _ _ link
    | tail _ link ih => exact (below _ _ link).trans ih
  exact fun path => lt_irrefl c (descends path)

/-- The chain's operations and commits. -/
def ChainOp (c : ℕ) : Prop :=
  ∃ op : Operation ℕ, chainStore.Loads c op ∧ (op = bareOperation [] ∨ op = bareOperation [rootOpCid])

def ChainCommit (c : ℕ) : Prop :=
  ∃ commit : Commit ℕ, chainStore.Loads c commit ∧
    (commit = bareCommit [] ∨ commit = bareCommit [rootCid])

theorem chain_operations : OperationDag chainStore ChainOp where
  closed c inside := by
    have root : chainStore.Loads rootOpCid (bareOperation []) :=
      (Store.loads_insert _ (bareOperation []) rfl).mono (Store.le_insert _ _ _)
    obtain ⟨op, loads, rfl | rfl⟩ := inside
    · exact ⟨_, loads, nofun⟩
    · refine ⟨_, loads, fun p m => ?_⟩
      obtain rfl := List.mem_singleton.mp m
      exact ⟨_, root, .inl rfl⟩
  acyclic c _ := acyclic_of_lt (fun _ _ => operation_parent_lt) c

theorem chain_commits : CommitDag chainStore ChainCommit where
  closed c inside := by
    have root : chainStore.Loads rootCid (bareCommit []) :=
      (((Store.loads_insert _ (bareCommit []) rfl).mono (Store.le_insert _ _ _)).mono
        (Store.le_insert _ _ _)).mono (Store.le_insert _ _ _)
    obtain ⟨commit, loads, rfl | rfl⟩ := inside
    · exact ⟨_, loads, nofun⟩
    · refine ⟨_, loads, fun p m => ?_⟩
      obtain rfl := List.mem_singleton.mp m
      exact ⟨_, root, .inl rfl⟩
  acyclic c _ := acyclic_of_lt (fun _ _ => commit_parent_lt) c

/-- The law on the chain. -/
theorem lca_exact_chain :
    (∀ heads : List ℕ, heads ≠ [] → (∀ h ∈ heads, ChainOp h) →
      ∃ out, findLcaMany chainStore heads = .ok out ∧
        IsLca (operationParents chainStore) heads out ∧
        ∀ heads' : List ℕ, (∀ h, h ∈ heads' ↔ h ∈ heads) →
          findLcaMany chainStore heads' = .ok out) ∧
    ∀ left right : ℕ, ChainCommit left → ChainCommit right →
      (∃ out, findCommitLca chainStore left right = .ok out ∧
        IsLca (commitParents chainStore) [left, right] out ∧
          findCommitLca chainStore right left = .ok out) ∧
      ∀ strategy, (∃ cid s', (mergeThreeWay left right strategy).Returns chainStore
          (.fastForward cid) s') ↔
        Relation.ReflTransGen (Parent (commitParents chainStore)) left right ∨
          Relation.ReflTransGen (Parent (commitParents chainStore)) right left :=
  lca_exact chain_operations chain_commits

end Mnem.Repo
