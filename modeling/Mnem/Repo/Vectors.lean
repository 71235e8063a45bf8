/-
# Repo.Vectors — what becomes of the vector sidecars in a merge

Both builders of merge commits carry nodes, edges, schema and indexes over, and
leave the two sidecars out.  So a merge keeps the vectors of the nodes it keeps
only when the heads are at one commit, which it returns, or when there was no
vector to keep (`merges_keep_vectors_iff`).
-/
import Mnem.Repo.HeadMerge
import Mnem.Repo.ThreeWayLaw

namespace Mnem.Repo

open Theory Prolly Index

set_option autoImplicit false
set_option linter.unusedSectionVars false

variable {Cid : Type} {H : Hashing Cid} [LinearOrder Cid] {V : Type} [Object Cid (Bucket V)]

/-! ## Reading a sidecar -/

/-- The vector that a sidecar has for a node under a name. -/
def vectorFor (V : Type) [Object Cid (Bucket V)] (s : Store H) (root : Option Cid) (nodeCid : Cid)
    (name : String) : Except (Error Cid) (Option V) :=
  (fun bucket => bucket.bind fun b => b.get name) <$> bucketAt (Bucket V) s root (H.cidHash nodeCid)

theorem embeddingFor_eq (s : Store H) (r : ReadonlyRepo Cid) (nodeCid : Cid) (model : String) :
    r.embeddingFor s nodeCid model =
      vectorFor Embedding s (r.commit.bind Commit.embeddings) nodeCid model := rfl

theorem sparseFor_eq (s : Store H) (r : ReadonlyRepo Cid) (nodeCid : Cid) (vocabId : String) :
    r.sparseFor s nodeCid vocabId =
      vectorFor SparseEmbed s (r.commit.bind Commit.sparse) nodeCid vocabId := rfl

/-- One of the two sidecars of a commit; no builder of merge commits sets it. -/
structure SidecarKind (Cid : Type) [LinearOrder Cid] (V : Type) [Object Cid (Bucket V)] where
  root : Commit Cid → Option Cid
  buckets : Graph Cid → OrdMap ProllyKey (Bucket V)
  stands : ∀ {H : Hashing Cid} {s : Store H} {commit : Commit Cid} {g : Graph Cid},
    Stands s commit g → Sidecar s (root commit) (buckets g)
  unset : ∀ (H : Hashing Cid) (parents : List (Cid × Commit Cid)) (schema nodes edges idx : Cid)
    (extra : Props Cid), root (mergeCommitOf H parents schema nodes edges idx extra) = none

def embeddingSidecar : SidecarKind Cid Embedding where
  root := Commit.embeddings
  buckets := Graph.embeddings
  stands := Stands.embeddings
  unset _ _ _ _ _ _ _ := rfl

def sparseSidecar : SidecarKind Cid SparseEmbed where
  root := Commit.sparse
  buckets := Graph.sparse
  stands := Stands.sparse
  unset _ _ _ _ _ _ _ := rfl

section Read

variable {s s' : Store H}

theorem vectorFor_sidecar {root : Option Cid} {buckets : OrdMap ProllyKey (Bucket V)}
    (sidecar : Sidecar s root buckets) (nodeCid : Cid) (name : String) :
    vectorFor V s root nodeCid name =
      .ok ((buckets.get? (H.cidHash nodeCid)).bind fun b => b.get name) := by
  unfold vectorFor
  rw [bucketAt_sidecar sidecar]
  rfl

/-- Without a sidecar there are no vectors. -/
theorem vectorFor_none (s : Store H) (nodeCid : Cid) (name : String) :
    vectorFor V s none nodeCid name = .ok none := rfl

/-! ## Keeping vectors -/

/-- For each node that the merged commit holds, and each name under which some parent has a
vector for it, the merged commit has a vector that some parent has. -/
def KeepsVectors (k : SidecarKind Cid V) (s s' : Store H) (parents : Set (Cid × Commit Cid))
    (merged : Commit Cid) : Prop :=
  ∀ id c name, lookup s' merged.nodes id = .ok (some c) →
    (∃ p ∈ parents, ∃ v, vectorFor V s (k.root p.2) c name = .ok (some v)) →
      ∃ p ∈ parents, ∃ v, vectorFor V s (k.root p.2) c name = .ok (some v) ∧
        vectorFor V s' (k.root merged) c name = .ok (some v)

/-- No parent has a vector for any of the nodes. -/
def NoVectors (k : SidecarKind Cid V) (s : Store H) (parents : Set (Cid × Commit Cid))
    (kept : Cid → Prop) : Prop :=
  ∀ c name, kept c → ∀ p ∈ parents, ∀ v, vectorFor V s (k.root p.2) c name ≠ .ok (some v)

/-- A merged commit without the sidecar keeps vectors when there are none. -/
theorem keepsVectors_of_absent (k : SidecarKind Cid V) {parents : Set (Cid × Commit Cid)}
    {merged : Commit Cid} {kept : Cid → Prop} (absent : k.root merged = none)
    (holds : ∀ c, (∃ id, lookup s' merged.nodes id = .ok (some c)) ↔ kept c) :
    KeepsVectors k s s' parents merged ↔ NoVectors k s parents kept := by
  constructor
  · intro keeps c name isKept p member v found
    obtain ⟨id, here⟩ := (holds c).mpr isKept
    obtain ⟨_, _, _, -, gone⟩ := keeps id c name here ⟨p, member, v, found⟩
    rw [absent, vectorFor_none] at gone
    cases gone
  · rintro nothing id c name here ⟨p, member, v, found⟩
    exact absurd found (nothing c name ((holds c).mp ⟨id, here⟩) p member v)

/-- A merged commit that is every parent keeps vectors. -/
theorem keepsVectors_of_same (k : SidecarKind Cid V) {parents : Set (Cid × Commit Cid)}
    {merged : Commit Cid} {g : Graph Cid} (le : s ≤ s') (same : ∀ p ∈ parents, p.2 = merged)
    (stands : Stands s merged g) : KeepsVectors k s s' parents merged := by
  rintro id c name - ⟨p, member, v, found⟩
  refine ⟨p, member, v, found, ?_⟩
  have sidecar := k.stands (same p member ▸ stands : Stands s p.2 g)
  rw [← same p member]
  rw [vectorFor_sidecar sidecar] at found
  rw [vectorFor_sidecar (sidecar.mono le), found]

end Read

/-! ## The merge of heads -/

/-- The parents are one commit. -/
def OneCommit (parents : Set (Cid × Commit Cid)) : Prop :=
  ∀ p ∈ parents, ∀ q ∈ parents, p.1 = q.1

/-- The CID is the greatest that the parents' node trees have at some id. -/
def Wins (s : Store H) (parents : Set (Cid × Commit Cid)) (c : Cid) : Prop :=
  ∃ id, IsGreatest {v | ∃ p ∈ parents, lookup s p.2.nodes id = .ok (some v)} c

section Heads

variable {s s' : Store H} {parents : List (Cid × Commit Cid)} {held : List (Cid × Graph Cid)}
  {out : Option Cid}

/-- What wins is what the union of the node trees holds. -/
theorem wins_iff (holds : List.Forall₂ (CommitHolds s) parents held) (c : Cid) :
    Wins s {p | p ∈ parents} c ↔
      ∃ id, (unionMap (held.map fun h => h.2.nodes)).get? id = some c := by
  refine exists_congr fun id => ?_
  rw [get?_unionMap, Winner]
  have same : {v | ∃ p ∈ {p | p ∈ parents}, lookup s p.2.nodes id = .ok (some v)} =
      {v | ∃ m ∈ held.map fun h => h.2.nodes, m.get? id = some v} := by
    ext v
    simp only [Set.mem_ofPred_eq, List.mem_map]
    constructor
    · rintro ⟨p, member, found⟩
      obtain ⟨h, inHeld, here⟩ := Exec.exists_right_of_forall₂ holds member
      rw [lookup_of_isTree here.stands.nodes.tree] at found
      exact ⟨_, ⟨h, inHeld, rfl⟩, Except.ok.inj found⟩
    · rintro ⟨_, ⟨h, inHeld, rfl⟩, found⟩
      obtain ⟨p, member, here⟩ := Exec.exists_left_of_forall₂ holds inHeld
      refine ⟨p, member, ?_⟩
      rw [lookup_of_isTree here.stands.nodes.tree, found]
  rw [same]

/-- What a merge of heads does to a sidecar. -/
theorem keepsVectors_of_result (k : SidecarKind Cid V)
    (le : s ≤ s') (holds : List.Forall₂ (CommitHolds s) parents held)
    (result : MergeResult s s' parents held out) {merged : Commit Cid}
    (atOut : ∀ cid, out = some cid → s'.Loads cid merged ∧ Stands s' merged (mergedGraph held)) :
    KeepsVectors k s s' {p | p ∈ parents} merged ↔
      OneCommit {p | p ∈ parents} ∨
        NoVectors k s {p | p ∈ parents} (Wins s {p | p ∈ parents}) := by
  have loads : ∀ p ∈ parents, s.Loads p.1 p.2 := by
    intro p member
    obtain ⟨h, -, here⟩ := Exec.exists_right_of_forall₂ holds member
    exact here.loads
  cases result with
  | empty nothing =>
      subst nothing
      cases holds
      refine iff_of_true ?_ (.inl nofun)
      rintro _ _ _ - ⟨_, member, -⟩
      cases member
  | same first rest shape one =>
      subst shape
      obtain ⟨atFirst, -⟩ := atOut first.1 rfl
      have all : ∀ p ∈ first :: rest, p.1 = first.1 := List.forall_mem_cons.mpr ⟨rfl, one⟩
      obtain rfl : first.2 = merged := ((loads first List.mem_cons_self).mono le).unique atFirst
      refine iff_of_true ?_ (.inl fun p inAll q inAll' => (all p inAll).trans (all q inAll').symm)
      obtain ⟨h, -, here⟩ := Exec.exists_right_of_forall₂ holds List.mem_cons_self
      refine keepsVectors_of_same k le (fun p member => ?_) here.stands
      exact (all p member ▸ loads p member).unique (loads first List.mem_cons_self)
  | union first rest shape several cid idx written _ =>
      subst shape
      obtain ⟨atCid, stands⟩ := atOut cid rfl
      obtain rfl := written.unique atCid
      have notOne : ¬ OneCommit {p | p ∈ first :: rest} := fun one => several fun p member =>
        one p (List.mem_cons_of_mem _ member) first List.mem_cons_self
      rw [or_iff_right notOne]
      refine keepsVectors_of_absent k (k.unset _ _ _ _ _ _ _) fun c => ?_
      rw [wins_iff holds]
      refine exists_congr fun id => ?_
      rw [lookup_of_isTree stands.nodes.tree, Except.ok.injEq]
      rfl

/-- The commits of the heads that have one. -/
def HeadCommits (s : Store H) (heads : List Cid) : Set (Cid × Commit Cid) :=
  {p | ∃ h ∈ heads, ∃ l, loadHead s h = .ok l ∧ l.commit = some p}

/-- **A merge of heads and a sidecar.** -/
theorem mergeOpHeads_keeps_iff (k : SidecarKind Cid V) {w w' : World H} {heads : List Cid}
    {opCid : Cid} {r : ReadonlyRepo Cid} {merged : Commit Cid}
    (good : ∀ h ∈ heads, GoodOp (fun _ => True) w.store h) (several : 2 ≤ heads.length)
    (ran : (mergeOpHeads heads : WorldM H _).Returns w opCid w')
    (loaded : ReadonlyRepo.loadAt w'.store opCid = .ok r) (head : r.commit = some merged) :
    KeepsVectors k w.store w'.store (HeadCommits w.store heads) merged ↔
      OneCommit (HeadCommits w.store heads) ∨
        NoVectors k w.store (HeadCommits w.store heads) (Wins w.store (HeadCommits w.store heads)) := by
  have sorted : ∀ c, c ∈ heads.insertionSort (· ≤ ·) ↔ c ∈ heads := fun c =>
    List.mem_insertionSort _
  obtain ⟨h₀, member₀⟩ : ∃ h, h ∈ heads := List.exists_mem_of_length_pos (by omega)
  obtain ⟨op, w₁, write, ran⟩ := Exec.returns_bind.mp ran
  obtain ⟨_, w₂, advance, done⟩ := Exec.returns_bind.mp ran
  obtain ⟨rfl, rfl⟩ := Exec.returns_pure.mp done
  obtain rfl := returns_updateHeads.mp advance
  obtain ⟨wrote, -⟩ := returns_onStore.mp write
  obtain ⟨ls, held, out, result⟩ := writeMerge_returns (fun _ _ => trivial)
    (fun c member => good c ((sorted c).mp member)) (List.ne_nil_of_mem ((sorted h₀).mpr member₀))
    wrote
  obtain ⟨rfl, g, pinned⟩ := pinned_of_loadAt result.good loaded
  have commits : HeadCommits w.store heads =
      {p | p ∈ (ls.map LoadedHead.commit).filterMap id} := by
    ext p
    simp only [HeadCommits, Set.mem_ofPred_eq, List.mem_filterMap, List.mem_map, id_eq]
    constructor
    · rintro ⟨h, member, l, read, has⟩
      obtain ⟨l', inLoaded, here⟩ :=
        Exec.exists_right_of_forall₂ result.loadedGood ((sorted h).mpr member)
      obtain rfl := Except.ok.inj (read.symm.trans (here.loadHead_eq (good h member)))
      exact ⟨_, ⟨l, inLoaded, rfl⟩, has⟩
    · rintro ⟨_, ⟨l, inLoaded, rfl⟩, has⟩
      obtain ⟨h, member, here⟩ := Exec.exists_left_of_forall₂ result.loadedGood inLoaded
      have inHeads := (sorted h).mp member
      exact ⟨h, inHeads, l, here.loadHead_eq (good h inHeads), has⟩
  rw [commits]
  refine keepsVectors_of_result k result.grows result.holds result.result fun cid at_cid => ?_
  subst at_cid
  obtain ⟨commit, head', loads, stands⟩ := result.head pinned
  obtain rfl := Option.some.inj (head.symm.trans head')
  exact ⟨loads, stands⟩

end Heads

/-! ## The merge of two branches -/

/-- The strategy chooses the CID at some id. -/
def Chosen (s : Store H) (strategy : MergeStrategy) (l r : Commit Cid) (c : Cid) : Prop :=
  ∃ id a b, lookup s l.nodes id = .ok a ∧ lookup s r.nodes id = .ok b ∧
    strategy.choose a b = some c

/-- **A clean merge of two branches and a sidecar.** -/
theorem mergeThreeWay_keeps_iff (k : SidecarKind Cid V) {s s' : Store H} {left right cid : Cid}
    {l r merged : Commit Cid} {strategy : MergeStrategy}
    (goodLeft : GoodCommit (fun _ => True) s left) (goodRight : GoodCommit (fun _ => True) s right)
    (leftLoads : s.Loads left l) (rightLoads : s.Loads right r)
    (ran : (mergeThreeWay left right strategy : StoreM H _).Returns s (.clean cid) s')
    (loads : s'.Loads cid merged) :
    KeepsVectors k s s' {(left, l), (right, r)} merged ↔
      NoVectors k s {(left, l), (right, r)} (Chosen s strategy l r) := by
  obtain ⟨l', gl, leftLoads', leftStands, -⟩ := goodLeft
  obtain ⟨r', gr, rightLoads', rightStands, -⟩ := goodRight
  obtain rfl := leftLoads.unique leftLoads'
  obtain rfl := rightLoads.unique rightLoads'
  obtain ⟨idx, wrote⟩ := mergeThreeWay_merged ran leftLoads rightLoads
    ⟨leftStands.nodes.tree, leftStands.edges.tree⟩ ⟨rightStands.nodes.tree, rightStands.edges.tree⟩
  obtain rfl := wrote.loads.unique loads
  refine keepsVectors_of_absent k (k.unset _ _ _ _ _ _ _) fun c => exists_congr fun id => ?_
  change lookup s' (treeRoot H _) id = _ ↔ _
  rw [lookup_of_isTree wrote.nodeTree, Except.ok.injEq, get?_strategyMap,
    lookup_of_isTree leftStands.nodes.tree, lookup_of_isTree rightStands.nodes.tree]
  constructor
  · exact fun chosen => ⟨_, _, rfl, rfl, chosen⟩
  · rintro ⟨a, b, ⟨⟩, ⟨⟩, chosen⟩
    exact chosen

/-- **Vectors through merges.**  Both sidecars of a merge of heads keep the vectors of the nodes
that it keeps if and only if the heads are at one commit, or no head has a vector for such a
node; a clean merge of two branches, if and only if neither has one. -/
theorem merges_keep_vectors_iff (H : Hashing Cid) :
    (∀ (w w' : World H) (heads : List Cid) (opCid : Cid) (r : ReadonlyRepo Cid) (merged : Commit Cid),
      (∀ h ∈ heads, GoodOp (fun _ => True) w.store h) → 2 ≤ heads.length →
      (mergeOpHeads heads : WorldM H _).Returns w opCid w' →
      ReadonlyRepo.loadAt w'.store opCid = .ok r → r.commit = some merged →
      (KeepsVectors embeddingSidecar w.store w'.store (HeadCommits w.store heads) merged ↔
        OneCommit (HeadCommits w.store heads) ∨ NoVectors embeddingSidecar w.store
          (HeadCommits w.store heads) (Wins w.store (HeadCommits w.store heads))) ∧
      (KeepsVectors sparseSidecar w.store w'.store (HeadCommits w.store heads) merged ↔
        OneCommit (HeadCommits w.store heads) ∨ NoVectors sparseSidecar w.store
          (HeadCommits w.store heads) (Wins w.store (HeadCommits w.store heads)))) ∧
    ∀ (s s' : Store H) (left right cid : Cid) (l r merged : Commit Cid) (strategy : MergeStrategy),
      GoodCommit (fun _ => True) s left → GoodCommit (fun _ => True) s right →
      s.Loads left l → s.Loads right r →
      (mergeThreeWay left right strategy : StoreM H _).Returns s (.clean cid) s' →
      s'.Loads cid merged →
      (KeepsVectors embeddingSidecar s s' {(left, l), (right, r)} merged ↔
        NoVectors embeddingSidecar s {(left, l), (right, r)} (Chosen s strategy l r)) ∧
      (KeepsVectors sparseSidecar s s' {(left, l), (right, r)} merged ↔
        NoVectors sparseSidecar s {(left, l), (right, r)} (Chosen s strategy l r)) := by
  refine ⟨?_, ?_⟩
  · intro w w' heads opCid r merged good several ran loaded head
    exact ⟨mergeOpHeads_keeps_iff _ good several ran loaded head,
      mergeOpHeads_keeps_iff _ good several ran loaded head⟩
  · intro s s' left right cid l r merged strategy goodLeft goodRight leftLoads rightLoads ran loads
    exact ⟨mergeThreeWay_keeps_iff _ goodLeft goodRight leftLoads rightLoads ran loads,
      mergeThreeWay_keeps_iff _ goodLeft goodRight leftLoads rightLoads ran loads⟩

/-! ## A vector that is lost -/

/-- A vector of one head that the merge does not have, although it has the node. -/
theorem not_keepsVectors_of_lost {w w' : World H} {heads : List Cid} {l merged : ReadonlyRepo Cid}
    {g : Graph Cid} {commit : Commit Cid} {id : NodeId} {c : Cid} {name : String} {v : Embedding}
    (pinned : Pinned (fun _ => True) w.store l g) (member : l.opId ∈ heads) (le : w ≤ w')
    (head : merged.commit = some commit) (held : lookup w'.store commit.nodes id = .ok (some c))
    (found : l.embeddingFor w'.store c name = .ok (some v))
    (lost : merged.embeddingFor w'.store c name = .ok none) :
    ¬ KeepsVectors embeddingSidecar w.store w'.store (HeadCommits w.store heads) commit := by
  intro keeps
  obtain ⟨loaded, read, good⟩ := exists_loadHead pinned.good
  have same := good.commit_eq pinned
  rw [embeddingFor_eq] at found lost
  rw [head] at lost
  cases own : loaded.commit with
  | none =>
      rw [own] at same
      rw [← same] at found
      cases found
  | some p =>
      rw [own] at same
      have stands : Stands w.store p.2 g := by
        have holds := pinned.holds
        rw [← same] at holds
        exact holds
      rw [← same, Option.map_some, Option.bind_some,
        vectorFor_sidecar (stands.mono le).embeddings] at found
      have before : vectorFor Embedding w.store p.2.embeddings c name = .ok (some v) := by
        rw [vectorFor_sidecar stands.embeddings]
        exact found
      obtain ⟨_, _, _, -, after⟩ := keeps id c name held
        ⟨p, ⟨l.opId, member, loaded, read, own⟩, v, before⟩
      cases lost.symm.trans after

/-- A base commit, two commits on it, and the merge of these. -/
def mergeTwo (setup first second : List (Transaction.Call Cid)) :
    WorldM H (ReadonlyRepo Cid × ReadonlyRepo Cid) := do
  let root ← init 0
  let base ← root.transact setup { author := "", message := "base" }
  let l ← base.transact first { author := "", message := "first" }
  let r ← base.transact second { author := "", message := "second" }
  let opCid ← mergeOpHeads [l.opId, r.opId]
  let merged ← onStore (Exec.read fun s => ReadonlyRepo.loadAt s opCid)
  return (l, merged)

theorem mergeTwo_returns {setup first second : List (Transaction.Call Cid)}
    {l merged : ReadonlyRepo Cid} {w' : World H}
    (ran : (mergeTwo setup first second : WorldM H _).Returns {} (l, merged) w') :
    ∃ (g : Graph Cid) (w : World H) (other opCid : Cid), Pinned (fun _ => True) w.store l g ∧
      (∀ h ∈ [l.opId, other], GoodOp (fun _ => True) w.store h) ∧
      (mergeOpHeads [l.opId, other] : WorldM H _).Returns w opCid w' ∧
      ReadonlyRepo.loadAt w'.store opCid = .ok merged := by
  obtain ⟨root, w₀, start, ran⟩ := Exec.returns_bind.mp ran
  obtain ⟨base, w₁, atBase, ran⟩ := Exec.returns_bind.mp ran
  obtain ⟨l', w₂, atFirst, ran⟩ := Exec.returns_bind.mp ran
  obtain ⟨r, w₃, atSecond, ran⟩ := Exec.returns_bind.mp ran
  obtain ⟨opCid, w₄, merge, ran⟩ := Exec.returns_bind.mp ran
  obtain ⟨merged', w₅, load, done⟩ := Exec.returns_bind.mp ran
  obtain ⟨⟨⟩, rfl⟩ := Exec.returns_pure.mp done
  obtain ⟨loaded, sameHeads⟩ := returns_onStore.mp load
  obtain ⟨at_op, sameStore⟩ := Exec.returns_read.mp loaded
  obtain rfl : w₄ = w₅ := by
    cases w₄
    cases w₅
    cases sameStore
    cases sameHeads
    rfl
  obtain ⟨-, pinned₀, -⟩ := init_returns start
  obtain ⟨-, g₁, pinned₁, -⟩ := transact_atCommit pinned₀ atBase
  obtain ⟨le₂, g₂, pinned₂, -⟩ := transact_atCommit pinned₁ atFirst
  obtain ⟨le₃, g₃, pinned₃, -⟩ := transact_atCommit (pinned₁.mono le₂) atSecond
  refine ⟨g₂, w₃, r.opId, opCid, pinned₂.mono le₃, fun h member => ?_, merge, at_op⟩
  rcases List.mem_cons.mp member with rfl | later
  · exact (pinned₂.mono le₃).good
  · obtain rfl := List.mem_singleton.mp later
    exact pinned₃.good

/-- A node with a vector. -/
def ada : Node ℕ := { id := 1, ntype := "Person" }

def adaVector : Embedding := ⟨"m", .f32, 1, [0, 0, 0, 0]⟩

/-- The vector is in the base commit; both branches add a node. -/
def vectorRun : WorldM shortHashing (ReadonlyRepo ℕ × ReadonlyRepo ℕ) :=
  mergeTwo [.addNode ada, .setEmbedding (shortHashing.cidOf (Object.toBlock ada)) "m" adaVector]
    [.addNode { id := 2, ntype := "Person" }] [.addNode { id := 3, ntype := "Person" }]

theorem vectorRun_loses : ∃ l merged w commit v, vectorRun.Returns {} (l, merged) w ∧
    merged.commit = some commit ∧
    lookup w.store commit.nodes 1 = .ok (some (shortHashing.cidOf (Object.toBlock ada))) ∧
    l.embeddingFor w.store (shortHashing.cidOf (Object.toBlock ada)) "m" = .ok (some v) ∧
    merged.embeddingFor w.store (shortHashing.cidOf (Object.toBlock ada)) "m" = .ok none := by
  have passed : vectorRun.check {} (fun out w => out.2.commit.any fun commit =>
      decide (lookup w.store commit.nodes 1 =
        .ok (some (shortHashing.cidOf (Object.toBlock ada)))) &&
      (Exec.okAnd (out.1.embeddingFor w.store (shortHashing.cidOf (Object.toBlock ada)) "m")
          Option.isSome &&
        Exec.okAnd (out.2.embeddingFor w.store (shortHashing.cidOf (Object.toBlock ada)) "m")
          Option.isNone)) = true := by decide +kernel
  obtain ⟨⟨l, merged⟩, w, ran, passed⟩ := Exec.exists_of_check passed
  obtain ⟨commit, head, passed⟩ := (Option.any_eq_true _ _).mp passed
  obtain ⟨held, passed⟩ := Bool.and_eq_true_iff.mp passed
  obtain ⟨before, after⟩ := Bool.and_eq_true_iff.mp passed
  obtain ⟨_, found, isSome⟩ := Exec.exists_of_okAnd before
  obtain ⟨_, lost, isNone⟩ := Exec.exists_of_okAnd after
  obtain ⟨v, rfl⟩ := Option.isSome_iff_exists.mp isSome
  obtain rfl := Option.isNone_iff_eq_none.mp isNone
  exact ⟨l, merged, w, commit, v, ran, head, of_decide_eq_true held, found, lost⟩

/-- A merge of two heads that drops a vector of a node it keeps. -/
theorem merge_drops_vectors : ∃ (w w' : World shortHashing) (heads : List ℕ) (opCid : ℕ)
    (r : ReadonlyRepo ℕ) (merged : Commit ℕ),
    (∀ h ∈ heads, GoodOp (fun _ => True) w.store h) ∧ 2 ≤ heads.length ∧
      (mergeOpHeads heads : WorldM shortHashing _).Returns w opCid w' ∧
      ReadonlyRepo.loadAt w'.store opCid = .ok r ∧ r.commit = some merged ∧
      ¬ KeepsVectors embeddingSidecar w.store w'.store (HeadCommits w.store heads) merged := by
  obtain ⟨l, r, w', merged, v, ran, head, held, found, lost⟩ := vectorRun_loses
  obtain ⟨g, w, other, opCid, pinned, good, merge, loaded⟩ := mergeTwo_returns ran
  refine ⟨w, w', [l.opId, other], opCid, r, merged, good, le_refl 2, merge, loaded, head, ?_⟩
  exact not_keepsVectors_of_lost pinned List.mem_cons_self ((mergeOpHeads_grows _).of_returns merge)
    head held found lost

/-- The law at a merge of two heads that are not at one commit. -/
theorem merges_keep_vectors_iff_lost : ∃ (w : World shortHashing) (heads : List ℕ),
    ¬ OneCommit (HeadCommits w.store heads) ∧
      ¬ NoVectors embeddingSidecar w.store (HeadCommits w.store heads)
        (Wins w.store (HeadCommits w.store heads)) := by
  obtain ⟨l, r, w', merged, v, ran, head, held, found, lost⟩ := vectorRun_loses
  obtain ⟨g, w, other, opCid, pinned, good, merge, loaded⟩ := mergeTwo_returns ran
  have member : l.opId ∈ [l.opId, other] := List.mem_cons_self
  have lossy := not_keepsVectors_of_lost pinned member
    ((mergeOpHeads_grows _).of_returns merge) head held found lost
  have law := (((merges_keep_vectors_iff shortHashing).1 w w' [l.opId, other] opCid r merged good
    (le_refl 2) merge loaded head).1.not).mp lossy
  exact ⟨w, [l.opId, other], not_or.mp law⟩

end Mnem.Repo
