/-
# Repo.Merge — collapsing concurrent operation heads

`merge_op_heads` loads every head, merges the views field by field against the
view of their lowest common ancestor, and writes a merge commit whose node and
edge trees are the unions of the parents': at each key the greatest CID that
any parent has there (`get?_unionEntries`).  The base of the merge is not
consulted for nodes and edges, and no sidecar is carried over.
`ReadonlyRepo::open` runs it when there is more than one head.
-/
import Mnem.Repo.Commit
import Mnem.Repo.Lca

namespace Mnem.Repo

open Theory Theory.Groups Prolly Index

set_option autoImplicit false
set_option linter.unusedSectionVars false

variable {Cid : Type} {H : Hashing Cid} [LinearOrder Cid]

def mergeAuthor : String := "mnem"

def mergeCommitMessage : String := "mnem merge commit"

/-! ## Union of trees -/

/-- A merged root, and for each key with several values all of them. -/
structure UnionOutcome (Cid : Type) where
  root : Cid
  conflicts : OrdMap ProllyKey (List Cid)

/-- `sort` followed by `dedup`. -/
def sortDedup (values : List Cid) : List Cid := (values.insertionSort (· ≤ ·)).dedup

/-- All values at each key. -/
def allValues (trees : List (List (ProllyKey × Cid))) : OrdMap ProllyKey (List Cid) :=
  pushAll OrdMap.empty trees.flatten

/-- The last of the sorted values wins. -/
def unionEntries (values : OrdMap ProllyKey (List Cid)) : OrdMap ProllyKey Cid :=
  values.filterMap fun vs => (sortDedup vs).getLast?

/-- The keys with more than one value. -/
def unionConflicts (values : OrdMap ProllyKey (List Cid)) : OrdMap ProllyKey (List Cid) :=
  values.filterMap fun vs => if 1 < (sortDedup vs).length then some (sortDedup vs) else none

def unionProllyTrees (roots : List Cid) : StoreM H (UnionOutcome Cid) := do
  let trees ← Exec.read fun s => (roots.insertionSort (· ≤ ·)).mapM (entries s)
  let root ← buildTree (unionEntries (allValues trees)).entries
  return ⟨root, unionConflicts (allValues trees)⟩

/-! ## The merge commit -/

/-- The sixteen bytes of a key. -/
def keyBytes (k : ProllyKey) : List UInt8 :=
  (List.range 16).map fun i => UInt8.ofNat (k.val / 256 ^ (15 - i))

def conflictList (conflicts : OrdMap ProllyKey (List Cid)) : Ipld Cid :=
  .list (conflicts.entries.map fun e =>
    .map [("candidates", .list (e.2.map .link)), ("key", .bytes (keyBytes e.1))])

/-- `extra["_merge_conflicts"]`, when there are conflicts. -/
def conflictExtra (nodes edges : OrdMap ProllyKey (List Cid)) : Props Cid :=
  if nodes.entries.isEmpty && edges.entries.isEmpty then OrdMap.empty
  else OrdMap.empty.insert "_merge_conflicts" (.map
    ((if edges.entries.isEmpty then [] else [("edges", conflictList edges)]) ++
      if nodes.entries.isEmpty then [] else [("nodes", conflictList nodes)]))

/-- A parent's index set if its trees are the merged ones, a rebuilt one otherwise. -/
def mergedIndexes (parents : List (Commit Cid)) (nodes edges : Cid) : StoreM H Cid :=
  match parents.findSome? fun c =>
    if c.nodes = nodes ∧ c.edges = edges then c.indexes else none with
  | some idx => pure idx
  | none => buildIndexSet nodes edges

/-- The parents in the order of their CIDs. -/
def parentPairs (parents : List (Cid × Commit Cid)) : List (Cid × Commit Cid) :=
  parents.insertionSort fun a b => a.1 ≤ b.1

/-- The greatest time of the parents, and one more. -/
def mergeTime (times : List Nat) : Nat := times.foldl max 0 + 1

/-- The commit that merges `parents` into the given trees. -/
def mergeCommitOf (H : Hashing Cid) (parents : List (Cid × Commit Cid)) (schema nodes edges idx : Cid)
    (extra : Props Cid) : Commit Cid where
  changeId := H.mergeChangeHash ((parentPairs parents).map Prod.fst)
  parents := (parentPairs parents).map Prod.fst
  nodes := nodes
  edges := edges
  schema := schema
  indexes := some idx
  author := mergeAuthor
  time := mergeTime (parents.map fun p => p.2.time)
  message := mergeCommitMessage
  extra := extra

/-- Merge the commits of the heads that have one; heads at one commit merge to it. -/
def buildMergeCommit (headCommits : List (Option (Cid × Commit Cid))) : StoreM H (Option Cid) :=
  match headCommits.filterMap id with
  | [] => pure none
  | first :: rest => do
      if (first :: rest).all fun p => p.1 = first.1 then return some first.1
      else do
        let parents := first :: rest
        let nodes ← unionProllyTrees (parents.map fun p => p.2.nodes)
        let edges ← unionProllyTrees (parents.map fun p => p.2.edges)
        let idx ← mergedIndexes (parents.map Prod.snd) nodes.root edges.root
        let schema := ((parentPairs parents).head?.getD first).2.schema
        let cid ← putObject (mergeCommitOf H parents schema nodes.root edges.root idx
          (conflictExtra nodes.conflicts edges.conflicts))
        return some cid

/-! ## Merging views -/

/-- The signed contributions of a ref. -/
def bag : Option (RefTarget Cid) → List (Cid × Int)
  | none => []
  | some (.normal target) => [(target, 1)]
  | some (.conflicted adds removes) => adds.map (·, 1) ++ removes.map (·, -1)

/-- Add to the count of each CID. -/
def countAll (counts : OrdMap Cid Int) (contributions : List (Cid × Int)) : OrdMap Cid Int :=
  contributions.foldl (fun counts c => counts.modify c.1 fun old => old.getD 0 + c.2) counts

/-- Merge one ref by signed multiset arithmetic. -/
def mergeOneRef (base : Option (RefTarget Cid)) (heads : List (Option (RefTarget Cid))) :
    Option (RefTarget Cid) :=
  if heads.all fun h => h = base then base
  else
    match heads with
    | first :: rest =>
        if rest.all fun h => h = first then first
        else
          let counted := heads.foldl (fun counts h => countAll counts (bag h)) OrdMap.empty
          let counts := countAll counted
            ((bag base).map fun c => (c.1, -(c.2 * ((heads.length : Int) - 1))))
          let adds := (counts.entries.filter fun e => e.2 > 0).map Prod.fst
          let removes := (counts.entries.filter fun e => e.2 < 0).map Prod.fst
          match adds, removes with
          | [], [] => none
          | [target], [] => some (.normal target)
          | adds, removes => some (.conflicted adds removes)
    | [] => none

def mergeRefs (ancestor : OrdMap String (RefTarget Cid))
    (heads : List (OrdMap String (RefTarget Cid))) : OrdMap String (RefTarget Cid) :=
  let names : OrdSet String := (ancestor.keys ++ heads.flatMap OrdMap.keys).foldl OrdSet.add
    OrdMap.empty
  names.keys.foldl (fun merged name =>
    match mergeOneRef (ancestor.get? name) (heads.map fun refs => refs.get? name) with
    | some target => merged.insert name target
    | none => merged) OrdMap.empty

/-- Merge views against their ancestor: refs three-way, commit heads as a set, tombstones
and extras by overwriting, the rest from the first head that has it. -/
def mergeViews (ancestor : View Cid) (heads : List (View Cid)) : View Cid where
  heads := OrdMap.keys ((ancestor.heads ++ heads.flatMap View.heads).foldl OrdSet.add
    (OrdMap.empty : OrdSet Cid))
  refs := mergeRefs ancestor.refs (heads.map View.refs)
  remoteRefs := (heads.findSome? View.remoteRefs).or ancestor.remoteRefs
  wcCommit := (heads.findSome? View.wcCommit).or ancestor.wcCommit
  tombstones := heads.foldl (fun ts v => ts.insertAll v.tombstones.entries) ancestor.tombstones
  extra := heads.foldl (fun extra v => extra.insertAll v.extra.entries) ancestor.extra

/-! ## The merge operation -/

/-- A head operation with its view and its commit. -/
structure LoadedHead (Cid : Type) where
  op : Operation Cid
  view : View Cid
  commit : Option (Cid × Commit Cid)

def loadHead (s : Store H) (head : Cid) : Except (Error Cid) (LoadedHead Cid) := do
  let op ← s.decodeFromStore (Operation Cid) head
  let view ← s.decodeFromStore (View Cid) op.view
  match view.heads.head? with
  | none => return ⟨op, view, none⟩
  | some cid => do
      let commit ← s.decodeFromStore (Commit Cid) cid
      return ⟨op, view, some (cid, commit)⟩

/-- The view at the lowest common ancestor of the heads. -/
def ancestorView (s : Store H) (heads : List Cid) : Except (Error Cid) (View Cid) := do
  match ← findLcaMany s heads with
  | none => .error .noCommonAncestor
  | some ancestor => do
      let op ← s.decodeFromStore (Operation Cid) ancestor
      s.decodeFromStore (View Cid) op.view

def describeMerge (H : Hashing Cid) (heads : List Cid) : String :=
  "merge " ++ toString heads.length ++ " op-heads: " ++ " ".intercalate (heads.map H.cidString)

/-- The operation that merges `heads`. -/
def mergeOperation (H : Hashing Cid) (heads : List Cid) (times : List Nat) (view : Cid) :
    Operation Cid where
  parents := heads
  view := view
  author := mergeAuthor
  time := mergeTime times
  description := describeMerge H heads

/-- Everything up to the write of the merge operation. -/
def writeMerge (heads : List Cid) : StoreM H Cid := do
  let loaded ← Exec.read fun s => heads.mapM (loadHead s)
  let ancestor ← Exec.read fun s => ancestorView s heads
  let merged := mergeViews ancestor (loaded.map LoadedHead.view)
  let mergeCommit ← buildMergeCommit (loaded.map LoadedHead.commit)
  let viewCid ← putObject { merged with heads := mergeCommit.elim merged.heads fun c => [c] }
  putObject (mergeOperation H heads (loaded.map fun l => l.op.time) viewCid)

/-- Merge at least two heads into one operation that supersedes them. -/
def mergeOpHeads (heads : List Cid) : WorldM H Cid := do
  let sorted := heads.insertionSort (· ≤ ·)
  let opCid ← onStore (writeMerge sorted)
  updateHeads opCid sorted
  return opCid

/-! ## Init and open -/

/-- Write the root view and the root operation. -/
def init (now : Nat) : WorldM H (ReadonlyRepo Cid) := do
  let viewCid ← onStore (putObject ({} : View Cid))
  let op : Operation Cid := { view := viewCid, author := "", time := now, description := "init" }
  let opCid ← onStore (putObject op)
  updateHeads opCid []
  return ⟨opCid, op, {}, none⟩

/-- Open at heads that were read before, merging them if there are several. -/
def openAt : List Cid → WorldM H (ReadonlyRepo Cid)
  | [] => throw .uninitialized
  | [head] => onStore (Exec.read fun s => ReadonlyRepo.loadAt s head)
  | heads => do
      let merged ← mergeOpHeads heads
      onStore (Exec.read fun s => ReadonlyRepo.loadAt s merged)

def openRepo : WorldM H (ReadonlyRepo Cid) := do
  let heads ← readHeads
  openAt heads

/-! ## Merging only adds -/

theorem unionProllyTrees_grows (roots : List Cid) :
    Exec.Grows (unionProllyTrees roots : StoreM H _) :=
  Exec.grows_bind (Exec.grows_read _) fun _ =>
    Exec.grows_bind (buildTree_grows _) fun _ => Exec.grows_pure _

theorem mergedIndexes_grows (parents : List (Commit Cid)) (nodes edges : Cid) :
    Exec.Grows (mergedIndexes parents nodes edges : StoreM H Cid) := by
  unfold mergedIndexes
  split
  · exact Exec.grows_pure _
  · exact buildIndexSet_grows _ _

theorem buildMergeCommit_grows (headCommits : List (Option (Cid × Commit Cid))) :
    Exec.Grows (buildMergeCommit headCommits : StoreM H _) := by
  unfold buildMergeCommit
  split
  · exact Exec.grows_pure _
  · split
    · exact Exec.grows_pure _
    · exact Exec.grows_bind (unionProllyTrees_grows _) fun _ =>
        Exec.grows_bind (unionProllyTrees_grows _) fun _ =>
        Exec.grows_bind (mergedIndexes_grows _ _ _) fun _ =>
        Exec.grows_bind (putObject_grows _) fun _ => Exec.grows_pure _

theorem writeMerge_grows (heads : List Cid) : Exec.Grows (writeMerge heads : StoreM H Cid) :=
  Exec.grows_bind (Exec.grows_read _) fun _ => Exec.grows_bind (Exec.grows_read _) fun _ =>
    Exec.grows_bind (buildMergeCommit_grows _) fun _ =>
    Exec.grows_bind (putObject_grows _) fun _ => putObject_grows _

theorem mergeOpHeads_grows (heads : List Cid) : Exec.Grows (mergeOpHeads heads : WorldM H Cid) :=
  Exec.grows_bind (onStore_grows (writeMerge_grows _)) fun _ =>
    Exec.grows_bind (Exec.grows_update fun w => le_refl w.store) fun _ => Exec.grows_pure _

/-! ## What a union holds -/

section Union

/-- The greatest of the values that the maps have at a key. -/
def Winner (maps : List (OrdMap ProllyKey Cid)) (k : ProllyKey) (w : Cid) : Prop :=
  IsGreatest {v | ∃ m ∈ maps, m.get? k = some v} w

def unionMap (maps : List (OrdMap ProllyKey Cid)) : OrdMap ProllyKey Cid :=
  unionEntries (allValues (maps.map OrdMap.entries))

theorem mem_sortDedup {values : List Cid} {v : Cid} : v ∈ sortDedup values ↔ v ∈ values := by
  rw [sortDedup, List.mem_dedup, List.mem_insertionSort]

theorem getLast?_sortDedup {values : List Cid} {w : Cid} :
    (sortDedup values).getLast? = some w ↔ IsGreatest {v | v ∈ values} w := by
  have sorted : (sortDedup values).Pairwise (· ≤ ·) :=
    (List.pairwise_insertionSort (· ≤ ·) values).sublist (List.dedup_sublist _)
  constructor
  · intro last
    have member := List.mem_of_getLast? last
    refine ⟨mem_sortDedup.mp member, fun v m => ?_⟩
    have below := sorted.rel_getLast (mem_sortDedup.mpr m)
    rw [List.getLast?_eq_some_getLast (List.ne_nil_of_mem member)] at last
    exact Option.some.inj last ▸ below
  · rintro ⟨member, greatest⟩
    have nonempty : sortDedup values ≠ [] := List.ne_nil_of_mem (mem_sortDedup.mpr member)
    rw [List.getLast?_eq_some_getLast nonempty]
    refine congrArg some (le_antisymm (greatest ?_) (sorted.rel_getLast (mem_sortDedup.mpr member)))
    exact mem_sortDedup.mp (List.getLast_mem nonempty)

theorem mem_flatten_entries {maps : List (OrdMap ProllyKey Cid)} {k : ProllyKey} {v : Cid} :
    (k, v) ∈ (maps.map OrdMap.entries).flatten ↔ ∃ m ∈ maps, m.get? k = some v := by
  simp [List.mem_flatten, OrdMap.get?_eq_some_iff]

/-- A union holds the winner at each key. -/
theorem get?_unionMap {maps : List (OrdMap ProllyKey Cid)} {k : ProllyKey} {w : Cid} :
    (unionMap maps).get? k = some w ↔ Winner maps k w := by
  have rows : ∀ v, v ∈ rowsAt (maps.map OrdMap.entries).flatten k ↔
      ∃ m ∈ maps, m.get? k = some v := fun v => mem_rowsAt.trans mem_flatten_entries
  rw [unionMap, unionEntries, OrdMap.get?_filterMap, allValues, get?_pushAll_empty, Winner]
  simp only [← rows]
  split
  · rename_i nothing
    rw [nothing]
    simp [IsGreatest]
  · rw [Option.bind_some, getLast?_sortDedup]

/-- Where no map has a value, neither has the union. -/
theorem get?_unionMap_eq_none {maps : List (OrdMap ProllyKey Cid)} {k : ProllyKey} :
    (unionMap maps).get? k = none ↔ ∀ m ∈ maps, m.get? k = none := by
  have rows : ∀ v, v ∈ rowsAt (maps.map OrdMap.entries).flatten k ↔
      ∃ m ∈ maps, m.get? k = some v := fun v => mem_rowsAt.trans mem_flatten_entries
  have nothing : rowsAt (maps.map OrdMap.entries).flatten k = [] ↔
      ∀ m ∈ maps, m.get? k = none := by
    simp only [List.eq_nil_iff_forall_not_mem, rows, Option.eq_none_iff_forall_ne_some]
    grind
  rw [unionMap, unionEntries, OrdMap.get?_filterMap, allValues, get?_pushAll_empty, ← nothing]
  split
  · simp_all
  · rename_i some_row
    obtain ⟨v, m⟩ := List.exists_mem_of_ne_nil _ some_row
    simp [some_row, List.ne_nil_of_mem (mem_sortDedup.mpr m)]

theorem unionMap_congr {maps maps' : List (OrdMap ProllyKey Cid)}
    (same : ∀ m, m ∈ maps ↔ m ∈ maps') : unionMap maps = unionMap maps' := by
  ext k w
  rw [get?_unionMap, get?_unionMap, Winner, Winner]
  simp only [same]

/-- The union of copies of one map is that map. -/
theorem unionMap_of_forall_eq {maps : List (OrdMap ProllyKey Cid)} {m : OrdMap ProllyKey Cid}
    (member : m ∈ maps) (all : ∀ m' ∈ maps, m' = m) : unionMap maps = m := by
  ext k w
  rw [get?_unionMap, Winner]
  constructor
  · rintro ⟨⟨m', m'Mem, found⟩, -⟩
    exact all m' m'Mem ▸ found
  · intro found
    refine ⟨⟨m, member, found⟩, ?_⟩
    rintro v ⟨m', m'Mem, found'⟩
    rw [all m' m'Mem, found] at found'
    exact le_of_eq (Option.some.inj found').symm

/-- The keys at which the maps have several values, with all of them. -/
def unionConflictMap (maps : List (OrdMap ProllyKey Cid)) : OrdMap ProllyKey (List Cid) :=
  unionConflicts (allValues (maps.map OrdMap.entries))

/-- The values at a key, sorted, depend on the set of maps only. -/
theorem sortDedup_congr {values values' : List Cid} (same : ∀ v, v ∈ values ↔ v ∈ values') :
    sortDedup values = sortDedup values' := by
  have sorted : ∀ vs : List Cid, (sortDedup vs).Pairwise (· ≤ ·) := fun vs =>
    (List.pairwise_insertionSort (· ≤ ·) vs).sublist (List.dedup_sublist _)
  refine List.Perm.eq_of_pairwise (fun a b _ _ => le_antisymm) (sorted _) (sorted _) ?_
  refine (List.perm_ext_iff_of_nodup (List.nodup_dedup _) (List.nodup_dedup _)).mpr fun v => ?_
  exact mem_sortDedup.trans ((same v).trans mem_sortDedup.symm)

theorem get?_unionConflictMap (maps : List (OrdMap ProllyKey Cid)) (k : ProllyKey) :
    (unionConflictMap maps).get? k =
      let values := sortDedup (rowsAt (maps.map OrdMap.entries).flatten k)
      if 1 < values.length then some values else none := by
  rw [unionConflictMap, unionConflicts, OrdMap.get?_filterMap, allValues, get?_pushAll_empty]
  split
  · rename_i nothing
    rw [nothing]
    rfl
  · rfl

theorem unionConflictMap_congr {maps maps' : List (OrdMap ProllyKey Cid)}
    (same : ∀ m, m ∈ maps ↔ m ∈ maps') : unionConflictMap maps = unionConflictMap maps' := by
  ext k : 1
  have values : sortDedup (rowsAt (maps.map OrdMap.entries).flatten k) =
      sortDedup (rowsAt (maps'.map OrdMap.entries).flatten k) :=
    sortDedup_congr fun v => by
      simp only [mem_rowsAt, mem_flatten_entries, same]
  rw [get?_unionConflictMap, get?_unionConflictMap, values]

/-- A list of values has one value when they are all equal. -/
theorem length_sortDedup_le_one_iff {values : List Cid} :
    (sortDedup values).length ≤ 1 ↔ ∀ v ∈ values, ∀ w ∈ values, v = w := by
  have nodup : (sortDedup values).Nodup := List.nodup_dedup _
  rw [← List.toFinset_card_of_nodup nodup, Finset.card_le_one]
  simp only [List.mem_toFinset, mem_sortDedup]

/-- There are no conflicts when no two maps disagree. -/
theorem unionConflictMap_eq_empty_iff {maps : List (OrdMap ProllyKey Cid)} :
    unionConflictMap maps = OrdMap.empty ↔
      ∀ k, ∀ m ∈ maps, ∀ m' ∈ maps, ∀ v v', m.get? k = some v → m'.get? k = some v' → v = v' := by
  have at_key : ∀ k, (unionConflictMap maps).get? k = none ↔
      ∀ m ∈ maps, ∀ m' ∈ maps, ∀ v v', m.get? k = some v → m'.get? k = some v' → v = v' := by
    intro k
    rw [get?_unionConflictMap]
    dsimp only
    rw [ite_eq_right_iff]
    simp only [reduceCtorEq, imp_false, not_lt, length_sortDedup_le_one_iff, mem_rowsAt,
      mem_flatten_entries]
    constructor
    · intro one m inMaps m' inMaps' v v' found found'
      exact one v ⟨m, inMaps, found⟩ v' ⟨m', inMaps', found'⟩
    · rintro one v ⟨m, inMaps, found⟩ w ⟨m', inMaps', found'⟩
      exact one m inMaps m' inMaps' v w found found'
  constructor
  · intro same k
    rw [← at_key, same]
    rfl
  · intro none
    ext k : 1
    rw [(at_key k).mpr (none k)]
    rfl

variable {s s' : Store H}

/-- Over good trees a union returns, and what it writes holds the union of what they hold. -/
theorem unionProllyTrees_succeeds {roots : List Cid} {maps : List (OrdMap ProllyKey Cid)}
    (trees : List.Forall₂ (IsTree s) roots maps) :
    (unionProllyTrees roots : StoreM H _).Succeeds s fun out s' =>
      out.root = treeRoot H (unionMap maps).entries ∧ out.conflicts = unionConflictMap maps ∧
        s ≤ s' ∧ IsTree s' out.root (unionMap maps) := by
  obtain ⟨sorted, sortedTrees, perm⟩ :=
    List.perm_comp_forall₂ (List.perm_insertionSort (· ≤ ·) roots) trees
  have read : (roots.insertionSort (· ≤ ·)).mapM (entries s) =
      .ok (sorted.map OrdMap.entries) :=
    Exec.mapM_of_forall₂ (List.forall₂_map_right_iff.mpr
      (sortedTrees.imp fun _ _ tree => entries_of_isTree tree))
  have union : unionEntries (allValues (sorted.map OrdMap.entries)) = unionMap maps :=
    unionMap_congr fun m => perm.mem_iff
  have conflicts : unionConflicts (allValues (sorted.map OrdMap.entries)) =
      unionConflictMap maps := unionConflictMap_congr fun m => perm.mem_iff
  refine Exec.succeeds_read_bind read ?_
  rw [union, conflicts]
  refine Exec.succeeds_bind (buildTree_succeeds (unionMap maps) s) ?_
  rintro root s₁ ⟨written, le, tree⟩
  exact Exec.succeeds_pure ⟨written, rfl, le, tree⟩

end Union

/-! ## The merge commit holds the unions -/

section MergeCommit

variable {s s' : Store H}

/-- The graph that a merge of these commits holds: that of the commit they all are, or
the unions, without sidecars. -/
def mergedGraph (held : List (Cid × Graph Cid)) : Graph Cid where
  nodes := unionMap (held.map fun h => h.2.nodes)
  edges := unionMap (held.map fun h => h.2.edges)
  embeddings := match held with
    | [] => OrdMap.empty
    | first :: rest =>
        if rest.all fun h => h.1 = first.1 then first.2.embeddings else OrdMap.empty
  sparse := match held with
    | [] => OrdMap.empty
    | first :: rest =>
        if rest.all fun h => h.1 = first.1 then first.2.sparse else OrdMap.empty

/-- A loaded commit, and the graph it holds. -/
structure CommitHolds (s : Store H) (p : Cid × Commit Cid) (h : Cid × Graph Cid) : Prop where
  cid : p.1 = h.1
  loads : s.Loads p.1 p.2
  stands : Stands s p.2 h.2

/-- Commits with one CID hold one graph. -/
theorem CommitHolds.unique {p q : Cid × Commit Cid} {h k : Cid × Graph Cid}
    (ph : CommitHolds s p h) (qk : CommitHolds s q k) (same : h.1 = k.1) : h.2 = k.2 := by
  have cids : p.1 = q.1 := ph.cid.trans (same.trans qk.cid.symm)
  exact ph.stands.unique ((cids ▸ ph.loads).unique qk.loads ▸ qk.stands)

/-- A merge of one commit holds what the commit does. -/
theorem mergedGraph_of_same {first : Cid × Graph Cid} {rest : List (Cid × Graph Cid)}
    (cids : ∀ h ∈ rest, h.1 = first.1) (graphs : ∀ h ∈ rest, h.2 = first.2) :
    mergedGraph (first :: rest) = first.2 := by
  have all : (rest.all fun h => h.1 = first.1) = true := by simpa using cids
  have one : ∀ (f : Graph Cid → OrdMap ProllyKey Cid),
      unionMap ((first :: rest).map fun h => f h.2) = f first.2 := by
    intro f
    refine unionMap_of_forall_eq List.mem_cons_self fun m member => ?_
    obtain ⟨h, inHeld, rfl⟩ := List.mem_map.mp member
    rcases List.mem_cons.mp inHeld with rfl | later
    · rfl
    · rw [graphs h later]
  simp only [mergedGraph, one, all, if_true]

/-- A merge of several commits carries no sidecar over. -/
theorem mergedGraph_of_several {first : Cid × Graph Cid} {rest : List (Cid × Graph Cid)}
    (several : ¬ ∀ h ∈ rest, h.1 = first.1) :
    (mergedGraph (first :: rest)).embeddings = OrdMap.empty ∧
      (mergedGraph (first :: rest)).sparse = OrdMap.empty := by
  have notAll : ¬ (rest.all fun h => h.1 = first.1) = true := by simpa using several
  exact ⟨if_neg notAll, if_neg notAll⟩

/-- Objects filed in all maps are filed in their union. -/
theorem table_unionMap {α : Type} [Object Cid α] {idOf : α → ProllyKey} {root : Cid}
    {maps : List (OrdMap ProllyKey Cid)} (tables : ∀ m ∈ maps, ∃ r, Table idOf s r m)
    (tree : IsTree s root (unionMap maps)) : Table idOf s root (unionMap maps) := by
  refine ⟨tree, fun k cid found => ?_⟩
  obtain ⟨⟨m, member, here⟩, -⟩ := get?_unionMap.mp found
  obtain ⟨r, table⟩ := tables m member
  exact table.filed k cid here

theorem numberFreeList_of_forall {xs : List (Ipld Cid)}
    (each : ∀ x ∈ xs, x.numberFree = true) : Ipld.numberFreeList xs = true := by
  induction xs with
  | nil => rfl
  | cons x xs ih =>
      rw [Ipld.numberFreeList, each x List.mem_cons_self,
        ih fun y m => each y (List.mem_cons_of_mem _ m)]
      rfl

/-- The conflict records have an encoding. -/
theorem conflictList_numberFree (conflicts : OrdMap ProllyKey (List Cid)) :
    (conflictList conflicts).numberFree = true := by
  refine numberFreeList_of_forall fun x m => ?_
  obtain ⟨e, -, rfl⟩ := List.mem_map.mp m
  have links : Ipld.numberFreeList (e.2.map Ipld.link) = true := by
    refine numberFreeList_of_forall fun x m => ?_
    obtain ⟨c, -, rfl⟩ := List.mem_map.mp m
    rfl
  simp [Ipld.numberFree, Ipld.numberFreeMap, links]

theorem conflictExtra_accepted (H : Hashing Cid) (nodes edges : OrdMap ProllyKey (List Cid)) :
    ∀ v ∈ (conflictExtra nodes edges).values, H.acceptsValue v = true := by
  intro v m
  unfold conflictExtra at m
  split at m
  · cases m
  · refine H.acceptsValue_of_numberFree v ?_
    obtain rfl := List.mem_singleton.mp m
    have nodesFree := conflictList_numberFree nodes
    have edgesFree := conflictList_numberFree edges
    split <;> split <;> simp [Ipld.numberFree, Ipld.numberFreeMap, nodesFree, edgesFree]

/-- The index set that a merge takes over from a parent. -/
def reusedIndexes (parents : List (Commit Cid)) (nodes edges : Cid) : Option Cid :=
  parents.findSome? fun c => if c.nodes = nodes ∧ c.edges = edges then c.indexes else none

/-- The index set of the merge covers the merged trees, whether it is a parent's or rebuilt. -/
theorem mergedIndexes_succeeds {parents : List (Cid × Commit Cid)}
    {held : List (Cid × Graph Cid)} (holds : List.Forall₂ (CommitHolds s) parents held)
    {nodes edges : Cid} {g : Graph Cid} (nodeTable : NodeTable s nodes g.nodes)
    (edgeTable : EdgeTable s edges g.edges) :
    (mergedIndexes (parents.map Prod.snd) nodes edges : StoreM H _).Succeeds s fun idx s' =>
      s ≤ s' ∧ (∀ commit : Commit Cid, commit.indexes = some idx → IsIndexed s' commit g) ∧
        ∀ nodeRows edgeRows, ReadsRows s g.nodes.entries nodeRows →
          ReadsRows s g.edges.entries edgeRows →
          idx = (reusedIndexes (parents.map Prod.snd) nodes edges).getD
            ((contentsOf H nodeRows edgeRows).cid H) := by
  unfold mergedIndexes reusedIndexes
  split
  · rename_i idx found
    refine Exec.succeeds_pure ⟨le_refl s, fun commit root => ?_, fun _ _ _ _ => by rw [found]; rfl⟩
    obtain ⟨c, member, chosen⟩ := List.exists_of_findSome?_eq_some found
    obtain ⟨p, inParents, rfl⟩ := List.mem_map.mp member
    split at chosen
    · rename_i same
      obtain ⟨h, -, holds⟩ := Exec.exists_right_of_forall₂ holds inParents
      obtain ⟨nodeRows, edgeRows, contents, nodesRead, edgesRead, indexed⟩ := holds.stands.indexed
      have sameNodes := holds.stands.nodes.tree.unique (same.1 ▸ nodeTable.tree)
      have sameEdges := holds.stands.edges.tree.unique (same.2 ▸ edgeTable.tree)
      refine ⟨nodeRows, edgeRows, contents, sameNodes ▸ nodesRead, sameEdges ▸ edgesRead, ?_⟩
      exact ⟨by rw [root, ← chosen, indexed.root], indexed.stored, indexed.covers⟩
    · cases chosen
  · rename_i nothing
    obtain ⟨nodeRows, nodesRead, -⟩ := nodeTable.rows
    obtain ⟨edgeRows, edgesRead, -⟩ := edgeTable.rows
    refine (buildIndexSet_succeeds nodeTable.tree edgeTable.tree nodesRead edgesRead).mono ?_
    rintro idx s₁ ⟨rfl, le, stored⟩
    refine ⟨le, fun commit root => ⟨nodeRows, edgeRows, _, nodesRead.mono le, edgesRead.mono le,
      root, stored, covers_contentsOf edgeRows nodesRead.ascending⟩, fun nodeRows' edgeRows'
        nodesRead' edgesRead' => ?_⟩
    rw [nothing, nodesRead.unique nodesRead', edgesRead.unique edgesRead']
    rfl

/-- The commit that merges `parents`, when they are not one commit. -/
def unionCommit (H : Hashing Cid) (parents : List (Cid × Commit Cid))
    (held : List (Cid × Graph Cid)) (schema idx : Cid) : Commit Cid :=
  mergeCommitOf H parents schema (treeRoot H (unionMap (held.map fun h => h.2.nodes)).entries)
    (treeRoot H (unionMap (held.map fun h => h.2.edges)).entries) idx
    (conflictExtra (unionConflictMap (held.map fun h => h.2.nodes))
      (unionConflictMap (held.map fun h => h.2.edges)))

/-- What a merge of commits returns: nothing for none, the commit that they all are, or
a commit that holds their unions. -/
inductive MergeResult (s s' : Store H) (parents : List (Cid × Commit Cid))
    (held : List (Cid × Graph Cid)) : Option Cid → Prop where
  | empty (nothing : held = []) : MergeResult s s' parents held none
  | same (first : Cid × Commit Cid) (rest : List (Cid × Commit Cid))
      (shape : parents = first :: rest) (one : ∀ p ∈ rest, p.1 = first.1) :
      MergeResult s s' parents held (some first.1)
  | union (first : Cid × Commit Cid) (rest : List (Cid × Commit Cid))
      (shape : parents = first :: rest) (several : ¬ ∀ p ∈ rest, p.1 = first.1) (cid idx : Cid)
      (loads : s'.Loads cid (unionCommit H parents held
        ((parentPairs parents).head?.getD first).2.schema idx))
      (index : ∀ nodeRows edgeRows,
        ReadsRows s (unionMap (held.map fun h => h.2.nodes)).entries nodeRows →
        ReadsRows s (unionMap (held.map fun h => h.2.edges)).entries edgeRows →
        idx = (reusedIndexes (parents.map Prod.snd)
          (treeRoot H (unionMap (held.map fun h => h.2.nodes)).entries)
          (treeRoot H (unionMap (held.map fun h => h.2.edges)).entries)).getD
            ((contentsOf H nodeRows edgeRows).cid H)) :
      MergeResult s s' parents held (some cid)

/-- A merge of commits returns, and the commit holds their merged graph. -/
theorem buildMergeCommit_succeeds {headCommits : List (Option (Cid × Commit Cid))}
    {held : List (Cid × Graph Cid)}
    (holds : List.Forall₂ (CommitHolds s) (headCommits.filterMap id) held) :
    (buildMergeCommit headCommits : StoreM H _).Succeeds s fun out s' =>
      s ≤ s' ∧ MergeResult s s' (headCommits.filterMap id) held out ∧
        ∀ cid, out = some cid → ∃ commit, s'.Loads cid (commit : Commit Cid) ∧
          Stands s' commit (mergedGraph held) := by
  unfold buildMergeCommit
  generalize headCommits.filterMap id = parents at holds
  cases holds with
  | nil => exact Exec.succeeds_pure ⟨le_refl s, .empty rfl, nofun⟩
  | @cons first h rest hs firstHolds restHold =>
      have each := List.Forall₂.cons firstHolds restHold
      dsimp only
      split
      · rename_i all
        have one : ∀ p ∈ rest, p.1 = first.1 := fun p m => by
          simpa using List.all_eq_true.mp all p (List.mem_cons_of_mem _ m)
        refine Exec.succeeds_pure ⟨le_refl s, .same first rest rfl one, ?_⟩
        rintro cid ⟨⟩
        have cids : ∀ k ∈ hs, k.1 = h.1 := by
          intro k m
          obtain ⟨p, inRest, held⟩ := Exec.exists_left_of_forall₂ restHold m
          rw [← held.cid, one p inRest, firstHolds.cid]
        have graphs : ∀ k ∈ hs, k.2 = h.2 := by
          intro k m
          obtain ⟨p, inRest, held⟩ := Exec.exists_left_of_forall₂ restHold m
          exact held.unique firstHolds (cids k m)
        rw [mergedGraph_of_same cids graphs]
        exact ⟨first.2, firstHolds.loads, firstHolds.stands⟩
      · rename_i notAll
        have several : ¬ ∀ p ∈ rest, p.1 = first.1 := by simpa using notAll
        have severalHeld : ¬ ∀ k ∈ hs, k.1 = h.1 := by
          refine fun one => several fun p m => ?_
          obtain ⟨k, inHeld, held⟩ := Exec.exists_right_of_forall₂ restHold m
          rw [held.cid, one k inHeld, firstHolds.cid]
        have nodeTrees : List.Forall₂ (IsTree s) ((first :: rest).map fun p => p.2.nodes)
            ((h :: hs).map fun h => h.2.nodes) :=
          List.forall₂_map_left_iff.mpr (List.forall₂_map_right_iff.mpr
            (each.imp fun _ _ held => held.stands.nodes.tree))
        have edgeTrees : List.Forall₂ (IsTree s) ((first :: rest).map fun p => p.2.edges)
            ((h :: hs).map fun h => h.2.edges) :=
          List.forall₂_map_left_iff.mpr (List.forall₂_map_right_iff.mpr
            (each.imp fun _ _ held => held.stands.edges.tree))
        refine Exec.succeeds_bind (unionProllyTrees_succeeds nodeTrees) ?_
        rintro ⟨nodes, _⟩ s₁ ⟨rfl, rfl, le₁, nodeTree⟩
        refine Exec.succeeds_bind (unionProllyTrees_succeeds
          (edgeTrees.imp fun _ _ tree => tree.mono le₁)) ?_
        rintro ⟨edges, _⟩ s₂ ⟨rfl, rfl, le₂, edgeTree⟩
        have le := le₁.trans le₂
        have nodeTable : NodeTable s₂ (treeRoot H (mergedGraph (h :: hs)).nodes.entries)
            (mergedGraph (h :: hs)).nodes := by
          refine table_unionMap (fun m member => ?_) (nodeTree.mono le₂)
          obtain ⟨k, inHeld, rfl⟩ := List.mem_map.mp member
          obtain ⟨p, -, held⟩ := Exec.exists_left_of_forall₂ each inHeld
          exact ⟨_, held.stands.nodes.mono le⟩
        have edgeTable : EdgeTable s₂ (treeRoot H (mergedGraph (h :: hs)).edges.entries)
            (mergedGraph (h :: hs)).edges := by
          refine table_unionMap (fun m member => ?_) edgeTree
          obtain ⟨k, inHeld, rfl⟩ := List.mem_map.mp member
          obtain ⟨p, -, held⟩ := Exec.exists_left_of_forall₂ each inHeld
          exact ⟨_, held.stands.edges.mono le⟩
        have later : List.Forall₂ (CommitHolds s₂) (first :: rest) (h :: hs) :=
          each.imp fun _ _ held => ⟨held.cid, held.loads.mono le, held.stands.mono le⟩
        refine Exec.succeeds_bind (mergedIndexes_succeeds later nodeTable edgeTable) ?_
        rintro idx s₃ ⟨le₃, indexed, index⟩
        have encodes : H.encodes (Object.toBlock (unionCommit H (first :: rest) (h :: hs)
            ((parentPairs (first :: rest)).head?.getD first).2.schema idx)) = true := by
          refine Bool.and_eq_true_iff.mpr ⟨List.all_eq_true.mpr ?_, rfl⟩
          exact conflictExtra_accepted H _ _
        refine Exec.succeeds_bind (putObject_succeeds encodes s₃) ?_
        rintro cid s₄ ⟨-, le₄, loads⟩
        have all := (le.trans le₃).trans le₄
        refine Exec.succeeds_pure ⟨all, .union first rest rfl several cid idx loads
          fun nodeRows edgeRows nodesRead edgesRead =>
            index nodeRows edgeRows (nodesRead.mono le) (edgesRead.mono le), ?_⟩
        rintro _ ⟨⟩
        obtain ⟨noEmbeddings, noSparse⟩ := mergedGraph_of_several severalHeld
        refine ⟨_, loads, nodeTable.mono (le₃.trans le₄), edgeTable.mono (le₃.trans le₄),
          (indexed _ rfl).mono le₄, ?_, ?_⟩
        · rw [noEmbeddings]
          exact sidecar_none s₄
        · rw [noSparse]
          exact sidecar_none s₄

end MergeCommit

end Mnem.Repo
