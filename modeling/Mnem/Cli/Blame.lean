/-
# Cli.Blame — which commit first wrote an edge

`mnem blame --first-writer` walks the ancestors of the current operation breadth
first, and notes for each incoming edge the head commit of each operation that
lists it, over what was noted before.  It ends with the operation that lists the
edge last in the order of the walk, which need not be below the others: of two
branches between a merge and the operation that wrote the edge, the longer one
is walked to its end after the shorter one has led to the writer.

* `computeFirstWriters_last`: what the walk ends with, for each edge.
* `computeFirstWriters_introduces_iff`: when that is a commit that introduced
  the edge.
-/
import Mnem.Theory.Breadth
import Mnem.Cli.Checkout

namespace Mnem.Cli.Blame

open Theory Repo Relation

set_option autoImplicit false
set_option linter.unusedSectionVars false

variable {Cid : Type} {H : Hashing Cid} [LinearOrder Cid]

/-! ## The command -/

section Command

variable (s : Store H) (nodeId : NodeId) (filterRef : Option (List String))

/-- The parents of an ancestor; of one that does not load the walk sees none. -/
def ancestorParents (opId : Cid) : List Cid :=
  match ReadonlyRepo.loadAt s opId with
  | .ok ancestor => ancestor.op.parents
  | .error _ => []

/-- The ids of the incoming edges that an operation lists. -/
def ancestorIds (ancestor : ReadonlyRepo Cid) : List EdgeId :=
  match ancestor.incomingEdges s nodeId filterRef with
  | .ok edges => edges.map Edge.id
  | .error _ => []

/-- Note the head commit of an ancestor for the edges that it lists; `none` is `<no-head>`. -/
def visitAncestor (firstWriter : OrdMap EdgeId (Option Cid)) (opId : Cid) :
    OrdMap EdgeId (Option Cid) :=
  match ReadonlyRepo.loadAt s opId with
  | .ok ancestor =>
      firstWriter.keys.foldl (fun firstWriter id =>
        if id ∈ ancestorIds s nodeId filterRef ancestor then
          firstWriter.insert id ancestor.view.heads.head?
        else firstWriter) firstWriter
  | .error _ => firstWriter

/-- The first writer of each edge, by a walk over the ancestors of the current operation. -/
def computeFirstWriters (r : ReadonlyRepo Cid) (edges : List (Edge Cid)) :
    Option (OrdMap EdgeId (Option Cid)) :=
  Breadth.walk (ancestorParents s) (visitAncestor s nodeId filterRef)
    (walkBound s + r.op.parents.length) OrdMap.empty r.op.parents
    (OrdMap.ofList (edges.map fun e => (e.id, r.view.heads.head?)))

end Command

/-! ## What it is for -/

section Purpose

variable (s : Store H)

/-- The head commit of an operation. -/
def headCommit (opId : Cid) : Except (Error Cid) (Option Cid) :=
  (fun r => r.view.heads.head?) <$> ReadonlyRepo.loadAt s opId

/-- Whether the commit of an operation holds an edge into the node. -/
def holds (nodeId : NodeId) (id : EdgeId) (opId : Cid) : Bool :=
  Exec.okAnd (ReadonlyRepo.loadAt s opId) fun r =>
    Exec.okAnd (r.lookupEdge s id) fun e => e.any fun e => decide (e.dst = nodeId)

/-- Whether an operation lists an edge among the incoming edges of the node. -/
def lists (nodeId : NodeId) (filterRef : Option (List String)) (id : EdgeId) (opId : Cid) : Bool :=
  Exec.okAnd (ReadonlyRepo.loadAt s opId) fun r => decide (id ∈ ancestorIds s nodeId filterRef r)

/-- An operation of the history that ends at another. -/
def InHistory (top opId : Cid) : Prop := ReflTransGen (Parent (operationParents s)) top opId

/-- No operation of the history drops an edge that a parent holds. -/
def NeverDeleted (top : Cid) (nodeId : NodeId) (id : EdgeId) : Prop :=
  ∀ o p, InHistory s top o → Parent (operationParents s) o p → holds s nodeId id p = true →
    holds s nodeId id o = true

/-- The head commit of an operation that holds the edge and has no proper ancestor holding it. -/
def Introduces (top : Cid) (nodeId : NodeId) (id : EdgeId) (commit : Option Cid) : Prop :=
  ∃ o, InHistory s top o ∧ headCommit s o = .ok commit ∧ holds s nodeId id o = true ∧
    ∀ a, TransGen (Parent (operationParents s)) o a → holds s nodeId id a = false

/-- The operation that lists the edge last: the ancestor whose soonest route is the latest, and
the current operation if no ancestor lists it. -/
def ListsLast (r : ReadonlyRepo Cid) (nodeId : NodeId) (filterRef : Option (List String))
    (id : EdgeId) (o : Cid) : Prop :=
  Breadth.Latest (ancestorParents s) r.op.parents (fun a => lists s nodeId filterRef id a = true) o ∨
    o = r.opId ∧ ∀ route a, Breadth.Route (ancestorParents s) r.op.parents route a →
      lists s nodeId filterRef id a = false

end Purpose

/-! ## The walk -/

section Walk

variable {s : Store H} {nodeId : NodeId} {filterRef : Option (List String)} {id : EdgeId}
  {r : ReadonlyRepo Cid} {edges : List (Edge Cid)}

/-- The head commit of an operation that is known to load. -/
def commitAt (s : Store H) (opId : Cid) : Option Cid :=
  match ReadonlyRepo.loadAt s opId with
  | .ok ancestor => ancestor.view.heads.head?
  | .error _ => none

/-- One value inserted at the keys that are listed. -/
theorem get?_foldl_note (listed : List EdgeId) (c : Option Cid) (ids : List EdgeId)
    (fw : OrdMap EdgeId (Option Cid)) :
    (ids.foldl (fun fw id => if id ∈ listed then fw.insert id c else fw) fw).get? id =
      if id ∈ ids ∧ id ∈ listed then some c else fw.get? id := by
  induction ids generalizing fw with
  | nil => simp
  | cons j ids ih =>
      rw [List.foldl_cons, ih]
      by_cases here : id = j
      · subst here
        by_cases inListed : id ∈ listed <;> simp [inListed]
      · by_cases inListed : j ∈ listed <;> simp [here, inListed, OrdMap.get?_insert, Ne.symm here]

/-- What a visit does to the note for one edge. -/
theorem get?_visitAncestor (firstWriter : OrdMap EdgeId (Option Cid)) (opId : Cid) :
    (visitAncestor s nodeId filterRef firstWriter opId).get? id =
      (firstWriter.get? id).map fun c =>
        if lists s nodeId filterRef id opId then commitAt s opId else c := by
  unfold visitAncestor lists commitAt
  cases ReadonlyRepo.loadAt s opId with
  | error e =>
      show firstWriter.get? id = (firstWriter.get? id).map fun c => c
      rw [Option.map_id']
  | ok ancestor =>
      show (firstWriter.keys.foldl _ firstWriter).get? id = _
      rw [get?_foldl_note]
      simp only [OrdMap.mem_keys_iff, Exec.okAnd, decide_eq_true_eq]
      cases firstWriter.get? id with
      | none => simp
      | some c => by_cases listed : id ∈ ancestorIds s nodeId filterRef ancestor <;> simp [listed]

theorem length_ancestorParents (opId : Cid) : (ancestorParents s opId).length ≤
    ((s.get opId).map fun b => b.links.length).getD 0 := by
  unfold ancestorParents
  split
  · rename_i ancestor loaded
    have loads := (reads_of_loadAt loaded).op
    rw [ReadonlyRepo.opId_of_loadAt loaded] at loads
    rw [Store.loads_iff.mp loads]
    simp [Object.toBlock, Block.links]
  · exact Nat.zero_le _

/-- The walk ends. -/
theorem computeFirstWriters_succeeds (s : Store H) (nodeId : NodeId)
    (filterRef : Option (List String)) (r : ReadonlyRepo Cid) (edges : List (Edge Cid)) :
    ∃ fw, computeFirstWriters s nodeId filterRef r edges = some fw := by
  let nodes := (s.blocks.map Prod.fst).toFinset
  have stored : ∀ c, ((s.get c).map fun b => b.links.length).getD 0 ≠ 0 → c ∈ nodes := by
    intro c some
    cases at_c : s.get c with
    | none => simp [at_c] at some
    | some b => exact List.mem_toFinset.mpr (List.mem_map_of_mem (Entries.mem_of_get? at_c))
  apply Breadth.walk_succeeds length_ancestorParents stored
  have enough : Reach.owed nodes (fun c => ((s.get c).map fun b => b.links.length).getD 0)
      OrdMap.empty ≤ (s.blocks.map fun e => e.2.links.length).sum :=
    Reach.owed_empty_le (fun b : Block Cid => b.links.length) s.blocks
  unfold walkBound
  omega

/-- The walk starts from the listed edges, each with the current head commit. -/
theorem get?_started (edges : List (Edge Cid)) (c : Option Cid) (id : EdgeId) :
    (OrdMap.ofList (edges.map fun e => (e.id, c))).get? id =
      if id ∈ edges.map Edge.id then some c else none := by
  rw [OrdMap.get?_ofList]
  cases found : Entries.get? id (edges.map fun e => (e.id, c)).reverse with
  | none =>
      have absent := Entries.get?_eq_none_iff.mp found
      rw [if_neg]
      rintro member
      obtain ⟨e, inEdges, rfl⟩ := List.mem_map.mp member
      exact absent _ (List.mem_reverse.mpr (List.mem_map_of_mem inEdges)) rfl
  | some c' =>
      have member := List.mem_reverse.mp (Entries.mem_of_get? found)
      obtain ⟨e, inEdges, same⟩ := List.mem_map.mp member
      obtain ⟨rfl, rfl⟩ := Prod.mk.inj same
      rw [if_pos (List.mem_map_of_mem inEdges)]

theorem headCommit_of_lists {opId : Cid} (listed : lists s nodeId filterRef id opId = true) :
    headCommit s opId = .ok (commitAt s opId) := by
  obtain ⟨ancestor, loaded, -⟩ := Exec.exists_of_okAnd listed
  unfold headCommit commitAt
  rw [loaded]
  rfl

/-- **What the walk ends with**: for each listed edge, the head commit of the operation that lists
it last. -/
theorem computeFirstWriters_last (loaded : ReadonlyRepo.loadAt s r.opId = .ok r)
    {fw : OrdMap EdgeId (Option Cid)}
    (ran : computeFirstWriters s nodeId filterRef r edges = some fw) :
    if id ∈ edges.map Edge.id then
      ∃ o c, ListsLast s r nodeId filterRef id o ∧ headCommit s o = .ok c ∧ fw.get? id = some c
    else fw.get? id = none := by
  have start := get?_started edges r.view.heads.head? id
  split at start
  · rename_i listed
    rw [if_pos listed]
    let shown := fun fw : OrdMap EdgeId (Option Cid) => (fw.get? id).getD none
    obtain ⟨there, watched⟩ := Breadth.walk_view (P := fun fw => (fw.get? id).isSome = true)
      (fun c a => if lists s nodeId filterRef id a then commitAt s a else c) shown
      (fun st k there => by rw [get?_visitAncestor]; simpa using there)
      (fun st k there => by
        obtain ⟨c, noted⟩ := Option.isSome_iff_exists.mp there
        simp only [shown, get?_visitAncestor, noted, Option.map_some, Option.getD_some])
      (by rw [start]; rfl) ran
    obtain ⟨c, noted⟩ := Option.isSome_iff_exists.mp there
    simp only [shown, start, noted, Option.getD_some] at watched
    rcases Breadth.walk_latest watched with ⟨o, last, rfl⟩ | ⟨none, rfl⟩
    · exact ⟨o, _, .inl last, headCommit_of_lists last.1, noted⟩
    · refine ⟨r.opId, _, .inr ⟨rfl, none⟩, ?_, noted⟩
      rw [headCommit, loaded]
      rfl
  · rename_i unlisted
    rw [if_neg unlisted]
    obtain ⟨absent, -⟩ := Breadth.walk_view (P := fun fw => fw.get? id = none)
      (fun (u : Unit) _ => u) (fun _ => ())
      (fun st k absent => by rw [get?_visitAncestor, absent]; rfl) (fun _ _ _ => rfl) start ran
    exact absent

/-! ## When it is a first writer -/

theorem ListsLast.unique {o o' : Cid} (last : ListsLast s r nodeId filterRef id o)
    (last' : ListsLast s r nodeId filterRef id o') : o = o' := by
  rcases last with below | ⟨rfl, none⟩ <;> rcases last' with below' | ⟨rfl, none'⟩
  · exact below.unique below'
  · obtain ⟨listed, route, first, -⟩ := below
    rw [none' route o first.1] at listed
    cases listed
  · obtain ⟨listed, route, first, -⟩ := below'
    rw [none route o' first.1] at listed
    cases listed
  · rfl

/-- Where nothing is deleted, an operation has an ancestor that holds the edge only through a
parent that does. -/
theorem NeverDeleted.no_ancestor_iff {top o : Cid} (kept : NeverDeleted s top nodeId id)
    (inHistory : InHistory s top o) :
    (∀ a, TransGen (Parent (operationParents s)) o a → holds s nodeId id a = false) ↔
      ∀ p, Parent (operationParents s) o p → holds s nodeId id p = false := by
  constructor
  · exact fun none p link => none p (.single link)
  · intro none a below
    obtain ⟨p, link, path⟩ := TransGen.head'_iff.mp below
    have past : InHistory s top p := inHistory.tail link
    apply Bool.eq_false_of_not_eq_true
    intro held
    have carried : holds s nodeId id p = true := by
      clear none link below
      induction path using ReflTransGen.head_induction_on with
      | refl => exact held
      | head link _ ih => exact kept _ _ past link (ih (past.tail link))
    rw [none p link] at carried
    cases carried

/-- The operation that lists the edge last has the head commit of an operation that holds it and
has no parent that does. -/
def LastIsFirst (s : Store H) (r : ReadonlyRepo Cid) (nodeId : NodeId)
    (filterRef : Option (List String)) (id : EdgeId) : Prop :=
  ∃ last first commit, ListsLast s r nodeId filterRef id last ∧ InHistory s r.opId first ∧
    headCommit s last = .ok commit ∧ headCommit s first = .ok commit ∧
    holds s nodeId id first = true ∧
    ∀ p, Parent (operationParents s) first p → holds s nodeId id p = false

/-- **When `--first-writer` names a first writer.**  For an edge that was never deleted, exactly
if the current operation lists it and the operation that lists it last in the order of the walk
has the head commit of one that holds it and has no parent that does. -/
theorem computeFirstWriters_introduces_iff (loaded : ReadonlyRepo.loadAt s r.opId = .ok r)
    (listed : r.incomingEdges s nodeId filterRef = .ok edges)
    (kept : NeverDeleted s r.opId nodeId id) :
    ∃ fw, computeFirstWriters s nodeId filterRef r edges = some fw ∧
      ((∃ commit, fw.get? id = some commit ∧ Introduces s r.opId nodeId id commit) ↔
        lists s nodeId filterRef id r.opId = true ∧ LastIsFirst s r nodeId filterRef id) := by
  obtain ⟨fw, ran⟩ := computeFirstWriters_succeeds s nodeId filterRef r edges
  have current : lists s nodeId filterRef id r.opId = true ↔ id ∈ edges.map Edge.id := by
    unfold lists ancestorIds
    rw [loaded]
    simp [Exec.okAnd, listed]
  refine ⟨fw, ran, ?_⟩
  have result : if id ∈ edges.map Edge.id then
      ∃ o c, ListsLast s r nodeId filterRef id o ∧ headCommit s o = .ok c ∧ fw.get? id = some c
    else fw.get? id = none := computeFirstWriters_last loaded ran
  rw [current]
  split at result
  · rename_i shown
    obtain ⟨last, commit, isLast, head, noted⟩ := result
    constructor
    · rintro ⟨commit', noted', first, inHistory, head', held, none⟩
      obtain rfl := Option.some.inj (noted.symm.trans noted')
      exact ⟨shown, last, first, commit, isLast, inHistory, head, head', held,
        (kept.no_ancestor_iff inHistory).mp none⟩
    · rintro ⟨-, last', first, commit', isLast', inHistory, atLast, atFirst, held, none⟩
      obtain rfl := isLast.unique isLast'
      obtain rfl := Except.ok.inj (head.symm.trans atLast)
      exact ⟨commit, noted, first, inHistory, atFirst, held,
        (kept.no_ancestor_iff inHistory).mpr none⟩
  · rename_i unlisted
    constructor
    · rintro ⟨commit, noted, -⟩
      rw [result] at noted
      cases noted
    · rintro ⟨shown, -⟩
      exact absurd shown unlisted

end Walk

/-! ### A short branch beside a long one -/

/-- The next commit, with its operation. -/
def writeNext (nodes edges indexes : ℕ) (message : String) (parents : List ℕ) :
    StoreM shortHashing ℕ := do
  let commit ← putObject ({
    changeId := 0, parents := [], nodes := nodes, edges := edges, schema := 0,
    indexes := some indexes, author := "", time := 0, message := message } : Commit ℕ)
  let view ← putObject ({ heads := [commit] } : View ℕ)
  putObject ({ parents := parents, view := view, author := "", time := 0,
               description := "" } : Operation ℕ)

/-- An edge, a branch of one operation and one of two above it, and their merge. -/
def twoBranches : StoreM shortHashing ℕ := do
  let edge ← putObject ({ id := 1, etype := "t", src := 1, dst := 2 } : Edge ℕ)
  let nodes ← Prolly.buildTree []
  let edges ← Prolly.buildTree [(1, edge)]
  let indexes ← Index.buildIndexSet nodes edges
  let writer ← writeNext nodes edges indexes "w" []
  let short ← writeNext nodes edges indexes "s" [writer]
  let long ← writeNext nodes edges indexes "l" [writer]
  let longer ← writeNext nodes edges indexes "r" [long]
  writeNext nodes edges indexes "m" [short, longer]

/-- Whether all operations of a history pass a test. -/
def historyAll (s : Store shortHashing) (top : ℕ) (test : ℕ → Bool) : Bool :=
  Exec.okAnd (ancestorsInclusive s top) fun anc => anc.keys.all test

theorem historyAll_iff {s : Store shortHashing} {top : ℕ} {test : ℕ → Bool}
    (passed : historyAll s top test = true) {o : ℕ} (inHistory : InHistory s top o) :
    test o = true := by
  obtain ⟨anc, walked, all⟩ := Exec.exists_of_okAnd passed
  apply List.all_eq_true.mp all
  exact OrdSet.mem_keys.mpr ((mem_of_ancestorsVia walked o).mpr inHistory)

/-- Whether a commit is the head of no operation of the history, but of those with a parent that
holds the edge. -/
def heldBefore (s : Store shortHashing) (top : ℕ) (commit : Option ℕ) : Bool :=
  historyAll s top fun o => Exec.okAnd (headCommit s o) (fun c => decide (c ≠ commit)) ||
    Exec.okAnd (operationParents s o) fun ps => ps.any (holds s 2 1)

theorem not_introduces {s : Store shortHashing} {top : ℕ} {commit : Option ℕ}
    (before : heldBefore s top commit = true) : ¬ Introduces s top 2 1 commit := by
  rintro ⟨o, inHistory, head, -, none⟩
  rcases Bool.or_eq_true_iff.mp (historyAll_iff before inHistory) with other | held
  · obtain ⟨c, head', apart⟩ := Exec.exists_of_okAnd other
    exact of_decide_eq_true apart (Except.ok.inj (head'.symm.trans head))
  · obtain ⟨ps, found, some⟩ := Exec.exists_of_okAnd held
    obtain ⟨p, member, holding⟩ := List.any_eq_true.mp some
    rw [none p (.single ⟨ps, found, member⟩)] at holding
    cases holding

/-- What is run on the two branches. -/
def blamed (op : ℕ) (s : Store shortHashing) (test : Option ℕ → Bool) : Bool :=
  Exec.okAnd (ReadonlyRepo.loadAt s op) fun r =>
    Exec.okAnd (r.incomingEdges s 2 none) fun edges =>
      historyAll s op (holds s 2 1) &&
        (computeFirstWriters s 2 none r edges).any fun fw => (fw.get? 1).any test

theorem exists_of_blamed {op : ℕ} {s : Store shortHashing} {test : Option ℕ → Bool}
    (passed : blamed op s test = true) :
    ∃ r edges fw commit, ReadonlyRepo.loadAt s r.opId = .ok r ∧
      r.incomingEdges s 2 none = .ok edges ∧ holds s 2 1 r.opId = true ∧
      NeverDeleted s r.opId 2 1 ∧ computeFirstWriters s 2 none r edges = some fw ∧
      fw.get? 1 = some commit ∧ r.opId = op ∧ test commit = true := by
  obtain ⟨r, loaded, passed⟩ := Exec.exists_of_okAnd passed
  obtain ⟨edges, listed, passed⟩ := Exec.exists_of_okAnd passed
  obtain ⟨kept, passed⟩ := Bool.and_eq_true_iff.mp passed
  obtain ⟨fw, ran, passed⟩ := (Option.any_eq_true _ _).mp passed
  obtain ⟨commit, noted, passed⟩ := (Option.any_eq_true _ _).mp passed
  have same := ReadonlyRepo.opId_of_loadAt loaded
  refine ⟨r, edges, fw, commit, by rw [same]; exact loaded, listed, ?_, ?_, ran, noted, same,
    passed⟩
  · rw [same]
    exact historyAll_iff kept .refl
  · rw [same]
    exact fun o p inHistory _ _ => historyAll_iff kept inHistory

/-- The longer branch is walked to its end after the writer, and its first commit is named. -/
theorem computeFirstWriters_names_later : ∃ (s : Store shortHashing) (r : ReadonlyRepo ℕ)
    (edges : List (Edge ℕ)) (fw : OrdMap EdgeId (Option ℕ)) (commit : Option ℕ),
    ReadonlyRepo.loadAt s r.opId = .ok r ∧ r.incomingEdges s 2 none = .ok edges ∧
      holds s 2 1 r.opId = true ∧ NeverDeleted s r.opId 2 1 ∧
      computeFirstWriters s 2 none r edges = some fw ∧ fw.get? 1 = some commit ∧
      ¬ Introduces s r.opId 2 1 commit := by
  have passed : twoBranches.check {} (fun op s => blamed op s (heldBefore s op)) = true := by
    decide +kernel
  obtain ⟨op, s, -, passed⟩ := Exec.exists_of_check passed
  obtain ⟨r, edges, fw, commit, loaded, listed, held, kept, ran, noted, same, before⟩ :=
    exists_of_blamed passed
  exact ⟨s, r, edges, fw, commit, loaded, listed, held, kept, ran, noted,
    same ▸ not_introduces before⟩

/-- On the two branches. -/
theorem computeFirstWriters_introduces_iff_branches : ∃ (s : Store shortHashing)
    (r : ReadonlyRepo ℕ) (edges : List (Edge ℕ)) (fw : OrdMap EdgeId (Option ℕ)),
    ReadonlyRepo.loadAt s r.opId = .ok r ∧ r.incomingEdges s 2 none = .ok edges ∧
      computeFirstWriters s 2 none r edges = some fw ∧
      ((∃ commit, fw.get? 1 = some commit ∧ Introduces s r.opId 2 1 commit) ↔
        lists s 2 none 1 r.opId = true ∧ LastIsFirst s r 2 none 1) := by
  have passed : twoBranches.check {} (fun op s => blamed op s fun _ => true) = true := by
    decide +kernel
  obtain ⟨op, s, -, passed⟩ := Exec.exists_of_check passed
  obtain ⟨r, edges, -, -, loaded, listed, -, kept, -⟩ := exists_of_blamed passed
  obtain ⟨fw, ran, exact⟩ := computeFirstWriters_introduces_iff loaded listed kept
  exact ⟨s, r, edges, fw, loaded, listed, ran, exact⟩

end Mnem.Cli.Blame
