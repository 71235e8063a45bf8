/-
# Repo.OpenSteady — opening does not notice what else is stored

Blocks that something else put into the store do not change what is opened: a
repository that opened, single head or several, opens to the same operation,
view and commit after other blocks were added (`openRepo_steady`).  The bounds
of the walks are taken from the length of the store, so stores are compared as
lists here (`Store.Inside`), and a walk that ended stays ended with more steps.
-/
import Mnem.Repo.Merge
import Mnem.Theory.Steady

namespace Mnem

open Theory

set_option autoImplicit false
set_option linter.unusedSectionVars false

variable {Cid : Type} {H : Hashing Cid} [LinearOrder Cid]

/-! ## Stores as lists -/

/-- The blocks of `s` are among those of `s'`, in their order. -/
def Store.Inside (s s' : Store H) : Prop := s.blocks.Sublist s'.blocks

section Inside

variable {s s' : Store H}

theorem Store.Inside.refl (s : Store H) : s.Inside s := List.Sublist.refl _

theorem Store.Inside.trans {s₂ : Store H} (first : s.Inside s') (second : s'.Inside s₂) :
    s.Inside s₂ := List.Sublist.trans first second

theorem Store.inside_insert (s : Store H) (b : Block Cid) (ok : H.encodes b = true) :
    s.Inside (s.insert b ok) := List.sublist_cons_self _ _

theorem Store.Inside.insert (inside : s.Inside s') (b : Block Cid) (ok : H.encodes b = true) :
    (s.insert b ok).Inside (s'.insert b ok) := List.Sublist.cons_cons _ inside

/-- A block of the store is what is found at its address. -/
theorem Store.get_of_mem {cid : Cid} {b : Block Cid} (member : (cid, b) ∈ s.blocks) :
    s.get cid = some b := by
  have present : (s.get cid).isSome :=
    Entries.get?_isSome_iff.mpr (List.mem_map_of_mem (f := Prod.fst) member)
  obtain ⟨b', found⟩ := Option.isSome_iff_exists.mp present
  have address := (s.addressed _ member).1
  rw [found, H.cidOf_injective ((Store.cidOf_of_get found).trans address.symm)]

theorem Store.Inside.le (inside : s.Inside s') : s ≤ s' := by
  intro cid b found
  exact Store.get_of_mem (inside.subset (Entries.mem_of_get? found))

theorem Store.Inside.length_le (inside : s.Inside s') : s.blocks.length ≤ s'.blocks.length :=
  List.Sublist.length_le inside

theorem Store.Inside.keeps_decode (inside : s.Inside s') (α : Type) [Object Cid α] (cid : Cid) :
    Keeps (s.decodeFromStore α cid) (s'.decodeFromStore α cid) :=
  fun _ loads => Store.Loads.mono loads inside.le

/-- Putting an object is steady. -/
theorem putObject_steady {α : Type} [Object Cid α] (a : α) :
    Exec.Steady Store.Inside (putObject a : StoreM H Cid) := by
  unfold putObject
  split
  · rename_i ok
    exact Exec.steady_update fun s s' inside => ⟨rfl, inside.insert _ ok⟩
  · exact Exec.steady_throw _

end Inside

namespace Prolly

variable {s s' : Store H}

theorem buildTree_steady (es : List (ProllyKey × Cid)) :
    Exec.Steady Store.Inside (buildTree es : StoreM H Cid) := by
  refine Exec.steady_update fun s s' inside => ⟨rfl, ?_⟩
  change (putChunks s _).Inside (putChunks s' _)
  generalize treeChunks H es = chunks
  induction chunks generalizing s s' with
  | nil => exact inside
  | cons t ts ih => exact ih _ _ (inside.insert _ (encodes_tree t))

theorem keeps_loadTreeChunk (inside : s.Inside s') (cid : Cid) :
    Keeps (loadTreeChunk s cid) (loadTreeChunk s' cid) := by
  unfold loadTreeChunk
  intro t ran
  cases read : s.decodeFromStore (TreeChunk Cid) cid with
  | error e =>
      rw [read] at ran
      cases ran
  | ok chunk =>
      rw [inside.keeps_decode _ _ chunk read]
      rw [read] at ran
      exact ran

/-- A descent that ended stays ended with more steps. -/
theorem keeps_entriesAt (inside : s.Inside s') {fuel fuel' : Nat} (more : fuel ≤ fuel')
    (cid : Cid) : Keeps (entriesAt s fuel cid) (entriesAt s' fuel' cid) := by
  induction fuel generalizing fuel' cid with
  | zero => exact keeps_error _ _
  | succ fuel ih =>
      obtain ⟨fuel', rfl⟩ : ∃ n, fuel' = n + 1 := ⟨fuel' - 1, by omega⟩
      have shorter : fuel ≤ fuel' := by omega
      intro es ran
      unfold entriesAt at ran ⊢
      cases read : loadTreeChunk s cid with
      | error e =>
          rw [read] at ran
          cases ran
      | ok chunk =>
          rw [keeps_loadTreeChunk inside cid chunk read]
          rw [read] at ran
          cases chunk with
          | leaf _ => exact ran
          | internal _ children =>
              exact (keeps_mapM (fun child => ih shorter child) children).map _ es ran

theorem keeps_entries (inside : s.Inside s') (root : Cid) :
    Keeps (entries s root) (entries s' root) :=
  keeps_entriesAt inside (Nat.add_le_add_right inside.length_le 1) root

end Prolly

namespace Index

variable {s s' : Store H}

theorem keeps_wrapIndexDecodeError {α : Type} {r r' : Except (Error Cid) α} (kept : Keeps r r')
    (context : String) (key : ProllyKey) (cid : Cid) :
    Keeps (wrapIndexDecodeError context key cid r) (wrapIndexDecodeError context key cid r') := by
  intro a ran
  cases r with
  | error e => cases e <;> cases ran
  | ok b =>
      rw [kept b rfl]
      exact ran

theorem keeps_groupNode (inside : s.Inside s') (context : String) (groups : NodeGroups Cid)
    (entry : ProllyKey × Cid) :
    Keeps (groupNode context s groups entry) (groupNode context s' groups entry) :=
  (keeps_wrapIndexDecodeError (inside.keeps_decode _ _) context entry.1 entry.2).bind
    fun _ => keeps_refl _

theorem keeps_groupEdge (inside : s.Inside s') (groups : EdgeGroups Cid)
    (entry : ProllyKey × Cid) : Keeps (groupEdge s groups entry) (groupEdge s' groups entry) :=
  (inside.keeps_decode _ _).bind fun _ => keeps_refl _

theorem buildAdjacency_steady {α β : Type} [Object Cid β] (bucket : List α → β)
    (groups : OrdMap NodeId (List α)) :
    Exec.Steady Store.Inside (buildAdjacency bucket groups : StoreM H (Option Cid)) := by
  unfold buildAdjacency
  split
  · exact Exec.steady_pure _
  · refine (Exec.steady_foldlM (fun m g => ?_) _ _).bind fun m => ?_
    · exact (putObject_steady _).bind fun _ => Exec.steady_pure _
    · exact (Prolly.buildTree_steady _).bind fun _ => Exec.steady_pure _

/-- Building the indexes of two trees is steady. -/
theorem buildIndexSet_steady (nodesRoot edgesRoot : Cid) :
    Exec.Steady Store.Inside (buildIndexSet nodesRoot edgesRoot : StoreM H Cid) := by
  have tree : ∀ es : List (ProllyKey × Cid),
      Exec.Steady Store.Inside (Prolly.buildTree es : StoreM H Cid) := Prolly.buildTree_steady
  refine (Exec.steady_read fun s s' inside => ?_).bind fun groups => ?_
  · exact (Prolly.keeps_entries inside nodesRoot).bind fun es =>
      keeps_foldlM (fun g e => keeps_groupNode inside _ g e) es _
  refine (Exec.steady_foldlM (fun m g => ?_) _ _).bind fun nodesByLabel => ?_
  · exact (tree _).bind fun _ => Exec.steady_pure _
  refine (Exec.steady_foldlM (fun m g => ?_) _ _).bind fun nodesByProp => ?_
  · exact (tree _).bind fun _ => Exec.steady_pure _
  refine (Exec.steady_read fun s s' inside => ?_).bind fun edges => ?_
  · exact (Prolly.keeps_entries inside edgesRoot).bind fun es =>
      keeps_foldlM (fun g e => keeps_groupEdge inside g e) es _
  exact (buildAdjacency_steady _ _).bind fun _ => (buildAdjacency_steady _ _).bind fun _ =>
    putObject_steady _

end Index

namespace Repo

open Prolly Index

variable {s s' : Store H}

/-! ## Ancestors -/

theorem keeps_search {ε α K : Type} [LinearOrder K] {visit visit' : K → Except ε (α ⊕ List K)}
    {cut : ε} (kept : ∀ k, Keeps (visit k) (visit' k)) {fuel fuel' : Nat} (more : fuel ≤ fuel')
    (seen : OrdSet K) (stack : List K) :
    Keeps (Reach.search visit cut fuel seen stack) (Reach.search visit' cut fuel' seen stack) := by
  induction fuel generalizing fuel' seen stack with
  | zero =>
      cases stack with
      | nil =>
          rw [Reach.search_nil, Reach.search_nil]
          exact keeps_refl _
      | cons k stack => exact keeps_error _ _
  | succ fuel ih =>
      obtain ⟨fuel', rfl⟩ : ∃ n, fuel' = n + 1 := ⟨fuel' - 1, by omega⟩
      have shorter : fuel ≤ fuel' := by omega
      cases stack with
      | nil => exact keeps_refl _
      | cons k stack =>
          intro out ran
          unfold Reach.search at ran ⊢
          split
          · rename_i old
            rw [if_pos old] at ran
            exact ih shorter seen stack out ran
          · rename_i fresh
            rw [if_neg fresh] at ran
            cases visited : visit k with
            | error e =>
                rw [visited] at ran
                cases ran
            | ok found =>
                rw [kept k found visited]
                rw [visited] at ran
                cases found with
                | inl a => exact ran
                | inr ks => exact ih shorter _ _ out ran

theorem walkBound_le (inside : s.Inside s') : walkBound s ≤ walkBound s' := by
  have fewer : (s.blocks.map fun e => e.2.links.length).sum ≤
      (s'.blocks.map fun e => e.2.links.length).sum :=
    (List.Sublist.map _ inside).sum_le_sum fun _ _ => Nat.zero_le _
  unfold walkBound
  omega

theorem keeps_ancestorsInclusive (inside : s.Inside s') (cid : Cid) :
    Keeps (ancestorsInclusive s cid) (ancestorsInclusive s' cid) := by
  have visits : ∀ c, Keeps (visitParents (operationParents s) c)
      (visitParents (operationParents s') c) :=
    fun c => ((inside.keeps_decode _ c).map _).map _
  intro seen ran
  unfold ancestorsInclusive ancestorsVia at ran ⊢
  split at ran
  · rename_i out found
    rw [keeps_search visits (walkBound_le inside) _ _ _ found]
    exact ran
  · cases ran

theorem keeps_lowest {ancestors ancestors' : Cid → Except (Error Cid) (OrdSet Cid)}
    (kept : ∀ c, Keeps (ancestors c) (ancestors' c)) (common : OrdSet Cid) :
    Keeps (lowest ancestors common) (lowest ancestors' common) := by
  unfold lowest
  split
  · exact keeps_refl _
  · refine Keeps.bind (keeps_foldlM (fun strict c => ?_) _ _) fun _ => keeps_refl _
    exact (kept c).bind fun _ => keeps_refl _

theorem keeps_findLcaMany (inside : s.Inside s') (heads : List Cid) :
    Keeps (findLcaMany s heads) (findLcaMany s' heads) := by
  match heads with
  | [] => exact keeps_refl _
  | [_] => exact keeps_refl _
  | h :: h' :: hs =>
      refine (keeps_mapM (keeps_ancestorsInclusive inside) (h :: h' :: hs)).bind fun perHead => ?_
      cases perHead with
      | nil => exact keeps_refl _
      | cons first rest => exact keeps_lowest (keeps_ancestorsInclusive inside) _

/-! ## Merging and opening -/

theorem keeps_loadHead (inside : s.Inside s') (head : Cid) :
    Keeps (loadHead s head) (loadHead s' head) := by
  refine (inside.keeps_decode _ head).bind fun op => (inside.keeps_decode _ _).bind fun view => ?_
  split
  · exact keeps_refl _
  · exact (inside.keeps_decode _ _).bind fun _ => keeps_refl _

theorem keeps_loadAt (inside : s.Inside s') (opId : Cid) :
    Keeps (ReadonlyRepo.loadAt s opId) (ReadonlyRepo.loadAt s' opId) := by
  refine (inside.keeps_decode _ opId).bind fun op => (inside.keeps_decode _ _).bind fun view => ?_
  split
  · exact (inside.keeps_decode _ _).bind fun _ => keeps_refl _
  · exact keeps_refl _

theorem keeps_ancestorView (inside : s.Inside s') (heads : List Cid) :
    Keeps (ancestorView s heads) (ancestorView s' heads) := by
  refine (keeps_findLcaMany inside heads).bind fun out => ?_
  cases out with
  | none => exact keeps_refl _
  | some ancestor =>
      exact (inside.keeps_decode _ ancestor).bind fun op => inside.keeps_decode _ _

theorem unionProllyTrees_steady (roots : List Cid) :
    Exec.Steady Store.Inside (unionProllyTrees roots : StoreM H _) := by
  refine (Exec.steady_read fun s s' inside => ?_).bind fun trees => ?_
  · exact keeps_mapM (keeps_entries inside) _
  · exact (buildTree_steady _).bind fun _ => Exec.steady_pure _

theorem buildMergeCommit_steady (headCommits : List (Option (Cid × Commit Cid))) :
    Exec.Steady Store.Inside (buildMergeCommit headCommits : StoreM H _) := by
  unfold buildMergeCommit
  split
  · exact Exec.steady_pure _
  · split
    · exact Exec.steady_pure _
    · refine (unionProllyTrees_steady _).bind fun nodes =>
        (unionProllyTrees_steady _).bind fun edges => Exec.Steady.bind ?_ fun idx =>
          (putObject_steady _).bind fun _ => Exec.steady_pure _
      unfold mergedIndexes
      split
      · exact Exec.steady_pure _
      · exact buildIndexSet_steady _ _

/-- A merge of heads writes the same operation whatever else is stored. -/
theorem writeMerge_steady (heads : List Cid) :
    Exec.Steady Store.Inside (writeMerge heads : StoreM H Cid) := by
  refine (Exec.steady_read fun s s' inside => ?_).bind fun loaded => ?_
  · exact keeps_mapM (keeps_loadHead inside) _
  refine (Exec.steady_read fun s s' inside => keeps_ancestorView inside _).bind fun ancestor => ?_
  exact (buildMergeCommit_steady _).bind fun _ => (putObject_steady _).bind fun _ =>
    putObject_steady _

/-- The same heads over a store that holds more. -/
def World.Inside (w w' : World H) : Prop :=
  w.store.Inside w'.store ∧ w'.opHeads = w.opHeads

theorem onStore_steady {α : Type} {p : StoreM H α} (steady : Exec.Steady Store.Inside p) :
    Exec.Steady World.Inside (onStore p) := by
  rintro w w' a t ⟨inside, heads⟩ ran
  obtain ⟨ran, same⟩ := returns_onStore.mp ran
  obtain ⟨s', ran', after⟩ := steady w.store w'.store a t.store inside ran
  exact ⟨{ w' with store := s' }, returns_onStore.mpr ⟨ran', rfl⟩, after, heads.trans same.symm⟩

theorem updateHeads_steady (new : Cid) (supersedes : List Cid) :
    Exec.Steady World.Inside (updateHeads new supersedes : WorldM H Unit) := by
  refine Exec.steady_update fun w w' ⟨inside, heads⟩ => ⟨rfl, inside, ?_⟩
  change OpHeads.update w'.opHeads new supersedes = OpHeads.update w.opHeads new supersedes
  rw [heads]

theorem openAt_steady (heads : List Cid) :
    Exec.Steady World.Inside (openAt heads : WorldM H _) := by
  have load : ∀ c, Exec.Steady World.Inside
      (onStore (Exec.read fun s => ReadonlyRepo.loadAt s c) : WorldM H (ReadonlyRepo Cid)) :=
    fun c => onStore_steady (Exec.steady_read fun s s' inside => keeps_loadAt inside c)
  match heads with
  | [] => exact Exec.steady_throw _
  | [head] => exact load head
  | h :: h' :: hs =>
      refine Exec.Steady.bind ?_ load
      exact (onStore_steady (writeMerge_steady _)).bind fun _ =>
        (updateHeads_steady _ _).bind fun _ => Exec.steady_pure _

/-- **What is opened does not depend on what else is stored.** -/
theorem openRepo_steady : Exec.Steady World.Inside (openRepo : WorldM H _) := by
  refine Exec.Steady.bind (Exec.steady_read fun w w' ⟨_, heads⟩ => ?_) openAt_steady
  rw [heads]
  exact keeps_refl _

end Repo

end Mnem
