/-
# Repo.Lca — ancestors and lowest common ancestors

`ancestors_inclusive` walks `Operation::parents` with a stack; the walk on
commits is the same with `Commit::parents`.  Over a set of stored objects that
is closed under parents the walk returns the ancestors exactly
(`ancestorsVia_exact`).  A lowest common ancestor is a common ancestor that is
no strict ancestor of another one, the smallest CID if there are several; where
no object is its own strict ancestor there is one (`lowest_some`).
-/
import Mnem.Repo.Snapshot
import Mnem.Theory.Reach
import Mathlib.Order.WellFounded
import Mathlib.Data.Fintype.Order

namespace Mnem.Repo

open Theory

set_option autoImplicit false
set_option linter.unusedSectionVars false

variable {Cid : Type} {H : Hashing Cid} [LinearOrder Cid]

/-! ## Ancestors -/

/-- A bound on the steps of a walk along links: one for each link in the store. -/
def walkBound (s : Store H) : Nat := 1 + (s.blocks.map fun e => e.2.links.length).sum

def visitParents (parents : Cid → Except (Error Cid) (List Cid)) (cid : Cid) :
    Except (Error Cid) (Empty ⊕ List Cid) := Sum.inr <$> parents cid

/-- All objects reachable through `parents`, with the one it starts from. -/
def ancestorsVia (s : Store H) (parents : Cid → Except (Error Cid) (List Cid)) (cid : Cid) :
    Except (Error Cid) (OrdSet Cid) :=
  match Reach.search (visitParents parents) .diverged (walkBound s) OrdMap.empty [cid] with
  | .ok (.inr seen) => .ok seen
  | .error e => .error e

def operationParents (s : Store H) (cid : Cid) : Except (Error Cid) (List Cid) :=
  Operation.parents <$> s.decodeFromStore (Operation Cid) cid

def commitParents (s : Store H) (cid : Cid) : Except (Error Cid) (List Cid) :=
  Commit.parents <$> s.decodeFromStore (Commit Cid) cid

def ancestorsInclusive (s : Store H) : Cid → Except (Error Cid) (OrdSet Cid) :=
  ancestorsVia s (operationParents s)

def commitAncestorsInclusive (s : Store H) : Cid → Except (Error Cid) (OrdSet Cid) :=
  ancestorsVia s (commitParents s)

/-! ## Lowest common ancestors -/

/-- The elements of `common` that are strict ancestors of another one. -/
def strictAncestors (ancestors : Cid → Except (Error Cid) (OrdSet Cid)) (common : OrdSet Cid) :
    Except (Error Cid) (OrdSet Cid) :=
  common.keys.foldlM (fun strict c => do
    let anc ← ancestors c
    return anc.keys.foldl (fun strict a =>
      if a ≠ c ∧ a ∈ common then OrdSet.add strict a else strict) strict) OrdMap.empty

/-- The smallest of the lowest elements of `common`. -/
def lowest (ancestors : Cid → Except (Error Cid) (OrdSet Cid)) (common : OrdSet Cid) :
    Except (Error Cid) (Option Cid) :=
  if common.entries.isEmpty then .ok none
  else do
    let strict ← strictAncestors ancestors common
    return (common.filterKeys fun c => c ∉ strict).keys.head?

/-- The lowest common ancestor of some operations. -/
def findLcaMany (s : Store H) : List Cid → Except (Error Cid) (Option Cid)
  | [] => .ok none
  | [head] => .ok (some head)
  | heads => do
      let perHead ← heads.mapM (ancestorsInclusive s)
      match perHead with
      | [] => .ok none
      | first :: rest =>
          lowest (ancestorsInclusive s) (rest.foldl (fun common anc =>
            common.filterKeys fun c => c ∈ anc) first)

def findLca (s : Store H) (left right : Cid) : Except (Error Cid) (Option Cid) :=
  findLcaMany s (if left ≤ right then [left, right] else [right, left])

/-- The lowest common ancestor of two commits. -/
def findCommitLca (s : Store H) (left right : Cid) : Except (Error Cid) (Option Cid) :=
  if left = right then .ok (some left)
  else do
    let leftAnc ← commitAncestorsInclusive s left
    let rightAnc ← commitAncestorsInclusive s right
    lowest (commitAncestorsInclusive s) (leftAnc.filterKeys fun c => c ∈ rightAnc)

/-! ## The walk is exact -/

section Exact

variable {s : Store H} {parents : Cid → Except (Error Cid) (List Cid)}

/-- `c'` is a parent of `c`. -/
def Parent (parents : Cid → Except (Error Cid) (List Cid)) (c c' : Cid) : Prop :=
  ∃ ps, parents c = .ok ps ∧ c' ∈ ps

/-- A set of stored objects that is closed under parents. -/
def ClosedUnder (s : Store H) (parents : Cid → Except (Error Cid) (List Cid)) (S : Cid → Prop) :
    Prop :=
  ∀ c, S c → ∃ ps b, parents c = .ok ps ∧ (∀ p ∈ ps, S p) ∧ s.get c = some b ∧
    ps.length ≤ b.links.length

/-- From a closed set, the walk returns exactly the ancestors. -/
theorem ancestorsVia_exact {S : Cid → Prop} (closed : ClosedUnder s parents S) {cid : Cid}
    (inside : S cid) :
    ∃ anc, ancestorsVia s parents cid = .ok anc ∧
      ∀ c, c ∈ anc ↔ Relation.ReflTransGen (Parent parents) cid c := by
  have visited : ∀ {c : Cid} {ps : List Cid}, parents c = .ok ps →
      visitParents parents c = .ok (.inr ps) := by
    intro c ps found
    rw [visitParents, found]
    rfl
  have bounded : ([cid] : List Cid).length + Reach.owed (s.blocks.map Prod.fst).toFinset
      (fun c => ((s.get c).map fun b => b.links.length).getD 0) OrdMap.empty ≤ walkBound s :=
    Nat.add_le_add_left (Reach.owed_empty_le (fun b : Block Cid => b.links.length) s.blocks) 1
  have successors : ∀ c, S c → ∃ ps, visitParents parents c = .ok (.inr ps) ∧ (∀ p ∈ ps, S p) ∧
      ps.length ≤ ((s.get c).map fun b => b.links.length).getD 0 ∧
        c ∈ (s.blocks.map Prod.fst).toFinset := by
    intro c m
    obtain ⟨ps, b, found, stays, stored, short⟩ := closed c m
    refine ⟨ps, visited found, stays, by rw [stored]; exact short, ?_⟩
    exact List.mem_toFinset.mpr (List.mem_map_of_mem (Entries.mem_of_get? stored))
  obtain ⟨anc, ran⟩ := Reach.search_succeeds Error.diverged successors (walkBound s) OrdMap.empty
    [cid] (by simpa using inside) bounded
  refine ⟨anc, ?_, fun c => ⟨fun m => ?_, fun path => ?_⟩⟩
  · rw [ancestorsVia, ran]
  · have inside_all : Reach.Closed (visitParents parents)
        fun c => S c ∧ Relation.ReflTransGen (Parent parents) cid c := by
      rintro k ⟨mk, path⟩
      obtain ⟨ps, b, found, stays, -, -⟩ := closed k mk
      exact ⟨ps, visited found, fun j mj => ⟨stays j mj, path.tail ⟨ps, found, mj⟩⟩⟩
    have started : ∀ k ∈ [cid], S k ∧ Relation.ReflTransGen (Parent parents) cid k := by
      intro k mk
      obtain rfl := List.mem_singleton.mp mk
      exact ⟨inside, .refl⟩
    exact (Reach.search_least inside_all (fun k mk => absurd mk (OrdSet.not_mem_empty k)) started
      ran c m).2
  · obtain ⟨-, started, stays⟩ := Reach.search_closed
      (fun k m => absurd m (OrdSet.not_mem_empty k)) ran
    induction path with
    | refl => exact started cid List.mem_cons_self
    | tail _ link ih =>
        obtain ⟨ps, found, member⟩ := link
        obtain ⟨ks, found', inAnc⟩ := stays _ ih
        rw [visited found] at found'
        cases found'
        exact inAnc _ member

/-- A walk that returns has found exactly the ancestors. -/
theorem mem_of_ancestorsVia {cid : Cid} {anc : OrdSet Cid} (ran : ancestorsVia s parents cid = .ok anc)
    (c : Cid) : c ∈ anc ↔ Relation.ReflTransGen (Parent parents) cid c := by
  unfold ancestorsVia at ran
  split at ran
  · rename_i seen searched
    cases ran
    obtain ⟨-, started, closed⟩ := Reach.search_closed
      (fun k m => absurd m (OrdSet.not_mem_empty k)) searched
    have found : ∀ k, k ∈ anc → ∃ ps, parents k = .ok ps ∧ ∀ p ∈ ps, p ∈ anc := by
      intro k m
      obtain ⟨ks, successors, inside⟩ := closed k m
      obtain ⟨ps, here, same⟩ := Exec.map_eq_ok.mp successors
      obtain rfl : ps = ks := Sum.inr.inj same
      exact ⟨ps, here, inside⟩
    have reached : ∀ k, Relation.ReflTransGen (Parent parents) cid k → k ∈ anc := by
      intro k path
      induction path with
      | refl => exact started cid List.mem_cons_self
      | tail _ link ih =>
          obtain ⟨ps, here, member⟩ := link
          obtain ⟨ps', here', inside⟩ := found _ ih
          obtain rfl := Except.ok.inj (here.symm.trans here')
          exact inside _ member
    have inside : Reach.Closed (visitParents parents)
        fun k => Relation.ReflTransGen (Parent parents) cid k := by
      intro k path
      obtain ⟨ps, here, -⟩ := found k (reached k path)
      refine ⟨ps, by rw [visitParents, here]; rfl, fun j m => path.tail ⟨ps, here, m⟩⟩
    refine ⟨fun m => ?_, reached c⟩
    refine Reach.search_least inside (fun k mk => absurd mk (OrdSet.not_mem_empty k)) (fun k mk => ?_)
      searched c m
    obtain rfl := List.mem_singleton.mp mk
    exact .refl
  · cases ran

end Exact

/-! ## Lowest elements -/

section Lowest

variable {ancestors : Cid → Except (Error Cid) (OrdSet Cid)} {common : OrdSet Cid}
  {ancOf : Cid → OrdSet Cid}

theorem strictAncestors_eq (walks : ∀ c ∈ common, ancestors c = .ok (ancOf c)) :
    ∃ strict, strictAncestors ancestors common = .ok strict ∧
      ∀ a, a ∈ strict ↔ a ∈ common ∧ ∃ c ∈ common, a ∈ ancOf c ∧ a ≠ c := by
  have inner : ∀ (c a : Cid) (as : List Cid) (strict : OrdSet Cid),
      a ∈ as.foldl (fun strict a =>
        if a ≠ c ∧ a ∈ common then OrdSet.add strict a else strict) strict ↔
        a ∈ strict ∨ (a ∈ as ∧ a ≠ c ∧ a ∈ common) := by
    intro c a as
    induction as with
    | nil => simp
    | cons x as ih =>
        intro strict
        rw [List.foldl_cons, ih, List.mem_cons]
        split
        · rename_i counts
          rw [OrdSet.mem_add]
          constructor
          · rintro ((rfl | h) | h)
            · exact .inr ⟨.inl rfl, counts⟩
            · exact .inl h
            · exact .inr ⟨.inr h.1, h.2⟩
          · rintro (h | ⟨rfl | h, rest⟩)
            · exact .inl (.inr h)
            · exact .inl (.inl rfl)
            · exact .inr ⟨h, rest⟩
        · rename_i skipped
          constructor
          · rintro (h | h)
            · exact .inl h
            · exact .inr ⟨.inr h.1, h.2⟩
          · rintro (h | ⟨rfl | h, rest⟩)
            · exact .inl h
            · exact absurd rest skipped
            · exact .inr ⟨h, rest⟩
  have outer : ∀ (cs : List Cid), (∀ c ∈ cs, c ∈ common) → ∀ strict : OrdSet Cid,
      ∃ out, cs.foldlM (fun strict c => (do
        let anc ← ancestors c
        return anc.keys.foldl (fun strict a =>
          if a ≠ c ∧ a ∈ common then OrdSet.add strict a else strict) strict :
          Except (Error Cid) (OrdSet Cid))) strict = .ok out ∧
        ∀ a, a ∈ out ↔ a ∈ strict ∨ (a ∈ common ∧ ∃ c ∈ cs, a ∈ ancOf c ∧ a ≠ c) := by
    intro cs
    induction cs with
    | nil => exact fun _ strict => ⟨strict, rfl, by simp⟩
    | cons c cs ih =>
        intro inside strict
        obtain ⟨out, ran, spec⟩ := ih (fun x m => inside x (List.mem_cons_of_mem _ m))
          ((ancOf c).keys.foldl (fun strict a =>
            if a ≠ c ∧ a ∈ common then OrdSet.add strict a else strict) strict)
        refine ⟨out, ?_, fun a => ?_⟩
        · rw [List.foldlM_cons, walks c (inside c List.mem_cons_self)]
          exact ran
        · rw [spec, inner, OrdSet.mem_keys]
          simp only [List.mem_cons, exists_eq_or_imp]
          tauto
  obtain ⟨strict, ran, spec⟩ := outer common.keys (fun c m => OrdSet.mem_keys.mp m) OrdMap.empty
  refine ⟨strict, ran, fun a => ?_⟩
  rw [spec]
  simp [OrdSet.mem_keys]

theorem mem_of_lowest {c : Cid} (ran : lowest ancestors common = .ok (some c)) : c ∈ common := by
  unfold lowest at ran
  split at ran
  · cases ran
  · obtain ⟨strict, -, done⟩ := Exec.bind_eq_ok.mp ran
    have first := Except.ok.inj done
    have member : c ∈ common.filterKeys fun c => c ∉ strict :=
      OrdSet.mem_keys.mp (List.mem_of_head? first)
    rw [OrdSet.mem_iff_get?, OrdMap.get?_filterKeys] at member
    split at member
    · exact OrdSet.mem_iff_get?.mpr member
    · cases member

/-- What `lowest` returns is an element that is no other's strict ancestor. -/
theorem lowest_mem (walks : ∀ c ∈ common, ancestors c = .ok (ancOf c)) {c : Cid}
    (ran : lowest ancestors common = .ok (some c)) :
    c ∈ common ∧ ∀ d ∈ common, c ∈ ancOf d → c = d := by
  unfold lowest at ran
  split at ran
  · cases ran
  · obtain ⟨strict, found, spec⟩ := strictAncestors_eq walks
    rw [found] at ran
    have first := Except.ok.inj ran
    have member : c ∈ common.filterKeys fun c => c ∉ strict :=
      OrdSet.mem_keys.mp (List.mem_of_head? first)
    rw [OrdSet.mem_iff_get?, OrdMap.get?_filterKeys] at member
    split at member
    · rename_i lowest
      have inCommon : c ∈ common := OrdSet.mem_iff_get?.mpr member
      refine ⟨inCommon, fun d m below => ?_⟩
      by_contra other
      exact of_decide_eq_true lowest ((spec c).mpr ⟨inCommon, d, m, below, other⟩)
    · cases member

/-- It is the smallest such element. -/
theorem lowest_le (walks : ∀ c ∈ common, ancestors c = .ok (ancOf c)) {c d : Cid}
    (ran : lowest ancestors common = .ok (some c)) (inCommon : d ∈ common)
    (alone : ∀ e ∈ common, d ∈ ancOf e → d = e) : c ≤ d := by
  unfold lowest at ran
  split at ran
  · cases ran
  · obtain ⟨strict, found, spec⟩ := strictAncestors_eq walks
    rw [found] at ran
    have first : (common.filterKeys fun c => c ∉ strict).keys.head? = some c := Except.ok.inj ran
    have kept : d ∈ (common.filterKeys fun c => c ∉ strict).keys := by
      rw [OrdSet.mem_keys, OrdSet.mem_iff_get?, OrdMap.get?_filterKeys, if_pos]
      · exact OrdSet.mem_iff_get?.mp inCommon
      · refine decide_eq_true fun isStrict => ?_
        obtain ⟨-, e, me, below, other⟩ := (spec d).mp isStrict
        exact other (alone e me below)
    have ascending : (common.filterKeys fun c => c ∉ strict).keys.Pairwise (· < ·) :=
      List.pairwise_map.mpr (OrdMap.ascending _)
    cases all : (common.filterKeys fun c => c ∉ strict).keys with
    | nil =>
        rw [all] at kept
        cases kept
    | cons x xs =>
        rw [all] at kept first ascending
        obtain rfl : x = c := Option.some.inj first
        rcases List.mem_cons.mp kept with rfl | later
        · exact le_refl _
        · exact le_of_lt ((List.pairwise_cons.mp ascending).1 d later)

/-- Where the strict ancestors form no cycle, a nonempty set has a lowest element. -/
theorem lowest_some (walks : ∀ c ∈ common, ancestors c = .ok (ancOf c)) {R : Cid → Cid → Prop}
    (exact : ∀ c ∈ common, ∀ a, a ∈ ancOf c ↔ Relation.ReflTransGen R c a)
    (acyclic : ∀ c ∈ common, ¬ Relation.TransGen R c c) (nonempty : ∃ c, c ∈ common) :
    ∃ c, lowest ancestors common = .ok (some c) ∧ c ∈ common := by
  let Below : {c // c ∈ common.keys} → {c // c ∈ common.keys} → Prop :=
    fun a b => Relation.TransGen R a b
  have trans : IsTrans _ Below := ⟨fun _ _ _ h h' => Relation.TransGen.trans h h'⟩
  have irrefl : Std.Irrefl Below := ⟨fun a => acyclic a.1 (OrdSet.mem_keys.mp a.2)⟩
  have wellFounded : WellFounded Below := Finite.wellFounded_of_trans_of_irrefl Below
  obtain ⟨c₀, m₀⟩ := nonempty
  obtain ⟨m, -, minimal⟩ := wellFounded.has_min Set.univ
    ⟨⟨c₀, OrdSet.mem_keys.mpr m₀⟩, trivial⟩
  have inCommon : m.1 ∈ common := OrdSet.mem_keys.mp m.2
  obtain ⟨strict, found, spec⟩ := strictAncestors_eq walks
  have kept : m.1 ∈ (common.filterKeys fun c => c ∉ strict : OrdSet Cid) := by
    rw [OrdSet.mem_iff_get?, OrdMap.get?_filterKeys, if_pos]
    · exact OrdSet.mem_iff_get?.mp inCommon
    · refine decide_eq_true fun isStrict => ?_
      obtain ⟨-, d, md, below, other⟩ := (spec m.1).mp isStrict
      rcases Relation.reflTransGen_iff_eq_or_transGen.mp ((exact d md _).mp below) with same | path
      · exact other same
      · exact minimal ⟨d, OrdSet.mem_keys.mpr md⟩ trivial path
  unfold lowest
  rw [if_neg, found]
  · cases first : (common.filterKeys fun c => c ∉ strict).keys with
    | nil =>
        rw [← OrdSet.mem_keys, first] at kept
        cases kept
    | cons c cs =>
        refine ⟨c, ?_, ?_⟩
        · change Except.ok (common.filterKeys fun c => c ∉ strict).keys.head? = _
          rw [first]
          rfl
        · have member : c ∈ (common.filterKeys fun c => c ∉ strict : OrdSet Cid) :=
            OrdSet.mem_keys.mp (by rw [first]; exact List.mem_cons_self)
          rw [OrdSet.mem_iff_get?, OrdMap.get?_filterKeys] at member
          split at member
          · exact OrdSet.mem_iff_get?.mpr member
          · cases member
  · intro empty
    have nothing : m.1 ∈ common.entries.map Prod.fst := m.2
    rw [List.isEmpty_iff.mp empty] at nothing
    cases nothing

/-- What `lowest` returns is the smallest of the elements that are no other's strict
ancestor, and nothing when there are no elements. -/
theorem lowest_exact (walks : ∀ c ∈ common, ancestors c = .ok (ancOf c)) {R : Cid → Cid → Prop}
    (exact : ∀ c ∈ common, ∀ a, a ∈ ancOf c ↔ Relation.ReflTransGen R c a)
    (acyclic : ∀ c ∈ common, ¬ Relation.TransGen R c c) :
    ∃ out, lowest ancestors common = .ok out ∧ (out = none ↔ ¬ ∃ c, c ∈ common) ∧
      ∀ c, out = some c → IsLeast {c | c ∈ common ∧ ∀ d ∈ common, ¬ Relation.TransGen R d c} c := by
  by_cases nonempty : ∃ c, c ∈ common
  · obtain ⟨c, ran, -⟩ := lowest_some walks exact acyclic nonempty
    refine ⟨some c, ran, by simpa using nonempty, ?_⟩
    rintro _ ⟨⟩
    obtain ⟨inCommon, alone⟩ := lowest_mem walks ran
    refine ⟨⟨inCommon, fun d md path => ?_⟩, fun d ⟨md, lowestD⟩ => ?_⟩
    · have same := alone d md ((exact d md c).mpr path.to_reflTransGen)
      exact acyclic d md (same ▸ path)
    · exact lowest_le walks ran md fun e me below => by
        rcases Relation.reflTransGen_iff_eq_or_transGen.mp ((exact e me d).mp below) with same | path
        · exact same
        · exact absurd path (lowestD e me)
  · refine ⟨none, ?_, by simpa using nonempty, nofun⟩
    have empty : common.entries = [] := by
      cases first : common.entries with
      | nil => rfl
      | cons e es =>
          refine absurd ⟨e.1, OrdSet.mem_keys.mp ?_⟩ nonempty
          rw [OrdMap.keys, first]
          exact List.mem_cons_self
    unfold lowest
    rw [empty]
    rfl

end Lowest

/-! ## The law of lowest common ancestors -/

section Law

variable {parents : Cid → Except (Error Cid) (List Cid)} {heads : List Cid}

/-- `c` is an ancestor of each head, or the head. -/
def CommonAncestor (parents : Cid → Except (Error Cid) (List Cid)) (heads : List Cid) (c : Cid) :
    Prop := ∀ h ∈ heads, Relation.ReflTransGen (Parent parents) h c

/-- The common ancestors that are no strict ancestor of a common ancestor. -/
def lowestCommon (parents : Cid → Except (Error Cid) (List Cid)) (heads : List Cid) : Set Cid :=
  {c | CommonAncestor parents heads c ∧
    ∀ d, CommonAncestor parents heads d → ¬ Relation.TransGen (Parent parents) d c}

/-- The smallest lowest common ancestor, none where there is no common ancestor. -/
structure IsLca (parents : Cid → Except (Error Cid) (List Cid)) (heads : List Cid)
    (out : Option Cid) : Prop where
  absent : out = none ↔ ¬ ∃ c, CommonAncestor parents heads c
  least : ∀ c, out = some c → IsLeast (lowestCommon parents heads) c

/-- A lowest common ancestor is determined by the set of heads. -/
theorem IsLca.unique {heads' : List Cid} {out out' : Option Cid} (lca : IsLca parents heads out)
    (lca' : IsLca parents heads' out') (same : ∀ h, h ∈ heads ↔ h ∈ heads') : out = out' := by
  have common : CommonAncestor parents heads = CommonAncestor parents heads' := by
    funext c
    simp only [CommonAncestor, same]
  have lowest : lowestCommon parents heads = lowestCommon parents heads' := by
    simp only [lowestCommon, common]
  have absent' := lca'.absent
  rw [← common, ← lca.absent] at absent'
  cases out with
  | none => exact (absent'.mpr rfl).symm
  | some c =>
      cases out' with
      | none => exact absent'.mp rfl
      | some c' =>
          have least' := lca'.least c' rfl
          rw [← lowest] at least'
          rw [(lca.least c rfl).unique least']

/-- A stored operation DAG, or commit DAG: stored objects whose parents are among them,
none of them its own strict ancestor. -/
structure Dag (s : Store H) (parents : Cid → Except (Error Cid) (List Cid)) (S : Cid → Prop) :
    Prop where
  closed : ClosedUnder s parents S
  acyclic : ∀ c, S c → ¬ Relation.TransGen (Parent parents) c c

variable {s : Store H} {S : Cid → Prop}

theorem Dag.ancestor (dag : Dag s parents S) {c a : Cid} (inside : S c)
    (path : Relation.ReflTransGen (Parent parents) c a) : S a := by
  induction path with
  | refl => exact inside
  | tail _ link ih =>
      obtain ⟨ps, found, member⟩ := link
      obtain ⟨ps', _, found', stays, -, -⟩ := dag.closed _ ih
      rw [found] at found'
      cases found'
      exact stays _ member

/-- The lowest element of the common ancestors. -/
theorem Dag.lowest_isLca (dag : Dag s parents S) {common : OrdSet Cid} (nonempty : heads ≠ [])
    (inside : ∀ h ∈ heads, S h) (spec : ∀ c, c ∈ common ↔ CommonAncestor parents heads c) :
    ∃ out, lowest (ancestorsVia s parents) common = .ok out ∧ IsLca parents heads out := by
  have inDag : ∀ c ∈ common, S c := by
    intro c m
    obtain ⟨h, mh⟩ := List.exists_mem_of_ne_nil _ nonempty
    exact dag.ancestor (inside h mh) ((spec c).mp m h mh)
  have walk : ∀ c, ∃ anc, c ∈ common → ancestorsVia s parents c = .ok anc ∧
      ∀ a, a ∈ anc ↔ Relation.ReflTransGen (Parent parents) c a := by
    intro c
    by_cases m : c ∈ common
    · obtain ⟨anc, ran, exact⟩ := ancestorsVia_exact dag.closed (inDag c m)
      exact ⟨anc, fun _ => ⟨ran, exact⟩⟩
    · exact ⟨OrdMap.empty, fun m' => absurd m' m⟩
  choose ancOf walks using walk
  obtain ⟨out, ran, absent, least⟩ := lowest_exact (fun c m => (walks c m).1)
    (fun c m => (walks c m).2) fun c m => dag.acyclic c (inDag c m)
  simp only [spec] at absent least
  exact ⟨out, ran, absent, least⟩

/-- An object alone is its own lowest common ancestor. -/
theorem Dag.singleton_isLca (dag : Dag s parents S) {h : Cid} (inside : S h)
    (same : ∀ x, x ∈ heads ↔ x = h) : IsLca parents heads (some h) := by
  have common : ∀ c, CommonAncestor parents heads c ↔
      Relation.ReflTransGen (Parent parents) h c := by
    intro c
    simp [CommonAncestor, same]
  refine ⟨by simpa [common] using ⟨h, .refl⟩, ?_⟩
  rintro _ ⟨⟩
  refine ⟨⟨(common h).mpr .refl, fun d md path => ?_⟩, fun d ⟨md, lowestD⟩ => ?_⟩
  · exact dag.acyclic h inside (Relation.TransGen.trans_right ((common d).mp md) path)
  · rcases Relation.reflTransGen_iff_eq_or_transGen.mp ((common d).mp md) with same | path
    · exact le_of_eq same.symm
    · exact absurd path (lowestD h ((common h).mpr .refl))

/-- Keeping what is in every one of some sets. -/
theorem mem_foldl_filterKeys {first : OrdSet Cid} {rest : List (OrdSet Cid)} {c : Cid} :
    c ∈ (rest.foldl (fun common anc => common.filterKeys fun c => c ∈ anc) first : OrdSet Cid) ↔
      c ∈ first ∧ ∀ anc ∈ rest, c ∈ anc := by
  induction rest generalizing first with
  | nil => simp
  | cons anc rest ih =>
      rw [List.foldl_cons, ih, OrdSet.mem_filterKeys, decide_eq_true_eq, List.forall_mem_cons,
        and_assoc]

/-- **`find_lca_many` is exact** over every stored operation DAG. -/
theorem findLcaMany_isLca (dag : Dag s (operationParents s) S) (nonempty : heads ≠ [])
    (inside : ∀ h ∈ heads, S h) :
    ∃ out, findLcaMany s heads = .ok out ∧ IsLca (operationParents s) heads out := by
  match heads, nonempty with
  | [h], _ => exact ⟨some h, rfl, dag.singleton_isLca (inside h List.mem_cons_self) (by simp)⟩
  | h :: h' :: hs, nonempty =>
      have walks : ∀ x ∈ h :: h' :: hs, ∃ anc, ancestorsInclusive s x = .ok anc ∧ ∀ a, a ∈ anc ↔
          Relation.ReflTransGen (Parent (operationParents s)) x a :=
        fun x m => ancestorsVia_exact dag.closed (inside x m)
      obtain ⟨perHead, ran, each⟩ := Exec.exists_mapM walks
      cases each with
      | @cons _ first _ rest here others =>
          have spec : ∀ c, c ∈ (rest.foldl (fun common anc =>
              common.filterKeys fun c => c ∈ anc) first : OrdSet Cid) ↔
              CommonAncestor (operationParents s) (h :: h' :: hs) c := by
            intro c
            rw [mem_foldl_filterKeys, here, CommonAncestor, List.forall_mem_cons]
            refine and_congr_right fun _ => ⟨fun all x m => ?_, fun all anc m => ?_⟩
            · obtain ⟨anc, inRest, exact⟩ := Exec.exists_right_of_forall₂ others m
              exact (exact c).mp (all anc inRest)
            · obtain ⟨x, inHeads, exact⟩ := Exec.exists_left_of_forall₂ others m
              exact (exact c).mpr (all x inHeads)
          obtain ⟨out, found, isLca⟩ := dag.lowest_isLca nonempty inside spec
          refine ⟨out, ?_, isLca⟩
          unfold findLcaMany
          change (List.mapM (ancestorsInclusive s) (h :: h' :: hs) >>= _) = _
          rw [ran]
          exact found

/-- **`find_commit_lca` is exact** over every stored commit DAG. -/
theorem findCommitLca_isLca (dag : Dag s (commitParents s) S) {left right : Cid}
    (inLeft : S left) (inRight : S right) :
    ∃ out, findCommitLca s left right = .ok out ∧
      IsLca (commitParents s) [left, right] out := by
  unfold findCommitLca
  by_cases same : left = right
  · rw [if_pos same]
    exact ⟨some left, rfl, dag.singleton_isLca inLeft (by simp [same])⟩
  · rw [if_neg same]
    obtain ⟨leftAnc, leftRan, leftExact⟩ := ancestorsVia_exact dag.closed inLeft
    obtain ⟨rightAnc, rightRan, rightExact⟩ := ancestorsVia_exact dag.closed inRight
    have spec : ∀ c, c ∈ (leftAnc.filterKeys fun c => c ∈ rightAnc : OrdSet Cid) ↔
        CommonAncestor (commitParents s) [left, right] c := by
      intro c
      rw [OrdSet.mem_filterKeys, decide_eq_true_eq, leftExact, rightExact]
      simp only [CommonAncestor, List.mem_cons, List.not_mem_nil, or_false, forall_eq_or_imp,
        forall_eq]
    obtain ⟨out, found, isLca⟩ := dag.lowest_isLca (by simp) (by simp [inLeft, inRight]) spec
    refine ⟨out, ?_, isLca⟩
    rw [commitAncestorsInclusive, leftRan]
    change (commitAncestorsInclusive s right >>= _) = _
    rw [commitAncestorsInclusive, rightRan]
    exact found

/-- Where one of two is an ancestor of the other, it is the lowest common ancestor. -/
theorem IsLca.eq_of_ancestor (dag : Dag s parents S) {upper lower : Cid} {out : Option Cid}
    (lca : IsLca parents heads out) (pair : ∀ h, h ∈ heads ↔ h = upper ∨ h = lower)
    (inside : S lower) (path : Relation.ReflTransGen (Parent parents) upper lower) :
    out = some lower := by
  have common : ∀ c, CommonAncestor parents heads c ↔
      Relation.ReflTransGen (Parent parents) lower c := by
    intro c
    constructor
    · exact fun all => all lower ((pair lower).mpr (.inr rfl))
    · rintro below h m
      rcases (pair h).mp m with rfl | rfl
      · exact path.trans below
      · exact below
  have alone : IsLca parents [lower] (some lower) := dag.singleton_isLca inside (by simp)
  have same : CommonAncestor parents heads = CommonAncestor parents [lower] := by
    funext c
    rw [common]
    simp [CommonAncestor]
  have lowest : lowestCommon parents [lower] = lowestCommon parents heads := by
    simp only [lowestCommon, same]
  have moved : IsLca parents [lower] out := by
    refine ⟨?_, ?_⟩
    · rw [← same]
      exact lca.absent
    · rw [lowest]
      exact lca.least
  exact moved.unique alone fun _ => Iff.rfl

end Law

/-- The common ancestor that is found is one, whatever else is stored. -/
theorem findCommitLca_common {s : Store H} {left right lca : Cid}
    (found : findCommitLca s left right = .ok (some lca)) :
    Relation.ReflTransGen (Parent (commitParents s)) left lca ∧
      Relation.ReflTransGen (Parent (commitParents s)) right lca := by
  unfold findCommitLca at found
  split at found
  · rename_i same
    cases found
    exact ⟨.refl, same ▸ .refl⟩
  · obtain ⟨leftAnc, walkLeft, found⟩ := Exec.bind_eq_ok.mp found
    obtain ⟨rightAnc, walkRight, found⟩ := Exec.bind_eq_ok.mp found
    have member := mem_of_lowest found
    rw [OrdSet.mem_iff_get?, OrdMap.get?_filterKeys] at member
    split at member
    · rename_i inRight
      exact ⟨(mem_of_ancestorsVia walkLeft lca).mp (OrdSet.mem_iff_get?.mpr member),
        (mem_of_ancestorsVia walkRight lca).mp (of_decide_eq_true inRight)⟩
    · cases member

end Mnem.Repo
