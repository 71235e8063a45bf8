/-
# Repo.MergeView — what a merge of views keeps

A ref is merged by signed counting: each head adds its target, the base is
taken away once less than there are heads, and what is left over is the result.
Where base and heads are targets or absent, the counts have a closed form
(`net`), and from it the result does (`mergeOneRef_law`).

Every other component of a view is merged by asking the heads in some order
and taking the first answer; heads that did not touch a component answer with
the ancestor's value (`mergeViews_law`).
-/
import Mnem.Repo.Merge

namespace Mnem.Repo

open Theory

set_option autoImplicit false
set_option linter.unusedSectionVars false

variable {Cid : Type} [LinearOrder Cid]

/-! ## Counting -/

section Counting

/-- The count of a CID after signed contributions. -/
theorem getD_countAll (counts : OrdMap Cid Int) (contributions : List (Cid × Int)) (c : Cid) :
    ((countAll counts contributions).get? c).getD 0 =
      (counts.get? c).getD 0 + (contributions.map fun e => if e.1 = c then e.2 else 0).sum := by
  induction contributions generalizing counts with
  | nil => simp [countAll]
  | cons e contributions ih =>
      have step : countAll counts (e :: contributions) =
          countAll (counts.modify e.1 fun old => old.getD 0 + e.2) contributions := rfl
      rw [step, ih, OrdMap.get?_modify, List.map_cons, List.sum_cons]
      by_cases here : e.1 = c
      · subst here
        simp [add_assoc]
      · simp [here]

/-- A target, or nothing. -/
def targetOf (t : Option Cid) : Option (RefTarget Cid) := t.map .normal

theorem targetOf_injective : Function.Injective (targetOf : Option Cid → _) :=
  Option.map_injective fun _ _ h => RefTarget.normal.inj h

@[simp] theorem bag_targetOf (t : Option Cid) : bag (targetOf t) = t.toList.map (·, 1) := by
  cases t <;> rfl

theorem getD_countAll_heads (counts : OrdMap Cid Int) (hs : List (Option Cid)) (c : Cid) :
    (((hs.map targetOf).foldl (fun counts h => countAll counts (bag h)) counts).get? c).getD 0 =
      (counts.get? c).getD 0 + hs.count (some c) := by
  induction hs generalizing counts with
  | nil => simp
  | cons h hs ih =>
      rw [List.map_cons, List.foldl_cons, ih, getD_countAll, bag_targetOf, List.count_cons]
      cases h with
      | none => simp
      | some t =>
          by_cases here : t = c
          · subst here
            simp
            omega
          · simp [here]

/-- The signed count of a CID: its heads, less the base's share. -/
def net (b : Option Cid) (hs : List (Option Cid)) (c : Cid) : Int :=
  hs.count (some c) - if b = some c then (hs.length : Int) - 1 else 0

/-- The counts from which a ref is merged. -/
def refCounts (b : Option Cid) (hs : List (Option Cid)) : OrdMap Cid Int :=
  countAll ((hs.map targetOf).foldl (fun counts h => countAll counts (bag h)) OrdMap.empty)
    ((bag (targetOf b)).map fun c => (c.1, -(c.2 * (((hs.map targetOf).length : Int) - 1))))

theorem getD_refCounts (b : Option Cid) (hs : List (Option Cid)) (c : Cid) :
    ((refCounts b hs).get? c).getD 0 = net b hs c := by
  rw [refCounts, getD_countAll, getD_countAll_heads, net]
  cases b with
  | none => simp
  | some t =>
      by_cases here : t = c
      · subst here
        simp
        omega
      · simp [here]

/-- The CIDs whose count satisfies `p`, ascending. -/
def chosen (b : Option Cid) (hs : List (Option Cid)) (p : Int → Bool) : List Cid :=
  ((refCounts b hs).entries.filter fun e => p e.2).map Prod.fst

theorem mem_chosen {b : Option Cid} {hs : List (Option Cid)} {p : Int → Bool} (zero : p 0 = false)
    {c : Cid} : c ∈ chosen b hs p ↔ p (net b hs c) = true := by
  rw [← getD_refCounts, chosen, List.mem_map]
  constructor
  · rintro ⟨⟨k, n⟩, m, rfl⟩
    obtain ⟨inCounts, holds⟩ := List.mem_filter.mp m
    rw [(OrdMap.get?_eq_some_iff _).mpr inCounts]
    exact holds
  · intro holds
    cases found : (refCounts b hs).get? c with
    | none =>
        rw [found] at holds
        change p 0 = true at holds
        rw [zero] at holds
        cases holds
    | some n =>
        rw [found] at holds
        exact ⟨(c, n), List.mem_filter.mpr ⟨(OrdMap.get?_eq_some_iff _).mp found, holds⟩, rfl⟩

theorem chosen_ascending (b : Option Cid) (hs : List (Option Cid)) (p : Int → Bool) :
    (chosen b hs p).Pairwise (· < ·) :=
  List.pairwise_map.mpr ((refCounts b hs).ascending.filter _)

/-- Ascending lists with the same members are equal. -/
theorem eq_of_ascending {as bs : List Cid} (asc : as.Pairwise (· < ·)) (asc' : bs.Pairwise (· < ·))
    (same : ∀ c, c ∈ as ↔ c ∈ bs) : as = bs := by
  have nodup : ∀ {l : List Cid}, l.Pairwise (· < ·) → l.Nodup := fun asc =>
    asc.imp fun h => ne_of_lt h
  refine List.Perm.eq_of_pairwise (fun a b _ _ h h' => absurd h (lt_asymm h')) asc asc' ?_
  exact (List.perm_ext_iff_of_nodup (nodup asc) (nodup asc')).mpr same

end Counting

/-! ## Refs -/

section Refs

variable {b : Option Cid} {hs : List (Option Cid)}

/-- The heads that differ from the base. -/
def moved (b : Option Cid) (hs : List (Option Cid)) : Nat := hs.countP fun h => h ≠ b

theorem moved_pos_iff : 0 < moved b hs ↔ ∃ h ∈ hs, h ≠ b := by
  simp [moved, List.countP_pos_iff]

theorem count_add_moved (b : Option Cid) (hs : List (Option Cid)) :
    hs.count b + moved b hs = hs.length := by
  have split := List.length_eq_countP_add_countP (fun h : Option Cid => h == b) (l := hs)
  rw [split, List.count, moved]
  congr 1
  exact List.countP_congr fun h _ => by simp

/-- Where some head moved, the targets left over are the new ones. -/
theorem mem_adds_iff (some_moved : ∃ h ∈ hs, h ≠ b) {c : Cid} :
    c ∈ chosen b hs (fun n => n > 0) ↔ some c ∈ hs ∧ some c ≠ b := by
  rw [mem_chosen (by decide), net, decide_eq_true_eq]
  have all := count_add_moved b hs
  have pos := moved_pos_iff.mpr some_moved
  by_cases base : b = some c
  · subst base
    simp only [if_true, ne_eq, not_true_eq_false, and_false, iff_false]
    omega
  · rw [if_neg base, ← List.count_pos_iff (a := some c)]
    constructor
    · intro h
      exact ⟨by omega, Ne.symm base⟩
    · rintro ⟨h, -⟩
      omega

/-- The base is taken away for good when two heads moved. -/
theorem mem_removes_iff {c : Cid} :
    c ∈ chosen b hs (fun n => n < 0) ↔ b = some c ∧ 2 ≤ moved b hs := by
  rw [mem_chosen (by decide), net, decide_eq_true_eq]
  have all := count_add_moved b hs
  by_cases base : b = some c
  · subst base
    simp only [if_true, true_and]
    omega
  · simp only [base, if_false, false_and, iff_false]
    omega

theorem removes_eq : chosen b hs (fun n => n < 0) = if 2 ≤ moved b hs then b.toList else [] := by
  refine eq_of_ascending (chosen_ascending _ _ _) ?_ fun c => ?_
  · split
    · cases b <;> simp
    · exact .nil
  · rw [mem_removes_iff]
    split
    · rename_i two
      simp [two]
    · rename_i few
      simp [few]

/-- The result of the counts. -/
def collapse (adds removes : List Cid) : Option (RefTarget Cid) :=
  match adds, removes with
  | [], [] => none
  | [target], [] => some (.normal target)
  | adds, removes => some (.conflicted adds removes)

theorem collapse_of_removes (adds : List Cid) {removes : List Cid} (some_removed : removes ≠ []) :
    collapse adds removes = some (.conflicted adds removes) := by
  unfold collapse
  split
  · exact absurd rfl some_removed
  · exact absurd rfl some_removed
  · rfl

theorem collapse_of_two {c d : Cid} {adds : List Cid} (mc : c ∈ adds) (md : d ∈ adds) (apart : c ≠ d)
    (removes : List Cid) : collapse adds removes = some (.conflicted adds removes) := by
  unfold collapse
  split
  · cases mc
  · rw [List.mem_singleton] at mc md
    exact absurd (mc.trans md.symm) apart
  · rfl

theorem mergeOneRef_unmoved (unmoved : ∀ h ∈ hs, h = b) :
    mergeOneRef (targetOf b) (hs.map targetOf) = targetOf b := by
  unfold mergeOneRef
  rw [if_pos]
  simp only [List.all_map, List.all_eq_true, Function.comp_apply, decide_eq_true_eq]
  exact fun h m => congrArg targetOf (unmoved h m)

theorem mergeOneRef_agree {v : Option Cid} (member : v ∈ hs) (agree : ∀ h ∈ hs, h = v) :
    mergeOneRef (targetOf b) (hs.map targetOf) = targetOf v := by
  by_cases same : v = b
  · subst same
    exact mergeOneRef_unmoved agree
  · unfold mergeOneRef
    rw [if_neg]
    · cases hs with
      | nil => cases member
      | cons first rest =>
          have head : first = v := agree first List.mem_cons_self
          subst head
          change (if (rest.map targetOf).all (fun h => h = targetOf first) then targetOf first
            else _) = _
          rw [if_pos]
          simp only [List.all_map, List.all_eq_true, Function.comp_apply, decide_eq_true_eq]
          exact fun h m => congrArg targetOf (agree h (List.mem_cons_of_mem _ m))
    · simp only [List.all_map, List.all_eq_true, Function.comp_apply, decide_eq_true_eq]
      exact fun all => same (targetOf_injective (all v member))

theorem mergeOneRef_counted (some_moved : ∃ h ∈ hs, h ≠ b)
    (disagree : ∃ h ∈ hs, ∃ h' ∈ hs, h ≠ h') :
    mergeOneRef (targetOf b) (hs.map targetOf) =
      collapse (chosen b hs fun n => n > 0) (chosen b hs fun n => n < 0) := by
  unfold mergeOneRef
  rw [if_neg]
  · cases hs with
    | nil =>
        obtain ⟨h, m, -⟩ := some_moved
        cases m
    | cons first rest =>
        change (if (rest.map targetOf).all (fun h => h = targetOf first) then targetOf first
          else _) = _
        rw [if_neg]
        · rfl
        · simp only [List.all_map, List.all_eq_true, Function.comp_apply, decide_eq_true_eq]
          intro all
          have one : ∀ h ∈ first :: rest, h = first := by
            intro h m
            rcases List.mem_cons.mp m with rfl | later
            · rfl
            · exact targetOf_injective (all h later)
          obtain ⟨h, m, h', m', apart⟩ := disagree
          exact apart ((one h m).trans (one h' m').symm)
  · simp only [List.all_map, List.all_eq_true, Function.comp_apply, decide_eq_true_eq]
    obtain ⟨h, m, other⟩ := some_moved
    exact fun all => other (targetOf_injective (all h m))

/-- The moved heads agree on `v`. -/
theorem mergeOneRef_one_move {v : Option Cid} (member : v ∈ hs) (moves : v ≠ b)
    (agree : ∀ h ∈ hs, h ≠ b → h = v) :
    mergeOneRef (targetOf b) (hs.map targetOf) =
      if b = none ∨ moved b hs = 1 ∨ moved b hs = hs.length then targetOf v
      else some (.conflicted v.toList b.toList) := by
  have all := count_add_moved b hs
  by_cases every : ∀ h ∈ hs, h ≠ b
  · have stays : hs.count b = 0 := List.count_eq_zero.mpr fun m => every b m rfl
    rw [if_pos (.inr (.inr (by omega)))]
    exact mergeOneRef_agree member fun h m => agree h m (every h m)
  · push Not at every
    obtain ⟨h, m, rfl⟩ := every
    have stays : 0 < hs.count h := List.count_pos_iff.mpr m
    have adds : (chosen h hs fun n => n > 0) = v.toList := by
      refine eq_of_ascending (chosen_ascending _ _ _) (by cases v <;> simp) fun c => ?_
      rw [mem_adds_iff ⟨v, member, moves⟩, Option.mem_toList]
      constructor
      · rintro ⟨mc, other⟩
        exact (agree _ mc other).symm
      · rintro rfl
        exact ⟨member, moves⟩
    rw [mergeOneRef_counted ⟨v, member, moves⟩ ⟨v, member, h, m, moves⟩, adds, removes_eq]
    have some_moved := moved_pos_iff.mpr ⟨v, member, moves⟩
    by_cases two : 2 ≤ moved h hs
    · rw [if_pos two]
      cases h with
      | none =>
          rw [if_pos (.inl rfl)]
          cases v with
          | none => exact absurd rfl moves
          | some t => rfl
      | some t =>
          rw [if_neg (by simp; omega), collapse_of_removes _ (by simp)]
    · rw [if_neg two, if_pos (.inr (.inl (by omega)))]
      cases v <;> rfl

/-- Two moved heads disagree. -/
theorem mergeOneRef_two_moves {h h' : Option Cid} (m : h ∈ hs) (m' : h' ∈ hs) (moves : h ≠ b)
    (moves' : h' ≠ b) (apart : h ≠ h') :
    mergeOneRef (targetOf b) (hs.map targetOf) =
      some (.conflicted (chosen b hs fun n => n > 0) b.toList) := by
  have two : 2 ≤ moved b hs := by
    have pair : [h, h'].Nodup := by simpa using apart
    have inside : [h, h'] ⊆ hs.filter fun h => h ≠ b := by
      intro x mx
      simp only [List.mem_cons, List.not_mem_nil, or_false] at mx
      rcases mx with rfl | rfl
      · exact List.mem_filter.mpr ⟨m, by simpa using moves⟩
      · exact List.mem_filter.mpr ⟨m', by simpa using moves'⟩
    have short := pair.length_le_of_subset inside
    rwa [← List.countP_eq_length_filter] at short
  rw [mergeOneRef_counted ⟨h, m, moves⟩ ⟨h, m, h', m', apart⟩, removes_eq, if_pos two]
  cases b with
  | some t => exact collapse_of_removes _ (by simp)
  | none =>
      obtain ⟨c, rfl⟩ := Option.ne_none_iff_exists'.mp moves
      obtain ⟨d, rfl⟩ := Option.ne_none_iff_exists'.mp moves'
      exact collapse_of_two ((mem_adds_iff ⟨_, m, moves⟩).mpr ⟨m, moves⟩)
        ((mem_adds_iff ⟨_, m, moves⟩).mpr ⟨m', moves'⟩) (fun same => apart (congrArg some same)) _

theorem chosen_perm {hs' : List (Option Cid)} (perm : hs.Perm hs') {p : Int → Bool}
    (zero : p 0 = false) : chosen b hs p = chosen b hs' p := by
  refine eq_of_ascending (chosen_ascending _ _ _) (chosen_ascending _ _ _) fun c => ?_
  rw [mem_chosen zero, mem_chosen zero, net, net, perm.count_eq, perm.length_eq]

/-- The order of the heads does not matter. -/
theorem mergeOneRef_perm {hs' : List (Option Cid)} (perm : hs.Perm hs') :
    mergeOneRef (targetOf b) (hs.map targetOf) = mergeOneRef (targetOf b) (hs'.map targetOf) := by
  by_cases unmoved : ∀ h ∈ hs, h = b
  · rw [mergeOneRef_unmoved unmoved,
      mergeOneRef_unmoved fun h m => unmoved h (perm.mem_iff.mpr m)]
  · push Not at unmoved
    obtain ⟨h, m, moves⟩ := unmoved
    by_cases agree : ∀ h' ∈ hs, h' = h
    · rw [mergeOneRef_agree m agree,
        mergeOneRef_agree (perm.mem_iff.mp m) fun h' m' => agree h' (perm.mem_iff.mpr m')]
    · push Not at agree
      obtain ⟨h', m', apart⟩ := agree
      rw [mergeOneRef_counted ⟨h, m, moves⟩ ⟨h', m', h, m, apart⟩,
        mergeOneRef_counted ⟨h, perm.mem_iff.mp m, moves⟩
          ⟨h', perm.mem_iff.mp m', h, perm.mem_iff.mp m, apart⟩,
        chosen_perm perm (by decide), chosen_perm perm (by decide)]

theorem conflicted_of_collapse {adds removes as rs : List Cid}
    (result : collapse as rs = some (.conflicted adds removes)) :
    as = adds ∧ rs = removes ∧ ¬ (adds = [] ∧ removes = []) := by
  unfold collapse at result
  split at result
  · cases result
  · cases result
  · rename_i notEmpty _
    cases result
    exact ⟨rfl, rfl, fun h => notEmpty h.1 h.2⟩

/-- A conflicted result has something in it, and nothing in both of its lists. -/
theorem mergeOneRef_conflicted {adds removes : List Cid}
    (result : mergeOneRef (targetOf b) (hs.map targetOf) = some (.conflicted adds removes)) :
    ¬ (adds = [] ∧ removes = []) ∧ ∀ c ∈ adds, c ∉ removes := by
  have notTarget : ∀ v : Option Cid, targetOf v ≠ some (.conflicted adds removes) := by
    intro v
    cases v <;> simp [targetOf]
  by_cases unmoved : ∀ h ∈ hs, h = b
  · rw [mergeOneRef_unmoved unmoved] at result
    exact absurd result (notTarget b)
  · push Not at unmoved
    obtain ⟨h, m, moves⟩ := unmoved
    by_cases agree : ∀ h' ∈ hs, h' = h
    · rw [mergeOneRef_agree m agree] at result
      exact absurd result (notTarget h)
    · push Not at agree
      obtain ⟨h', m', apart⟩ := agree
      rw [mergeOneRef_counted ⟨h, m, moves⟩ ⟨h', m', h, m, apart⟩] at result
      obtain ⟨rfl, rfl, some_left⟩ := conflicted_of_collapse result
      refine ⟨some_left, fun c added removed => ?_⟩
      exact ((mem_adds_iff ⟨h, m, moves⟩).mp added).2 (mem_removes_iff.mp removed).1.symm

/-- **The merge of a ref.** Base and heads are targets or absent. Where no head moved the
base stays; where the moved heads agree their value is taken, if the base is absent, one
head moved or all did, and conflicts with the base otherwise; moved heads that disagree
leave a conflict of exactly the new targets. -/
theorem mergeOneRef_law (b : Option Cid) (hs : List (Option Cid)) :
    ((∀ h ∈ hs, h = b) → mergeOneRef (targetOf b) (hs.map targetOf) = targetOf b) ∧
    (∀ v ∈ hs, v ≠ b → (∀ h ∈ hs, h ≠ b → h = v) →
      mergeOneRef (targetOf b) (hs.map targetOf) =
        if b = none ∨ moved b hs = 1 ∨ moved b hs = hs.length then targetOf v
        else some (.conflicted v.toList b.toList)) ∧
    (∀ h ∈ hs, ∀ h' ∈ hs, h ≠ b → h' ≠ b → h ≠ h' → ∃ adds,
      mergeOneRef (targetOf b) (hs.map targetOf) = some (.conflicted adds b.toList) ∧
        adds.Pairwise (· < ·) ∧ ∀ c, c ∈ adds ↔ some c ∈ hs ∧ some c ≠ b) ∧
    (∀ hs', hs.Perm hs' → mergeOneRef (targetOf b) (hs'.map targetOf) =
      mergeOneRef (targetOf b) (hs.map targetOf)) ∧
    ∀ adds removes,
      mergeOneRef (targetOf b) (hs.map targetOf) = some (.conflicted adds removes) →
        ¬ (adds = [] ∧ removes = []) ∧ ∀ c ∈ adds, c ∉ removes :=
  ⟨mergeOneRef_unmoved, fun _ member moves agree => mergeOneRef_one_move member moves agree,
    fun h m _ m' moves moves' apart => ⟨_, mergeOneRef_two_moves m m' moves moves' apart,
      chosen_ascending _ _ _, fun _ => mem_adds_iff ⟨h, m, moves⟩⟩,
    fun _ perm => (mergeOneRef_perm perm).symm, fun _ _ => mergeOneRef_conflicted⟩

/-- Two of three heads make the same move, or delete the ref. -/
theorem mergeOneRef_partial_agreement :
    mergeOneRef (targetOf (some 0)) ([some 1, some 1, some 0].map targetOf) =
        some (.conflicted [1] [(0 : ℕ)]) ∧
      mergeOneRef (targetOf (some 0)) ([none, none, some 0].map targetOf) =
        some (.conflicted [] [(0 : ℕ)]) := by
  decide

end Refs

/-! ## The other components of a view -/

section Components

/-- A part of a view that is merged on its own. -/
inductive Component where
  | tombstone (id : NodeId)
  | extra (key : String)
  | remoteRefs
  | wcCommit

/-- What a view can have in a component. -/
inductive Part (Cid : Type) where
  | tombstone (t : Tombstone)
  | extra (value : Ipld Cid)
  | remoteRefs (refs : OrdMap String (OrdMap String (RefTarget Cid)))
  | wcCommit (target : Cid)

/-- What a view has in a component. -/
def Component.part (c : Component) (v : View Cid) : Option (Part Cid) :=
  match c with
  | .tombstone id => (v.tombstones.get? id).map .tombstone
  | .extra key => (v.extra.get? key).map .extra
  | .remoteRefs => v.remoteRefs.map .remoteRefs
  | .wcCommit => v.wcCommit.map .wcCommit

/-- The heads in the order in which a component asks them: the first that has something
decides. -/
def Component.asked {α : Type} (c : Component) (heads : List α) : List α :=
  match c with
  | .tombstone _ | .extra _ => heads.reverse
  | .remoteRefs | .wcCommit => heads

/-- Overwriting in order: the last that has an entry decides it. -/
theorem get?_foldl_insertAll {K V α : Type} [LinearOrder K] (f : α → OrdMap K V) (xs : List α)
    (m : OrdMap K V) (k : K) :
    (xs.foldl (fun m x => m.insertAll (f x).entries) m).get? k =
      (xs.reverse.findSome? fun x => (f x).get? k).or (m.get? k) := by
  induction xs generalizing m with
  | nil => rfl
  | cons x xs ih =>
      rw [List.foldl_cons, ih, OrdMap.get?_insertAll_entries, List.reverse_cons,
        List.findSome?_append, List.findSome?_singleton, Option.or_assoc]

theorem findSome?_map {α β γ : Type} (f : α → Option β) (g : β → γ) (xs : List α) :
    (xs.findSome? fun x => (f x).map g) = (xs.findSome? f).map g := by
  induction xs with
  | nil => rfl
  | cons x xs ih =>
      rw [List.findSome?_cons, List.findSome?_cons]
      cases f x with
      | none => exact ih
      | some y => rfl

/-- Every component takes the first answer, and the ancestor's if there is none. -/
theorem part_mergeViews (c : Component) (ancestor : View Cid) (heads : List (View Cid)) :
    c.part (mergeViews ancestor heads) =
      ((c.asked heads).findSome? c.part).or (c.part ancestor) := by
  cases c with
  | tombstone id =>
      change ((mergeViews ancestor heads).tombstones.get? id).map Part.tombstone =
        (heads.reverse.findSome? fun v : View Cid => (v.tombstones.get? id).map Part.tombstone).or _
      rw [mergeViews, get?_foldl_insertAll View.tombstones, findSome?_map, Option.map_or]
      rfl
  | extra key =>
      change ((mergeViews ancestor heads).extra.get? key).map Part.extra =
        (heads.reverse.findSome? fun v : View Cid => (v.extra.get? key).map Part.extra).or _
      rw [mergeViews, get?_foldl_insertAll View.extra, findSome?_map, Option.map_or]
      rfl
  | remoteRefs =>
      change (mergeViews ancestor heads).remoteRefs.map Part.remoteRefs =
        (heads.findSome? fun v : View Cid => v.remoteRefs.map Part.remoteRefs).or _
      rw [mergeViews, findSome?_map, Option.map_or]
      rfl
  | wcCommit =>
      change (mergeViews ancestor heads).wcCommit.map Part.wcCommit =
        (heads.findSome? fun v : View Cid => v.wcCommit.map Part.wcCommit).or _
      rw [mergeViews, findSome?_map, Option.map_or]
      rfl

theorem mem_asked {α : Type} {c : Component} {heads : List α} {h : α} :
    h ∈ c.asked heads ↔ h ∈ heads := by
  cases c <;> simp [Component.asked]

theorem findSome?_const {α β : Type} {f : α → Option β} {old : Option β} {xs : List α}
    (same : ∀ x ∈ xs, f x = old) : (xs.findSome? f).or old = old := by
  induction xs with
  | nil => rfl
  | cons x xs ih =>
      rw [List.findSome?_cons, same x List.mem_cons_self]
      cases old with
      | none => exact ih fun y m => same y (List.mem_cons_of_mem _ m)
      | some v => rfl

/-- Where no head differs from the ancestor, neither does the merge. -/
theorem part_mergeViews_untouched {c : Component} {ancestor : View Cid} {heads : List (View Cid)}
    (same : ∀ h ∈ heads, c.part h = c.part ancestor) :
    c.part (mergeViews ancestor heads) = c.part ancestor := by
  rw [part_mergeViews]
  exact findSome?_const fun h m => same h (mem_asked.mp m)

/-- What one head added is kept. -/
theorem part_mergeViews_added {c : Component} {ancestor h : View Cid} {heads : List (View Cid)}
    (member : h ∈ heads) (absent : c.part ancestor = none)
    (others : ∀ g ∈ heads, c.part g = none ∨ c.part g = c.part h) :
    c.part (mergeViews ancestor heads) = c.part h := by
  rw [part_mergeViews, absent, Option.or_none]
  cases found : (c.asked heads).findSome? c.part with
  | none => exact (List.findSome?_eq_none_iff.mp found h (mem_asked.mpr member)).symm
  | some v =>
      obtain ⟨g, m, here⟩ := List.exists_of_findSome?_eq_some found
      rcases others g (mem_asked.mp m) with nothing | same
      · rw [nothing] at here
        cases here
      · rw [← same, here]

/-- **The merge of views.** A component that no head touched stays; what one head added
is kept.  Tombstones are taken from the last head that has one, remote refs and the
working-copy commit from the first, and from the ancestor where no head has one. -/
theorem mergeViews_law (ancestor : View Cid) (heads : List (View Cid)) :
    (∀ c : Component, (∀ h ∈ heads, c.part h = c.part ancestor) →
      c.part (mergeViews ancestor heads) = c.part ancestor) ∧
    (∀ (c : Component) (before : List (View Cid)) (h : View Cid) (after : List (View Cid)),
      heads = before ++ h :: after → (∀ g ∈ before ++ after, c.part g = c.part ancestor) →
        c.part ancestor = none → c.part (mergeViews ancestor heads) = c.part h) ∧
    ∀ c : Component, (∀ key, c ≠ .extra key) →
      c.part (mergeViews ancestor heads) =
        ((c.asked heads).findSome? c.part).or (c.part ancestor) := by
  refine ⟨fun c same => part_mergeViews_untouched same, ?_, fun c _ => part_mergeViews c ancestor heads⟩
  rintro c before h after rfl same absent
  refine part_mergeViews_added (by simp) absent fun g m => ?_
  simp only [List.mem_append, List.mem_cons] at m
  rcases m with m | rfl | m
  · exact .inl ((same g (List.mem_append_left _ m)).trans absent)
  · exact .inr rfl
  · exact .inl ((same g (List.mem_append_right _ m)).trans absent)

/-- A view with a tombstone, and two with different working-copy commits. -/
def forgotten : View ℕ := { tombstones := OrdMap.empty.insert 1 ⟨"old", 5⟩ }

def onMain : View ℕ := { wcCommit := some 7 }

def switched : View ℕ := { wcCommit := some 8 }

/-- An untombstone, and a new working-copy commit, are undone by a head that did neither. -/
theorem mergeViews_undoes :
    (Component.tombstone 1).part (mergeViews forgotten [{}, forgotten]) =
        some (.tombstone ⟨"old", 5⟩) ∧
      (Component.tombstone 1).part ({} : View ℕ) = none ∧
      Component.wcCommit.part (mergeViews onMain [onMain, switched]) = some (.wcCommit 7) ∧
      Component.wcCommit.part switched = some (.wcCommit 8) := by
  refine ⟨rfl, rfl, rfl, rfl⟩

end Components

end Mnem.Repo
