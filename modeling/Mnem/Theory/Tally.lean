/-
# Theory.Tally — counting keys, and the pairs of a list

`tally` counts keys in a map, and `pairs` lists each element of a list with
those after it.

* A tally has a key's count, and no entry for a key that does not occur
  (`get?_tally`, `get?_tally_flatMap`).
* What a function of unordered pairs collects does not depend on the order of
  the list (`filterMap_pairs_perm`).
-/
import Mathlib.Data.List.Count
import Mathlib.Data.List.Nodup
import Mnem.Theory.OrdMap

namespace Mnem.Theory.Tally

set_option autoImplicit false

section Tally

variable {K : Type} [LinearOrder K]

/-- `*entry(k).or_insert(0) += 1` for each key. -/
def tally (m : OrdMap K Nat) (ks : List K) : OrdMap K Nat :=
  ks.foldl (fun m k => m.modify k fun old => old.getD 0 + 1) m

theorem tally_append (m : OrdMap K Nat) (ks ls : List K) :
    tally m (ks ++ ls) = tally (tally m ks) ls := List.foldl_append

/-- A key that occurs has the old count and its occurrences. -/
theorem get?_tally (m : OrdMap K Nat) (ks : List K) (k : K) :
    (tally m ks).get? k =
      if k ∈ ks then some ((m.get? k).getD 0 + ks.count k) else m.get? k := by
  induction ks generalizing m with
  | nil => simp [tally]
  | cons j ks ih =>
      show (tally (m.modify j fun old => old.getD 0 + 1) ks).get? k = _
      rw [ih, OrdMap.get?_modify]
      by_cases same : k = j
      · subst same
        simp only [List.mem_cons_self, if_true, List.count_cons_self]
        split
        · rw [Option.getD_some]
          congr 1
          omega
        · rename_i absent
          rw [List.count_eq_zero.mpr absent]
      · rw [if_neg (Ne.symm same), List.count_cons_of_ne (Ne.symm same)]
        exact if_congr (by rw [List.mem_cons, or_iff_right same]) rfl rfl

/-- How often a key occurs in lists without duplicates: in how many of them. -/
theorem count_flatMap {S : Type} {f : S → List K} (once : ∀ s, (f s).Nodup) {k : K} {p : S → Bool}
    (meets : ∀ s, k ∈ f s ↔ p s = true) (ss : List S) : (ss.flatMap f).count k = ss.countP p := by
  induction ss with
  | nil => rfl
  | cons s ss ih =>
      rw [List.flatMap_cons, List.count_append, ih, List.countP_cons]
      by_cases inside : k ∈ f s
      · rw [List.count_eq_one_of_mem (once s) inside, if_pos ((meets s).mp inside), Nat.add_comm]
      · rw [List.count_eq_zero.mpr inside, if_neg fun holds => inside ((meets s).mpr holds),
          Nat.zero_add, Nat.add_zero]

/-- The tally of lists without duplicates: an entry for what occurs. -/
theorem get?_tally_flatMap {S : Type} {f : S → List K} (once : ∀ s, (f s).Nodup) {k : K}
    {p : S → Bool} (meets : ∀ s, k ∈ f s ↔ p s = true) (ss : List S) :
    (tally OrdMap.empty (ss.flatMap f)).get? k =
      if ss.countP p = 0 then none else some (ss.countP p) := by
  have count := count_flatMap once meets ss
  rw [get?_tally, OrdMap.get?_empty, Option.getD_none, Nat.zero_add, count]
  by_cases inside : k ∈ ss.flatMap f
  · have occurs := List.count_pos_iff.mpr inside
    rw [count] at occurs
    rw [if_pos inside, if_neg (Nat.pos_iff_ne_zero.mp occurs)]
  · have nothing := List.count_eq_zero.mpr inside
    rw [count] at nothing
    rw [if_neg inside, if_pos nothing]

end Tally

/-! ## Pairs -/

section Pairs

variable {α β γ : Type}

/-- Each element with those after it. -/
def pairs : List α → List (α × α)
  | [] => []
  | a :: l => l.map (fun b => (a, b)) ++ pairs l

theorem pairs_map (f : α → β) : ∀ l : List α,
    pairs (l.map f) = (pairs l).map fun p => (f p.1, f p.2)
  | [] => rfl
  | a :: l => by
      rw [List.map_cons, pairs, pairs, List.map_append, pairs_map f l, List.map_map, List.map_map]
      rfl

theorem pairs_filter (p : α → Bool) : ∀ l : List α,
    pairs (l.filter p) = (pairs l).filter fun q => p q.1 && p q.2
  | [] => rfl
  | a :: l => by
      rw [pairs, List.filter_append, ← pairs_filter p l, List.filter_map]
      by_cases keeps : p a = true
      · rw [List.filter_cons_of_pos keeps, pairs]
        have same : l.filter p = l.filter ((fun q : α × α => p q.1 && p q.2) ∘ fun b => (a, b)) :=
          List.filter_congr fun b _ => by simp [keeps]
        rw [← same]
      · rw [List.filter_cons_of_neg keeps]
        have none : (l.filter ((fun q : α × α => p q.1 && p q.2) ∘ fun b => (a, b))) = [] := by
          simp [keeps]
        rw [none]
        rfl

/-- The pairs of a list in a relation are in that relation. -/
theorem rel_of_mem_pairs {R : α → α → Prop} : ∀ {l : List α} {q : α × α}, l.Pairwise R →
    q ∈ pairs l → R q.1 q.2
  | a :: l, q, each, m => by
      obtain ⟨first, later⟩ := List.pairwise_cons.mp each
      rcases List.mem_append.mp m with here | there
      · obtain ⟨b, inList, rfl⟩ := List.mem_map.mp here
        exact first b inList
      · exact rel_of_mem_pairs later there

/-- A list whose pairs are all in a relation is in it pairwise. -/
theorem pairwise_of_pairs {R : α → α → Prop} : ∀ {l : List α}, (∀ q ∈ pairs l, R q.1 q.2) →
    l.Pairwise R
  | [], _ => .nil
  | a :: l, all => by
      refine .cons (fun b m => ?_) (pairwise_of_pairs fun q m => ?_)
      · exact all (a, b) (List.mem_append_left _ (List.mem_map.mpr ⟨b, m, rfl⟩))
      · exact all q (List.mem_append_right _ m)

theorem mem_of_mem_pairs : ∀ {l : List α} {q : α × α}, q ∈ pairs l → q.1 ∈ l ∧ q.2 ∈ l
  | a :: l, q, m => by
      rcases List.mem_append.mp m with here | there
      · obtain ⟨b, inList, rfl⟩ := List.mem_map.mp here
        exact ⟨List.mem_cons_self, List.mem_cons_of_mem _ inList⟩
      · obtain ⟨left, right⟩ := mem_of_mem_pairs there
        exact ⟨List.mem_cons_of_mem _ left, List.mem_cons_of_mem _ right⟩

/-- In an ascending list the pairs are those that ascend. -/
theorem mem_pairs_iff [LinearOrder α] : ∀ {l : List α} {a b : α}, l.Pairwise (· < ·) →
    ((a, b) ∈ pairs l ↔ a ∈ l ∧ b ∈ l ∧ a < b)
  | [], a, b, _ => by simp [pairs]
  | c :: l, a, b, sorted => by
      obtain ⟨first, later⟩ := List.pairwise_cons.mp sorted
      rw [pairs, List.mem_append, mem_pairs_iff later, List.mem_map]
      constructor
      · rintro (⟨d, m, same⟩ | ⟨inA, inB, less⟩)
        · obtain ⟨rfl, rfl⟩ := Prod.mk.inj same
          exact ⟨List.mem_cons_self, List.mem_cons_of_mem _ m, first _ m⟩
        · exact ⟨List.mem_cons_of_mem _ inA, List.mem_cons_of_mem _ inB, less⟩
      · rintro ⟨inA, inB, less⟩
        rcases List.mem_cons.mp inA with rfl | laterA
        · have laterB := (List.mem_cons.mp inB).resolve_left less.ne'
          exact .inl ⟨b, laterB, rfl⟩
        · rcases List.mem_cons.mp inB with rfl | laterB
          · exact absurd (first a laterA) less.asymm
          · exact .inr ⟨laterA, laterB, less⟩

theorem pairs_nodup : ∀ {l : List α}, l.Nodup → (pairs l).Nodup
  | [], _ => List.nodup_nil
  | a :: l, once => by
      obtain ⟨fresh, later⟩ := List.nodup_cons.mp once
      refine List.nodup_append.mpr ⟨?_, pairs_nodup later, fun q m r there same => ?_⟩
      · exact List.Nodup.map (fun b c same => congrArg Prod.snd same) later
      · obtain ⟨b, -, rfl⟩ := List.mem_map.mp m
        have left : r.1 ∈ l := (mem_of_mem_pairs there).1
        rw [← same] at left
        exact fresh left

/-- Pairs of elements with distinct keys have distinct pairs of keys, in either order. -/
theorem pairwise_pairs {κ : Type} (key : α → κ) : ∀ {l : List α}, (l.map key).Nodup →
    (pairs l).Pairwise fun q r => ¬ ((key q.1 = key r.1 ∧ key q.2 = key r.2) ∨
      (key q.1 = key r.2 ∧ key q.2 = key r.1))
  | [], _ => List.Pairwise.nil
  | a :: l, once => by
      rw [List.map_cons] at once
      obtain ⟨fresh, later⟩ := List.nodup_cons.mp once
      have other : ∀ b ∈ l, key a ≠ key b := fun b m same =>
        fresh (List.mem_map.mpr ⟨b, m, same.symm⟩)
      refine List.pairwise_append.mpr ⟨?_, pairwise_pairs key later, fun q m r there same => ?_⟩
      · refine List.pairwise_map.mpr ((List.pairwise_map.mp later).imp_of_mem ?_)
        rintro b c inB inC apart (⟨-, same⟩ | ⟨same, -⟩)
        · exact apart same
        · exact other c inC same
      · obtain ⟨b, -, rfl⟩ := List.mem_map.mp m
        obtain ⟨left, right⟩ := mem_of_mem_pairs there
        rcases same with ⟨same, -⟩ | ⟨same, -⟩
        · exact other _ left same
        · exact other _ right same

/-- **Unordered pairs.**  What is collected from the pairs, whichever way round, does not depend
on the order of the list. -/
theorem filterMap_pairs_perm {f : α × α → Option γ} {l l' : List α} (perm : l.Perm l')
    (symm : ∀ a ∈ l, ∀ b ∈ l, f (a, b) = f (b, a)) :
    ((pairs l).filterMap f).Perm ((pairs l').filterMap f) := by
  induction perm with
  | nil => exact .refl _
  | cons a perm ih =>
      rw [pairs, pairs, List.filterMap_append, List.filterMap_append]
      refine ((perm.map _).filterMap f).append (ih fun b inB c inC => ?_)
      exact symm b (List.mem_cons_of_mem _ inB) c (List.mem_cons_of_mem _ inC)
  | swap a b l =>
      have same : f (b, a) = f (a, b) :=
        symm b List.mem_cons_self a (List.mem_cons_of_mem _ List.mem_cons_self)
      rw [pairs, pairs, pairs, pairs, List.map_cons, List.map_cons, List.cons_append,
        List.cons_append, List.filterMap_cons, List.filterMap_cons, same, List.filterMap_append,
        List.filterMap_append, List.filterMap_append, List.filterMap_append, ← List.append_assoc,
        ← List.append_assoc]
      have moved : ((l.map fun c => (b, c)).filterMap f ++ (l.map fun c => (a, c)).filterMap f ++
          (pairs l).filterMap f).Perm ((l.map fun c => (a, c)).filterMap f ++
            (l.map fun c => (b, c)).filterMap f ++ (pairs l).filterMap f) :=
        List.perm_append_comm.append_right _
      cases f (a, b) with
      | none => exact moved
      | some c => exact moved.cons c
  | trans first second ih ih' =>
      exact (ih symm).trans (ih' fun a inA b inB =>
        symm a (first.symm.subset inA) b (first.symm.subset inB))

end Pairs

end Mnem.Theory.Tally
