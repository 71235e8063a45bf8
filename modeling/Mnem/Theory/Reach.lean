/-
# Theory.Reach — depth-first search with a stack and a set of seen keys

`search` pops a key, skips it when it was seen, and otherwise visits it: the
visit ends the search with a result, or gives successors, of which the unseen
ones are pushed.  The search is cut off by a bound on its steps.

* A search that runs to its end has seen the least set that contains the stack
  and is closed under successors (`search_closed`, `search_least`).
* Over a set of keys that all have successors, one step for each key on the
  stack and for each successor of an unseen key is enough (`search_succeeds`).
-/
import Mnem.Theory.OrdMap
import Mathlib.Algebra.BigOperators.Group.Finset.Basic
import Mathlib.Algebra.GroupWithZero.Nat
import Mathlib.Algebra.Order.BigOperators.Group.Finset

namespace Mnem.Theory.Reach

set_option autoImplicit false

variable {K ε α : Type} [LinearOrder K]

/-- Search from a stack; `cut` is the failure of a search that ran out of steps. -/
def search (visit : K → Except ε (α ⊕ List K)) (cut : ε) :
    Nat → OrdSet K → List K → Except ε (α ⊕ OrdSet K)
  | _, seen, [] => .ok (.inr seen)
  | 0, _, _ :: _ => .error cut
  | fuel + 1, seen, k :: stack =>
      if k ∈ seen then search visit cut fuel seen stack
      else
        match visit k with
        | .error e => .error e
        | .ok (.inl a) => .ok (.inl a)
        | .ok (.inr ks) =>
            let seen := seen.add k
            search visit cut fuel seen ((ks.filter fun j => j ∉ seen).reverse ++ stack)

variable {visit : K → Except ε (α ⊕ List K)} {cut : ε}

/-- The keys of `S` have successors, all in `S`. -/
def Closed (visit : K → Except ε (α ⊕ List K)) (S : K → Prop) : Prop :=
  ∀ k, S k → ∃ ks, visit k = .ok (.inr ks) ∧ ∀ j ∈ ks, S j

/-- The seen keys have successors, which are seen or on the stack. -/
def Frontier (visit : K → Except ε (α ⊕ List K)) (seen : OrdSet K) (stack : List K) : Prop :=
  ∀ k ∈ seen, ∃ ks, visit k = .ok (.inr ks) ∧ ∀ j ∈ ks, j ∈ seen ∨ j ∈ stack

@[simp] theorem search_nil (fuel : Nat) (seen : OrdSet K) :
    search visit cut fuel seen [] = .ok (.inr seen) := by
  cases fuel <;> rfl

theorem search_cons_seen {fuel : Nat} {seen : OrdSet K} {k : K} {stack : List K} (old : k ∈ seen) :
    search visit cut (fuel + 1) seen (k :: stack) = search visit cut fuel seen stack := if_pos old

theorem search_cons_new {fuel : Nat} {seen : OrdSet K} {k : K} {stack ks : List K}
    (fresh : k ∉ seen) (successors : visit k = .ok (.inr ks)) :
    search visit cut (fuel + 1) seen (k :: stack) =
      search visit cut fuel (seen.add k)
        ((ks.filter fun j => j ∉ seen.add k).reverse ++ stack) := by
  rw [search, if_neg fresh, successors]

/-- A search that runs to its end finds successors wherever it visits. -/
theorem exists_of_search_cons {fuel : Nat} {seen : OrdSet K} {k : K} {stack : List K}
    {out : OrdSet K} (fresh : k ∉ seen)
    (ran : search visit cut (fuel + 1) seen (k :: stack) = .ok (.inr out)) :
    ∃ ks, visit k = .ok (.inr ks) := by
  rw [search, if_neg fresh] at ran
  split at ran
  · cases ran
  · cases ran
  · exact ⟨_, ‹_›⟩

theorem mem_pushed {seen : OrdSet K} {stack ks : List K} {j : K} :
    j ∈ (ks.filter fun j => j ∉ seen).reverse ++ stack ↔
      (j ∈ ks ∧ j ∉ seen) ∨ j ∈ stack := by
  rw [List.mem_append, List.mem_reverse, List.mem_filter, decide_eq_true_eq]

/-- What a search to the end has seen contains what it started from, and is closed. -/
theorem search_closed : ∀ {fuel : Nat} {seen : OrdSet K} {stack : List K} {out : OrdSet K},
    Frontier visit seen stack → search visit cut fuel seen stack = .ok (.inr out) →
      (∀ k ∈ seen, k ∈ out) ∧ (∀ k ∈ stack, k ∈ out) ∧ Closed visit fun k => k ∈ out
  | fuel, seen, [], out, frontier, ran => by
      have same : seen = out := by
        cases fuel <;> (cases ran; rfl)
      subst same
      refine ⟨fun _ m => m, nofun, fun k m => ?_⟩
      obtain ⟨ks, successors, inside⟩ := frontier k m
      exact ⟨ks, successors, fun j mj => (inside j mj).resolve_right nofun⟩
  | 0, seen, k :: stack, out, _, ran => by cases ran
  | fuel + 1, seen, k :: stack, out, frontier, ran => by
      by_cases old : k ∈ seen
      · rw [search_cons_seen old] at ran
        have rest : Frontier visit seen stack := by
          intro x m
          obtain ⟨ks, successors, inside⟩ := frontier x m
          refine ⟨ks, successors, fun j mj => ?_⟩
          rcases inside j mj with h | h
          · exact .inl h
          · rcases List.mem_cons.mp h with rfl | later
            · exact .inl old
            · exact .inr later
        obtain ⟨kept, pushed, closed⟩ := search_closed rest ran
        refine ⟨kept, fun x m => ?_, closed⟩
        rcases List.mem_cons.mp m with rfl | later
        · exact kept _ old
        · exact pushed x later
      · obtain ⟨ks, successors⟩ := exists_of_search_cons old ran
        rw [search_cons_new old successors] at ran
        have next : Frontier visit (seen.add k)
            ((ks.filter fun j => j ∉ seen.add k).reverse ++ stack) := by
          intro x m
          rcases OrdSet.mem_add.mp m with rfl | before
          · refine ⟨ks, successors, fun j mj => ?_⟩
            by_cases here : j ∈ seen.add x
            · exact .inl here
            · exact .inr (mem_pushed.mpr (.inl ⟨mj, here⟩))
          · obtain ⟨ks', successors', inside⟩ := frontier x before
            refine ⟨ks', successors', fun j mj => ?_⟩
            rcases inside j mj with h | h
            · exact .inl (OrdSet.mem_add.mpr (.inr h))
            · rcases List.mem_cons.mp h with rfl | later
              · exact .inl (OrdSet.mem_add.mpr (.inl rfl))
              · exact .inr (mem_pushed.mpr (.inr later))
        obtain ⟨kept, pushed, closed⟩ := search_closed next ran
        refine ⟨fun x m => kept x (OrdSet.mem_add.mpr (.inr m)), fun x m => ?_, closed⟩
        rcases List.mem_cons.mp m with rfl | later
        · exact kept _ (OrdSet.mem_add.mpr (.inl rfl))
        · exact pushed x (mem_pushed.mpr (.inr later))

/-- It is inside every closed set that contains what it started from. -/
theorem search_least {S : K → Prop} (closed : Closed visit S) :
    ∀ {fuel : Nat} {seen : OrdSet K} {stack : List K} {out : OrdSet K}, (∀ k ∈ seen, S k) →
      (∀ k ∈ stack, S k) → search visit cut fuel seen stack = .ok (.inr out) → ∀ k ∈ out, S k
  | fuel, seen, [], out, inSeen, _, ran => by
      have same : seen = out := by
        cases fuel <;> (cases ran; rfl)
      exact same ▸ inSeen
  | 0, _, _ :: _, _, _, _, ran => by cases ran
  | fuel + 1, seen, k :: stack, out, inSeen, inStack, ran => by
      have rest : ∀ x ∈ stack, S x := fun x m => inStack x (List.mem_cons_of_mem _ m)
      by_cases old : k ∈ seen
      · rw [search_cons_seen old] at ran
        exact search_least closed inSeen rest ran
      · obtain ⟨ks, successors, inside⟩ := closed k (inStack k List.mem_cons_self)
        rw [search_cons_new old successors] at ran
        refine search_least closed (fun x m => ?_) (fun x m => ?_) ran
        · rcases OrdSet.mem_add.mp m with rfl | before
          · exact inStack x List.mem_cons_self
          · exact inSeen x before
        · rcases mem_pushed.mp m with ⟨mj, -⟩ | later
          · exact inside x mj
          · exact rest x later

/-- The successors of the keys that are still unseen. -/
def owed (nodes : Finset K) (weight : K → Nat) (seen : OrdSet K) : Nat :=
  ∑ k ∈ nodes with k ∉ seen, weight k

theorem owed_add {nodes : Finset K} (weight : K → Nat) {seen : OrdSet K} {k : K}
    (inside : k ∈ nodes) (fresh : k ∉ seen) :
    owed nodes weight (seen.add k) + weight k = owed nodes weight seen := by
  have split : (nodes.filter fun j => j ∉ seen.add k) =
      (nodes.filter fun j => j ∉ seen).erase k := by
    ext j
    simp only [Finset.mem_filter, Finset.mem_erase, OrdSet.mem_add]
    tauto
  unfold owed
  rw [split]
  exact Finset.sum_erase_add _ _ (Finset.mem_filter.mpr ⟨inside, fresh⟩)

/-- Enough steps take a search over a closed set to its end. -/
theorem search_succeeds (cut : ε) {S : K → Prop} {nodes : Finset K} {weight : K → Nat}
    (closed : ∀ k, S k → ∃ ks, visit k = .ok (.inr ks) ∧ (∀ j ∈ ks, S j) ∧
      ks.length ≤ weight k ∧ k ∈ nodes) :
    ∀ (fuel : Nat) (seen : OrdSet K) (stack : List K), (∀ k ∈ stack, S k) →
      stack.length + owed nodes weight seen ≤ fuel →
        ∃ out, search visit cut fuel seen stack = .ok (.inr out)
  | fuel, seen, [], _, _ => ⟨seen, by cases fuel <;> rfl⟩
  | 0, seen, k :: stack, _, enough => by
      rw [List.length_cons] at enough
      omega
  | fuel + 1, seen, k :: stack, inStack, enough => by
      have rest : ∀ x ∈ stack, S x := fun x m => inStack x (List.mem_cons_of_mem _ m)
      rw [List.length_cons] at enough
      by_cases old : k ∈ seen
      · rw [search_cons_seen old]
        exact search_succeeds cut closed fuel seen stack rest (by omega)
      · obtain ⟨ks, successors, inside, short, isNode⟩ := closed k (inStack k List.mem_cons_self)
        rw [search_cons_new old successors]
        refine search_succeeds cut closed fuel _ _ (fun x m => ?_) ?_
        · rcases mem_pushed.mp m with ⟨mj, -⟩ | later
          · exact inside x mj
          · exact rest x later
        · have paid := owed_add weight isNode old
          have pushed := List.length_filter_le (fun j => j ∉ seen.add k) ks
          rw [List.length_append, List.length_reverse]
          omega

/-- Weights read off an association list add up to no more than the list's. -/
theorem sum_get?_le {V : Type} (f : V → Nat) (es : List (K × V)) :
    ∑ k ∈ (es.map Prod.fst).toFinset, ((Entries.get? k es).map f).getD 0 ≤
      (es.map fun e => f e.2).sum := by
  induction es with
  | nil => simp
  | cons e es ih =>
      have others : ∑ k ∈ ((e :: es).map Prod.fst).toFinset.erase e.1,
          ((Entries.get? k (e :: es)).map f).getD 0 ≤ (es.map fun e => f e.2).sum := by
        have shift : ∑ k ∈ ((e :: es).map Prod.fst).toFinset.erase e.1,
            ((Entries.get? k (e :: es)).map f).getD 0 =
            ∑ k ∈ ((e :: es).map Prod.fst).toFinset.erase e.1,
              ((Entries.get? k es).map f).getD 0 := by
          refine Finset.sum_congr rfl fun k m => ?_
          rw [Entries.get?_cons, if_neg (Finset.ne_of_mem_erase m).symm]
        rw [shift]
        refine (Finset.sum_le_sum_of_subset fun k m => ?_).trans ih
        simpa [(Finset.ne_of_mem_erase m)] using Finset.mem_of_mem_erase m
      rw [← Finset.add_sum_erase _ _ (by simp : e.1 ∈ ((e :: es).map Prod.fst).toFinset)]
      refine (Nat.add_le_add (le_of_eq ?_) others).trans (le_of_eq (List.sum_cons).symm)
      rw [Entries.get?_cons, if_pos rfl]
      rfl

theorem owed_empty_le {V : Type} (f : V → Nat) (es : List (K × V)) :
    owed (es.map Prod.fst).toFinset (fun k => ((Entries.get? k es).map f).getD 0) OrdMap.empty ≤
      (es.map fun e => f e.2).sum :=
  (Finset.sum_le_sum_of_subset (Finset.filter_subset _ _)).trans (sum_get?_le f es)

/-- Keys without successors owe nothing. -/
theorem owed_le {nodes nodes' : Finset K} {weight : K → Nat} {seen : OrdSet K}
    (leaves : ∀ k ∈ nodes, weight k ≠ 0 → k ∈ nodes') :
    owed nodes weight seen ≤ owed nodes' weight seen := by
  unfold owed
  apply Finset.sum_le_sum_of_ne_zero
  intro k m some
  obtain ⟨inside, fresh⟩ := Finset.mem_filter.mp m
  exact Finset.mem_filter.mpr ⟨leaves k inside some, fresh⟩

end Mnem.Theory.Reach
