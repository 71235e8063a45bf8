/-
# Theory.Distance — a graph searched layer by layer

`Trail R S n v` walks `n` arcs of `R` from a start to `v`, and `At R S n v` says
that no trail to `v` is shorter.  A search keeps the keys that it has met and
the keys of the last layer; `meet` looks at a key and lists it if it is new and
live.  A key is met before the test whether it is live, so a key that is not
live is met once and listed never.

* The keys listed from the arcs of layer `n` are those of layer `n + 1`, each
  once (`Layered.next`).
-/
import Mathlib.Data.Nat.Find
import Mnem.Theory.OrdMap

namespace Mnem.Theory.Distance

set_option autoImplicit false

variable {N : Type}

/-- `v` ends a trail of `n` arcs from a start. -/
inductive Trail (R : N → N → Prop) (S : N → Prop) : Nat → N → Prop where
  | start {v : N} : S v → Trail R S 0 v
  | step {n : Nat} {u v : N} : Trail R S n u → R u v → Trail R S (n + 1) v

/-- The shortest trail to `v` has `n` arcs. -/
def At (R : N → N → Prop) (S : N → Prop) (n : Nat) (v : N) : Prop :=
  Trail R S n v ∧ ∀ m < n, ¬ Trail R S m v

variable {R : N → N → Prop} {S : N → Prop} {n : Nat} {u v : N}

theorem At.unique {m : Nat} (one : At R S m v) (other : At R S n v) : m = n := by
  rcases Nat.lt_trichotomy m n with less | same | more
  · exact absurd one.1 (other.2 m less)
  · exact same
  · exact absurd other.1 (one.2 n more)

/-- Every trail is at least as long as the shortest. -/
theorem Trail.exists_at (trail : Trail R S n v) : ∃ m ≤ n, At R S m v := by
  classical
  have some : ∃ m, Trail R S m v := ⟨n, trail⟩
  refine ⟨Nat.find some, Nat.find_min' some trail, Nat.find_spec some, ?_⟩
  intro m less
  exact Nat.find_min some less

theorem at_zero_iff : At R S 0 v ↔ S v := by
  constructor
  · rintro ⟨⟨start⟩, -⟩
    exact start
  · intro start
    exact ⟨.start start, fun m less => absurd less (Nat.not_lt_zero m)⟩

/-- The next layer: what is in no layer so far, at an arc from the last one. -/
theorem at_succ_iff : At R S (n + 1) v ↔ (∀ m ≤ n, ¬ At R S m v) ∧ ∃ u, At R S n u ∧ R u v := by
  constructor
  · rintro ⟨trail, least⟩
    refine ⟨fun m within here => least m (by omega) here.1, ?_⟩
    cases trail with
    | step before arc =>
        obtain ⟨m, within, here⟩ := before.exists_at
        rcases Nat.lt_or_ge m n with less | more
        · exact absurd (here.1.step arc) (least (m + 1) (by omega))
        · obtain rfl : m = n := by omega
          exact ⟨_, here, arc⟩
  · rintro ⟨fresh, u, here, arc⟩
    refine ⟨here.1.step arc, fun m less trail => ?_⟩
    obtain ⟨k, within, there⟩ := trail.exists_at
    exact fresh k (by omega) there

/-- There is no layer after an empty one. -/
theorem not_at_of_empty (empty : ∀ v, ¬ At R S n v) {m : Nat} (more : n ≤ m) : ¬ At R S m v := by
  induction more generalizing v with
  | refl => exact empty v
  | step _ ih =>
      intro here
      obtain ⟨-, u, before, -⟩ := at_succ_iff.mp here
      exact ih before

/-! ## Meeting keys -/

section Meet

variable [LinearOrder N] {live : N → Bool}

/-- Look at a key, with the keys met so far and those listed. -/
def meet (live : N → Bool) (st : OrdSet N × List N) (v : N) : OrdSet N × List N :=
  if v ∈ st.1 then st else (st.1.add v, if live v then st.2 ++ [v] else st.2)

/-- Met are the keys looked at; listed are those of them that are new and live, each once. -/
theorem meet_all (live : N → Bool) (vs : List N) (st : OrdSet N × List N) :
    (∀ v, v ∈ (vs.foldl (meet live) st).1 ↔ v ∈ vs ∨ v ∈ st.1) ∧
      ∃ fresh, (vs.foldl (meet live) st).2 = st.2 ++ fresh ∧ fresh.Nodup ∧
        ∀ v, v ∈ fresh ↔ v ∈ vs ∧ live v = true ∧ v ∉ st.1 := by
  induction vs generalizing st with
  | nil => exact ⟨by simp, [], by simp, List.nodup_nil, by simp⟩
  | cons w vs ih =>
      rw [List.foldl_cons]
      by_cases old : w ∈ st.1
      · obtain ⟨met, fresh, listed, once, new⟩ := ih st
        rw [show meet live st w = st from if_pos old]
        refine ⟨fun v => ?_, fresh, listed, once, fun v => ?_⟩
        · rw [met, List.mem_cons]
          exact ⟨fun h => h.elim (fun m => .inl (.inr m)) .inr,
            fun h => h.elim (fun m => m.elim (fun same => .inr (same ▸ old)) .inl) .inr⟩
        · rw [new, List.mem_cons]
          refine ⟨fun h => ⟨.inr h.1, h.2⟩, fun h => ⟨h.1.resolve_left ?_, h.2⟩⟩
          rintro rfl
          exact h.2.2 old
      · obtain ⟨met, fresh, listed, once, new⟩ :=
          ih (st.1.add w, if live w then st.2 ++ [w] else st.2)
        rw [show meet live st w = _ from if_neg old]
        refine ⟨fun v => ?_, (if live w then [w] else []) ++ fresh, ?_, ?_, fun v => ?_⟩
        · rw [met, OrdSet.mem_add, List.mem_cons]
          exact or_left_comm.trans or_assoc.symm
        · rw [listed]
          split <;> simp
        · split
          · refine List.nodup_cons.mpr ⟨fun m => ?_, once⟩
            exact ((new w).mp m).2.2 (OrdSet.mem_add.mpr (.inl rfl))
          · exact once
        · rw [List.mem_append, new, OrdSet.mem_add, List.mem_cons]
          by_cases same : v = w
          · subst same
            by_cases alive : live v = true <;> simp [alive, old]
          · by_cases alive : live w = true <;> simp [alive, same]

/-- A search that has come to layer `n`: the keys met, and the layer. -/
structure Layered (R : N → N → Prop) (S : N → Prop) (live : N → Bool) (n : Nat)
    (visited : OrdSet N) (frontier : List N) : Prop where
  once : frontier.Nodup
  layer : ∀ v, v ∈ frontier ↔ At R S n v
  met : ∀ m ≤ n, ∀ v, At R S m v → v ∈ visited
  near : ∀ v ∈ visited, live v = true → ∃ m ≤ n, At R S m v

variable {visited : OrdSet N} {frontier : List N}

theorem layered_start {starts : List N} (once : starts.Nodup) :
    Layered R (· ∈ starts) live 0 (starts.foldl OrdSet.add .empty) starts where
  once := once
  layer := fun v => at_zero_iff.symm
  met := by
    intro m within v here
    obtain rfl : m = 0 := Nat.le_zero.mp within
    exact OrdSet.mem_addAll.mpr (.inl (at_zero_iff.mp here))
  near := by
    intro v m _
    have listed := (OrdSet.mem_addAll.mp m).resolve_right (OrdSet.not_mem_empty v)
    exact ⟨0, le_rfl, at_zero_iff.mpr listed⟩

/-- **One layer.**  What is met from the arcs of a layer, and what is listed there. -/
theorem Layered.next (layered : Layered R S live n visited frontier) (targets : N → List N)
    (arcs : ∀ u v, R u v ↔ v ∈ targets u ∧ live v = true) :
    Layered R S live (n + 1) ((frontier.flatMap targets).foldl (meet live) (visited, [])).1
      ((frontier.flatMap targets).foldl (meet live) (visited, [])).2 := by
  obtain ⟨met, fresh, listed, once, new⟩ :=
    meet_all live (frontier.flatMap targets) (visited, [])
  rw [List.nil_append] at listed
  rw [listed]
  have layer : ∀ v, v ∈ fresh ↔ At R S (n + 1) v := by
    intro v
    rw [new, at_succ_iff]
    constructor
    · rintro ⟨target, alive, unmet⟩
      obtain ⟨u, inLayer, arc⟩ := List.mem_flatMap.mp target
      refine ⟨fun m within here => unmet (layered.met m within v here), u, ?_, ?_⟩
      · exact (layered.layer u).mp inLayer
      · exact (arcs u v).mpr ⟨arc, alive⟩
    · rintro ⟨fresh, u, here, arc⟩
      obtain ⟨target, alive⟩ := (arcs u v).mp arc
      refine ⟨List.mem_flatMap.mpr ⟨u, (layered.layer u).mpr here, target⟩, alive, fun m => ?_⟩
      obtain ⟨k, within, there⟩ := layered.near v m alive
      exact fresh k within there
  refine ⟨once, layer, fun m within v here => ?_, fun v m alive => ?_⟩
  · rcases Nat.lt_or_ge n m with last | before
    · obtain rfl : m = n + 1 := by omega
      exact (met v).mpr (.inl ((new v).mp ((layer v).mpr here)).1)
    · exact (met v).mpr (.inr (layered.met m before v here))
  · by_cases old : v ∈ visited
    · obtain ⟨k, within, there⟩ := layered.near v old alive
      exact ⟨k, by omega, there⟩
    · have target := ((met v).mp m).resolve_right old
      exact ⟨n + 1, le_rfl, (layer v).mp ((new v).mpr ⟨target, alive, old⟩)⟩

end Meet

end Mnem.Theory.Distance
