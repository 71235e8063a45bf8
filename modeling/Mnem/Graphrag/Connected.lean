/-
# Graphrag.Connected — communities are connected

A node only takes the label of a neighbour.  So each node is connected to the
node that its label names (`Joined`), through all moves, refinements and rounds
(`rounds_joined`), and nodes with one label are connected to each other.
-/
import Mnem.Graphrag.Communities
import Mathlib.Logic.Relation

namespace Mnem.Graphrag

open Http Theory Index

set_option autoImplicit false

section Model

variable {K : Type} [Field K] [LinearOrder K] {g : Graph K}

/-- A path of positive weights. -/
def Reaches (g : Graph K) : Nat → Nat → Prop := Relation.ReflTransGen fun u v => 0 < g.weight u v

/-- Each node reaches the one that its label names. -/
structure Joined (g : Graph K) (part : List Nat) : Prop where
  long : part.length = g.nodes.length
  reaches : ∀ v < g.nodes.length, Reaches g v (label part v)

theorem Reaches.symm (undirected : Undirected g) {u v : Nat} (reaches : Reaches g u v) :
    Reaches g v u := by
  induction reaches with
  | refl => exact Relation.ReflTransGen.refl
  | tail _ near ih => exact Relation.ReflTransGen.head (undirected.symm _ _ ▸ near) ih

/-- Nodes with one label are connected. -/
theorem Joined.connected (undirected : Undirected g) {part : List Nat} (joined : Joined g part)
    {u v : Nat} (low : u < g.nodes.length) (low' : v < g.nodes.length)
    (same : label part u = label part v) : Reaches g u v :=
  (joined.reaches u low).trans (same ▸ (joined.reaches v low').symm undirected)

theorem joined_singletons (g : Graph K) : Joined g (List.range g.nodes.length) where
  long := List.length_range
  reaches v low := by
    rw [label, List.getD_eq_getElem?_getD, List.getElem?_range low]
    exact Relation.ReflTransGen.refl

variable [IsStrictOrderedRing K] (undirected : Undirected g)
include undirected

/-- A node that takes the label of a neighbour still reaches the node of its label. -/
theorem Joined.set {part : List Nat} (joined : Joined g part) {v : Nat} {d : Nat × K}
    (near : d ∈ g.neighbours v) : Joined g (part.set v (label part d.1)) where
  long := by rw [List.length_set, joined.long]
  reaches u low := by
    obtain ⟨inside, inside', -, -⟩ := undirected.inside v d near
    rw [label_set (by rw [joined.long]; exact inside)]
    by_cases here : u = v
    · rw [here, Function.update_self]
      refine Relation.ReflTransGen.head ?_ (joined.reaches d.1 inside')
      exact (undirected.weight_pos_iff v d.1).mpr (List.mem_map.mpr ⟨d, near, rfl⟩)
    · rw [Function.update_of_ne here]
      exact joined.reaches u low

/-- A best move among labels of neighbours. -/
theorem Joined.best {s : Moving K} (joined : Joined g s.part) (v : Nat) {near : List (Nat × K)}
    (part_of : near ⊆ g.neighbours v) {candidates : List (Nat × K)}
    (known : candidates ⊆ (labelWeights s.part near).entries) (cOld : Nat) (dq : Nat × K → K)
    (kv : K) :
    let best := bestMove cOld dq candidates
    Joined g (if best.1 ≠ cOld ∧ tolerance K < best.2 then s.moveTo v cOld best.1 kv else s).part := by
  dsimp only
  split
  · rename_i moves
    rcases bestMove_cases cOld dq candidates with ⟨stays, -⟩ | ⟨e, m, -, -, best⟩
    · exact absurd (congrArg Prod.fst stays) moves.1
    · obtain ⟨d, inNear, at_e⟩ := mem_labelWeights (known m)
      have moved := joined.set undirected (part_of inNear)
      rw [at_e] at moved
      rw [best]
      exact moved
  · exact joined

theorem visit_joined {s : Moving K} (joined : Joined g s.part) (v : Nat) :
    Joined g (visit g s v).part := by
  unfold visit
  dsimp only
  split
  · exact joined
  · exact joined.best undirected v (List.filter_subset_self _) (List.Subset.refl _) _ _ _

theorem visitRefined_joined {s : Moving K} (joined : Joined g s.part) (outer : List Nat) (t : K)
    (v : Nat) : Joined g (visitRefined g outer t s v).part := by
  unfold visitRefined
  dsimp only
  split
  · exact joined
  · exact joined.best undirected v (List.filter_subset_self _) (List.filter_subset_self _) _ _ _

omit undirected [IsStrictOrderedRing K] in
/-- A loop keeps what each step keeps. -/
theorem foldl_joined {α : Type} (step : Moving K → α → Moving K)
    (keeps : ∀ s x, Joined g s.part → Joined g (step s x).part) (xs : List α) {s : Moving K}
    (joined : Joined g s.part) : Joined g (xs.foldl step s).part := by
  induction xs generalizing s with
  | nil => exact joined
  | cons x xs ih => exact ih (keeps s x joined)

theorem localMove_joined {fuel : Nat} {part part' : List Nat} (joined : Joined g part)
    (moved : localMove g fuel part = some part') : Joined g part' := by
  have loop : ∀ (fuel : Nat) (s : Moving K), Joined g s.part →
      localMoveLoop g fuel s = some part' → Joined g part' := by
    intro fuel
    induction fuel with
    | zero => intro s _ none; cases none
    | succ fuel ih =>
        intro s joined found
        have passed : Joined g (pass g s).part :=
          foldl_joined (visit g) (fun s v joined => visit_joined undirected joined v) _ joined
        unfold localMoveLoop at found
        dsimp only at found
        split at found
        · exact ih _ passed found
        · cases found
          exact passed
  unfold localMove at moved
  split at moved
  · cases moved
    exact joined
  · exact loop fuel _ joined moved

theorem refinePartition_joined {part : List Nat} (joined : Joined g part) :
    Joined g (refinePartition g part) := by
  unfold refinePartition
  split
  · exact joined
  · rw [undirected.long]
    refine foldl_joined (refineCommunity g part) (fun s members joined => ?_) _ (joined_singletons g)
    exact foldl_joined _ (fun s v joined => visitRefined_joined undirected joined part _ v) _ joined

/-- **The rounds leave communities connected.** -/
theorem rounds_joined {fuel n : Nat} {part part' : List Nat} {prevQ : Option K}
    (joined : Joined g part) (found : rounds g fuel n part prevQ = some part') : Joined g part' := by
  induction n generalizing part prevQ with
  | zero =>
      cases found
      exact joined
  | succ n ih =>
      unfold rounds at found
      simp only [Option.bind_eq_bind, Option.bind_eq_some_iff] at found
      obtain ⟨moved, moves, refined, refines, found⟩ := found
      have first := localMove_joined undirected joined moves
      have second := localMove_joined undirected (refinePartition_joined undirected first) refines
      have kept : Joined g (if modularity g moved + 1 / 10 ^ 9 < modularity g refined then refined
          else moved) := by
        split
        · exact second
        · exact first
      generalize (if modularity g moved + 1 / 10 ^ 9 < modularity g refined then refined
        else moved) = next at kept found
      split at found
      · cases found
        exact kept
      · exact ih kept found

end Model

end Mnem.Graphrag
