/-
# Theory.Layers — scores along paths, layer by layer

A graph has seeds with scores, and an edge turns the score of its source into
one for its target.  `Path n v x` is a path of `n` edges from a seed to `v`,
through nodes that are no seeds, that scores `x`; `At h v` says that the fewest
edges to `v` are `h`.  A search that closes each layer before the next finds the
layered scores: at a node of layer `h + 1` the best of what the nodes of layer
`h` offer.  They are the best scores of all paths of a length exactly if each
node has a best path whose last edge leaves the layer before, with the best
score there (`layered_best_iff`).
-/
import Mathlib.Data.List.Nodup
import Mathlib.Order.Bounds.Basic

namespace Mnem.Theory

set_option autoImplicit false

/-- Seeds with scores, and edges that turn scores into scores. -/
structure Scoring (N W E : Type) where
  seeds : List (N × W)
  next : N → List (N × E)
  apply : W → E → W

namespace Scoring

variable {N W E : Type} (g : Scoring N W E)

def IsSeed (v : N) : Prop := v ∈ g.seeds.map Prod.fst

/-- A path from a seed, its length and its score.  Only its first node is a seed. -/
inductive Path : Nat → N → W → Prop where
  | seed {v : N} {x : W} : (v, x) ∈ g.seeds → Path 0 v x
  | step {n : Nat} {u v : N} {x : W} {e : E} :
      Path n u x → (v, e) ∈ g.next u → ¬ g.IsSeed v → Path (n + 1) v (g.apply x e)

/-- The fewest edges to a node. -/
def At (h : Nat) (v : N) : Prop := (∃ x, g.Path h v x) ∧ ∀ m < h, ¬ ∃ x, g.Path m v x

variable {g}

theorem Path.isSeed_iff {n : Nat} {v : N} {x : W} (path : g.Path n v x) : g.IsSeed v ↔ n = 0 := by
  cases path with
  | seed m => simp only [iff_true]; exact List.mem_map.mpr ⟨_, m, rfl⟩
  | step _ _ fresh => simp [fresh]

theorem At.unique {h h' : Nat} {v : N} (one : g.At h v) (other : g.At h' v) : h = h' := by
  rcases Nat.lt_trichotomy h h' with less | same | greater
  · exact absurd one.1 (other.2 h less)
  · exact same
  · exact absurd other.1 (one.2 h' greater)

/-- Every path is at least as long as the fewest edges. -/
theorem exists_at {n : Nat} {v : N} {x : W} (path : g.Path n v x) : ∃ h ≤ n, g.At h v := by
  induction n using Nat.strong_induction_on generalizing x with
  | _ n ih =>
      by_cases shorter : ∃ m < n, ∃ y, g.Path m v y
      · obtain ⟨m, less, y, path'⟩ := shorter
        obtain ⟨h, below, here⟩ := ih m less path'
        exact ⟨h, below.trans less.le, here⟩
      · exact ⟨n, le_refl n, ⟨x, path⟩, fun m less found => shorter ⟨m, less, found⟩⟩

theorem at_zero_iff {v : N} : g.At 0 v ↔ g.IsSeed v := by
  constructor
  · rintro ⟨⟨x, path⟩, -⟩
    exact path.isSeed_iff.mpr rfl
  · intro seed
    obtain ⟨⟨w, x⟩, m, rfl⟩ := List.mem_map.mp seed
    exact ⟨⟨x, .seed m⟩, fun m less => absurd less (Nat.not_lt_zero m)⟩

/-- The next layer: new nodes at an edge from this one. -/
theorem at_succ_iff {h : Nat} {v : N} :
    g.At (h + 1) v ↔ (∀ m ≤ h, ¬ g.At m v) ∧ ∃ u e, g.At h u ∧ (v, e) ∈ g.next u := by
  constructor
  · rintro ⟨⟨y, path⟩, fewest⟩
    refine ⟨fun m below here => fewest m (Nat.lt_succ_of_le below) here.1, ?_⟩
    cases path with
    | @step _ u _ x e before edge fresh =>
        refine ⟨u, e, ⟨⟨x, before⟩, fun m less found => ?_⟩, edge⟩
        obtain ⟨y, path⟩ := found
        exact fewest (m + 1) (Nat.succ_lt_succ less) ⟨_, path.step edge fresh⟩
  · rintro ⟨later, u, e, ⟨⟨x, path⟩, -⟩, edge⟩
    have fresh : ¬ g.IsSeed v := fun seed => later 0 (Nat.zero_le h) (at_zero_iff.mpr seed)
    refine ⟨⟨_, path.step edge fresh⟩, fun m less found => ?_⟩
    obtain ⟨y, short⟩ := found
    obtain ⟨m', below, here⟩ := exists_at short
    exact later m' (below.trans (Nat.le_of_lt_succ less)) here

section Best

variable (g) [LinearOrder W]

/-- The best score of the paths to a node that have at most some edges. -/
def IsBest (depth : Nat) (v : N) (x : W) : Prop :=
  IsGreatest {y | ∃ m ≤ depth, g.Path m v y} x

/-- What the nodes of one layer offer to the next. -/
def Offered (scored : N → W → Prop) (v : N) (y : W) : Prop :=
  ∃ u x e, scored u x ∧ (v, e) ∈ g.next u ∧ y = g.apply x e

/-- The scores of a layer, from those of the layer before. -/
def Layered : Nat → N → W → Prop
  | 0, v, x => (v, x) ∈ g.seeds
  | h + 1, v, x => g.At (h + 1) v ∧ IsGreatest {y | g.Offered (Layered h) v y} x

/-- Each node that is reached has a best path whose last edge leaves the layer before, from the
best score there. -/
def Straight (depth : Nat) : Prop :=
  ∀ h v, h < depth → g.At (h + 1) v → ∃ u e x, g.At h u ∧ (v, e) ∈ g.next u ∧
    g.IsBest depth u x ∧ ∀ m ≤ depth, ∀ y, g.Path m v y → y ≤ g.apply x e

variable {g}

theorem Layered.at {h : Nat} {v : N} {x : W} (layered : g.Layered h v x) : g.At h v := by
  cases h with
  | zero => exact at_zero_iff.mpr (List.mem_map.mpr ⟨_, layered, rfl⟩)
  | succ h => exact layered.1

/-- A layered score is that of a path. -/
theorem Layered.path {h : Nat} {v : N} {x : W} (layered : g.Layered h v x) : g.Path h v x := by
  induction h generalizing v x with
  | zero => exact .seed layered
  | succ h ih =>
      obtain ⟨here, ⟨u, y, e, before, edge, rfl⟩, -⟩ := layered
      refine (ih before).step edge fun seed => ?_
      exact (at_succ_iff.mp here).1 0 (Nat.zero_le h) (at_zero_iff.mpr seed)

theorem Layered.unique (distinct : (g.seeds.map Prod.fst).Nodup) {h : Nat} {v : N} {x y : W}
    (one : g.Layered h v x) (other : g.Layered h v y) : x = y := by
  cases h with
  | zero =>
      have same := List.inj_on_of_nodup_map distinct one other rfl
      exact congrArg Prod.snd same
  | succ h => exact one.2.unique other.2

/-- A seed has the score that it is given. -/
theorem isBest_of_seed (distinct : (g.seeds.map Prod.fst).Nodup) {depth : Nat} {v : N} {x : W}
    (m : (v, x) ∈ g.seeds) : g.IsBest depth v x := by
  refine ⟨⟨0, Nat.zero_le depth, .seed m⟩, ?_⟩
  rintro y ⟨n, -, path⟩
  have zero := path.isSeed_iff.mp (List.mem_map.mpr ⟨_, m, rfl⟩)
  subst zero
  cases path with
  | seed m' =>
      have same := List.inj_on_of_nodup_map distinct m m' rfl
      exact (congrArg Prod.snd same).ge

/-- **The layered scores are the best scores exactly if the best paths are straight.** -/
theorem layered_best_iff (distinct : (g.seeds.map Prod.fst).Nodup) {depth : Nat}
    (complete : ∀ h ≤ depth, ∀ v, g.At h v → ∃ x, g.Layered h v x) :
    (∀ h v x, h < depth → g.Layered (h + 1) v x → g.IsBest depth v x) ↔ g.Straight depth := by
  constructor
  · intro best h v less here
    obtain ⟨y, layered⟩ := complete (h + 1) less v here
    obtain ⟨-, ⟨u, x, e, before, edge, rfl⟩, -⟩ := id layered
    have optimal := best h v _ less layered
    refine ⟨u, e, x, before.at, edge, ?_, fun m below y path => optimal.2 ⟨m, below, path⟩⟩
    cases h with
    | zero => exact isBest_of_seed distinct before
    | succ h => exact best h u x (by omega) before
  · intro straight h
    induction h using Nat.strong_induction_on with
    | _ h ih =>
        intro v y less layered
        obtain ⟨u, e, x, before, edge, best, bound⟩ := straight h v less layered.at
        obtain ⟨x', layered'⟩ := complete h less.le u before
        have best' : g.IsBest depth u x' := by
          cases h with
          | zero => exact isBest_of_seed distinct layered'
          | succ h => exact ih h (Nat.lt_succ_self h) u x' (by omega) layered'
        obtain rfl : x = x' := best.unique best'
        refine ⟨⟨h + 1, less, layered.path⟩, ?_⟩
        rintro z ⟨m, below, path⟩
        exact (bound m below z path).trans (layered.2.2 ⟨u, x, e, layered', edge, rfl⟩)

end Best

end Scoring

end Mnem.Theory
