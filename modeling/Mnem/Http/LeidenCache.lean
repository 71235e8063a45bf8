/-
# Http.LeidenCache — when a recompute of the communities is refused

The policy refuses a recompute on a large graph, in a storm of commits, and
shortly after the last recompute.  The storm is read off a ring of arrivals that
only a new arrival trims: the ring holds the arrivals in the minute up to the
last one recorded (`commitArrivals_after`), not up to the query.

* `fallback_iff`: over every run, a refusal has one of its three reasons exactly
  where the minute before the last arrival tells the same as the minute before
  the query;
* `storm_stays`: heads record arrivals only when they recompute, so a storm that
  is reached never ends without arrivals from outside.

Pole (fixed input): `stale_after_an_hour`.
-/
import Mathlib.Data.List.Sort
import Mathlib.Order.Basic
import Mathlib.Tactic.Linarith

namespace Mnem.Http

set_option autoImplicit false

/-- `Duration::from_mins(1)`; instants are nanoseconds of the monotonic clock, from any epoch. -/
def minuteNs : Int := 60000000000

def graphSizeGateV : Nat := 250000

def debounceFloorMs : Nat := 1000

def commitLatencyWindow : Nat := 100

def deriveDebounceMs (rollingP75CommitMs : Option Nat) : Nat :=
  (rollingP75CommitMs.map fun p => max p debounceFloorMs).getD debounceFloorMs

inductive LeidenMode where
  | full
  | fullDebounced
  | fallbackStale
  deriving DecidableEq, Repr

/-- Debounce and storm-cap state. -/
structure LeidenCache where
  commitLatencyMs : List Nat := []
  lastRecomputeAt : Option Int := none
  commitArrivals : List Int := []
  defaultMode : LeidenMode := .fullDebounced
  stormCapPerMin : UInt32 := 60
  deriving DecidableEq

namespace LeidenCache

/-- Record the duration of a commit, in a ring of the last hundred. -/
def observeCommitLatency (c : LeidenCache) (latencyNs : Nat) : LeidenCache :=
  let ring := if c.commitLatencyMs.length = commitLatencyWindow then c.commitLatencyMs.tail
    else c.commitLatencyMs
  { c with commitLatencyMs := ring ++ [min (latencyNs / 1000000) (2 ^ 64 - 1)] }

/-- Record an arrival; those more than a minute older leave the front of the ring. -/
def observeCommitArrival (c : LeidenCache) (arrival : Int) : LeidenCache :=
  { c with commitArrivals :=
      (c.commitArrivals.dropWhile fun front => decide (front < arrival - minuteNs)) ++ [arrival] }

/-- Nearest-rank p75 of the latencies; the rank is three quarters of the length, rounded up. -/
def rollingP75CommitMs (c : LeidenCache) : Option Nat :=
  let n := c.commitLatencyMs.length
  (c.commitLatencyMs.insertionSort (· ≤ ·))[min ((3 * n + 3) / 4 - 1) (n - 1)]?

def effectiveDebounceMs (c : LeidenCache) : Nat := deriveDebounceMs c.rollingP75CommitMs

def stormCapReached (c : LeidenCache) : Bool :=
  decide (c.stormCapPerMin.toNat ≤ min c.commitArrivals.length (2 ^ 32 - 1))

/-- Whole milliseconds since the last recompute, within the debounce window. -/
def debounced (c : LeidenCache) (now : Int) : Bool :=
  c.lastRecomputeAt.any fun last =>
    decide (min ((now - last).toNat / 1000000) (2 ^ 64 - 1) < c.effectiveDebounceMs)

/-- The mode to serve a call with. -/
def selectMode (c : LeidenCache) (nodeCount : Nat) (now : Int) : LeidenMode :=
  if c.defaultMode = .full then .full
  else if graphSizeGateV ≤ nodeCount then .fallbackStale
  else if c.stormCapReached then .fallbackStale
  else if c.debounced now then .fallbackStale
  else .fullDebounced

/-- What serving the communities of a head does to the policy state; `cached` tells whether
the head's communities are there already. -/
def serveHead (c : LeidenCache) (nodeCount : Nat) (now : Int) (cached : Bool) :
    LeidenMode × LeidenCache :=
  let mode := c.selectMode nodeCount now
  if mode = .fallbackStale || cached then (mode, c)
  else
    let c := if mode = .fullDebounced then { c with lastRecomputeAt := some now } else c
    (mode, c.observeCommitArrival now)

/-! ## Runs -/

/-- An operation on the policy state. -/
inductive Op where
  | latency (ns : Nat)
  | arrival (t : Int)
  | head (nodeCount : Nat) (now : Int) (cached : Bool)

/-- The instant of an operation that reads the clock. -/
def Op.instant : Op → Option Int
  | .latency _ => none
  | .arrival t => some t
  | .head _ now _ => some now

def step (c : LeidenCache) : Op → LeidenCache
  | .latency ns => c.observeCommitLatency ns
  | .arrival t => c.observeCommitArrival t
  | .head nodeCount now cached => (c.serveHead nodeCount now cached).2

/-- The arrival that an operation records. -/
def recorded (c : LeidenCache) : Op → List Int
  | .latency _ => []
  | .arrival t => [t]
  | .head nodeCount now cached =>
      if c.selectMode nodeCount now = .fallbackStale || cached then [] else [now]

def after (c : LeidenCache) (ops : List Op) : LeidenCache := ops.foldl step c

/-- The arrivals that a run records. -/
def arrivals : LeidenCache → List Op → List Int
  | _, [] => []
  | c, op :: ops => c.recorded op ++ arrivals (c.step op) ops

/-- The arrivals in the minute before an instant. -/
def recent (all : List Int) (now : Int) : Nat :=
  all.countP fun a => decide (now - minuteNs ≤ a) && decide (a ≤ now)

/-- The arrivals in the minute before the last of them. -/
def upToLast (all : List Int) : Nat := all.getLast?.elim 0 (recent all)

/-- The last recompute lies within the debounce window before `now`. -/
def Debounced (c : LeidenCache) (now : Int) : Prop :=
  ∃ last, c.lastRecomputeAt = some last ∧ now - last < c.effectiveDebounceMs * 1000000

/-! ## The ring -/

/-- The arrivals in the minute before the last of them, in order. -/
def trimmed (all : List Int) : List Int :=
  all.getLast?.elim [] fun last => all.filter fun a => decide (last - minuteNs ≤ a)

theorem trimmed_append (all : List Int) (t : Int) :
    trimmed (all ++ [t]) = (all.filter fun a => decide (t - minuteNs ≤ a)) ++ [t] := by
  have nonneg : 0 ≤ minuteNs := by decide
  simp [trimmed, List.filter_append, nonneg]

theorem dropWhile_eq_filter (cutoff : Int) (ts : List Int)
    (sorted : ts.Pairwise (· ≤ ·)) :
    ts.dropWhile (fun a => decide (a < cutoff)) = ts.filter fun a => decide (cutoff ≤ a) := by
  induction ts with
  | nil => rfl
  | cons t ts ih =>
      by_cases old : t < cutoff
      · rw [List.dropWhile_cons_of_pos (by simpa using old),
          List.filter_cons_of_neg (by simpa using old), ih sorted.of_cons]
      · rw [List.dropWhile_cons_of_neg (by simpa using old), List.filter_eq_self.mpr]
        intro u m
        have later : t ≤ u := by
          rcases List.mem_cons.mp m with rfl | inTail
          · exact le_refl _
          · exact List.rel_of_pairwise_cons sorted inTail
        simp only [decide_eq_true_eq]
        omega

/-- A new arrival trims what the last one left. -/
theorem trim_trimmed {all : List Int} {t : Int} (sorted : (all ++ [t]).Pairwise (· ≤ ·)) :
    (trimmed all).dropWhile (fun a => decide (a < t - minuteNs)) ++ [t] = trimmed (all ++ [t]) := by
  obtain ⟨sorted', -, last_le⟩ := List.pairwise_append.mp sorted
  rw [trimmed_append]
  congr 1
  unfold trimmed
  cases last : all.getLast? with
  | none =>
      rw [List.getLast?_eq_none_iff.mp last]
      rfl
  | some u =>
      have le : u ≤ t := last_le u (List.mem_of_getLast? last) t (List.mem_singleton_self t)
      rw [Option.elim_some, dropWhile_eq_filter _ _ (sorted'.filter _), List.filter_filter]
      refine List.filter_congr fun a _ => ?_
      by_cases recent : t - minuteNs ≤ a
      · have before : u - minuteNs ≤ a := by omega
        simp [recent, before]
      · simp [recent]

theorem length_trimmed {all : List Int} (sorted : all.Pairwise (· ≤ ·)) :
    (trimmed all).length = upToLast all := by
  unfold trimmed upToLast
  cases last : all.getLast? with
  | none => rfl
  | some u =>
      rw [Option.elim_some, Option.elim_some, recent, ← List.countP_eq_length_filter]
      refine List.countP_congr fun a m => ?_
      have le : a ≤ u := by
        obtain ⟨front, rfl⟩ := List.getLast?_eq_some_iff.mp last
        rcases List.mem_append.mp m with early | here
        · exact (List.pairwise_append.mp sorted).2.2 a early u (List.mem_singleton_self u)
        · exact le_of_eq (List.mem_singleton.mp here)
      simp [le]

/-! ## Steps -/

theorem serveHead_of_fresh {c : LeidenCache} {nodeCount : Nat} {now : Int} {cached : Bool}
    (fresh : ¬ (c.selectMode nodeCount now = .fallbackStale || cached) = true) :
    (c.serveHead nodeCount now cached).2.commitArrivals =
      (c.observeCommitArrival now).commitArrivals := by
  unfold serveHead
  rw [if_neg fresh]
  split <;> rfl

theorem serveHead_of_stale {c : LeidenCache} {nodeCount : Nat} {now : Int} {cached : Bool}
    (stale : (c.selectMode nodeCount now = .fallbackStale || cached) = true) :
    (c.serveHead nodeCount now cached).2 = c := by
  unfold serveHead
  rw [if_pos stale]

/-- What a step leaves as it was. -/
structure Keeps (c c' : LeidenCache) : Prop where
  mode : c'.defaultMode = c.defaultMode
  cap : c'.stormCapPerMin = c.stormCapPerMin

theorem keeps_step (c : LeidenCache) (op : Op) : c.Keeps (c.step op) := by
  cases op with
  | latency ns => exact ⟨rfl, rfl⟩
  | arrival t => exact ⟨rfl, rfl⟩
  | head nodeCount now cached =>
      unfold step serveHead
      dsimp only
      split
      · exact ⟨rfl, rfl⟩
      · split <;> exact ⟨rfl, rfl⟩

/-- A step trims the ring by the arrival it records, and only by that. -/
theorem trimmed_step {c : LeidenCache} {all : List Int} (op : Op)
    (ring : c.commitArrivals = trimmed all)
    (sorted : (all ++ c.recorded op).Pairwise (· ≤ ·)) :
    (c.step op).commitArrivals = trimmed (all ++ c.recorded op) := by
  have observed : ∀ t, (all ++ [t]).Pairwise (· ≤ ·) →
      (c.observeCommitArrival t).commitArrivals = trimmed (all ++ [t]) := by
    intro t sorted
    show c.commitArrivals.dropWhile _ ++ [t] = _
    rw [ring]
    exact trim_trimmed sorted
  cases op with
  | latency ns =>
      rw [recorded, List.append_nil]
      exact ring
  | arrival t => exact observed t sorted
  | head nodeCount now cached =>
      unfold recorded at sorted ⊢
      unfold step
      by_cases stale : (c.selectMode nodeCount now = .fallbackStale || cached) = true
      · simp only [stale, if_true, List.append_nil]
        rw [serveHead_of_stale stale]
        exact ring
      · simp only [stale] at sorted ⊢
        rw [serveHead_of_fresh stale]
        exact observed now sorted

/-! ### Latencies -/

/-- The latencies fit a machine word. -/
def Fits (c : LeidenCache) : Prop := ∀ ms ∈ c.commitLatencyMs, ms ≤ 2 ^ 64 - 1

theorem fits_step {c : LeidenCache} (fits : c.Fits) (op : Op) : (c.step op).Fits := by
  cases op with
  | latency ns =>
      intro ms m
      rcases List.mem_append.mp m with old | new
      · split at old
        · exact fits ms (List.mem_of_mem_tail old)
        · exact fits ms old
      · rw [List.mem_singleton.mp new]
        exact min_le_right _ _
  | arrival t => exact fits
  | head nodeCount now cached =>
      unfold step serveHead
      dsimp only
      split
      · exact fits
      · split <;> exact fits

theorem effectiveDebounceMs_le {c : LeidenCache} (fits : c.Fits) :
    c.effectiveDebounceMs ≤ 2 ^ 64 - 1 := by
  unfold effectiveDebounceMs deriveDebounceMs
  cases p75 : c.rollingP75CommitMs with
  | none => decide
  | some ms =>
      have inRing : ms ∈ c.commitLatencyMs :=
        (List.mem_insertionSort (· ≤ ·)).mp (List.mem_of_getElem? p75)
      exact max_le (fits ms inRing) (by decide)

theorem le_effectiveDebounceMs (c : LeidenCache) : debounceFloorMs ≤ c.effectiveDebounceMs := by
  unfold effectiveDebounceMs deriveDebounceMs
  cases c.rollingP75CommitMs with
  | none => exact le_refl _
  | some ms => exact le_max_right _ _

/-- The milliseconds of the source tell what the nanoseconds do. -/
theorem debounced_iff {c : LeidenCache} (fits : c.Fits) (now : Int) :
    c.debounced now = true ↔ c.Debounced now := by
  have window := effectiveDebounceMs_le fits
  have floor : 1000 ≤ c.effectiveDebounceMs := c.le_effectiveDebounceMs
  unfold debounced Debounced
  cases c.lastRecomputeAt with
  | none => simp
  | some last =>
      simp only [Option.any_some, decide_eq_true_eq, Option.some.injEq, exists_eq_left']
      generalize c.effectiveDebounceMs = ms at window floor ⊢
      omega

theorem stormCapReached_iff {c : LeidenCache} :
    c.stormCapReached = true ↔ c.stormCapPerMin.toNat ≤ c.commitArrivals.length := by
  have small := c.stormCapPerMin.toNat_lt
  unfold stormCapReached
  rw [decide_eq_true_eq]
  omega

theorem selectMode_eq_fallbackStale {c : LeidenCache} {nodeCount : Nat} {now : Int} :
    c.selectMode nodeCount now = .fallbackStale ↔
      c.defaultMode ≠ .full ∧
        (graphSizeGateV ≤ nodeCount ∨ c.stormCapReached = true ∨ c.debounced now = true) := by
  unfold selectMode
  split
  · simp [*]
  · split
    · simp [*]
    · split
      · simp [*]
      · split <;> simp [*]

/-! ## Whole runs -/

/-- The policy state at the start of a process. -/
def start (mode : LeidenMode) (cap : UInt32) : LeidenCache :=
  { defaultMode := mode, stormCapPerMin := cap }

/-- **The ring after a run** holds the arrivals in the minute before the last one. -/
theorem commitArrivals_after (ops : List Op) {c : LeidenCache} (all : List Int)
    (ring : c.commitArrivals = trimmed all) (sorted : (all ++ c.arrivals ops).Pairwise (· ≤ ·)) :
    (c.after ops).commitArrivals = trimmed (all ++ c.arrivals ops) := by
  induction ops generalizing c all with
  | nil =>
      rw [arrivals, List.append_nil]
      exact ring
  | cons op ops ih =>
      rw [arrivals, ← List.append_assoc] at sorted ⊢
      exact ih _ (trimmed_step op ring (List.pairwise_append.mp sorted).1) sorted

theorem keeps_after (c : LeidenCache) (ops : List Op) : c.Keeps (c.after ops) := by
  induction ops generalizing c with
  | nil => exact ⟨rfl, rfl⟩
  | cons op ops ih =>
      have first := c.keeps_step op
      have rest := ih (c.step op)
      exact ⟨rest.mode.trans first.mode, rest.cap.trans first.cap⟩

theorem fits_after {c : LeidenCache} (fits : c.Fits) (ops : List Op) : (c.after ops).Fits := by
  induction ops generalizing c with
  | nil => exact fits
  | cons op ops ih => exact ih (fits_step fits op)

/-- The arrivals of a run are instants of its operations, in order. -/
theorem arrivals_sublist (c : LeidenCache) (ops : List Op) :
    (c.arrivals ops).Sublist (ops.filterMap Op.instant) := by
  induction ops generalizing c with
  | nil => exact List.Sublist.refl _
  | cons op ops ih =>
      rw [arrivals]
      have rest := ih (c.step op)
      cases op with
      | latency ns => exact rest
      | arrival t => exact rest.cons_cons t
      | head nodeCount now cached =>
          show ((if _ then [] else [now]) ++ _).Sublist (now :: ops.filterMap Op.instant)
          split
          · exact rest.cons now
          · exact rest.cons_cons now

/-- **What a refusal means.**  Over every run, a refusal has one of its reasons exactly where
the arrivals before the last one tell the same as those before the query. -/
theorem fallback_iff (mode : LeidenMode) (cap : UInt32) (ops : List Op)
    (sorted : (ops.filterMap Op.instant).Pairwise (· ≤ ·)) (nodeCount : Nat) (now : Int) :
    (((start mode cap).after ops).selectMode nodeCount now = .fallbackStale →
      mode ≠ .full ∧
        (graphSizeGateV ≤ nodeCount ∨ cap.toNat ≤ recent ((start mode cap).arrivals ops) now ∨
          ((start mode cap).after ops).Debounced now)) ↔
    (mode = .full ∨ graphSizeGateV ≤ nodeCount ∨ ((start mode cap).after ops).Debounced now ∨
      (cap.toNat ≤ upToLast ((start mode cap).arrivals ops) →
        cap.toNat ≤ recent ((start mode cap).arrivals ops) now)) := by
  have sorted' := sorted.sublist ((start mode cap).arrivals_sublist ops)
  have ring : ((start mode cap).after ops).commitArrivals = trimmed ((start mode cap).arrivals ops) :=
    commitArrivals_after ops [] rfl sorted'
  have keeps := (start mode cap).keeps_after ops
  have fits : ((start mode cap).after ops).Fits := fits_after (fun _ m => by cases m) ops
  rw [selectMode_eq_fallbackStale, stormCapReached_iff, debounced_iff fits, ring,
    length_trimmed sorted', keeps.mode, keeps.cap]
  show (mode ≠ .full ∧ (_ ∨ cap.toNat ≤ _ ∨ _) → _) ↔ _
  tauto

/-- **A storm stays.**  Once the cap is reached, heads record no arrivals, so without arrivals
from outside the ring keeps its length and every head is refused, however late. -/
theorem storm_stays {c : LeidenCache} (unforced : c.defaultMode ≠ .full)
    (storm : c.stormCapReached = true) (ops : List Op)
    (quiet : ∀ t, Op.arrival t ∉ ops) (nodeCount : Nat) (now : Int) :
    (c.after ops).commitArrivals = c.commitArrivals ∧
      (c.after ops).selectMode nodeCount now = .fallbackStale := by
  induction ops generalizing c with
  | nil => exact ⟨rfl, selectMode_eq_fallbackStale.mpr ⟨unforced, Or.inr (Or.inl storm)⟩⟩
  | cons op ops ih =>
      have same : (c.step op).commitArrivals = c.commitArrivals := by
        cases op with
        | latency ns => rfl
        | arrival t => exact absurd List.mem_cons_self (quiet t)
        | head n t cached =>
            have stale : c.selectMode n t = .fallbackStale :=
              selectMode_eq_fallbackStale.mpr ⟨unforced, Or.inr (Or.inl storm)⟩
            show (c.serveHead n t cached).2.commitArrivals = _
            rw [serveHead_of_stale (by simp [stale])]
      have keeps := c.keeps_step op
      have storm' : (c.step op).stormCapReached = true := by
        rw [stormCapReached_iff] at storm ⊢
        rw [same, keeps.cap]
        exact storm
      obtain ⟨ring, refused⟩ := ih (keeps.mode ▸ unforced) storm'
        fun t m => quiet t (List.mem_cons_of_mem op m)
      exact ⟨ring.trans same, refused⟩

/-- Sixty arrivals at once, and nothing for an hour: the recompute is refused for a storm. -/
theorem stale_after_an_hour :
    ((start .fullDebounced 60).after (List.replicate 60 (.arrival 0))).selectMode 1
        (60 * minuteNs) = .fallbackStale ∧
      recent ((start .fullDebounced 60).arrivals (List.replicate 60 (.arrival 0)))
        (60 * minuteNs) = 0 ∧
      ((start .fullDebounced 60).after (List.replicate 60 (.arrival 0))).lastRecomputeAt = none := by
  decide

/-- An hour after a burst of arrivals the refusal has none of its reasons. -/
theorem fallback_iff_hour :
    ¬ (((start .fullDebounced 60).after (List.replicate 60 (.arrival 0))).selectMode 1
        (60 * minuteNs) = .fallbackStale →
      LeidenMode.fullDebounced ≠ .full ∧
        (graphSizeGateV ≤ 1 ∨
          (60 : UInt32).toNat ≤ recent ((start .fullDebounced 60).arrivals
            (List.replicate 60 (.arrival 0))) (60 * minuteNs) ∨
          ((start .fullDebounced 60).after (List.replicate 60 (.arrival 0))).Debounced
            (60 * minuteNs))) := by
  rw [fallback_iff .fullDebounced 60 (List.replicate 60 (.arrival 0)) (by decide)]
  rintro (forced | large | ⟨last, recomputed, -⟩ | quiet)
  · cases forced
  · exact absurd large (by decide)
  · cases recomputed
  · exact absurd (quiet (by decide)) (by decide)

end LeidenCache

end Mnem.Http
