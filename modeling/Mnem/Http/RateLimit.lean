/-
# Http.RateLimit — the token bucket in front of the remote routes

A call refills the bucket for the time since the last refill and then takes one
token, if there is one.  The bucket counts thousandths of a token, and the rate
is the tokens per second times a million; what a call accrues is the elapsed
nanoseconds times that, divided by 10^9, which is a thousand times the tokens
per second in thousandths (`accrued_eq`).

* `refill_tokens`: a refill tops the bucket up to its capacity at most;
* `admitted_le`: at most one burst passes for each nanosecond;
* `ceiling_iff`: the ceiling of `burst` and `perSecond` a second holds exactly
  where it does not bind: without refills, without tokens, or when a whole burst
  is due each nanosecond;
* `ceiling_thousandfold`: what the bucket does enforce is a thousand times the
  rate.

Pole (fixed input): `two_bursts_in_a_millisecond`, the default limiter.
-/
import Mathlib.Algebra.Order.Floor.Div
import Mathlib.Data.List.Pairwise
import Mathlib.Tactic.Ring
import Mathlib.Tactic.Linarith

namespace Mnem.Http

set_option autoImplicit false

/-- `u64::MAX`. -/
def u64Max : Nat := 2 ^ 64 - 1

/-- `u64::saturating_mul`. -/
def saturatingMul (a b : Nat) : Nat := min (a * b) u64Max

/-- The state of the limiter; `epoch` is reading 0 of the clock. -/
structure RateLimiter where
  tokensMilli : Nat
  lastRefillNs : Nat
  refillPerNsMilliMega : Nat
  capacityMilli : Nat
  deriving DecidableEq, Repr

namespace RateLimiter

/-- A limiter with a full bucket. -/
def new (perSecond burst : Nat) : RateLimiter where
  tokensMilli := saturatingMul burst 1000
  lastRefillNs := 0
  refillPerNsMilliMega := saturatingMul perSecond 1000000
  capacityMilli := saturatingMul burst 1000

/-- The thousandths of a token that accrue in some nanoseconds. -/
def accrued (l : RateLimiter) (elapsedNs : Nat) : Nat :=
  saturatingMul elapsedNs l.refillPerNsMilliMega / 1000000000

/-- The refill at a reading; the timestamp moves only when something accrued. -/
def refill (l : RateLimiter) (nowNs : Nat) : RateLimiter :=
  let elapsedNs := nowNs - l.lastRefillNs
  if 0 < elapsedNs then
    let accruedMilli := l.accrued elapsedNs
    if 0 < accruedMilli then
      -- `fetch_add` wraps; the sum compared with the capacity saturates
      let stored := (l.tokensMilli + accruedMilli) % 2 ^ 64
      let total := min (l.tokensMilli + accruedMilli) u64Max
      { l with
        lastRefillNs := nowNs
        tokensMilli := if l.capacityMilli < total then l.capacityMilli else stored }
    else l
  else l

def spend (l : RateLimiter) (milli : Nat) : RateLimiter :=
  { l with tokensMilli := l.tokensMilli - milli }

/-- One call at a reading of the clock: whether it is admitted, and the state after it. -/
def tryConsume (l : RateLimiter) (elapsedNs : Nat) : Bool × RateLimiter :=
  let l := l.refill (min elapsedNs u64Max)
  if l.tokensMilli < 1000 then (false, l)
  else (true, l.spend 1000)

/-- The verdicts of calls at the given readings. -/
def verdicts : RateLimiter → List Nat → List (Nat × Bool)
  | _, [] => []
  | l, t :: ts => (t, (l.tryConsume t).1) :: verdicts (l.tryConsume t).2 ts

/-- The state after calls at the given readings. -/
def after (l : RateLimiter) (ts : List Nat) : RateLimiter :=
  ts.foldl (fun l t => (l.tryConsume t).2) l

/-- How many calls are admitted from reading `t₀` on, for `T` nanoseconds. -/
def admitted (l : RateLimiter) (ts : List Nat) (t₀ T : Nat) : Nat :=
  (l.verdicts ts).countP fun v => v.2 && (t₀ ≤ v.1 && v.1 ≤ t₀ + T)

/-! ## One call -/

/-- The bucket is within its capacity, and the capacity is not the largest number. -/
structure Fits (l : RateLimiter) : Prop where
  tokens : l.tokensMilli ≤ l.capacityMilli
  capacity : l.capacityMilli < u64Max

/-- Nothing more accrues at this reading. -/
def Current (l : RateLimiter) (t : Nat) : Prop := l.accrued (min t u64Max - l.lastRefillNs) = 0

/-- No refill lies in the future. -/
def Past (l : RateLimiter) (t : Nat) : Prop := l.lastRefillNs ≤ min t u64Max

@[simp] theorem accrued_zero (l : RateLimiter) : l.accrued 0 = 0 := by
  simp [accrued, saturatingMul]

@[simp] theorem spend_tokensMilli (l : RateLimiter) (n : Nat) :
    (l.spend n).tokensMilli = l.tokensMilli - n := rfl

@[simp] theorem spend_lastRefillNs (l : RateLimiter) (n : Nat) :
    (l.spend n).lastRefillNs = l.lastRefillNs := rfl

@[simp] theorem spend_refillPerNsMilliMega (l : RateLimiter) (n : Nat) :
    (l.spend n).refillPerNsMilliMega = l.refillPerNsMilliMega := rfl

theorem spend_spend (l : RateLimiter) (m n : Nat) : (l.spend m).spend n = l.spend (m + n) := by
  simp [spend, Nat.sub_sub]

theorem Past.spend {l : RateLimiter} {t : Nat} (past : l.Past t) (n : Nat) :
    (l.spend n).Past t := past

theorem Current.spend {l : RateLimiter} {t : Nat} (current : l.Current t) (n : Nat) :
    (l.spend n).Current t := current

theorem accrued_le (l : RateLimiter) (e : Nat) :
    1000000000 * l.accrued e ≤ e * l.refillPerNsMilliMega := by
  have floor := Nat.mul_div_le (saturatingMul e l.refillPerNsMilliMega) 1000000000
  exact floor.trans (min_le_left _ _)

theorem fits_new (perSecond : Nat) {burst : Nat} (small : burst * 1000 < 2 ^ 64) :
    (new perSecond burst).Fits := by
  constructor
  · exact le_refl _
  · show min (burst * 1000) u64Max < u64Max
    unfold u64Max
    omega

theorem refill_of_current {l : RateLimiter} {t : Nat} (current : l.Current t) :
    l.refill (min t u64Max) = l := by
  unfold Current at current
  simp [refill, current]

/-- A refill that accrues something tops the bucket up. -/
theorem refill_tokens {l : RateLimiter} (fits : l.Fits) {now : Nat}
    (some_accrued : 0 < l.accrued (now - l.lastRefillNs)) :
    l.refill now = { l with
      lastRefillNs := now
      tokensMilli := min (l.tokensMilli + l.accrued (now - l.lastRefillNs)) l.capacityMilli } := by
  have elapsed : 0 < now - l.lastRefillNs := by
    by_contra none
    rw [Nat.eq_zero_of_not_pos none, accrued_zero] at some_accrued
    omega
  have ⟨within, small⟩ := fits
  unfold refill
  simp only [elapsed, some_accrued, if_true]
  generalize l.accrued (now - l.lastRefillNs) = a
  by_cases tops : l.capacityMilli < min (l.tokensMilli + a) u64Max
  · rw [if_pos tops, min_eq_right]
    omega
  · have stays : l.tokensMilli + a ≤ l.capacityMilli := by omega
    rw [if_neg tops, min_eq_left stays, Nat.mod_eq_of_lt]
    unfold u64Max at small
    omega

/-- What a refill at a reading leaves. -/
structure Refilled (l l' : RateLimiter) (t : Nat) : Prop where
  fits : l'.Fits
  current : l'.Current t
  rate : l'.refillPerNsMilliMega = l.refillPerNsMilliMega
  capacity : l'.capacityMilli = l.capacityMilli

theorem refilled {l : RateLimiter} (fits : l.Fits) (t : Nat) :
    l.Refilled (l.refill (min t u64Max)) t := by
  by_cases nothing : l.Current t
  · rw [refill_of_current nothing]
    exact ⟨fits, nothing, rfl, rfl⟩
  · rw [refill_tokens fits (Nat.pos_of_ne_zero nothing)]
    refine ⟨⟨min_le_right _ _, fits.capacity⟩, ?_, rfl, rfl⟩
    show accrued _ (min t u64Max - min t u64Max) = 0
    rw [Nat.sub_self, accrued_zero]

theorem Refilled.spend {l l' : RateLimiter} {t : Nat} (done : l.Refilled l' t) (n : Nat) :
    l.Refilled (l'.spend n) t :=
  ⟨⟨(Nat.sub_le _ _).trans done.fits.tokens, done.fits.capacity⟩, done.current, done.rate,
    done.capacity⟩

/-- A call takes a token out of the refilled bucket exactly when it is admitted. -/
theorem tryConsume_spends (l : RateLimiter) (t : Nat) :
    1000 * (l.tryConsume t).1.toNat + (l.tryConsume t).2.tokensMilli =
      (l.refill (min t u64Max)).tokensMilli := by
  unfold tryConsume
  by_cases short : (l.refill (min t u64Max)).tokensMilli < 1000
  · simp [short]
  · simp only [short, if_false, Bool.toNat_true, spend_tokensMilli]
    omega

theorem tryConsume_refilled {l : RateLimiter} (fits : l.Fits) (t : Nat) :
    l.Refilled (l.tryConsume t).2 t := by
  have after_refill := refilled fits t
  unfold tryConsume
  by_cases short : (l.refill (min t u64Max)).tokensMilli < 1000
  · simpa [short] using after_refill
  · simp only [short, if_false]
    exact after_refill.spend 1000

/-! ## Runs -/

theorem admitted_cons (l : RateLimiter) (t : Nat) (ts : List Nat) (t₀ T : Nat) :
    l.admitted (t :: ts) t₀ T =
      (if t₀ ≤ t ∧ t ≤ t₀ + T then (l.tryConsume t).1.toNat else 0) +
        (l.tryConsume t).2.admitted ts t₀ T := by
  unfold admitted
  rw [verdicts, List.countP_cons, Nat.add_comm]
  congr 1
  cases (l.tryConsume t).1 <;> simp

theorem admitted_cons_le (l : RateLimiter) (t : Nat) (ts : List Nat) (t₀ T : Nat) :
    l.admitted (t :: ts) t₀ T ≤ (l.tryConsume t).1.toNat + (l.tryConsume t).2.admitted ts t₀ T := by
  rw [admitted_cons]
  split <;> omega

theorem admitted_of_late {t₀ T : Nat} (ts : List Nat) (l : RateLimiter)
    (late : ∀ t ∈ ts, t₀ + T < t) : l.admitted ts t₀ T = 0 := by
  induction ts generalizing l with
  | nil => rfl
  | cons t ts ih =>
      have out : ¬ (t₀ ≤ t ∧ t ≤ t₀ + T) := by
        have := late t List.mem_cons_self
        omega
      rw [admitted_cons, if_neg out, ih _ fun u m => late u (List.mem_cons_of_mem _ m)]

theorem fits_after {l : RateLimiter} (fits : l.Fits) (ts : List Nat) :
    (l.after ts).Fits ∧ (l.after ts).capacityMilli = l.capacityMilli := by
  induction ts generalizing l with
  | nil => exact ⟨fits, rfl⟩
  | cons t ts ih =>
      have step := tryConsume_refilled fits t
      obtain ⟨rest, same⟩ := ih step.fits
      exact ⟨rest, same.trans step.capacity⟩

/-! ## A burst each nanosecond -/

/-- From a reading at which nothing accrues any more: the tokens left, and a full bucket for
each nanosecond that follows. -/
theorem admitted_current_le (t₀ T : Nat) (ts : List Nat) {l : RateLimiter} {c : Nat}
    (fits : l.Fits) (current : l.Current c) (sorted : (c :: ts).Pairwise (· ≤ ·)) :
    1000 * l.admitted ts t₀ T ≤ l.tokensMilli + l.capacityMilli * (t₀ + T - c) := by
  induction ts generalizing l c with
  | nil => simp [admitted, verdicts]
  | cons t ts ih =>
      have le : c ≤ t := List.rel_of_pairwise_cons sorted List.mem_cons_self
      have sorted' : (t :: ts).Pairwise (· ≤ ·) := sorted.of_cons
      have step := tryConsume_refilled fits t
      have rest := ih step.fits step.current sorted'
      rw [step.capacity] at rest
      have spends := tryConsume_spends l t
      have counted := l.admitted_cons_le t ts t₀ T
      by_cases now : t = c
      · subst now
        rw [refill_of_current current] at spends
        omega
      · by_cases late : t₀ + T < t
        · have after_t : ∀ u ∈ t :: ts, t₀ + T < u := by
            intro u m
            rcases List.mem_cons.mp m with rfl | later
            · exact late
            · exact late.trans_le (List.rel_of_pairwise_cons sorted' later)
          rw [admitted_of_late _ l after_t]
          omega
        · -- the refill at `t` is the full bucket of the nanosecond after `c`
          have full := (refilled fits t).fits.tokens
          rw [(refilled fits t).capacity] at full
          have gap : l.capacityMilli * (t₀ + T - t) + l.capacityMilli ≤
              l.capacityMilli * (t₀ + T - c) := by
            rw [← Nat.mul_succ]
            exact Nat.mul_le_mul_left _ (by omega)
          omega

theorem admitted_le (t₀ T : Nat) (ts : List Nat) {l : RateLimiter} (fits : l.Fits)
    (sorted : ts.Pairwise (· ≤ ·)) :
    1000 * l.admitted ts t₀ T ≤ l.capacityMilli * (T + 1) := by
  induction ts generalizing l with
  | nil => simp [admitted, verdicts]
  | cons t ts ih =>
      have step := tryConsume_refilled fits t
      by_cases early : t < t₀
      · rw [admitted_cons, if_neg (by omega), Nat.zero_add, ← step.capacity]
        exact ih step.fits sorted.of_cons
      · have rest := admitted_current_le t₀ T ts step.fits step.current sorted
        rw [step.capacity] at rest
        have spends := tryConsume_spends l t
        have counted := l.admitted_cons_le t ts t₀ T
        have full := (refilled fits t).fits.tokens
        rw [(refilled fits t).capacity] at full
        have window : l.capacityMilli * (t₀ + T - t) ≤ l.capacityMilli * T :=
          Nat.mul_le_mul_left _ (by omega)
        rw [Nat.mul_succ]
        omega

/-! ## What the refills let through -/

/-- The tokens there are and the ones under way, in 10^9ths of a thousandth. -/
def potential (l : RateLimiter) (t : Nat) : Nat :=
  1000000000 * l.tokensMilli + l.refillPerNsMilliMega * (min t u64Max - l.lastRefillNs)

theorem past_refill {l : RateLimiter} (fits : l.Fits) {c t : Nat} (past : l.Past c)
    (le : c ≤ t) : (l.refill (min t u64Max)).Past t := by
  unfold Past at past ⊢
  by_cases nothing : l.Current t
  · rw [refill_of_current nothing]
    omega
  · rw [refill_tokens fits (Nat.pos_of_ne_zero nothing)]

/-- A refill turns what is under way into tokens, and makes none. -/
theorem potential_refill {l : RateLimiter} (fits : l.Fits) {c t : Nat} (past : l.Past c)
    (le : c ≤ t) :
    (l.refill (min t u64Max)).potential t ≤
      l.potential c + l.refillPerNsMilliMega * (t - c) := by
  have elapsed : l.refillPerNsMilliMega * (min t u64Max - l.lastRefillNs) ≤
      l.refillPerNsMilliMega * (min c u64Max - l.lastRefillNs) +
        l.refillPerNsMilliMega * (t - c) := by
    rw [← Nat.mul_add]
    unfold Past at past
    exact Nat.mul_le_mul_left _ (by omega)
  by_cases nothing : l.Current t
  · rw [refill_of_current nothing]
    unfold potential
    omega
  · rw [refill_tokens fits (Nat.pos_of_ne_zero nothing)]
    have made := l.accrued_le (min t u64Max - l.lastRefillNs)
    rw [Nat.mul_comm _ l.refillPerNsMilliMega] at made
    unfold potential
    simp only [Nat.sub_self, Nat.mul_zero]
    omega

theorem potential_tryConsume (l : RateLimiter) (t : Nat) :
    1000000000000 * (l.tryConsume t).1.toNat + (l.tryConsume t).2.potential t =
      (l.refill (min t u64Max)).potential t := by
  unfold tryConsume potential
  by_cases short : (l.refill (min t u64Max)).tokensMilli < 1000
  · simp [short]
  · simp only [short, if_false, Bool.toNat_true, spend_tokensMilli, spend_lastRefillNs,
      spend_refillPerNsMilliMega]
    omega

theorem past_tryConsume {l : RateLimiter} (fits : l.Fits) {c t : Nat} (past : l.Past c)
    (le : c ≤ t) : (l.tryConsume t).2.Past t := by
  have refilled := past_refill fits past le
  unfold tryConsume
  by_cases short : (l.refill (min t u64Max)).tokensMilli < 1000
  · simpa [short] using refilled
  · simp only [short, if_false]
    exact refilled.spend 1000

theorem admitted_potential_le (t₀ T : Nat) (ts : List Nat) {l : RateLimiter} {c : Nat}
    (fits : l.Fits) (past : l.Past c) (sorted : (c :: ts).Pairwise (· ≤ ·)) :
    1000000000000 * l.admitted ts t₀ T ≤
      l.potential c + l.refillPerNsMilliMega * (t₀ + T - c) := by
  induction ts generalizing l c with
  | nil => simp [admitted, verdicts]
  | cons t ts ih =>
      have le : c ≤ t := List.rel_of_pairwise_cons sorted List.mem_cons_self
      have sorted' : (t :: ts).Pairwise (· ≤ ·) := sorted.of_cons
      by_cases late : t₀ + T < t
      · have after_t : ∀ u ∈ t :: ts, t₀ + T < u := by
          intro u m
          rcases List.mem_cons.mp m with rfl | later
          · exact late
          · exact late.trans_le (List.rel_of_pairwise_cons sorted' later)
        rw [admitted_of_late _ l after_t]
        omega
      · have step := tryConsume_refilled fits t
        have rest := ih step.fits (past_tryConsume fits past le) sorted'
        rw [step.rate] at rest
        have spends := potential_tryConsume l t
        have turned := potential_refill fits past le
        have counted := l.admitted_cons_le t ts t₀ T
        have gap : l.refillPerNsMilliMega * (t₀ + T - t) + l.refillPerNsMilliMega * (t - c) =
            l.refillPerNsMilliMega * (t₀ + T - c) := by
          rw [← Nat.mul_add]
          congr 1
          omega
        omega

/-- What is under way and has not accrued yet is less than a thousandth of a token. -/
theorem underway_lt {l : RateLimiter} {t : Nat} (current : l.Current t) :
    l.refillPerNsMilliMega * (min t u64Max - l.lastRefillNs) < 1000000000 := by
  unfold Current accrued saturatingMul at current
  rw [Nat.mul_comm]
  generalize (min t u64Max - l.lastRefillNs) * l.refillPerNsMilliMega = product at current ⊢
  unfold u64Max at current
  omega

theorem admitted_milli_le (t₀ T : Nat) (ts : List Nat) {l : RateLimiter} {c : Nat}
    (fits : l.Fits) (past : l.Past c) (sorted : (c :: ts).Pairwise (· ≤ ·)) :
    1000000000000 * l.admitted ts t₀ T <
      1000000000 * l.capacityMilli + 1000000000 + l.refillPerNsMilliMega * T := by
  induction ts generalizing l c with
  | nil =>
      simp only [admitted, verdicts, List.countP_nil, Nat.mul_zero]
      omega
  | cons t ts ih =>
      have le : c ≤ t := List.rel_of_pairwise_cons sorted List.mem_cons_self
      have sorted' : (t :: ts).Pairwise (· ≤ ·) := sorted.of_cons
      have step := tryConsume_refilled fits t
      have past' := past_tryConsume fits past le
      by_cases early : t < t₀
      · rw [admitted_cons, if_neg (by omega), Nat.zero_add, ← step.capacity, ← step.rate]
        exact ih step.fits past' sorted'
      · -- the first call in the window finds at most a full bucket and a rest under way
        have rest := admitted_potential_le t₀ T ts step.fits past' sorted'
        rw [step.rate] at rest
        have spends := potential_tryConsume l t
        have counted := l.admitted_cons_le t ts t₀ T
        have full := (refilled fits t).fits.tokens
        rw [(refilled fits t).capacity] at full
        have underway := underway_lt (refilled fits t).current
        have window : l.refillPerNsMilliMega * (t₀ + T - t) ≤ l.refillPerNsMilliMega * T :=
          Nat.mul_le_mul_left _ (by omega)
        unfold potential at spends
        unfold potential at rest
        omega

/-! ## Runs that use every refill -/

/-- From reading `c` on, `q` calls each `e` nanoseconds, `k` times. -/
def rounds (e q : Nat) : Nat → Nat → List Nat
  | _, 0 => []
  | c, k + 1 => List.replicate q (c + e) ++ rounds e q (c + e) k

/-- Calls that are all admitted. -/
def AllAdmitted (l : RateLimiter) (ts : List Nat) : Prop :=
  l.verdicts ts = ts.map fun t => (t, true)

theorem after_cons (l : RateLimiter) (t : Nat) (ts : List Nat) :
    l.after (t :: ts) = (l.tryConsume t).2.after ts := rfl

theorem after_append (l : RateLimiter) (ts us : List Nat) :
    l.after (ts ++ us) = (l.after ts).after us := List.foldl_append

theorem verdicts_append (ts us : List Nat) (l : RateLimiter) :
    l.verdicts (ts ++ us) = l.verdicts ts ++ (l.after ts).verdicts us := by
  induction ts generalizing l with
  | nil => rfl
  | cons t ts ih => exact congrArg _ (ih _)

theorem AllAdmitted.append {l : RateLimiter} {ts us : List Nat} (first : l.AllAdmitted ts)
    (second : (l.after ts).AllAdmitted us) : l.AllAdmitted (ts ++ us) := by
  unfold AllAdmitted at *
  rw [verdicts_append, first, second, List.map_append]

theorem AllAdmitted.admitted_eq {l : RateLimiter} {ts : List Nat} (all : l.AllAdmitted ts)
    {t₀ T : Nat} (inside : ∀ t ∈ ts, t₀ ≤ t ∧ t ≤ t₀ + T) : l.admitted ts t₀ T = ts.length := by
  unfold admitted
  rw [all, List.countP_map, List.countP_eq_length]
  intro t m
  simpa using inside t m

theorem tryConsume_of_tokens {l : RateLimiter} {t : Nat} (current : l.Current t)
    (enough : 1000 ≤ l.tokensMilli) :
    l.tryConsume t = (true, l.spend 1000) := by
  unfold tryConsume
  rw [refill_of_current current]
  exact if_neg (by omega)

theorem replicate_admitted {t : Nat} (n : Nat) {l : RateLimiter} (current : l.Current t)
    (enough : 1000 * n ≤ l.tokensMilli) :
    l.AllAdmitted (List.replicate n t) ∧
      l.after (List.replicate n t) = l.spend (1000 * n) := by
  induction n generalizing l with
  | zero => exact ⟨rfl, rfl⟩
  | succ n ih =>
      have call := tryConsume_of_tokens current (by omega)
      have enough' : 1000 * n ≤ (l.spend 1000).tokensMilli := by
        rw [spend_tokensMilli]
        omega
      obtain ⟨all, last⟩ := ih (current.spend 1000) enough'
      constructor
      · unfold AllAdmitted at *
        rw [List.replicate_succ, verdicts, call, all]
        rfl
      · rw [List.replicate_succ, after_cons, call, last, spend_spend, Nat.mul_succ, Nat.add_comm]

theorem tryConsume_refill {l : RateLimiter} (fits : l.Fits) (t : Nat) :
    (l.refill (min t u64Max)).tryConsume t = l.tryConsume t := by
  unfold tryConsume
  rw [refill_of_current (refilled fits t).current]

/-- One round: what accrued in `e` nanoseconds lets `q` calls through. -/
theorem round_admitted {l : RateLimiter} {e q t : Nat} (fits : l.Fits) (some_call : 0 < q)
    (reached : t = l.lastRefillNs + e) (small : t ≤ u64Max) (due : 1000 * q ≤ l.accrued e)
    (fit : 1000 * q ≤ l.capacityMilli) :
    l.AllAdmitted (List.replicate q t) ∧ l.Refilled (l.after (List.replicate q t)) t ∧
      (l.after (List.replicate q t)).lastRefillNs = t := by
  obtain ⟨n, rfl⟩ := Nat.exists_eq_add_of_lt some_call
  rw [Nat.zero_add] at *
  have elapsed : min t u64Max - l.lastRefillNs = e := by omega
  have topped : l.refill (min t u64Max) = _ := refill_tokens fits (by rw [elapsed]; omega)
  have done := refilled fits t
  have enough : 1000 * (n + 1) ≤ (l.refill (min t u64Max)).tokensMilli := by
    rw [topped, elapsed]
    exact le_min (by omega) fit
  obtain ⟨all, last⟩ := replicate_admitted (n + 1) done.current enough
  have same_after : l.after (List.replicate (n + 1) t) =
      (l.refill (min t u64Max)).spend (1000 * (n + 1)) := by
    rw [← last, List.replicate_succ, after_cons, after_cons, tryConsume_refill fits]
  refine ⟨?_, ?_, ?_⟩
  · unfold AllAdmitted at *
    rw [List.replicate_succ] at *
    rw [verdicts, tryConsume_refill fits] at all
    exact all
  · rw [same_after]
    exact done.spend _
  · rw [same_after, topped]
    exact min_eq_left small

theorem rounds_admitted {e q : Nat} (some_call : 0 < q) (k : Nat) {l : RateLimiter} {c : Nat}
    (fits : l.Fits) (reached : l.lastRefillNs = c) (small : c + k * e ≤ u64Max)
    (due : 1000 * q ≤ l.accrued e) (fit : 1000 * q ≤ l.capacityMilli) :
    l.AllAdmitted (rounds e q c k) := by
  induction k generalizing l c with
  | zero => rfl
  | succ k ih =>
      rw [Nat.succ_mul] at small
      obtain ⟨all, done, last⟩ := round_admitted (t := c + e) fits some_call (by rw [reached])
        (by omega) due fit
      refine all.append (ih done.fits last (by omega) ?_ (done.capacity.symm ▸ fit))
      unfold accrued
      rw [done.rate]
      exact due

theorem length_rounds (e q c k : Nat) : (rounds e q c k).length = k * q := by
  induction k generalizing c with
  | zero => simp [rounds]
  | succ k ih =>
      rw [rounds, List.length_append, List.length_replicate, ih, Nat.succ_mul, Nat.add_comm]

theorem mem_rounds {e q k : Nat} {c t : Nat} (m : t ∈ rounds e q c k) :
    c ≤ t ∧ t ≤ c + k * e := by
  induction k generalizing c with
  | zero => cases m
  | succ k ih =>
      rw [Nat.succ_mul]
      rcases List.mem_append.mp m with now | later
      · have here := List.eq_of_mem_replicate now
        omega
      · have there := ih later
        omega

theorem sorted_rounds (e q c k : Nat) : (rounds e q c k).Pairwise (· ≤ ·) := by
  induction k generalizing c with
  | zero => exact List.Pairwise.nil
  | succ k ih =>
      refine List.pairwise_append.mpr ⟨List.pairwise_replicate.mpr (Or.inr (le_refl _)),
        ih _, ?_⟩
      intro a now b later
      rw [List.eq_of_mem_replicate now]
      exact (mem_rounds later).1

/-- The bucket drained at reading 0, and then what the rounds let through. -/
def rush (burst e q k : Nat) : List Nat := List.replicate burst 0 ++ rounds e q 0 k

theorem sorted_rush (burst e q k : Nat) : (rush burst e q k).Pairwise (· ≤ ·) := by
  refine List.pairwise_append.mpr ⟨List.pairwise_replicate.mpr (Or.inr (le_refl _)),
    sorted_rounds e q 0 k, ?_⟩
  intro a now b later
  rw [List.eq_of_mem_replicate now]
  exact Nat.zero_le b

theorem admitted_rush {perSecond burst e q k : Nat} (small : burst * 1000 < 2 ^ 64)
    (some_call : 0 < q) (reached : k * e ≤ u64Max)
    (due : 1000 * q ≤ (new perSecond burst).accrued e) (fit : q ≤ burst) :
    (new perSecond burst).admitted (rush burst e q k) 0 (k * e) = burst + k * q := by
  have capacity : saturatingMul burst 1000 = burst * 1000 := by
    unfold saturatingMul u64Max
    omega
  have current : (new perSecond burst).Current 0 := by
    show accrued _ (min 0 u64Max - 0) = 0
    rw [Nat.zero_min, accrued_zero]
  obtain ⟨drained, last⟩ := replicate_admitted burst current (by
    show 1000 * burst ≤ saturatingMul burst 1000
    omega)
  have fits : ((new perSecond burst).spend (1000 * burst)).Fits := by
    have full := fits_new perSecond small
    exact ⟨(Nat.sub_le _ _).trans full.tokens, full.capacity⟩
  have all : (new perSecond burst).AllAdmitted (rush burst e q k) := by
    refine drained.append ?_
    rw [last]
    refine rounds_admitted some_call k fits rfl (by omega) due ?_
    show 1000 * q ≤ saturatingMul burst 1000
    omega
  rw [all.admitted_eq]
  · rw [rush, List.length_append, List.length_replicate, length_rounds]
  · intro t m
    rcases List.mem_append.mp m with now | later
    · rw [List.eq_of_mem_replicate now]
      omega
    · exact mem_rounds later

/-! ## The ceiling -/

/-- `perSecond * T / 10^9`, rounded up. -/
def allowance (perSecond T : Nat) : Nat := (perSecond * T + 999999999) / 1000000000

/-- The documented ceiling, over every run of calls. -/
def Enforces (perSecond burst : Nat) : Prop :=
  ∀ ts : List Nat, ts.Pairwise (· ≤ ·) →
    (∀ t₀ T, (new perSecond burst).admitted ts t₀ T ≤ burst + allowance perSecond T) ∧
      ((new perSecond burst).after ts).tokensMilli ≤ burst * 1000

theorem rate_new {perSecond burst : Nat} (small : perSecond * 1000000 < 2 ^ 64) :
    (new perSecond burst).refillPerNsMilliMega = perSecond * 1000000 :=
  min_eq_left (by unfold u64Max; omega)

theorem capacity_new (perSecond : Nat) {burst : Nat} (small : burst * 1000 < 2 ^ 64) :
    (new perSecond burst).capacityMilli = burst * 1000 :=
  min_eq_left (by unfold u64Max; omega)

/-- What accrues is a thousand times the rate, in thousandths of a token. -/
theorem accrued_eq {perSecond burst e : Nat} (small : perSecond * 1000000 < 2 ^ 64)
    (short : e * perSecond * 1000000 ≤ u64Max) :
    (new perSecond burst).accrued e = e * perSecond / 1000 := by
  unfold accrued saturatingMul
  rw [rate_new small, ← Nat.mul_assoc, min_eq_left short]
  omega

theorem admitted_new_lt {perSecond burst : Nat} (t₀ T : Nat) {ts : List Nat}
    (small : burst * 1000 < 2 ^ 64) (small' : perSecond * 1000000 < 2 ^ 64)
    (sorted : ts.Pairwise (· ≤ ·)) :
    1000000 * (new perSecond burst).admitted ts t₀ T < 1000000 * burst + 1000 + perSecond * T := by
  have bound := admitted_milli_le t₀ T ts (c := 0)
    (fits_new perSecond small) (Nat.zero_le _)
    (List.pairwise_cons.mpr ⟨fun t _ => Nat.zero_le t, sorted⟩)
  rw [rate_new small', capacity_new perSecond small, Nat.mul_right_comm] at bound
  omega

/-- **The ceiling that the bucket enforces**: a thousand times the rate it is given. -/
theorem ceiling_thousandfold {perSecond burst : Nat} (small : burst * 1000 < 2 ^ 64)
    (small' : perSecond * 1000000 < 2 ^ 64) {ts : List Nat} (sorted : ts.Pairwise (· ≤ ·))
    (t₀ T : Nat) :
    (new perSecond burst).admitted ts t₀ T ≤ burst + (perSecond * T + 999999) / 1000000 := by
  have bound := admitted_new_lt t₀ T small small' sorted
  omega

/-- A slow rate lets a token through every `10^6 / perSecond` nanoseconds. -/
theorem slow_overruns {perSecond burst : Nat} (small : burst * 1000 < 2 ^ 64)
    (small' : perSecond * 1000000 < 2 ^ 64) (some_rate : 0 < perSecond) (some_burst : 0 < burst)
    (slow : perSecond < 1000000) :
    ¬ Enforces perSecond burst := by
  intro enforced
  obtain ⟨e, lower, upper⟩ : ∃ e, 1000000 ≤ e * perSecond ∧ e * perSecond < 2000000 := by
    refine ⟨(1000000 + perSecond - 1) / perSecond, ?_, ?_⟩
    · have rest := Nat.lt_mul_div_succ (1000000 + perSecond - 1) some_rate
      rw [Nat.mul_succ, Nat.mul_comm] at rest
      omega
    · have floor := Nat.div_mul_le_self (1000000 + perSecond - 1) perSecond
      omega
  have few : e ≤ e * perSecond := Nat.le_mul_of_pos_right e some_rate
  have short : e * perSecond * 1000000 ≤ u64Max := by
    unfold u64Max
    omega
  have made : (new perSecond burst).accrued e = e * perSecond / 1000 := accrued_eq small' short
  have due : 1000 * 1 ≤ (new perSecond burst).accrued e := by omega
  have passed := admitted_rush (k := 2) small Nat.one_pos (by unfold u64Max; omega) due some_burst
  have bound := (enforced _ (sorted_rush burst e 1 2)).1 0 (2 * e)
  rw [passed, allowance, Nat.mul_left_comm, Nat.mul_comm perSecond] at bound
  omega

/-- A fast rate lets tokens through each nanosecond. -/
theorem fast_overruns {perSecond burst : Nat} (small : burst * 1000 < 2 ^ 64)
    (small' : perSecond * 1000000 < 2 ^ 64) (some_burst : 0 < burst)
    (fast : 1000000 ≤ perSecond) (binds : perSecond < 1000000000 * burst) :
    ¬ Enforces perSecond burst := by
  intro enforced
  obtain ⟨k, billion⟩ : ∃ k, k = 1000000000 := ⟨_, rfl⟩
  have due : 1000 * min burst (perSecond / 1000000) ≤ (new perSecond burst).accrued 1 := by
    rw [accrued_eq small' (by unfold u64Max; omega)]
    omega
  have passed := admitted_rush (k := k) small (by omega) (by unfold u64Max; omega) due
    (min_le_left _ _)
  have bound := (enforced _ (sorted_rush burst 1 (min burst (perSecond / 1000000)) k)).1 0 (k * 1)
  rw [passed, allowance] at bound
  subst billion
  omega

/-- **Where the limiter keeps its ceiling**: exactly where it never refills, holds no token,
or is due a whole burst each nanosecond. -/
theorem ceiling_iff {perSecond burst : Nat} (small : burst * 1000 < 2 ^ 64)
    (small' : perSecond * 1000000 < 2 ^ 64) :
    Enforces perSecond burst ↔
      perSecond = 0 ∨ burst = 0 ∨ 1000000000 * burst ≤ perSecond := by
  constructor
  · intro enforced
    by_contra fails
    rw [not_or, not_or, not_le] at fails
    obtain ⟨some_rate, some_burst, binds⟩ := fails
    by_cases slow : perSecond < 1000000
    · exact slow_overruns small small' (Nat.pos_of_ne_zero some_rate)
        (Nat.pos_of_ne_zero some_burst) slow enforced
    · exact fast_overruns small small' (Nat.pos_of_ne_zero some_burst) (not_lt.mp slow) binds
        enforced
  · intro loose ts sorted
    have fits := fits_new perSecond small
    constructor
    · intro t₀ T
      have each := admitted_le t₀ T ts fits sorted
      rw [capacity_new perSecond small] at each
      rcases loose with rfl | rfl | due
      · have bound := admitted_new_lt t₀ T small small' sorted
        omega
      · omega
      · have window : 1000000000 * burst * T ≤ perSecond * T := Nat.mul_le_mul_right T due
        rw [Nat.mul_succ, Nat.mul_right_comm] at each
        rw [Nat.mul_assoc] at window
        unfold allowance
        omega
    · obtain ⟨within, same⟩ := fits_after fits ts
      rw [← capacity_new perSecond small, ← same]
      exact within.tokens

theorem ceiling_iff_default : ¬ Enforces 100 50 := by
  rw [ceiling_iff (by decide) (by decide)]
  decide

/-- The default limiter, 100 a second with bursts of 50, lets two bursts through within a
millisecond; the ceiling is one call more than a burst. -/
theorem two_bursts_in_a_millisecond :
    (List.replicate 50 0 ++ List.replicate 50 1000000).Pairwise (· ≤ ·) ∧
      (new 100 50).admitted (List.replicate 50 0 ++ List.replicate 50 1000000) 0 1000000 = 100 ∧
      50 + allowance 100 1000000 = 51 := by
  decide +kernel

end RateLimiter

end Mnem.Http
