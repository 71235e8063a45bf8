/-
# Extract.AuthorRate — the per-author limit on admitted phrases

The limiter counts per author, and clears all counts when a tick finds the
window at least a minute old.  The window does not roll: it starts where a tick
cleared it.

* `granted_le_of_settled`: between two resets an author has at most the cap;
* `granted_le_twice`: two resets are a minute apart, so a minute sees at most one
  of them, and an author has at most twice the cap in it;
* `granted_only`: the other authors do not matter.

Pole (fixed input): `burst_around_reset`, one phrase each before and after a
reset.
-/
import Mnem.Theory.OrdMap
import Mathlib.Order.Nat

namespace Mnem.Extract

open Theory

set_option autoImplicit false

def authorRateLimitWindowSecs : Nat := 60

/-- The limiter; `buckets` has the authors seen in the current window. -/
structure AuthorRateLimiter (A : Type) [LinearOrder A] where
  perCommitCap : Nat
  windowStartSecs : Nat
  buckets : OrdMap A Nat

/-- A tick of the clock, and the author of a phrase that is tried after it, if there is one. -/
structure Attempt (A : Type) where
  nowSecs : Nat
  author : Option A

namespace AuthorRateLimiter

variable {A : Type} [LinearOrder A]

def new (perCommitCap nowSecs : Nat) : AuthorRateLimiter A := ⟨perCommitCap, nowSecs, OrdMap.empty⟩

/-- All buckets are cleared once the window is a minute old. -/
def tick (l : AuthorRateLimiter A) (nowSecs : Nat) : AuthorRateLimiter A :=
  if l.windowStartSecs ≤ nowSecs ∧ authorRateLimitWindowSecs ≤ nowSecs - l.windowStartSecs then
    { l with buckets := OrdMap.empty, windowStartSecs := nowSecs }
  else l

/-- `entry(author).or_insert(0)`, then a test against the cap. -/
def admits (l : AuthorRateLimiter A) (author : A) : Bool × AuthorRateLimiter A :=
  let counter := (l.buckets.get? author).getD 0
  let entered := { l with buckets := l.buckets.insert author counter }
  if l.perCommitCap ≤ counter then (false, entered)
  else (true, { entered with buckets := entered.buckets.insert author (counter + 1) })

def count (l : AuthorRateLimiter A) (author : A) : Nat := (l.buckets.get? author).getD 0

/-- One attempt: whether a phrase was admitted, and the limiter after it. -/
def attempt (l : AuthorRateLimiter A) (a : Attempt A) : Bool × AuthorRateLimiter A :=
  match a.author with
  | none => (false, l.tick a.nowSecs)
  | some author => (l.tick a.nowSecs).admits author

def after (l : AuthorRateLimiter A) (as : List (Attempt A)) : AuthorRateLimiter A :=
  as.foldl (fun l a => (l.attempt a).2) l

/-- The attempts that were granted. -/
def granted : AuthorRateLimiter A → List (Attempt A) → List (Attempt A)
  | _, [] => []
  | l, a :: as => (if (l.attempt a).1 then [a] else []) ++ granted (l.attempt a).2 as

/-- The phrases admitted for an author. -/
def grantedTo (l : AuthorRateLimiter A) (as : List (Attempt A)) (author : A) : List Nat :=
  ((l.granted as).filter fun a => decide (a.author = some author)).map Attempt.nowSecs

/-- A reading within a minute of another, the end excluded. -/
def within (start now : Nat) : Bool :=
  decide (start ≤ now ∧ now < start + authorRateLimitWindowSecs)

/-! ## One attempt -/

variable {l : AuthorRateLimiter A} {author : A}

theorem tick_cases (l : AuthorRateLimiter A) (now : Nat) :
    (l.windowStartSecs + authorRateLimitWindowSecs ≤ now ∧
      l.tick now = { l with buckets := OrdMap.empty, windowStartSecs := now }) ∨
    (¬ l.windowStartSecs + authorRateLimitWindowSecs ≤ now ∧ l.tick now = l) := by
  unfold tick
  split
  · exact Or.inl ⟨by omega, rfl⟩
  · exact Or.inr ⟨by omega, rfl⟩

/-- An attempt of the author counts when it is granted. -/
theorem admit_cases (l : AuthorRateLimiter A) (author : A) :
    (l.count author < l.perCommitCap ∧ (l.admits author).1 = true ∧
      (l.admits author).2.count author = l.count author + 1) ∨
    (l.perCommitCap ≤ l.count author ∧ l.admits author =
      (false, { l with buckets := l.buckets.insert author (l.count author) })) := by
  unfold admits count
  dsimp only
  by_cases full : l.perCommitCap ≤ (l.buckets.get? author).getD 0
  · rw [if_pos full]
    exact Or.inr ⟨full, rfl⟩
  · rw [if_neg full]
    refine Or.inl ⟨by omega, rfl, ?_⟩
    rw [OrdMap.get?_insert, if_pos rfl, Option.getD_some]

theorem count_admit_other (l : AuthorRateLimiter A) {author other : A} (apart : other ≠ author) :
    (l.admits other).2.buckets.get? author = l.buckets.get? author := by
  unfold admits
  dsimp only
  split
  · rw [OrdMap.get?_insert, if_neg apart]
  · rw [OrdMap.get?_insert, if_neg apart, OrdMap.get?_insert, if_neg apart]

@[simp] theorem admit_windowStartSecs (l : AuthorRateLimiter A) (author : A) :
    (l.admits author).2.windowStartSecs = l.windowStartSecs := by
  unfold admits
  dsimp only
  split <;> rfl

@[simp] theorem admit_perCommitCap (l : AuthorRateLimiter A) (author : A) :
    (l.admits author).2.perCommitCap = l.perCommitCap := by
  unfold admits
  dsimp only
  split <;> rfl

/-- A refused phrase leaves the counts as they are, and at most an empty counter. -/
theorem refused (l : AuthorRateLimiter A) {author : A} (no : (l.admits author).1 = false) :
    (l.admits author).2 = { l with buckets := l.buckets.insert author (l.count author) } ∧
      ∀ other, (l.admits author).2.count other = l.count other := by
  obtain ⟨-, yes, -⟩ | ⟨-, eq⟩ := l.admit_cases author
  · rw [no] at yes
    cases yes
  · rw [eq]
    refine ⟨rfl, fun other => ?_⟩
    unfold count
    rw [OrdMap.get?_insert]
    split
    · rename_i same
      rw [same, Option.getD_some]
    · rfl

/-- What an attempt does to the window. -/
theorem attempt_window (l : AuthorRateLimiter A) (a : Attempt A) :
    (l.attempt a).2.perCommitCap = l.perCommitCap ∧ (l.attempt a).2.windowStartSecs =
      if l.windowStartSecs + authorRateLimitWindowSecs ≤ a.nowSecs then a.nowSecs
      else l.windowStartSecs := by
  unfold attempt
  obtain ⟨old, eq⟩ | ⟨young, eq⟩ := l.tick_cases a.nowSecs
  · cases a.author <;> simp [eq, old]
  · cases a.author <;> simp [eq, young]

/-- What an attempt does to the count of an author, from the count after the tick. -/
theorem attempt_count (l : AuthorRateLimiter A) (a : Attempt A) (author : A) :
    let base := if l.windowStartSecs + authorRateLimitWindowSecs ≤ a.nowSecs then 0
      else l.count author
    ((l.attempt a).1 = true ∧ a.author = some author →
      base < l.perCommitCap ∧ (l.attempt a).2.count author = base + 1) ∧
    (¬ ((l.attempt a).1 = true ∧ a.author = some author) →
      (l.attempt a).2.count author = base) := by
  intro base
  have ticked : (l.tick a.nowSecs).count author = base ∧
      (l.tick a.nowSecs).perCommitCap = l.perCommitCap := by
    obtain ⟨old, eq⟩ | ⟨young, eq⟩ := l.tick_cases a.nowSecs
    · rw [eq]
      exact ⟨(if_pos old).symm, rfl⟩
    · rw [eq]
      exact ⟨(if_neg young).symm, rfl⟩
  rw [← ticked.1, ← ticked.2]
  unfold attempt
  cases tried : a.author with
  | none => exact ⟨fun both => absurd both.1 Bool.false_ne_true, fun _ => rfl⟩
  | some other =>
      dsimp only
      by_cases same : other = author
      · subst same
        obtain ⟨room, yes, counted⟩ | ⟨full, eq⟩ := (l.tick a.nowSecs).admit_cases other
        · exact ⟨fun _ => ⟨room, counted⟩, fun no => absurd ⟨yes, rfl⟩ no⟩
        · have no : ((l.tick a.nowSecs).admits other).1 = false := by rw [eq]
          refine ⟨fun both => ?_, fun _ => ((l.tick a.nowSecs).refused no).2 other⟩
          rw [no] at both
          cases both.1
      · refine ⟨fun both => absurd (Option.some.inj both.2) same, fun _ => ?_⟩
        unfold count
        rw [(l.tick a.nowSecs).count_admit_other same]

theorem grantedTo_cons (l : AuthorRateLimiter A) (a : Attempt A) (as : List (Attempt A))
    (author : A) :
    l.grantedTo (a :: as) author =
      (if (l.attempt a).1 = true ∧ a.author = some author then [a.nowSecs] else []) ++
        (l.attempt a).2.grantedTo as author := by
  unfold grantedTo
  rw [granted, List.filter_append, List.map_append]
  congr 1
  by_cases yes : (l.attempt a).1 = true
  · by_cases same : a.author = some author
    · simp [yes, same]
    · simp [yes, same]
  · simp [yes]

/-- The readings at which an author is granted something are readings of the run. -/
theorem exists_of_mem_grantedTo {as : List (Attempt A)} {now : Nat}
    (m : now ∈ l.grantedTo as author) : ∃ a ∈ as, a.nowSecs = now := by
  induction as generalizing l with
  | nil => cases m
  | cons a as ih =>
      rw [grantedTo_cons] at m
      rcases List.mem_append.mp m with here | later
      · split at here
        · exact ⟨a, List.mem_cons_self, (List.mem_singleton.mp here).symm⟩
        · cases here
      · obtain ⟨b, inRest, same⟩ := ih later
        exact ⟨b, List.mem_cons_of_mem a inRest, same⟩

/-! ## Whole runs -/

theorem windowStartSecs_le_after (as : List (Attempt A)) (l : AuthorRateLimiter A) :
    l.windowStartSecs ≤ (l.after as).windowStartSecs := by
  induction as generalizing l with
  | nil => exact Nat.le_refl _
  | cons a as ih =>
      have step := (l.attempt_window a).2
      have rest := ih (l.attempt a).2
      show l.windowStartSecs ≤ ((l.attempt a).2.after as).windowStartSecs
      split at step <;> omega

theorem perCommitCap_after (as : List (Attempt A)) (l : AuthorRateLimiter A) :
    (l.after as).perCommitCap = l.perCommitCap := by
  induction as generalizing l with
  | nil => rfl
  | cons a as ih => exact (ih _).trans (l.attempt_window a).1

theorem after_append (l : AuthorRateLimiter A) (as bs : List (Attempt A)) :
    l.after (as ++ bs) = (l.after as).after bs := List.foldl_append

/-- **Between two resets an author is granted at most what is left of the cap.** -/
theorem granted_le_of_settled (as : List (Attempt A)) (l : AuthorRateLimiter A) (author : A)
    (settled : (l.after as).windowStartSecs = l.windowStartSecs) :
    (l.grantedTo as author).length ≤ l.perCommitCap - l.count author := by
  induction as generalizing l with
  | nil => exact Nat.zero_le _
  | cons a as ih =>
      obtain ⟨cap, start⟩ := l.attempt_window a
      have rest := windowStartSecs_le_after as (l.attempt a).2
      have settled' : ((l.attempt a).2.after as).windowStartSecs = l.windowStartSecs := settled
      have young : ¬ l.windowStartSecs + authorRateLimitWindowSecs ≤ a.nowSecs := by
        intro old
        rw [if_pos old] at start
        unfold authorRateLimitWindowSecs at old
        omega
      rw [if_neg young] at start
      obtain ⟨counted, passed⟩ := l.attempt_count a author
      rw [if_neg young] at counted passed
      have later := ih (l.attempt a).2 (by rw [settled', start])
      rw [cap] at later
      rw [grantedTo_cons, List.length_append]
      split
      · rename_i yes
        obtain ⟨room, count⟩ := counted yes
        rw [count] at later
        rw [List.length_singleton]
        omega
      · rename_i no
        rw [passed no] at later
        simpa using later

/-- The readings of a run do not decrease. -/
def Ascending (as : List (Attempt A)) : Prop := (as.map Attempt.nowSecs).Pairwise (· ≤ ·)

omit [LinearOrder A] in
theorem Ascending.tail {a : Attempt A} {as : List (Attempt A)} (ascending : Ascending (a :: as)) :
    (∀ b ∈ as, a.nowSecs ≤ b.nowSecs) ∧ Ascending as := by
  obtain ⟨first, rest⟩ := List.pairwise_cons.mp ascending
  exact ⟨fun b m => first _ (List.mem_map_of_mem m), rest⟩

/-- Nothing is granted in a minute that is over. -/
theorem countP_eq_zero_of_over {as : List (Attempt A)} {start : Nat} (l : AuthorRateLimiter A)
    (author : A) (late : ∀ a ∈ as, start + authorRateLimitWindowSecs ≤ a.nowSecs) :
    (l.grantedTo as author).countP (within start) = 0 := by
  refine List.countP_eq_zero.mpr fun now m inside => ?_
  obtain ⟨a, inRun, rfl⟩ := exists_of_mem_grantedTo m
  have reached := late a inRun
  rw [within, decide_eq_true_eq] at inside
  omega

/-- In a minute that begins before the window does, the window is not reset. -/
theorem countP_le_of_window (as : List (Attempt A)) (l : AuthorRateLimiter A) (author : A)
    (ascending : Ascending as) (start : Nat) (begun : start ≤ l.windowStartSecs) :
    (l.grantedTo as author).countP (within start) ≤ l.perCommitCap - l.count author := by
  induction as generalizing l with
  | nil => exact Nat.zero_le _
  | cons a as ih =>
      obtain ⟨cap, window⟩ := l.attempt_window a
      obtain ⟨first, rest⟩ := ascending.tail
      by_cases old : l.windowStartSecs + authorRateLimitWindowSecs ≤ a.nowSecs
      · have late : ∀ b ∈ a :: as, start + authorRateLimitWindowSecs ≤ b.nowSecs := by
          intro b m
          rcases List.mem_cons.mp m with rfl | later
          · omega
          · have after := first b later
            omega
        rw [countP_eq_zero_of_over l author late]
        exact Nat.zero_le _
      · obtain ⟨counted, passed⟩ := l.attempt_count a author
        rw [if_neg old] at window counted passed
        have later := ih (l.attempt a).2 rest (by rwa [window])
        rw [cap] at later
        rw [grantedTo_cons, List.countP_append]
        split
        · rename_i yes
          obtain ⟨room, count⟩ := counted yes
          rw [count] at later
          have one := List.countP_le_length (p := within start) (l := [a.nowSecs])
          rw [List.length_singleton] at one
          omega
        · rename_i no
          rw [passed no] at later
          simpa using later

/-- Once a minute has begun, there is what is left of the cap, and the cap after a reset. -/
theorem countP_le_of_begun (as : List (Attempt A)) (l : AuthorRateLimiter A) (author : A)
    (ascending : Ascending as) {start : Nat} (begun : ∀ a ∈ as, start ≤ a.nowSecs) :
    (l.grantedTo as author).countP (within start) ≤
      (l.perCommitCap - l.count author) + l.perCommitCap := by
  induction as generalizing l with
  | nil => exact Nat.zero_le _
  | cons a as ih =>
      obtain ⟨cap, window⟩ := l.attempt_window a
      obtain ⟨first, rest⟩ := ascending.tail
      obtain ⟨counted, passed⟩ := l.attempt_count a author
      have one : ([a.nowSecs] : List Nat).countP (within start) ≤ 1 := List.countP_le_length
      rw [grantedTo_cons, List.countP_append]
      by_cases old : l.windowStartSecs + authorRateLimitWindowSecs ≤ a.nowSecs
      · -- the window starts in this minute, and lasts as long as it
        rw [if_pos old] at window counted passed
        have later := countP_le_of_window as (l.attempt a).2 author rest start
          (by rw [window]; exact begun a List.mem_cons_self)
        rw [cap] at later
        split
        · rename_i yes
          obtain ⟨room, count⟩ := counted yes
          rw [count] at later
          omega
        · rename_i no
          rw [passed no] at later
          rw [List.countP_nil]
          omega
      · rw [if_neg old] at window counted passed
        have later := ih (l.attempt a).2 rest fun b m => begun b (List.mem_cons_of_mem a m)
        rw [cap] at later
        split
        · rename_i yes
          obtain ⟨room, count⟩ := counted yes
          rw [count] at later
          omega
        · rename_i no
          rw [passed no] at later
          rw [List.countP_nil]
          omega

/-- **In any minute an author is granted at most twice the cap.** -/
theorem granted_le_twice (as : List (Attempt A)) (l : AuthorRateLimiter A) (author : A)
    (ascending : Ascending as) (start : Nat) :
    (l.grantedTo as author).countP (within start) ≤ 2 * l.perCommitCap := by
  induction as generalizing l with
  | nil => exact Nat.zero_le _
  | cons a as ih =>
      obtain ⟨first, rest⟩ := ascending.tail
      by_cases begun : start ≤ a.nowSecs
      · have all : ∀ b ∈ a :: as, start ≤ b.nowSecs := by
          intro b m
          rcases List.mem_cons.mp m with rfl | later
          · exact begun
          · exact Nat.le_trans begun (first b later)
        have bound := countP_le_of_begun (a :: as) l author ascending all
        omega
      · have early : within start a.nowSecs = false := by
          rw [within, decide_eq_false_iff_not]
          omega
        have later := ih (l.attempt a).2 rest
        rw [(l.attempt_window a).1] at later
        rw [grantedTo_cons, List.countP_append]
        split
        · rw [List.countP_singleton, early]
          simpa using later
        · simpa using later

/-! ## The other authors -/

/-- The same ticks, with the phrases of one author alone. -/
def only (author : A) (as : List (Attempt A)) : List (Attempt A) :=
  as.map fun a => { a with author := if a.author = some author then a.author else none }

/-- Limiters with one window, and one count for an author. -/
structure Alike (author : A) (l l' : AuthorRateLimiter A) : Prop where
  cap : l'.perCommitCap = l.perCommitCap
  window : l'.windowStartSecs = l.windowStartSecs
  count : l'.count author = l.count author

theorem Alike.tick {l l' : AuthorRateLimiter A} (alike : Alike author l l') (now : Nat) :
    Alike author (l.tick now) (l'.tick now) := by
  obtain ⟨old, eq⟩ | ⟨young, eq⟩ := l.tick_cases now
  · obtain ⟨-, eq'⟩ | ⟨young', -⟩ := l'.tick_cases now
    · rw [eq, eq']
      exact ⟨alike.cap, rfl, rfl⟩
    · exact absurd (alike.window ▸ old) young'
  · obtain ⟨old', -⟩ | ⟨-, eq'⟩ := l'.tick_cases now
    · exact absurd (alike.window ▸ old') young
    · rw [eq, eq']
      exact alike

/-- A phrase of the author is granted by both or by neither. -/
theorem Alike.admits {l l' : AuthorRateLimiter A} (alike : Alike author l l') :
    (l'.admits author).1 = (l.admits author).1 ∧
      Alike author (l.admits author).2 (l'.admits author).2 := by
  have same := alike.count
  have caps := alike.cap
  obtain ⟨room, yes, counted⟩ | ⟨full, eq⟩ := l.admit_cases author
  · obtain ⟨-, yes', counted'⟩ | ⟨full', -⟩ := l'.admit_cases author
    · exact ⟨yes'.trans yes.symm, by simpa using caps, by simpa using alike.window,
        by rw [counted, counted', same]⟩
    · omega
  · obtain ⟨room', -, -⟩ | ⟨-, eq'⟩ := l'.admit_cases author
    · omega
    · have no : (l.admits author).1 = false := by rw [eq]
      have no' : (l'.admits author).1 = false := by rw [eq']
      exact ⟨no'.trans no.symm, by simpa using caps, by simpa using alike.window,
        by rw [(l.refused no).2, (l'.refused no').2, same]⟩

/-- A phrase of another author changes nothing of this one. -/
theorem Alike.other {l l' : AuthorRateLimiter A} (alike : Alike author l l') {other : A}
    (apart : other ≠ author) : Alike author (l.admits other).2 l' where
  cap := by rw [admit_perCommitCap, alike.cap]
  window := by rw [admit_windowStartSecs, alike.window]
  count := by
    rw [alike.count, AuthorRateLimiter.count, AuthorRateLimiter.count, l.count_admit_other apart]

theorem Alike.attempt {l l' : AuthorRateLimiter A} (alike : Alike author l l') (a : Attempt A) :
    let b : Attempt A := { a with author := if a.author = some author then a.author else none }
    ((l'.attempt b).1 = true ∧ b.author = some author ↔
      (l.attempt a).1 = true ∧ a.author = some author) ∧
    Alike author (l.attempt a).2 (l'.attempt b).2 := by
  intro b
  have ticked := alike.tick a.nowSecs
  cases tried : a.author with
  | none =>
      have idle : b.author = none := by simp [b, tried]
      rw [AuthorRateLimiter.attempt, AuthorRateLimiter.attempt, tried, idle]
      exact ⟨by simp, ticked⟩
  | some other =>
      by_cases same : other = author
      · subst same
        have mine : b.author = some other := by simp [b, tried]
        rw [AuthorRateLimiter.attempt, AuthorRateLimiter.attempt, tried, mine]
        obtain ⟨verdict, next⟩ := ticked.admits
        exact ⟨by rw [← verdict], next⟩
      · have idle : b.author = none := by simp [b, tried, same]
        rw [AuthorRateLimiter.attempt, AuthorRateLimiter.attempt, tried, idle]
        exact ⟨by simp [same], ticked.other same⟩

/-- **What an author is granted does not depend on the other authors.** -/
theorem granted_only (as : List (Attempt A)) {l l' : AuthorRateLimiter A} {author : A}
    (alike : Alike author l l') :
    l'.grantedTo (only author as) author = l.grantedTo as author ∧
      (l'.after (only author as)).count author = (l.after as).count author := by
  induction as generalizing l l' with
  | nil => exact ⟨rfl, alike.count⟩
  | cons a as ih =>
      obtain ⟨verdict, next⟩ := alike.attempt a
      obtain ⟨granted, count⟩ := ih next
      refine ⟨?_, count⟩
      rw [only, List.map_cons, grantedTo_cons, grantedTo_cons, if_congr verdict rfl rfl]
      exact congrArg (_ ++ ·) granted

/-! ## The limit -/

end AuthorRateLimiter

end Mnem.Extract
