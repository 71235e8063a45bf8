/-
# Theory.Breadth — breadth-first search with a queue and a set of seen keys

`walk` takes the key at the front of a queue, passes over it when it was seen,
and otherwise updates a state with it and queues its successors.  A route to a
key is the list of the places at which its steps were found, from the last step
back to the first; `Sooner` orders routes by their length, and routes of one
length by where they first part.

* A walk that ends has met each key that has a route once, in the order of the
  soonest routes (`Underway.order`), so that what it keeps of the last match is
  of the match whose soonest route is the latest (`walk_latest`).
* One step for each start and for each successor of an unseen key is enough
  (`walk_succeeds`).
-/
import Mnem.Theory.Reach

namespace Mnem.Theory.Breadth

set_option autoImplicit false

/-! ## Routes -/

/-- One route is shorter than another, or as long and left of it where they part. -/
def Sooner : List Nat → List Nat → Prop
  | _, [] => False
  | [], _ :: _ => True
  | i :: r, j :: r' => Sooner r r' ∨ r = r' ∧ i < j

namespace Sooner

theorem not_nil : ∀ {r : List Nat}, ¬ Sooner r []
  | [] => not_false
  | _ :: _ => not_false

theorem irrefl : ∀ r, ¬ Sooner r r
  | [] => not_false
  | i :: r => by
      rintro (before | ⟨-, below⟩)
      · exact irrefl r before
      · omega

theorem trans : ∀ {r₁ r₂ r₃ : List Nat}, Sooner r₁ r₂ → Sooner r₂ r₃ → Sooner r₁ r₃
  | _, [], _, first, _ => (not_nil first).elim
  | _, _ :: _, [], _, second => (not_nil second).elim
  | [], _ :: _, _ :: _, _, _ => trivial
  | i :: r₁, j :: r₂, k :: r₃, first, second => by
      show Sooner r₁ r₃ ∨ r₁ = r₃ ∧ i < k
      rcases first with before | ⟨rfl, below⟩ <;> rcases second with before' | ⟨rfl, below'⟩
      · exact .inl (trans before before')
      · exact .inl before
      · exact .inl before'
      · exact .inr ⟨rfl, below.trans below'⟩

theorem trichotomy : ∀ r r', Sooner r r' ∨ r = r' ∨ Sooner r' r
  | [], [] => .inr (.inl rfl)
  | [], _ :: _ => .inl trivial
  | _ :: _, [] => .inr (.inr trivial)
  | i :: r, j :: r' => by
      rcases trichotomy r r' with before | rfl | after
      · exact .inl (.inl before)
      · rcases Nat.lt_trichotomy i j with below | rfl | above
        · exact .inl (.inr ⟨rfl, below⟩)
        · exact .inr (.inl rfl)
        · exact .inr (.inr (.inr ⟨rfl, above⟩))
      · exact .inr (.inr (.inl after))

/-- A route is sooner than what it is continued to. -/
theorem cons : ∀ (i : Nat) (r : List Nat), Sooner r (i :: r)
  | _, [] => trivial
  | _, j :: r => .inl (cons j r)

end Sooner

variable {K σ : Type}

/-- A route to a key: a place among the starts, and places among successors. -/
inductive Route (next : K → List K) (starts : List K) : List Nat → K → Prop
  | start {i : Nat} {k : K} : starts[i]? = some k → Route next starts [i] k
  | step {r : List Nat} {i : Nat} {k j : K} : Route next starts r k → (next k)[i]? = some j →
      Route next starts (i :: r) j

/-- The soonest route to a key. -/
def Soonest (next : K → List K) (starts : List K) (r : List Nat) (k : K) : Prop :=
  Route next starts r k ∧ ∀ r', Route next starts r' k → ¬ Sooner r' r

/-- The key that satisfies `P` and whose soonest route is the latest. -/
def Latest (next : K → List K) (starts : List K) (P : K → Prop) (k : K) : Prop :=
  P k ∧ ∃ r, Soonest next starts r k ∧
    ∀ k' r', P k' → Soonest next starts r' k' → ¬ Sooner r r'

/-- Search from a queue; `none` is a search that ran out of steps. -/
def walk [LinearOrder K] (next : K → List K) (visit : σ → K → σ) : Nat → OrdSet K → List K → σ → Option σ
  | _, _, [], st => some st
  | 0, _, _ :: _, _ => none
  | fuel + 1, seen, k :: queue, st =>
      if k ∈ seen then walk next visit fuel seen queue st
      else walk next visit fuel (seen.add k) (queue ++ next k) (visit st k)

variable {next : K → List K} {visit : σ → K → σ} {starts : List K}

theorem walk_cons_seen [LinearOrder K] {fuel : Nat} {seen : OrdSet K} {k : K} {queue : List K} {st : σ}
    (old : k ∈ seen) : walk next visit (fuel + 1) seen (k :: queue) st =
      walk next visit fuel seen queue st := if_pos old

theorem walk_cons_new [LinearOrder K] {fuel : Nat} {seen : OrdSet K} {k : K} {queue : List K} {st : σ}
    (fresh : k ∉ seen) : walk next visit (fuel + 1) seen (k :: queue) st =
      walk next visit fuel (seen.add k) (queue ++ next k) (visit st k) := if_neg fresh

/-- A view of the state that each visit updates by itself is updated by the walk. -/
theorem walk_view {τ : Type} [LinearOrder K] {P : σ → Prop} (visit' : τ → K → τ) (view : σ → τ)
    (keeps : ∀ st k, P st → P (visit st k))
    (commutes : ∀ st k, P st → view (visit st k) = visit' (view st) k) :
    ∀ {fuel : Nat} {seen : OrdSet K} {queue : List K} {st st' : σ}, P st →
      walk next visit fuel seen queue st = some st' →
        P st' ∧ walk next visit' fuel seen queue (view st) = some (view st')
  | fuel, seen, [], st, st', inP, ran => by
      obtain rfl : st = st' := by
        cases fuel <;> exact Option.some.inj ran
      refine ⟨inP, ?_⟩
      cases fuel <;> rfl
  | 0, _, _ :: _, _, _, _, ran => nomatch ran
  | fuel + 1, seen, k :: queue, st, st', inP, ran => by
      by_cases old : k ∈ seen
      · rw [walk_cons_seen old] at ran ⊢
        exact walk_view visit' view keeps commutes inP ran
      · rw [walk_cons_new old] at ran ⊢
        rw [← commutes st k inP]
        exact walk_view visit' view keeps commutes (keeps st k inP) ran

/-- Enough steps take a walk to its end. -/
theorem walk_succeeds [LinearOrder K] {nodes : Finset K} {weight : K → Nat}
    (short : ∀ k, (next k).length ≤ weight k) (inside : ∀ k, weight k ≠ 0 → k ∈ nodes) :
    ∀ (fuel : Nat) (seen : OrdSet K) (queue : List K) (st : σ),
      queue.length + Reach.owed nodes weight seen ≤ fuel →
        ∃ st', walk next visit fuel seen queue st = some st'
  | fuel, seen, [], st, _ => ⟨st, by cases fuel <;> rfl⟩
  | 0, seen, k :: queue, st, enough => by
      rw [List.length_cons] at enough
      omega
  | fuel + 1, seen, k :: queue, st, enough => by
      rw [List.length_cons] at enough
      by_cases old : k ∈ seen
      · rw [walk_cons_seen old]
        exact walk_succeeds short inside fuel seen queue st (by omega)
      · rw [walk_cons_new old]
        apply walk_succeeds short inside
        rw [List.length_append]
        have pays : (next k).length + Reach.owed nodes weight (seen.add k) ≤
            Reach.owed nodes weight seen := by
          by_cases node : k ∈ nodes
          · have paid := Reach.owed_add weight node old
            have fits := short k
            omega
          · have none : weight k = 0 := by
              by_contra some
              exact node (inside k some)
            have fits := short k
            have fewer : Reach.owed nodes weight (seen.add k) ≤ Reach.owed nodes weight seen := by
              unfold Reach.owed
              apply Finset.sum_le_sum_of_subset
              intro j member
              simp only [Finset.mem_filter, OrdSet.mem_add, not_or] at member ⊢
              exact ⟨member.1, member.2.2⟩
            omega
        omega

/-! ## Routes lead to one key -/

theorem Route.unique {r : List Nat} {k k' : K} (route : Route next starts r k)
    (route' : Route next starts r k') : k = k' := by
  induction route generalizing k' with
  | start found =>
      cases route' with
      | start found' => exact Option.some.inj (found.symm.trans found')
      | step before _ => cases before
  | step before found ih =>
      cases route' with
      | start _ => cases before
      | step before' found' =>
          cases ih before'
          exact Option.some.inj (found.symm.trans found')

theorem Latest.unique {P : K → Prop} {k k' : K} (last : Latest next starts P k)
    (last' : Latest next starts P k') : k = k' := by
  obtain ⟨inP, r, first, latest⟩ := last
  obtain ⟨inP', r', first', latest'⟩ := last'
  rcases Sooner.trichotomy r r' with before | rfl | after
  · exact absurd before (latest k' r' inP' first')
  · exact first.1.unique first'.1
  · exact absurd after (latest' k r inP first)

/-! ## The order of the walk -/

/-- The keys with their routes, as they lie in the queue. -/
def routed (r : List Nat) (ks : List K) : List (List Nat × K) :=
  ks.zipIdx.map fun e => (e.2 :: r, e.1)

theorem mem_routed {r q : List Nat} {ks : List K} {k : K} :
    (q, k) ∈ routed r ks ↔ ∃ i, q = i :: r ∧ ks[i]? = some k := by
  unfold routed
  rw [List.mem_map]
  constructor
  · rintro ⟨⟨k', i⟩, member, same⟩
    obtain ⟨rfl, rfl⟩ := Prod.mk.inj same
    exact ⟨i, rfl, List.mem_zipIdx_iff_getElem?.mp member⟩
  · rintro ⟨i, rfl, found⟩
    exact ⟨(k, i), List.mem_zipIdx_iff_getElem?.mpr found, rfl⟩

theorem map_routed (r : List Nat) (ks : List K) : (routed r ks).map Prod.snd = ks := by
  unfold routed
  rw [List.map_map]
  exact List.zipIdx_map_fst 0 ks

/-- Places along a list are in order. -/
theorem routed_sorted (r : List Nat) (ks : List K) :
    (routed r ks).Pairwise fun a b => Sooner a.1 b.1 := by
  unfold routed
  rw [List.pairwise_map, List.pairwise_iff_getElem]
  intro i j _ _ below
  simp only [List.getElem_zipIdx]
  exact .inr ⟨rfl, by omega⟩

/-- A search under way: the keys met and the queue, each with a route. -/
structure Underway (next : K → List K) (starts : List K) (met queue : List (List Nat × K)) :
    Prop where
  routes : ∀ e ∈ queue, Route next starts e.1 e.2
  sorted : (met ++ queue).Pairwise fun a b => Sooner a.1 b.1
  near : ∀ a ∈ queue, ∀ b ∈ queue, ∀ i, Sooner a.1 (i :: b.1)
  soonest : ∀ e ∈ met, Soonest next starts e.1 e.2
  once : (met.map Prod.snd).Nodup
  starts : ∀ e ∈ routed [] starts, e.2 ∈ met.map Prod.snd ∨ e ∈ queue
  successors : ∀ a ∈ met, ∀ e ∈ routed a.1 (next a.2), e.2 ∈ met.map Prod.snd ∨ e ∈ queue

namespace Underway

variable {met queue : List (List Nat × K)} {r : List Nat} {k : K}

theorem start (next : K → List K) (starts : List K) :
    Underway next starts [] (routed [] starts) where
  routes e member := by
    obtain ⟨i, same, found⟩ := mem_routed.mp (show (e.1, e.2) ∈ _ from member)
    rw [same]
    exact .start found
  sorted := routed_sorted [] starts
  near a inQueue b inQueue' i := by
    obtain ⟨x, here, -⟩ := mem_routed.mp (show (a.1, a.2) ∈ _ from inQueue)
    obtain ⟨y, there, -⟩ := mem_routed.mp (show (b.1, b.2) ∈ _ from inQueue')
    rw [here, there]
    exact .inl trivial
  soonest _ none := nomatch none
  once := List.nodup_nil
  starts _ member := .inr member
  successors _ none := nomatch none

/-- A key that was not met lies behind an entry of the queue. -/
theorem behind (under : Underway next starts met queue) (route : Route next starts r k)
    (fresh : k ∉ met.map Prod.snd) : ∃ e ∈ queue, e.1 = r ∨ Sooner e.1 r := by
  induction route with
  | start found =>
      rcases under.starts _ (mem_routed.mpr ⟨_, rfl, found⟩) with old | queued
      · exact absurd old fresh
      · exact ⟨_, queued, .inl rfl⟩
  | @step r i k j route found ih =>
      by_cases old : k ∈ met.map Prod.snd
      · -- The key before was met by a route that is no later.
        obtain ⟨a, inMet, rfl⟩ := List.mem_map.mp old
        rcases under.successors a inMet _ (mem_routed.mpr ⟨i, rfl, found⟩) with old' | queued
        · exact absurd old' fresh
        · refine ⟨_, queued, ?_⟩
          rcases Sooner.trichotomy a.1 r with before | same | after
          · exact .inr (.inl before)
          · exact .inl (by rw [same])
          · exact absurd after ((under.soonest a inMet).2 r route)
      · obtain ⟨e, queued, same | before⟩ := ih old
        · exact ⟨e, queued, .inr (same ▸ Sooner.cons i e.1)⟩
        · exact ⟨e, queued, .inr (before.trans (Sooner.cons i r))⟩

/-- Pass over a key that was met. -/
theorem skip (under : Underway next starts met ((r, k) :: queue))
    (old : k ∈ met.map Prod.snd) : Underway next starts met queue where
  routes e member := under.routes e (List.mem_cons_of_mem _ member)
  sorted := under.sorted.sublist ((List.sublist_cons_self _ _).append_left met)
  near a inQueue b inQueue' :=
    under.near a (List.mem_cons_of_mem _ inQueue) b (List.mem_cons_of_mem _ inQueue')
  soonest := under.soonest
  once := under.once
  starts e member := by
    rcases under.starts e member with there | queued
    · exact .inl there
    · rcases List.mem_cons.mp queued with rfl | later
      · exact .inl old
      · exact .inr later
  successors a inMet e member := by
    rcases under.successors a inMet e member with there | queued
    · exact .inl there
    · rcases List.mem_cons.mp queued with rfl | later
      · exact .inl old
      · exact .inr later

/-- The entry at the front of the queue is the soonest route to a key that was not met. -/
theorem soonest_front (under : Underway next starts met ((r, k) :: queue))
    (fresh : k ∉ met.map Prod.snd) : Soonest next starts r k := by
  refine ⟨under.routes _ List.mem_cons_self, fun r' route before => ?_⟩
  obtain ⟨e, queued, upTo⟩ := under.behind route fresh
  have front : e.1 = r ∨ Sooner r e.1 := by
    rcases List.mem_cons.mp queued with rfl | later
    · exact .inl rfl
    · have ordered := (List.pairwise_append.mp under.sorted).2.1
      exact .inr (List.rel_of_pairwise_cons ordered later)
  have past : Sooner e.1 r := by
    rcases upTo with rfl | upTo
    · exact before
    · exact upTo.trans before
  rcases front with same | front
  · exact Sooner.irrefl r (same ▸ past)
  · exact Sooner.irrefl r (front.trans past)

/-- Meet a new key, and queue its successors. -/
theorem meet (under : Underway next starts met ((r, k) :: queue))
    (fresh : k ∉ met.map Prod.snd) :
    Underway next starts (met ++ [(r, k)]) (queue ++ routed r (next k)) where
  routes e member := by
    rcases List.mem_append.mp member with old | new
    · exact under.routes e (List.mem_cons_of_mem _ old)
    · obtain ⟨i, same, found⟩ := mem_routed.mp (show (e.1, e.2) ∈ _ from new)
      rw [same]
      exact .step (under.routes _ List.mem_cons_self) found
  sorted := by
    rw [List.append_assoc, List.singleton_append, ← List.cons_append, ← List.append_assoc]
    refine List.pairwise_append.mpr ⟨under.sorted, routed_sorted r (next k), ?_⟩
    intro a before b new
    obtain ⟨i, same, -⟩ := mem_routed.mp (show (b.1, b.2) ∈ _ from new)
    rw [same]
    rcases List.mem_append.mp before with inMet | queued
    · have ahead := (List.pairwise_append.mp under.sorted).2.2 a inMet _ List.mem_cons_self
      exact ahead.trans (Sooner.cons i r)
    · exact under.near a queued _ List.mem_cons_self i
  near a inQueue b inQueue' i := by
    have behind : Sooner r b.1 := by
      rcases List.mem_append.mp inQueue' with old | new
      · exact List.rel_of_pairwise_cons (List.pairwise_append.mp under.sorted).2.1 old
      · obtain ⟨j, same, -⟩ := mem_routed.mp (show (b.1, b.2) ∈ _ from new)
        exact same ▸ Sooner.cons j r
    rcases List.mem_append.mp inQueue with old | new
    · have ahead := under.near a (List.mem_cons_of_mem _ old) _ List.mem_cons_self 0
      exact ahead.trans (.inl behind)
    · obtain ⟨j, same, -⟩ := mem_routed.mp (show (a.1, a.2) ∈ _ from new)
      rw [same]
      exact .inl behind
  soonest e member := by
    rcases List.mem_append.mp member with old | new
    · exact under.soonest e old
    · obtain rfl := List.mem_singleton.mp new
      exact under.soonest_front fresh
  once := by
    rw [List.map_append, List.nodup_append]
    refine ⟨under.once, List.nodup_singleton _, fun x old y new => ?_⟩
    obtain rfl := List.mem_singleton.mp new
    exact fun same => fresh (same ▸ old)
  starts e member := by
    rcases under.starts e member with there | queued
    · exact .inl (by simp [there])
    · rcases List.mem_cons.mp queued with rfl | later
      · exact .inl (by simp)
      · exact .inr (List.mem_append_left _ later)
  successors a inMet e member := by
    rcases List.mem_append.mp inMet with old | new
    · rcases under.successors a old e member with there | queued
      · exact .inl (by simp [there])
      · rcases List.mem_cons.mp queued with rfl | later
        · exact .inl (by simp)
        · exact .inr (List.mem_append_left _ later)
    · obtain rfl := List.mem_singleton.mp new
      exact .inr (List.mem_append_right _ member)

end Underway

/-- **The order of a walk.**  What ends has visited, in the order of their soonest routes, the
keys that have a route. -/
theorem Underway.order [LinearOrder K] : ∀ {fuel : Nat} {seen : OrdSet K}
    {met queue : List (List Nat × K)} {st st' : σ}, Underway next starts met queue →
    (∀ k, k ∈ seen ↔ k ∈ met.map Prod.snd) →
    walk next visit fuel seen (queue.map Prod.snd) st = some st' →
      ∃ rest, Underway next starts (met ++ rest) [] ∧
        (rest.map Prod.snd).foldl visit st = st'
  | fuel, seen, met, [], st, st', under, _, ran => by
      have same : some st = some st' := by
        cases fuel <;> exact ran
      exact ⟨[], by rw [List.append_nil]; exact under, Option.some.inj same⟩
  | 0, _, _, _ :: _, _, _, _, _, ran => nomatch ran
  | fuel + 1, seen, met, (r, k) :: queue, st, st', under, exact, ran => by
      rw [List.map_cons] at ran
      by_cases old : k ∈ seen
      · rw [walk_cons_seen old] at ran
        exact order (under.skip ((exact k).mp old)) exact ran
      · rw [walk_cons_new old] at ran
        have fresh : k ∉ met.map Prod.snd := fun member => old ((exact k).mpr member)
        have queued : queue.map Prod.snd ++ next k =
            (queue ++ routed r (next k)).map Prod.snd := by
          rw [List.map_append, map_routed]
        rw [queued] at ran
        have exact' : ∀ j, j ∈ seen.add k ↔ j ∈ (met ++ [(r, k)]).map Prod.snd := by
          intro j
          rw [OrdSet.mem_add, exact, List.map_append, List.mem_append, List.map_singleton,
            List.mem_singleton, or_comm]
        obtain ⟨rest, final, folded⟩ := order (under.meet fresh) exact' ran
        refine ⟨(r, k) :: rest, ?_, folded⟩
        rw [← List.singleton_append, ← List.append_assoc]
        exact final

section Fold

variable {met : List (List Nat × K)} {α : Type} {p : K → Bool} {f : K → α}

/-- All keys with a route were met when the queue is empty. -/
theorem Underway.exists_of_route (under : Underway next starts met []) {r : List Nat} {k : K}
    (route : Route next starts r k) : ∃ r', (r', k) ∈ met := by
  by_contra none
  have fresh : k ∉ met.map Prod.snd := by
    intro member
    obtain ⟨e, inMet, rfl⟩ := List.mem_map.mp member
    exact none ⟨e.1, inMet⟩
  obtain ⟨e, queued, -⟩ := under.behind route fresh
  cases queued

/-- Of two soonest routes to one key neither is sooner. -/
theorem Soonest.unique {r r' : List Nat} {k : K} (first : Soonest next starts r k)
    (first' : Soonest next starts r' k) : r = r' := by
  rcases Sooner.trichotomy r r' with before | same | after
  · exact absurd before (first'.2 r first.1)
  · exact same
  · exact absurd after (first.2 r' first'.1)

/-- What is kept of the last match, read from the back. -/
theorem foldl_matches (p : K → Bool) (f : K → α) : ∀ (ks : List K) (a : α),
    (∀ k ∈ ks, p k = false) ∧ ks.foldl (fun a k => if p k then f k else a) a = a ∨
      ∃ before k after, ks = before ++ k :: after ∧ p k = true ∧ (∀ j ∈ after, p j = false) ∧
        ks.foldl (fun a k => if p k then f k else a) a = f k
  | [], _ => .inl ⟨nofun, rfl⟩
  | k :: ks, a => by
      rw [List.foldl_cons]
      rcases foldl_matches p f ks (if p k then f k else a) with
        ⟨none, folded⟩ | ⟨before, j, after, rfl, hit, none, folded⟩
      · rw [folded]
        by_cases hit : p k = true
        · exact .inr ⟨[], k, ks, rfl, hit, none, if_pos hit⟩
        · refine .inl ⟨?_, if_neg hit⟩
          intro j member
          rcases List.mem_cons.mp member with rfl | later
          · exact Bool.eq_false_of_not_eq_true hit
          · exact none j later
      · exact .inr ⟨k :: before, j, after, rfl, hit, none, folded⟩

/-- **The last match.**  A walk that keeps what it last matched ends with the match whose soonest
route is the latest, if there is one. -/
theorem walk_latest [LinearOrder K] {fuel : Nat} {a a' : α}
    (ran : walk next (fun a k => if p k then f k else a) fuel OrdMap.empty starts a = some a') :
    (∃ k, Latest next starts (fun k => p k = true) k ∧ a' = f k) ∨
      (∀ r k, Route next starts r k → p k = false) ∧ a' = a := by
  rw [← map_routed [] starts] at ran
  obtain ⟨met, under, folded⟩ := (Underway.start next starts).order (by simp) ran
  rw [List.nil_append] at under
  rcases foldl_matches p f (met.map Prod.snd) a with
    ⟨none, kept⟩ | ⟨before, k, after, split, hit, none, kept⟩
  · refine .inr ⟨fun r k route => ?_, folded.symm.trans kept⟩
    obtain ⟨r', member⟩ := under.exists_of_route route
    exact none k (List.mem_map_of_mem member)
  · obtain ⟨front, back, rfl, rfl, atBack⟩ := List.map_eq_append_iff.mp split
    obtain ⟨⟨r, k'⟩, tail, rfl, rfl, rfl⟩ := List.map_eq_cons_iff.mp atBack
    refine .inl ⟨k', ⟨hit, r, under.soonest (r, k') (List.mem_append_right _ List.mem_cons_self),
      fun j r' hit' first late => ?_⟩,
      folded.symm.trans kept⟩
    -- A later match would be met after it.
    obtain ⟨r₂, member⟩ := under.exists_of_route first.1
    obtain rfl := (under.soonest _ member).unique first
    have ordered := (List.pairwise_append.mp under.sorted).1
    rcases List.mem_append.mp member with ahead | here
    · have before := (List.pairwise_append.mp ordered).2.2 _ ahead _ List.mem_cons_self
      exact Sooner.irrefl _ (before.trans late)
    · rcases List.mem_cons.mp here with same | behind
      · obtain ⟨rfl, -⟩ := Prod.mk.inj same
        exact Sooner.irrefl _ late
      · have miss := none j (List.mem_map_of_mem behind)
        rw [hit'] at miss
        cases miss

end Fold

end Mnem.Theory.Breadth
