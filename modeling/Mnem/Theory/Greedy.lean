/-
# Theory.Greedy — the best of a list, when copies can change places

A scan keeps the best item so far and replaces it by a better one; `better` need
not be transitive, so the best item depends on the order of the scan.  It does
not depend on the order of copies of one item among each other, if copies are
in a linear order and what a copy replaces is replaced by its betters
(`Fair`).

* Two lists of the same items, both sorted up to copies, have the same best
  item (`best_eq`).
* Where near scores are decided by a second order, the best item has the
  greatest score exactly if some item of the greatest score keeps its place
  against the near ones after it (`Margin.best_greatest_iff`).
-/
import Mathlib.Data.List.Perm.Basic
import Mathlib.Data.List.Sort

namespace Mnem.Theory.Greedy

set_option autoImplicit false

variable {α : Type}

/-- Keep the best item so far, unless the next one is better. -/
def keep (better : α → α → Bool) : Option α → α → Option α
  | none, a => some a
  | some b, a => if better a b then some a else some b

def best (better : α → α → Bool) (items : List α) : Option α := items.foldl (keep better) none

/-- `better` orders the copies among the items `P`, and what a copy is better than, its betters are
better than. -/
structure Fair (better : α → α → Bool) (copy : α → α → Prop) (P : α → Prop) : Prop where
  total : ∀ a b, P a → P b → copy a b → a = b ∨ better a b = true ∨ better b a = true
  asymm : ∀ a b, copy a b → better a b = true → better b a = false
  lifts : ∀ a b c, P a → P b → copy a b → better b a = true → better a c = true →
    better b c = true

section Fair

variable {better : α → α → Bool} {copy : α → α → Prop} {P : α → Prop}

/-- Of two copies, it does not matter which comes first. -/
theorem Fair.keep_comm (fair : Fair better copy P) (symm : ∀ a b, copy a b → copy b a) {a b : α}
    (inA : P a) (inB : P b) (same : copy a b) (s : Option α) :
    keep better (keep better s a) b = keep better (keep better s b) a := by
  have lower : ∀ a b, P a → P b → copy a b → better b a = true →
      keep better (keep better s a) b = keep better (keep better s b) a := by
    intro a b inA inB same above
    have notBelow := fair.asymm b a (symm _ _ same) above
    cases s with
    | none => simp [keep, above, notBelow]
    | some c =>
        cases high : better b c with
        | true =>
            cases low : better a c with
            | true => simp [keep, above, notBelow, high, low]
            | false => simp [keep, notBelow, high, low]
        | false =>
            have low : better a c = false := by
              cases low : better a c with
              | false => rfl
              | true => exact absurd (fair.lifts a b c inA inB same above low) (by simp [high])
            simp [keep, high, low]
  rcases fair.total a b inA inB same with rfl | above | above
  · rfl
  · exact (lower b a inB inA (symm _ _ same) above).symm
  · exact lower a b inA inB same above

/-- An item moves to the front, past copies of it. -/
theorem Fair.foldl_middle (fair : Fair better copy P) (symm : ∀ a b, copy a b → copy b a) {a : α}
    (inA : P a) : ∀ (front back : List α) (s : Option α), (∀ b ∈ front, P b ∧ copy b a) →
      (front ++ a :: back).foldl (keep better) s = (a :: (front ++ back)).foldl (keep better) s
  | [], _, _, _ => rfl
  | b :: front, back, s, each => by
      obtain ⟨⟨inB, same⟩, later⟩ := List.forall_mem_cons.mp each
      rw [List.cons_append, List.foldl_cons, fair.foldl_middle symm inA front back _ later,
        List.foldl_cons, fair.keep_comm symm inB inA same]
      rfl

/-- **Copies can change places.**  Lists of the same items, sorted up to copies, have the same
best item. -/
theorem Fair.foldl_eq (fair : Fair better copy P) (symm : ∀ a b, copy a b → copy b a)
    (before : α → α → Prop) (ties : ∀ a b, before a b → before b a → copy a b) :
    ∀ {as bs : List α} (s : Option α), as.Pairwise before → bs.Pairwise before → as.Perm bs →
      (∀ a ∈ as, P a) → as.foldl (keep better) s = bs.foldl (keep better) s
  | [], bs, s, _, _, perm, _ => by rw [perm.symm.eq_nil]
  | a :: as, bs, s, sorted, sorted', perm, each => by
      obtain ⟨first, sorted⟩ := List.pairwise_cons.mp sorted
      obtain ⟨front, back, rfl⟩ := List.append_of_mem (perm.subset List.mem_cons_self)
      have rest : as.Perm (front ++ back) := (perm.trans List.perm_middle).cons_inv
      obtain ⟨-, -, cross⟩ := List.pairwise_append.mp sorted'
      have copies : ∀ b ∈ front, P b ∧ copy b a := by
        intro b m
        have inItems : b ∈ as := rest.symm.subset (List.mem_append_left _ m)
        exact ⟨each b (List.mem_cons_of_mem _ inItems),
          ties b a (cross b m a List.mem_cons_self) (first b inItems)⟩
      have sub : (front ++ back).Sublist (front ++ a :: back) :=
        (List.sublist_cons_self a back).append_left front
      rw [fair.foldl_middle symm (each a List.mem_cons_self) front back s copies, List.foldl_cons,
        List.foldl_cons, fair.foldl_eq symm before ties _ sorted (sorted'.sublist sub) rest
          fun b m => each b (List.mem_cons_of_mem _ m)]

end Fair

/-- The best item is one of the items. -/
theorem foldl_keep_mem {better : α → α → Bool} : ∀ (items : List α) {s : Option α} {a : α},
    items.foldl (keep better) s = some a → a ∈ items ∨ s = some a
  | [], _, _, found => .inr found
  | b :: items, s, a, found => by
      rcases foldl_keep_mem items found with later | here
      · exact .inl (List.mem_cons_of_mem _ later)
      · cases s with
        | none =>
            cases here
            exact .inl List.mem_cons_self
        | some c =>
            change (if better b c then some b else some c) = some a at here
            split at here
            · cases here
              exact .inl List.mem_cons_self
            · exact .inr here

/-- There is a best item, unless there is none at all. -/
theorem foldl_keep_isSome {better : α → α → Bool} : ∀ (items : List α) {s : Option α},
    s.isSome = true → (items.foldl (keep better) s).isSome = true
  | [], _, there => there
  | a :: items, s, there => by
      refine foldl_keep_isSome items (s := keep better s a) ?_
      cases s with
      | none => rfl
      | some b =>
          show (if better a b then some a else some b).isSome = true
          split <;> rfl

theorem best_isSome (better : α → α → Bool) {items : List α} (some_item : items ≠ []) :
    (best better items).isSome = true := by
  cases items with
  | nil => exact absurd rfl some_item
  | cons a items => exact foldl_keep_isSome items (s := some a) rfl

/-! ## Near ties -/

/-- The best item was met somewhere, and nothing after it is better. -/
theorem exists_of_foldl_keep {better : α → α → Bool} : ∀ (items : List α) {s : Option α} {m : α},
    items.foldl (keep better) s = some m →
      (s = some m ∧ ∀ q ∈ items, better q m = false) ∨
        ∃ front rest, items = front ++ m :: rest ∧ ∀ q ∈ rest, better q m = false
  | [], _, _, found => .inl ⟨found, nofun⟩
  | a :: items, s, m, found => by
      rcases exists_of_foldl_keep items found with ⟨here, stays⟩ | ⟨front, rest, split, stays⟩
      · cases s with
        | none =>
            cases here
            exact .inr ⟨[], items, rfl, stays⟩
        | some b =>
            change (if better a b then some a else some b) = some m at here
            split at here
            · cases here
              exact .inr ⟨[], items, rfl, stays⟩
            · rename_i worse
              cases here
              refine .inl ⟨rfl, fun q member => ?_⟩
              rcases List.mem_cons.mp member with rfl | later
              · exact Bool.eq_false_iff.mpr worse
              · exact stays q later
      · exact .inr ⟨a :: front, rest, by rw [split]; rfl, stays⟩

/-- What nothing is better than stays the best. -/
theorem foldl_keep_stays {better : α → α → Bool} {m : α} : ∀ (items : List α),
    (∀ q ∈ items, better q m = false) → items.foldl (keep better) (some m) = some m
  | [], _ => rfl
  | a :: items, each => by
      obtain ⟨here, later⟩ := List.forall_mem_cons.mp each
      have kept : keep better (some m) a = some m := by simp [keep, here]
      rw [List.foldl_cons, kept]
      exact foldl_keep_stays items later

/-- Among the items `P`, an item is better by its score, or by its text where the scores are near;
what is near depends on the scores, and equal scores are near. -/
structure Margin {S T : Type} [LinearOrder S] [LinearOrder T] (better : α → α → Bool)
    (score : α → S) (text : α → T) (near : α → α → Prop) (P : α → Prop) : Prop where
  better_iff : ∀ a b, P a → P b →
    (better a b = true ↔ score b < score a ∨ near a b ∧ text a < text b)
  near_of_eq : ∀ a b, P a → P b → score a = score b → near a b
  near_congr : ∀ a b c, P a → P b → P c → score b = score c → near a b → near a c

section Margin

variable {S T : Type} [LinearOrder S] [LinearOrder T] {better : α → α → Bool} {score : α → S}
  {text : α → T} {near : α → α → Prop} {P : α → Prop}

/-- Next to an item of the greatest score, what is kept has that score too, and no greater text. -/
theorem Margin.keep_greatest (margin : Margin better score text near P) {p : α} (inside : P p)
    {s : Option α} (below : ∀ h ∈ s, P h ∧ score h ≤ score p) :
    ∃ h, keep better s p = some h ∧ P h ∧ score h = score p ∧ text h ≤ text p := by
  cases s with
  | none => exact ⟨p, rfl, inside, rfl, le_rfl⟩
  | some b =>
      obtain ⟨inB, le⟩ := below b rfl
      show ∃ h, (if better p b then some p else some b) = some h ∧ _
      by_cases replaced : better p b = true
      · rw [if_pos replaced]
        exact ⟨p, rfl, inside, rfl, le_rfl⟩
      · rw [if_neg replaced]
        rw [margin.better_iff p b inside inB, not_or] at replaced
        obtain ⟨notAbove, notBefore⟩ := replaced
        have same : score b = score p := le_antisymm le (not_lt.mp notAbove)
        have close := margin.near_of_eq p b inside inB same.symm
        exact ⟨b, rfl, inB, same, not_lt.mp fun before => notBefore ⟨close, before⟩⟩

/-- **When the greatest score wins.**  Some item of the greatest score has no near one with a
smaller text after it. -/
theorem Margin.best_greatest_iff (margin : Margin better score text near P) {items : List α} {m : α}
    (each : ∀ a ∈ items, P a)
    (found : best better items = some m) :
    (∀ a ∈ items, score a ≤ score m) ↔ ∃ front p rest, items = front ++ p :: rest ∧
      (∀ a ∈ items, score a ≤ score p) ∧ ∀ q ∈ rest, near q p → text p ≤ text q := by
  constructor
  · intro greatest
    rcases exists_of_foldl_keep items found with ⟨none, -⟩ | ⟨front, rest, split, stays⟩
    · cases none
    · refine ⟨front, m, rest, split, greatest, fun q member close => not_lt.mp fun before => ?_⟩
      have inRest : q ∈ items := split ▸ List.mem_append_right _ (List.mem_cons_of_mem _ member)
      have inM : m ∈ items := split ▸ List.mem_append_right _ List.mem_cons_self
      have replaces := (margin.better_iff q m (each q inRest) (each m inM)).mpr (.inr ⟨close, before⟩)
      rw [stays q member] at replaces
      cases replaces
  · rintro ⟨front, p, rest, split, greatest, stands⟩
    have inP : p ∈ items := split ▸ List.mem_append_right _ List.mem_cons_self
    have before : ∀ h ∈ front.foldl (keep better) none, P h ∧ score h ≤ score p := by
      intro h held
      rcases foldl_keep_mem front held with inFront | none
      · have inItems : h ∈ items := split ▸ List.mem_append_left _ inFront
        exact ⟨each h inItems, greatest h inItems⟩
      · cases none
    obtain ⟨h, kept, inH, same, first⟩ := margin.keep_greatest (each p inP) before
    -- from here on nothing is better than what is kept
    have stays : ∀ q ∈ rest, better q h = false := by
      intro q member
      have inItems : q ∈ items := split ▸ List.mem_append_right _ (List.mem_cons_of_mem _ member)
      refine Bool.eq_false_iff.mpr fun replaces => ?_
      rcases (margin.better_iff q h (each q inItems) inH).mp replaces with above | ⟨close, smaller⟩
      · exact absurd above (not_lt.mpr (same ▸ greatest q inItems))
      · have close' := margin.near_congr q h p (each q inItems) inH (each p inP) same close
        exact absurd smaller (not_lt.mpr (first.trans (stands q member close')))
    have ends : best better items = some h := by
      rw [best, split, List.foldl_append, List.foldl_cons, kept]
      exact foldl_keep_stays rest stays
    obtain rfl := Option.some.inj (found.symm.trans ends)
    exact fun a member => same ▸ greatest a member

end Margin

end Mnem.Theory.Greedy
