/-
# Theory.Spans — windows that walk over a sequence

A walk over a sequence puts a window at its start, moves the start ahead, and
ends with the window that reaches the end.  `size` and `advance` say, at a start,
how long the window is and how far the next start is.  If a window is neither
empty nor too long and the next start is within it or at its end, the windows
cover the sequence (`covers_spans`).  What holds of every window, or of every two
in a row, is what holds at the starts that the walk visits (`mem_spans_iff`,
`isChain_spans_iff`).
-/
import Mathlib.Data.List.Chain
import Mathlib.Data.Nat.Init

namespace Mnem.Theory

set_option autoImplicit false

/-- The windows from a start on, each by its start and its end. -/
def spans (len : Nat) (size advance : Nat → Nat) (start : Nat) : List (Nat × Nat) :=
  if start < len then
    (start, start + size start) ::
      if start + size start < len then spans len size advance (start + max (advance start) 1) else []
  else []
  termination_by len - start

/-- The starts of the walk. -/
inductive Visits (len : Nat) (size advance : Nat → Nat) (start : Nat) : Nat → Prop where
  | start : Visits len size advance start start
  | next {s : Nat} : Visits len size advance start s → s + size s < len →
      Visits len size advance start (s + max (advance s) 1)

/-- The windows of a walk over a sequence: the first starts at its start, the last ends at its end,
and each of the others starts later than the one before, within it or at its end. -/
structure Covers (len : Nat) (ws : List (Nat × Nat)) : Prop where
  empty : len = 0 → ws = []
  first : 0 < len → ws.head?.map Prod.fst = some 0
  last : 0 < len → ws.getLast?.map Prod.snd = some len
  proper : ∀ w ∈ ws, w.1 < w.2
  chained : ws.IsChain fun w v => w.1 < v.1 ∧ v.1 ≤ w.2

theorem exists_mem_of_chain {i : Nat} {ws : List (Nat × Nat)}
    (chained : ws.IsChain fun w v => w.1 < v.1 ∧ v.1 ≤ w.2)
    (first : ∀ w ∈ ws.head?, w.1 ≤ i) (last : ∀ w ∈ ws.getLast?, i < w.2) (some : ws ≠ []) :
    ∃ w ∈ ws, w.1 ≤ i ∧ i < w.2 := by
  induction ws with
  | nil => exact absurd rfl some
  | cons w ws ih =>
      obtain ⟨next, rest⟩ := List.isChain_cons.mp chained
      by_cases ends : i < w.2
      · exact ⟨w, List.mem_cons_self, first w rfl, ends⟩
      · cases ws with
        | nil => exact absurd (last w rfl) ends
        | cons v vs =>
            have within := (next v rfl).2
            obtain ⟨u, m, inside⟩ := ih rest
              (by intro x same; cases same; omega)
              (fun x final => last x (by rw [List.getLast?_cons_cons]; exact final))
              (List.cons_ne_nil v vs)
            exact ⟨u, List.mem_cons_of_mem _ m, inside⟩

/-- Everything in the sequence is in a window. -/
theorem Covers.exists_mem {len i : Nat} {ws : List (Nat × Nat)} (covers : Covers len ws)
    (inside : i < len) : ∃ w ∈ ws, w.1 ≤ i ∧ i < w.2 := by
  have first := covers.first (by omega)
  have last := covers.last (by omega)
  refine exists_mem_of_chain covers.chained (fun w m => ?_) (fun w m => ?_) ?_
  · rw [m] at first
    have zero : w.1 = 0 := Option.some.inj first
    omega
  · rw [m] at last
    have whole : w.2 = len := Option.some.inj last
    omega
  · rintro rfl
    cases first

section Walk

variable {len : Nat} {size advance : Nat → Nat} {start : Nat}

theorem Visits.trans {s t : Nat} (first : Visits len size advance start s)
    (later : Visits len size advance s t) : Visits len size advance start t := by
  induction later with
  | start => exact first
  | next _ more ih => exact ih.next more

theorem visits_cases {s : Nat} (visits : Visits len size advance start s) :
    s = start ∨ (start + size start < len ∧
      Visits len size advance (start + max (advance start) 1) s) := by
  induction visits with
  | start => exact Or.inl rfl
  | next _ more ih =>
      rcases ih with rfl | ⟨first, later⟩
      · exact Or.inr ⟨more, .start⟩
      · exact Or.inr ⟨first, later.next more⟩

theorem mem_spans_iff {w : Nat × Nat} : w ∈ spans len size advance start ↔
    ∃ s, Visits len size advance start s ∧ s < len ∧ w = (s, s + size s) := by
  induction hn : len - start using Nat.strong_induction_on generalizing start with
  | _ n ih =>
      rw [spans]
      by_cases inside : start < len
      · rw [if_pos inside, List.mem_cons]
        by_cases more : start + size start < len
        · rw [if_pos more, ih _ (by omega) rfl]
          constructor
          · rintro (rfl | ⟨s, visits, below, rfl⟩)
            · exact ⟨start, .start, inside, rfl⟩
            · exact ⟨s, (Visits.start.next more).trans visits, below, rfl⟩
          · rintro ⟨s, visits, below, rfl⟩
            rcases visits_cases visits with rfl | ⟨-, later⟩
            · exact Or.inl rfl
            · exact Or.inr ⟨s, later, below, rfl⟩
        · rw [if_neg more]
          constructor
          · rintro (rfl | none)
            · exact ⟨start, .start, inside, rfl⟩
            · cases none
          · rintro ⟨s, visits, -, rfl⟩
            rcases visits_cases visits with rfl | ⟨first, -⟩
            · exact Or.inl rfl
            · exact absurd first more
      · rw [if_neg inside]
        constructor
        · intro none
          cases none
        · rintro ⟨s, visits, below, rfl⟩
          rcases visits_cases visits with rfl | ⟨first, -⟩
          · exact absurd below inside
          · omega

theorem head?_spans (inside : start < len) :
    (spans len size advance start).head? = some (start, start + size start) := by
  rw [spans, if_pos inside]
  rfl

/-- A start has a next one within the sequence. -/
def Bounded (len : Nat) (size advance : Nat → Nat) : Prop :=
  ∀ s < len, 0 < size s ∧ s + size s ≤ len ∧ (s + size s < len → max (advance s) 1 ≤ size s)

/-- Two windows in a row. -/
theorem isChain_spans_iff (bounded : Bounded len size advance) {R : Nat × Nat → Nat × Nat → Prop} :
    (spans len size advance start).IsChain R ↔
      ∀ s, Visits len size advance start s → s + size s < len →
        R (s, s + size s) (s + max (advance s) 1,
          s + max (advance s) 1 + size (s + max (advance s) 1)) := by
  induction hn : len - start using Nat.strong_induction_on generalizing start with
  | _ n ih =>
      rw [spans]
      by_cases inside : start < len
      · rw [if_pos inside]
        by_cases more : start + size start < len
        · have within := (bounded start inside).2.2 more
          rw [if_pos more, List.isChain_cons, ih _ (by omega) rfl, head?_spans (by omega)]
          constructor
          · rintro ⟨first, rest⟩ s visits less
            rcases visits_cases visits with rfl | ⟨-, later⟩
            · exact first _ rfl
            · exact rest s later less
          · intro each
            refine ⟨fun v same => ?_, fun s visits less =>
              each s ((Visits.start.next more).trans visits) less⟩
            cases same
            exact each start .start more
        · rw [if_neg more]
          constructor
          · intro _ s visits less
            rcases visits_cases visits with rfl | ⟨first, -⟩
            · exact absurd less more
            · exact absurd first more
          · intro _
            exact List.isChain_singleton _
      · rw [if_neg inside]
        constructor
        · intro _ s visits less
          rcases visits_cases visits with rfl | ⟨first, -⟩
          · omega
          · omega
        · intro _
          exact List.isChain_nil

theorem getLast?_spans (bounded : Bounded len size advance) (inside : start < len) :
    (spans len size advance start).getLast?.map Prod.snd = some len := by
  induction hn : len - start using Nat.strong_induction_on generalizing start with
  | _ n ih =>
      obtain ⟨-, reaches, ahead⟩ := bounded start inside
      rw [spans, if_pos inside]
      by_cases more : start + size start < len
      · have within := ahead more
        rw [if_pos more, List.getLast?_cons]
        have later : (spans len size advance (start + max (advance start) 1)).getLast?.map Prod.snd =
            some len := ih _ (by omega) (by omega) rfl
        cases found : (spans len size advance (start + max (advance start) 1)).getLast? with
        | none =>
            rw [found] at later
            cases later
        | some w =>
            rw [found] at later
            exact later
      · rw [if_neg more]
        show some (start + size start) = some len
        congr 1
        omega

/-- **The windows of a walk cover the sequence.** -/
theorem covers_spans (bounded : Bounded len size advance) : Covers len (spans len size advance 0) where
  empty none := by
    rw [spans, if_neg (by omega)]
  first some := by
    rw [head?_spans some]
    rfl
  last some := getLast?_spans bounded some
  proper w m := by
    obtain ⟨s, -, below, rfl⟩ := mem_spans_iff.mp m
    have positive := (bounded s below).1
    show s < s + size s
    omega
  chained := by
    rw [isChain_spans_iff bounded]
    intro s _ more
    have within := (bounded s (by omega)).2.2 more
    show s < s + max (advance s) 1 ∧ s + max (advance s) 1 ≤ s + size s
    omega

end Walk

end Mnem.Theory
