/-
# Ingest.Breadcrumbs — a breadcrumb is a line of ancestors

The parent of a section is the nearest earlier section with a heading at a
smaller depth above zero.  `sectionPathFor` scans backwards under a bound that
shrinks; what it gives are the headings along the line of ancestors, outermost
first (`sectionPathFor_line`).  A heading at depth zero is no ancestor of
anything, and has no breadcrumb.
-/
import Mnem.Ingest.Chunk
import Mnem.Theory.Nearest

namespace Mnem.Ingest

open Theory

set_option autoImplicit false

variable (sections : List Section)

/-- The section at `k` has a heading, at a depth above zero and at most `depth`. -/
def Under (depth k : Nat) : Prop :=
  ∃ s, sections[k]? = some s ∧ s.heading.isSome ∧ 0 < s.depth ∧ s.depth ≤ depth

/-- The nearest earlier section with a heading at a smaller depth above zero. -/
def ParentOf (i j : Nat) : Prop :=
  ∃ s, sections[i]? = some s ∧ Nearest (Under sections (s.depth - 1)) i j

/-- The section at `i`, its parent, the parent of that, and so on. -/
def Ancestors (i : Nat) (line : List Nat) : Prop := Line (ParentOf sections) i line

/-- The headings at some positions. -/
def headings (line : List Nat) : List String :=
  line.filterMap fun k => sections[k]?.bind Section.heading

variable {sections}

theorem ParentOf.unique {i j k : Nat} (first : ParentOf sections i j)
    (second : ParentOf sections i k) : j = k := by
  obtain ⟨s, here, nearest⟩ := first
  obtain ⟨s', here', nearest'⟩ := second
  obtain rfl := Option.some.inj (here.symm.trans here')
  exact nearest.unique nearest'

theorem Ancestors.unique {i : Nat} {line line' : List Nat} (first : Ancestors sections i line)
    (second : Ancestors sections i line') : line = line' := by
  have one : ∀ i j k, ParentOf sections i j → ParentOf sections i k → j = k :=
    fun _ _ _ => ParentOf.unique
  exact Line.unique one first second

theorem headings_cons {i : Nat} {s : Section} {h : String} (here : sections[i]? = some s)
    (headed : s.heading = some h) (line : List Nat) :
    headings sections (i :: line) = h :: headings sections line := by
  apply List.filterMap_cons_some
  rw [here]
  exact headed

/-! ## The scan -/

/-- A section under the bound is taken, and the scan goes on above it. -/
theorem climb_under {depth : Nat} {s : Section} {h : String} (headed : s.heading = some h)
    (deep : 0 < s.depth) (le : s.depth ≤ depth) (before : List Section) :
    climb depth (s :: before) = h :: climb (s.depth - 1) before := by
  rw [climb, headed]
  dsimp only
  rw [if_pos (by simp [deep, le])]
  split
  · rename_i shallow
    rw [shallow, climb_zero]
  · rfl

/-- Any other section is passed by. -/
theorem climb_skip {depth k : Nat} {s : Section} (here : sections[k]? = some s)
    (passed : ¬ Under sections depth k) (before : List Section) :
    climb depth (s :: before) = climb depth before := by
  rw [climb]
  cases headed : s.heading with
  | none => rfl
  | some h =>
      refine if_neg fun taken => passed ⟨s, here, by rw [headed]; rfl, ?_⟩
      simpa using taken

theorem reverse_take_succ {k : Nat} {s : Section} (here : sections[k]? = some s) :
    (sections.take (k + 1)).reverse = s :: (sections.take k).reverse := by
  rw [List.take_add_one, here]
  simp

/-- What a scan from `i` gives: nothing, or the headings of the line from the nearest section
under the bound. -/
structure Climbs (sections : List Section) (depth i : Nat) : Prop where
  found : ∀ j, Nearest (Under sections depth) i j → ∃ line, Ancestors sections j line ∧
    climb depth (sections.take i).reverse = headings sections line
  none : (∀ j, ¬ Nearest (Under sections depth) i j) → climb depth (sections.take i).reverse = []

theorem climbs (depth : Nat) : ∀ i ≤ sections.length, Climbs sections depth i := by
  intro i
  induction i generalizing depth with
  | zero => exact fun _ => ⟨fun j nearest => absurd nearest.before (Nat.not_lt_zero j), fun _ => rfl⟩
  | succ i ih =>
      intro short
      have here : sections[i]? = some sections[i] := List.getElem?_eq_getElem short
      by_cases under : Under sections depth i
      · obtain ⟨s, at_i, headed, deep, le⟩ := under
        obtain ⟨h, heading⟩ := Option.isSome_iff_exists.mp headed
        have nearest : Nearest (Under sections depth) (i + 1) i :=
          nearest_succ ⟨s, at_i, headed, deep, le⟩
        have scanned := climb_under heading deep le (sections.take i).reverse
        have above := ih (s.depth - 1) (by omega)
        refine ⟨fun j other => ?_, fun none => absurd nearest (none i)⟩
        obtain rfl := nearest.unique other
        rw [reverse_take_succ at_i, scanned]
        by_cases parent : ∃ k, Nearest (Under sections (s.depth - 1)) i k
        · obtain ⟨k, nearer⟩ := parent
          obtain ⟨line, ancestors, scan⟩ := above.found k nearer
          refine ⟨i :: line, .up ⟨s, at_i, nearer⟩ ancestors, ?_⟩
          rw [scan, headings_cons at_i heading]
        · have orphan : ∀ k, ¬ ParentOf sections i k := by
            rintro k ⟨s', at_i', nearer⟩
            obtain rfl := Option.some.inj (at_i.symm.trans at_i')
            exact parent ⟨k, nearer⟩
          refine ⟨[i], .top orphan, ?_⟩
          rw [above.none fun k nearer => parent ⟨k, nearer⟩, headings_cons at_i heading]
          rfl
      · have before := ih depth (by omega)
        have scanned := climb_skip here under (sections.take i).reverse
        refine ⟨fun j nearest => ?_, fun none => ?_⟩
        · rw [reverse_take_succ here, scanned]
          exact before.found j ((nearest_skip under).mp nearest)
        · rw [reverse_take_succ here, scanned]
          exact before.none fun j nearest => none j ((nearest_skip under).mpr nearest)

/-! ## The breadcrumb -/

/-- **Breadcrumbs are lines of ancestors.**  A section with a heading and a depth has the headings
along its own line, outermost first.  A section without a heading has those along the line of the
nearest earlier section with a heading at a depth above zero and at most its own, or none. -/
theorem sectionPathFor_line {idx : Nat} {s : Section} (here : sections[idx]? = some s)
    (deep : 0 < s.depth) :
    (s.heading.isSome → ∃ line, Ancestors sections idx line ∧
      sectionPathFor sections idx = (headings sections line).reverse) ∧
    (s.heading = none →
      (∀ j, Nearest (Under sections s.depth) idx j → ∃ line, Ancestors sections j line ∧
        sectionPathFor sections idx = (headings sections line).reverse) ∧
      ((∀ j, ¬ Nearest (Under sections s.depth) idx j) → sectionPathFor sections idx = [])) := by
  have short : idx + 1 ≤ sections.length := (List.getElem?_eq_some_iff.mp here).1
  obtain ⟨found, nothing⟩ := climbs s.depth (idx + 1) short
  have path : sectionPathFor sections idx =
      (climb s.depth (sections.take (idx + 1)).reverse).reverse := by
    rw [sectionPathFor, here]
  rw [path]
  constructor
  · intro headed
    obtain ⟨line, ancestors, scan⟩ :=
      found idx (nearest_succ ⟨s, here, headed, deep, Nat.le_refl _⟩)
    exact ⟨line, ancestors, congrArg List.reverse scan⟩
  · intro headless
    have passed : ¬ Under sections s.depth idx := by
      rintro ⟨s', at_idx, headed, -⟩
      obtain rfl := Option.some.inj (here.symm.trans at_idx)
      rw [headless] at headed
      cases headed
    refine ⟨fun j nearest => ?_, fun none => ?_⟩
    · obtain ⟨line, ancestors, scan⟩ := found j ((nearest_skip passed).mpr nearest)
      exact ⟨line, ancestors, congrArg List.reverse scan⟩
    · rw [nothing fun j nearest => none j ((nearest_skip passed).mp nearest)]
      rfl

/-- Prose under a second heading, whose parent is the first. -/
def nested : List Section :=
  [{ heading := some "Top", depth := 1, text := [] }, { heading := some "Mid", depth := 3, text := [] },
    { depth := 3, text := [] }]

theorem sectionPathFor_line_nested :
    sectionPathFor nested 2 = ["Top", "Mid"] ∧ ∃ line, Ancestors nested 1 line ∧
      sectionPathFor nested 2 = (headings nested line).reverse := by
  have here : nested[2]? = some { depth := 3, text := [] } := rfl
  refine ⟨by decide, ((sectionPathFor_line here (by decide)).2 rfl).1 1 ?_⟩
  exact nearest_succ ⟨_, rfl, rfl, by decide, by decide⟩

/-- A heading at depth zero before prose at depth one. -/
def flatHeading : List Section :=
  [{ heading := some "Top", depth := 1, text := [] }, { heading := some "Flat", text := [] },
    { depth := 1, text := [] }]

/-- The nearest heading at depth at most one is at depth zero, and the breadcrumb leaves it out. -/
theorem sectionPathFor_passes_flat : ∃ s, flatHeading[2]? = some s ∧ s.heading = none ∧ 0 < s.depth ∧
    Nearest (fun k => ∃ t, flatHeading[k]? = some t ∧ t.heading.isSome ∧ t.depth ≤ s.depth) 2 1 ∧
      ∀ line, Ancestors flatHeading 1 line →
        sectionPathFor flatHeading 2 ≠ (headings flatHeading line).reverse := by
  refine ⟨_, rfl, rfl, by decide, nearest_succ ⟨_, rfl, rfl, by decide⟩, fun line ancestors => ?_⟩
  have alone : Ancestors flatHeading 1 [1] := by
    refine .top ?_
    rintro j ⟨s, here, nearest⟩
    obtain rfl := Option.some.inj here
    obtain ⟨t, -, -, deep, shallow⟩ := nearest.holds
    dsimp only at shallow
    omega
  obtain rfl := ancestors.unique alone
  decide

end Mnem.Ingest
