/-
# Prolly.Walk — the cursor, the drained cursor, and point lookup

Three readers of one tree.  `Cursor` is the stack machine of the source, step by
step; `entries` is what a `for` loop over a cursor consumes, computed by an
in-order walk; `lookup` descends by `partition_point` over the separators.  On a
tree that holds `es` they agree with `es`: `Cursor.yields_of_holds`,
`entries_of_holds`, `lookup_of_holds`.

The descents recurse on a bound.  The bound is one more than the number of
blocks, and a tree is never that high, so on trees it is not reached.
-/
import Mnem.Prolly.Tree
import Mnem.Addressing
import Mathlib.Order.Bounds.Defs

namespace Mnem.Prolly

open Theory

set_option autoImplicit false
set_option linter.unusedSectionVars false

variable {Cid : Type} {H : Hashing Cid} [LinearOrder Cid]

/-! ## The cursor -/

/-- An ordered cursor: for each open internal chunk, innermost first, its children
and the index of the next unvisited one; and the current leaf with the index of
its next unread entry. -/
structure Cursor (Cid : Type) where
  stack : List (List Cid × Nat)
  current : Option (List (ProllyKey × Cid) × Nat)

namespace Cursor

/-- Go down the left spine from `cid` to a leaf. -/
def descend (s : Store H) : Nat → Cid → List (List Cid × Nat) → Except (Error Cid) (Cursor Cid)
  | 0, _, _ => .error .diverged
  | fuel + 1, cid, stack =>
      match loadTreeChunk s cid with
      | .error e => .error e
      | .ok (.leaf es) => .ok ⟨stack, some (es, 0)⟩
      | .ok (.internal _ children) =>
          match children[0]? with
          | none => .error (.decode cid)
          | some next => descend s fuel next ((children, 1) :: stack)

/-- Open a cursor at the leftmost leaf. -/
def new (s : Store H) (root : Cid) : Except (Error Cid) (Cursor Cid) :=
  descend s (s.blocks.length + 1) root []

/-- Move to the next leaf in key order; `none` when the tree is traversed. -/
def advanceLeaf (s : Store H) : List (List Cid × Nat) → Except (Error Cid) (Option (Cursor Cid))
  | [] => .ok none
  | (children, nextIdx) :: stack =>
      match children[nextIdx]? with
      | some next =>
          match descend s (s.blocks.length + 1) next ((children, nextIdx + 1) :: stack) with
          | .error e => .error e
          | .ok c => .ok (some c)
      | none => advanceLeaf s stack

/-- The loop of `next`: each round but the last leaves an exhausted leaf. -/
def nextLoop (s : Store H) :
    Nat → Cursor Cid → Except (Error Cid) (Option ((ProllyKey × Cid) × Cursor Cid))
  | 0, _ => .error .diverged
  | fuel + 1, c =>
      match c.current.bind fun (es, i) => es[i]?.map fun e => (es, i, e) with
      | some (es, i, e) => .ok (some (e, { c with current := some (es, i + 1) }))
      | none =>
          match advanceLeaf s c.stack with
          | .error e => .error e
          | .ok none => .ok none
          | .ok (some c) => nextLoop s fuel c

/-- The next entry, with the cursor after it. -/
def next (s : Store H) (c : Cursor Cid) :
    Except (Error Cid) (Option ((ProllyKey × Cid) × Cursor Cid)) :=
  nextLoop s (s.blocks.length + 2) c

/-- The cursor yields exactly `es`, in order, and then ends. -/
inductive Yields (s : Store H) : Cursor Cid → List (ProllyKey × Cid) → Prop where
  | done {c : Cursor Cid} (ends : c.next s = .ok none) : Yields s c []
  | entry {c c' : Cursor Cid} {e : ProllyKey × Cid} {es : List (ProllyKey × Cid)}
      (steps : c.next s = .ok (some (e, c'))) (rest : Yields s c' es) : Yields s c (e :: es)

end Cursor

/-! ## The drained cursor -/

/-- Everything below `cid`, in key order. -/
def entriesAt (s : Store H) : Nat → Cid → Except (Error Cid) (List (ProllyKey × Cid))
  | 0, _ => .error .diverged
  | fuel + 1, cid =>
      match loadTreeChunk s cid with
      | .error e => .error e
      | .ok (.leaf es) => .ok es
      | .ok (.internal _ children) => List.flatten <$> children.mapM (entriesAt s fuel)

/-- What a loop over a fresh cursor at `root` consumes. -/
def entries (s : Store H) (root : Cid) : Except (Error Cid) (List (ProllyKey × Cid)) :=
  entriesAt s (s.blocks.length + 1) root

/-! ## Point lookup -/

/-- The number of leading keys at or below `key`. -/
def partitionPoint (boundaries : List ProllyKey) (key : ProllyKey) : Nat :=
  (boundaries.takeWhile fun b => decide (b ≤ key)).length

def lookupAt (s : Store H) (key : ProllyKey) : Nat → Cid → Except (Error Cid) (Option Cid)
  | 0, _ => .error .diverged
  | fuel + 1, cid =>
      match loadTreeChunk s cid with
      | .error e => .error e
      -- a binary search by key, on entries in ascending order
      | .ok (.leaf es) => .ok (Entries.get? key es)
      | .ok (.internal boundaries children) =>
          match children[partitionPoint boundaries key]? with
          | none => .error (.decode cid)
          | some child => lookupAt s key fuel child

/-- The value filed under `key` in the tree at `root`. -/
def lookup (s : Store H) (root : Cid) (key : ProllyKey) : Except (Error Cid) (Option Cid) :=
  lookupAt s key (s.blocks.length + 1) root

/-! ## The cursor yields what the tree holds -/

namespace Cursor

/-- What the unvisited children of the open chunks hold, innermost first. -/
def StackHolds (s : Store H) : List (List Cid × Nat) → List (ProllyKey × Cid) → Prop
  | [], es => es = []
  | (children, i) :: stack, es =>
      ∃ parts outer,
        List.Forall₂ (fun c part => (∃ h, Holds s h c part) ∧ part ≠ []) (children.drop i) parts ∧
          StackHolds s stack outer ∧ es = parts.flatten ++ outer

/-- The unread entries of the current leaf. -/
def unread (c : Cursor Cid) : List (ProllyKey × Cid) :=
  match c.current with
  | none => []
  | some (l, i) => l.drop i

/-- What a cursor has yet to yield. -/
def Remains (s : Store H) (c : Cursor Cid) (es : List (ProllyKey × Cid)) : Prop :=
  ∃ outer, StackHolds s c.stack outer ∧ es = c.unread ++ outer

theorem children_hold {s : Store H} {h : Nat} {run : List (ProllyKey × Cid)}
    {parts : List (List (ProllyKey × Cid))} (spans : List.Forall₂ (Spans s h) run parts) :
    List.Forall₂ (fun c part => (∃ h, Holds s h c part) ∧ part ≠ []) (run.map Prod.snd) parts :=
  List.forall₂_map_left_iff.mpr (spans.imp fun _ _ sp => ⟨⟨h, sp.1⟩, sp.ne_nil⟩)

/-- Descending opens the leftmost leaf and leaves the rest on the stack. -/
theorem descend_of_holds {s : Store H} (fuel : Nat) {h : Nat} {cid : Cid}
    {part outer : List (ProllyKey × Cid)} {stack : List (List Cid × Nat)}
    (holds : Holds s h cid part) (enough : h < fuel) (below : StackHolds s stack outer) :
    ∃ leaf stack' rest, descend s fuel cid stack = .ok ⟨stack', some (leaf, 0)⟩ ∧
      StackHolds s stack' rest ∧ leaf ++ rest = part ++ outer ∧ (part ≠ [] → leaf ≠ []) := by
  induction h generalizing fuel cid part outer stack with
  | zero =>
      obtain ⟨fuel, rfl⟩ : ∃ f, fuel = f + 1 := ⟨fuel - 1, by omega⟩
      refine ⟨part, stack, outer, ?_, below, rfl, id⟩
      rw [descend, loadTreeChunk_leaf holds]
  | succ h ih =>
      obtain ⟨fuel, rfl⟩ : ∃ f, fuel = f + 1 := ⟨fuel - 1, by omega⟩
      obtain ⟨run, parts, loads, occupied, spans, rfl⟩ := holds_succ.mp holds
      have loaded := loadTreeChunk_internal loads occupied
      cases spans with
      | nil => exact absurd rfl occupied
      | @cons e first run parts sp rest =>
          have below' : StackHolds s ((((e :: run).map Prod.snd, 1)) :: stack)
              (parts.flatten ++ outer) := by
            refine ⟨parts, outer, ?_, below, rfl⟩
            simpa using children_hold rest
          obtain ⟨leaf, stack', rest', ran, holds', whole, occupied'⟩ :=
            ih fuel sp.1 (Nat.lt_of_succ_lt_succ enough) below'
          refine ⟨leaf, stack', rest', ?_, holds', ?_, fun _ => occupied' sp.ne_nil⟩
          · rw [descend, loaded]
            exact ran
          · rw [whole, List.flatten_cons, List.append_assoc]

theorem advanceLeaf_of_holds {s : Store H} {stack : List (List Cid × Nat)}
    {es : List (ProllyKey × Cid)} (holds : StackHolds s stack es) :
    (es = [] → advanceLeaf s stack = .ok none) ∧
      (es ≠ [] → ∃ leaf stack' rest, advanceLeaf s stack = .ok (some ⟨stack', some (leaf, 0)⟩) ∧
        StackHolds s stack' rest ∧ leaf ≠ [] ∧ leaf ++ rest = es) := by
  induction stack generalizing es with
  | nil => exact ⟨fun _ => rfl, fun occupied => absurd holds occupied⟩
  | cons frame stack ih =>
      obtain ⟨children, i⟩ := frame
      obtain ⟨parts, outer, unvisited, below, rfl⟩ := holds
      cases next : children[i]? with
      | none =>
          have nothing : children.drop i = [] :=
            List.drop_eq_nil_iff.mpr (List.getElem?_eq_none_iff.mp next)
          rw [nothing] at unvisited
          cases unvisited
          have skip : advanceLeaf s ((children, i) :: stack) = advanceLeaf s stack := by
            rw [advanceLeaf, next]
          rw [skip, List.flatten_nil, List.nil_append]
          exact ih below
      | some child =>
          have unfolded : children.drop i = child :: children.drop (i + 1) := by
            obtain ⟨lt, rfl⟩ := List.getElem?_eq_some_iff.mp next
            exact List.drop_eq_getElem_cons lt
          rw [unfolded] at unvisited
          cases unvisited with
          | @cons _ part _ parts child_holds rest =>
              obtain ⟨⟨h, childHolds⟩, occupied⟩ := child_holds
              obtain ⟨leaf, stack', rest', ran, holds', whole, leafOccupied⟩ :=
                descend_of_holds (s.blocks.length + 1) childHolds
                  (Nat.lt_succ_of_lt childHolds.lt_length)
                  (show StackHolds s ((children, i + 1) :: stack) (parts.flatten ++ outer) from
                    ⟨parts, outer, rest, below, rfl⟩)
              refine ⟨fun empty => ?_, fun _ => ⟨leaf, stack', rest', ?_, holds',
                leafOccupied occupied, ?_⟩⟩
              · simp [occupied] at empty
              · rw [advanceLeaf, next]
                simp only [ran]
              · rw [whole, List.flatten_cons, List.append_assoc]

/-- An unread entry is taken at once. -/
theorem nextLoop_unread (s : Store H) (fuel : Nat) {c : Cursor Cid} {e : ProllyKey × Cid}
    {rest : List (ProllyKey × Cid)} (has : c.unread = e :: rest) :
    ∃ c', nextLoop s (fuel + 1) c = .ok (some (e, c')) ∧ c'.unread = rest ∧
      c'.stack = c.stack := by
  obtain ⟨stack, current⟩ := c
  cases current with
  | none => cases has
  | some leaf =>
      obtain ⟨l, i⟩ := leaf
      have drop_i : l.drop i = e :: rest := has
      have at_i : l[i]? = some e := by
        rw [← List.head?_drop, drop_i]
        rfl
      refine ⟨⟨stack, some (l, i + 1)⟩, by simp [nextLoop, at_i], ?_, rfl⟩
      change l.drop (i + 1) = rest
      rw [← List.tail_drop, drop_i, List.tail_cons]

/-- With the leaf read, the cursor moves to the next one. -/
theorem nextLoop_read {s : Store H} {fuel : Nat} {c : Cursor Cid} (read : c.unread = []) :
    nextLoop s (fuel + 1) c = match advanceLeaf s c.stack with
      | .error e => .error e
      | .ok none => .ok none
      | .ok (some c) => nextLoop s fuel c := by
  obtain ⟨stack, current⟩ := c
  cases current with
  | none => rfl
  | some leaf =>
      obtain ⟨l, i⟩ := leaf
      have drop_i : l.drop i = [] := read
      have at_i : l[i]? = none := by
        rw [← List.head?_drop, drop_i]
        rfl
      simp [nextLoop, at_i]

theorem next_of_remains_nil {s : Store H} {c : Cursor Cid} (remains : Remains s c []) :
    c.next s = .ok none := by
  obtain ⟨outer, stackHolds, whole⟩ := remains
  obtain ⟨read, rfl⟩ := List.append_eq_nil_iff.mp whole.symm
  unfold next
  rw [nextLoop_read read, (advanceLeaf_of_holds stackHolds).1 rfl]

/-- One step of a cursor takes the first entry that remains. -/
theorem next_of_remains_cons {s : Store H} {c : Cursor Cid} {e : ProllyKey × Cid}
    {es : List (ProllyKey × Cid)} (remains : Remains s c (e :: es)) :
    ∃ c', c.next s = .ok (some (e, c')) ∧ Remains s c' es := by
  obtain ⟨outer, stackHolds, whole⟩ := remains
  unfold next
  cases has : c.unread with
  | cons first rest =>
      rw [has, List.cons_append] at whole
      obtain ⟨rfl, rfl⟩ := List.cons.inj whole
      obtain ⟨c', ran, rfl, sameStack⟩ := nextLoop_unread s _ has
      exact ⟨c', ran, outer, sameStack ▸ stackHolds, rfl⟩
  | nil =>
      rw [has, List.nil_append] at whole
      obtain ⟨leaf, stack', rest, ran, holds', occupied, split⟩ :=
        (advanceLeaf_of_holds stackHolds).2 (by rw [← whole]; simp)
      obtain ⟨first, leaf, rfl⟩ := List.exists_cons_of_ne_nil occupied
      obtain ⟨rfl, rfl⟩ := List.cons.inj (split.trans whole.symm)
      obtain ⟨c', ran', rfl, sameStack⟩ :=
        nextLoop_unread s s.blocks.length
          (show (Cursor.mk stack' (some (first :: leaf, 0))).unread = first :: leaf from rfl)
      refine ⟨c', ?_, rest, sameStack ▸ holds', rfl⟩
      rw [nextLoop_read has, ran]
      exact ran'

theorem yields_of_remains {s : Store H} {c : Cursor Cid} {es : List (ProllyKey × Cid)}
    (remains : Remains s c es) : Yields s c es := by
  induction es generalizing c with
  | nil => exact .done (next_of_remains_nil remains)
  | cons e es ih =>
      obtain ⟨c', steps, remains'⟩ := next_of_remains_cons remains
      exact .entry steps (ih remains')

/-- **A cursor over a tree yields exactly what the tree holds.** -/
theorem yields_of_holds {s : Store H} {h : Nat} {root : Cid} {es : List (ProllyKey × Cid)}
    (holds : Holds s h root es) : ∃ c, new s root = .ok c ∧ Yields s c es := by
  obtain ⟨leaf, stack, rest, ran, stackHolds, whole, -⟩ :=
    descend_of_holds (s.blocks.length + 1) holds (Nat.lt_succ_of_lt holds.lt_length)
      (show StackHolds s [] [] from rfl)
  refine ⟨_, ran, yields_of_remains ⟨rest, stackHolds, ?_⟩⟩
  rw [← List.append_nil es, ← whole]
  rfl

end Cursor

/-! ## The drained cursor agrees -/

/-- Walking each child of a run, when every walk succeeds. -/
theorem mapM_children {f : Cid → Except (Error Cid) (List (ProllyKey × Cid))}
    {run : List (ProllyKey × Cid)} {parts : List (List (ProllyKey × Cid))}
    (each : List.Forall₂ (fun e part => f e.2 = .ok part) run parts) :
    (run.map Prod.snd).mapM f = .ok parts := by
  induction each with
  | nil => rfl
  | cons one _ rest =>
      rw [List.map_cons, List.mapM_cons, one, rest]
      rfl

theorem entriesAt_of_holds {s : Store H} {fuel h : Nat} {cid : Cid}
    {es : List (ProllyKey × Cid)} (holds : Holds s h cid es) (enough : h < fuel) :
    entriesAt s fuel cid = .ok es := by
  induction h generalizing fuel cid es with
  | zero =>
      obtain ⟨fuel, rfl⟩ : ∃ f, fuel = f + 1 := ⟨fuel - 1, by omega⟩
      rw [entriesAt, loadTreeChunk_leaf holds]
  | succ h ih =>
      obtain ⟨fuel, rfl⟩ : ∃ f, fuel = f + 1 := ⟨fuel - 1, by omega⟩
      obtain ⟨run, parts, loads, occupied, spans, rfl⟩ := holds_succ.mp holds
      rw [entriesAt, loadTreeChunk_internal loads occupied]
      have all : (run.map Prod.snd).mapM (entriesAt s fuel) = .ok parts :=
        mapM_children (spans.imp fun _ _ sp => ih sp.1 (by omega))
      simp only [all]
      rfl

theorem entries_of_holds {s : Store H} {h : Nat} {root : Cid} {es : List (ProllyKey × Cid)}
    (holds : Holds s h root es) : entries s root = .ok es :=
  entriesAt_of_holds holds (Nat.lt_succ_of_lt holds.lt_length)

theorem entries_of_isTree {s : Store H} {root : Cid} {m : OrdMap ProllyKey Cid}
    (tree : IsTree s root m) : entries s root = .ok m.entries := by
  obtain ⟨h, holds⟩ := tree
  exact entries_of_holds holds

/-! ## Routing by separators -/

section Routing

variable {s : Store H} {h : Nat}

/-- A key held by child `i` is routed to child `i`. -/
theorem partitionPoint_of_mem {run : List (ProllyKey × Cid)}
    {parts : List (List (ProllyKey × Cid))} (spans : List.Forall₂ (Spans s h) run parts)
    (asc : Entries.Ascending parts.flatten) {i : Nat} {part : List (ProllyKey × Cid)}
    (at_i : parts[i]? = some part) {k : ProllyKey} (member : k ∈ part.map Prod.fst) :
    partitionPoint (run.tail.map Prod.fst) k = i := by
  induction spans generalizing i with
  | nil => simp at at_i
  | @cons e first run parts sp rest ih =>
      obtain ⟨x, inPart, rfl⟩ := List.mem_map.mp member
      rw [List.flatten_cons] at asc
      obtain ⟨-, restAsc, below⟩ := Entries.ascending_append_iff.mp asc
      cases rest with
      | nil =>
          cases i with
          | zero => rfl
          | succ i => simp at at_i
      | @cons e' second run parts sp' rest' =>
          -- the separator is the first key of the second part
          obtain ⟨y, ys, second_eq⟩ := List.exists_cons_of_ne_nil sp'.ne_nil
          have sep : y.1 = e'.1 := by
            have filed := sp'.2
            rw [second_eq] at filed
            exact Option.some.inj filed
          have y_mem : y ∈ (second :: parts).flatten := by simp [second_eq]
          cases i with
          | zero =>
              obtain rfl : first = part := Option.some.inj at_i
              have lt : x.1 < e'.1 := sep ▸ below x inPart y y_mem
              simp [partitionPoint, not_le_of_gt lt]
          | succ i =>
              have at_i' : (second :: parts)[i]? = some part := by simpa using at_i
              have later := ih restAsc at_i'
              have x_mem : x ∈ (second :: parts).flatten :=
                List.mem_flatten.mpr ⟨part, List.mem_of_getElem? at_i', inPart⟩
              have le : e'.1 ≤ x.1 := by
                rw [← sep]
                rw [List.flatten_cons, second_eq, List.cons_append] at x_mem restAsc
                rcases List.mem_cons.mp x_mem with rfl | behind
                · exact le_refl _
                · exact le_of_lt (restAsc.head_lt x behind)
              simp only [partitionPoint, List.tail_cons, List.map_cons] at later ⊢
              rw [List.takeWhile_cons_of_pos (by simpa using le), List.length_cons, later]

/-- Every key is routed to some child. -/
theorem partitionPoint_lt {run : List (ProllyKey × Cid)} (occupied : run ≠ []) (k : ProllyKey) :
    partitionPoint (run.tail.map Prod.fst) k < run.length := by
  have pos : 0 < run.length := List.length_pos_iff.mpr occupied
  have le : partitionPoint (run.tail.map Prod.fst) k ≤ (run.tail.map Prod.fst).length :=
    (List.takeWhile_prefix _).length_le
  rw [List.length_map, List.length_tail] at le
  omega

/-- A larger key is routed no further left. -/
theorem partitionPoint_mono (boundaries : List ProllyKey) {j k : ProllyKey} (le : j ≤ k) :
    partitionPoint boundaries j ≤ partitionPoint boundaries k := by
  induction boundaries with
  | nil => exact le_refl _
  | cons b boundaries ih =>
      unfold partitionPoint at ih ⊢
      by_cases at_j : b ≤ j
      · rw [List.takeWhile_cons_of_pos (by simpa using at_j),
          List.takeWhile_cons_of_pos (by simpa using at_j.trans le)]
        exact Nat.succ_le_succ ih
      · rw [List.takeWhile_cons_of_neg (by simpa using at_j)]
        exact Nat.zero_le _

/-- Routing depends only on which separators are at or below the key. -/
theorem partitionPoint_congr {boundaries : List ProllyKey} {j k : ProllyKey}
    (same : ∀ b ∈ boundaries, b ≤ j ↔ b ≤ k) :
    partitionPoint boundaries j = partitionPoint boundaries k := by
  unfold partitionPoint
  induction boundaries with
  | nil => rfl
  | cons b boundaries ih =>
      have here := same b List.mem_cons_self
      have rest := ih fun x member => same x (List.mem_cons_of_mem _ member)
      by_cases at_j : b ≤ j
      · rw [List.takeWhile_cons_of_pos (by simpa using at_j),
          List.takeWhile_cons_of_pos (by simpa using here.mp at_j), List.length_cons,
          List.length_cons, rest]
      · rw [List.takeWhile_cons_of_neg (by simpa using at_j),
          List.takeWhile_cons_of_neg (by simpa using fun le => at_j (here.mpr le))]

/-- A separator starts a new range. -/
theorem partitionPoint_lt_of_mem {boundaries : List ProllyKey}
    (sorted : boundaries.Pairwise (· < ·)) {b j : ProllyKey} (member : b ∈ boundaries)
    (lt : j < b) : partitionPoint boundaries j < partitionPoint boundaries b := by
  unfold partitionPoint
  induction boundaries with
  | nil => simp at member
  | cons x boundaries ih =>
      obtain ⟨below, sorted⟩ := List.pairwise_cons.mp sorted
      have x_le : x ≤ b := by
        rcases List.mem_cons.mp member with rfl | behind
        · exact le_refl _
        · exact le_of_lt (below b behind)
      rw [List.takeWhile_cons_of_pos (p := fun y => decide (y ≤ b)) (by simpa using x_le),
        List.length_cons]
      by_cases at_j : x ≤ j
      · rw [List.takeWhile_cons_of_pos (by simpa using at_j), List.length_cons]
        rcases List.mem_cons.mp member with rfl | behind
        · exact absurd at_j (not_le_of_gt lt)
        · exact Nat.succ_lt_succ (ih sorted behind)
      · rw [List.takeWhile_cons_of_neg (by simpa using at_j)]
        exact Nat.succ_pos _

/-- The first keys of the children of an ascending tree ascend. -/
theorem firstKeys_ascending {run : List (ProllyKey × Cid)}
    {parts : List (List (ProllyKey × Cid))} (spans : List.Forall₂ (Spans s h) run parts)
    (asc : Entries.Ascending parts.flatten) : (run.map Prod.fst).Pairwise (· < ·) := by
  induction spans with
  | nil => exact .nil
  | @cons e first run parts sp rest ih =>
      rw [List.flatten_cons] at asc
      obtain ⟨-, restAsc, below⟩ := Entries.ascending_append_iff.mp asc
      have filed : ∀ {e : ProllyKey × Cid} {part : List (ProllyKey × Cid)}, Spans s h e part →
          ∃ x ∈ part, x.1 = e.1 := by
        intro e part sp
        obtain ⟨x, part, rfl⟩ := List.exists_cons_of_ne_nil sp.ne_nil
        exact ⟨x, List.mem_cons_self, Option.some.inj sp.2⟩
      refine List.pairwise_cons.mpr ⟨fun k member => ?_, ih restAsc⟩
      obtain ⟨e', inRun, rfl⟩ := List.mem_map.mp member
      obtain ⟨i, at_i⟩ := List.mem_iff_getElem?.mp inRun
      obtain ⟨lt, rfl⟩ := List.getElem?_eq_some_iff.mp at_i
      have child := (List.forall₂_iff_get.mp rest).2 _ lt (rest.length_eq ▸ lt)
      obtain ⟨x, inFirst, x_key⟩ := filed sp
      obtain ⟨y, inPart, y_key⟩ := filed child
      have lt_key := below x inFirst y (List.mem_flatten.mpr ⟨_, List.get_mem _ _, inPart⟩)
      rw [x_key, y_key] at lt_key
      exact lt_key

/-- Looking a key up among all children is looking it up in the child it routes to. -/
theorem get?_flatten_eq {run : List (ProllyKey × Cid)}
    {parts : List (List (ProllyKey × Cid))} (spans : List.Forall₂ (Spans s h) run parts)
    (asc : Entries.Ascending parts.flatten) {part : List (ProllyKey × Cid)} (k : ProllyKey)
    (at_k : parts[partitionPoint (run.tail.map Prod.fst) k]? = some part) :
    Entries.get? k parts.flatten = Entries.get? k part := by
  have partAsc : Entries.Ascending part :=
    asc.sublist (List.sublist_flatten_of_mem (List.mem_of_getElem? at_k))
  ext v
  rw [Entries.get?_eq_some_iff asc, Entries.get?_eq_some_iff partAsc, List.mem_flatten]
  constructor
  · rintro ⟨other, otherMem, member⟩
    obtain ⟨i, at_i⟩ := List.mem_iff_getElem?.mp otherMem
    have routed := partitionPoint_of_mem spans asc at_i (List.mem_map_of_mem member)
    rw [routed, at_i] at at_k
    exact Option.some.inj at_k ▸ member
  · intro member
    exact ⟨part, List.mem_of_getElem? at_k, member⟩

/-- The child a key is routed to, and what a lookup of the key finds there. -/
theorem route {run : List (ProllyKey × Cid)} {parts : List (List (ProllyKey × Cid))}
    (spans : List.Forall₂ (Spans s h) run parts) (occupied : run ≠ [])
    (asc : Entries.Ascending parts.flatten) (k : ProllyKey) :
    ∃ e part, run[partitionPoint (run.tail.map Prod.fst) k]? = some e ∧
      parts[partitionPoint (run.tail.map Prod.fst) k]? = some part ∧ Spans s h e part ∧
      Entries.get? k parts.flatten = Entries.get? k part := by
  have routed := partitionPoint_lt occupied k
  have routed' := spans.length_eq ▸ routed
  have at_k := List.getElem?_eq_getElem routed'
  exact ⟨_, _, List.getElem?_eq_getElem routed, at_k,
    (List.forall₂_iff_get.mp spans).2 _ routed routed', get?_flatten_eq spans asc k at_k⟩

end Routing

theorem lookupAt_of_holds {s : Store H} {fuel h : Nat} {cid : Cid}
    {es : List (ProllyKey × Cid)} (holds : Holds s h cid es) (asc : Entries.Ascending es)
    (enough : h < fuel) (k : ProllyKey) : lookupAt s k fuel cid = .ok (Entries.get? k es) := by
  induction h generalizing fuel cid es with
  | zero =>
      obtain ⟨fuel, rfl⟩ : ∃ f, fuel = f + 1 := ⟨fuel - 1, by omega⟩
      rw [lookupAt, loadTreeChunk_leaf holds]
  | succ h ih =>
      obtain ⟨fuel, rfl⟩ : ∃ f, fuel = f + 1 := ⟨fuel - 1, by omega⟩
      obtain ⟨run, parts, loads, occupied, spans, rfl⟩ := holds_succ.mp holds
      obtain ⟨e, part, e_at, part_at, sp, found⟩ := route spans occupied asc k
      have child_at : (run.map Prod.snd)[partitionPoint (run.tail.map Prod.fst) k]? =
          some e.2 := by
        rw [List.getElem?_map, e_at]
        rfl
      rw [lookupAt, loadTreeChunk_internal loads occupied]
      simp only [child_at]
      rw [found]
      exact ih sp.1 (asc.sublist (List.sublist_flatten_of_mem (List.mem_of_getElem? part_at)))
        (by omega)

/-- **Lookup agrees with the map the tree holds.** -/
theorem lookup_of_holds {s : Store H} {h : Nat} {root : Cid} {es : List (ProllyKey × Cid)}
    (holds : Holds s h root es) (asc : Entries.Ascending es) (k : ProllyKey) :
    lookup s root k = .ok (Entries.get? k es) :=
  lookupAt_of_holds holds asc (Nat.lt_succ_of_lt holds.lt_length) k

theorem lookup_of_isTree {s : Store H} {root : Cid} {m : OrdMap ProllyKey Cid}
    (tree : IsTree s root m) (k : ProllyKey) : lookup s root k = .ok (m.get? k) := by
  obtain ⟨h, holds⟩ := tree
  exact lookup_of_holds holds m.ascending k

/-! ## Separators, and the round trip -/

/-- The separators of an internal chunk: one fewer than its children, each the
smallest key below the child on its right. -/
def Separated (s : Store H) (boundaries : List ProllyKey) (children : List Cid) : Prop :=
  boundaries.length + 1 = children.length ∧
    ∀ i b, boundaries[i]? = some b → ∃ c sub, children[i + 1]? = some c ∧
      entries s c = .ok sub ∧ IsLeast {k | k ∈ sub.map Prod.fst} b

theorem head_isLeast {es : List (ProllyKey × Cid)} (asc : Entries.Ascending es) {k : ProllyKey}
    (first : es.head?.map Prod.fst = some k) : IsLeast {k | k ∈ es.map Prod.fst} k := by
  cases es with
  | nil => cases first
  | cons e es =>
      cases first
      refine ⟨by simp, ?_⟩
      intro k member
      obtain ⟨x, inEs, rfl⟩ := List.mem_map.mp member
      rcases List.mem_cons.mp inEs with rfl | behind
      · exact le_refl _
      · exact le_of_lt (asc.head_lt x behind)

theorem separated_of_spans {s : Store H} {h : Nat} {run : List (ProllyKey × Cid)}
    {parts : List (List (ProllyKey × Cid))} (spans : List.Forall₂ (Spans s h) run parts)
    (occupied : run ≠ []) (asc : Entries.Ascending parts.flatten) :
    Separated s (run.tail.map Prod.fst) (run.map Prod.snd) := by
  have pos : 0 < run.length := List.length_pos_iff.mpr occupied
  refine ⟨by rw [List.length_map, List.length_map, List.length_tail]; omega, ?_⟩
  intro i b at_i
  rw [List.getElem?_map, List.getElem?_tail] at at_i
  obtain ⟨e, e_at, rfl⟩ := Option.map_eq_some_iff.mp at_i
  obtain ⟨lt, rfl⟩ := List.getElem?_eq_some_iff.mp e_at
  have len := spans.length_eq
  have child := (List.forall₂_iff_get.mp spans).2 _ lt (len ▸ lt)
  refine ⟨_, _, by rw [List.getElem?_map, e_at]; rfl, entries_of_holds child.1, ?_⟩
  exact head_isLeast (asc.sublist (List.sublist_flatten_of_mem (List.get_mem _ _))) child.2

/-- Every internal chunk that `build_tree` writes is separated. -/
theorem treeChunks_separated {s : Store H} {es : List (ProllyKey × Cid)}
    (asc : Entries.Ascending es) (stored : ∀ t ∈ treeChunks H es, s.Loads (H.cidOf (.tree t)) t)
    {boundaries : List ProllyKey} {children : List Cid}
    (written : TreeChunk.internal boundaries children ∈ treeChunks H es) :
    Separated s boundaries children := by
  obtain ⟨h, part, holds, inEs⟩ := (treeRoot_holds es stored).2 _ written
  have loads := stored _ written
  cases h with
  | zero => cases loads.unique (holds_zero.mp holds)
  | succ h =>
      obtain ⟨run, parts, loads', occupied, spans, rfl⟩ := holds_succ.mp holds
      cases loads.unique loads'
      exact separated_of_spans spans occupied (asc.sublist inEs.sublist)

/-- **The tree round trip.**  From strictly ascending entries and for any rolling
hash, the builder returns: its loop over levels ends at a single chunk, whatever
larger bound it is given.  A cursor over the root yields the entries, lookup
finds each of them and nothing else, and every internal chunk is separated. -/
theorem buildTree_round_trip (H : Hashing Cid) (s : Store H) (es : List (ProllyKey × Cid))
    (asc : Entries.Ascending es) :
    ((buildLevels H es).1.length = 1 ∧ ∀ fuel ≥ (buildLeafLevel H es).length,
      levelLoop H fuel ((buildLeafLevel H es).map (address H))
        ((buildLeafLevel H es).map Prod.snd) = buildLevels H es) ∧
    ∃ root s', (buildTree es : StoreM H Cid).Returns s root s' ∧
      (∃ c, Cursor.new s' root = .ok c ∧ c.Yields s' es) ∧
      (∀ k v, (k, v) ∈ es → lookup s' root k = .ok (some v)) ∧
      (∀ k, k ∉ es.map Prod.fst → lookup s' root k = .ok none) ∧
      ∀ boundaries children, TreeChunk.internal boundaries children ∈ treeChunks H es →
        Separated s' boundaries children := by
  refine ⟨⟨buildLevels_length H es, fun fuel enough =>
    levelLoop_stable H (by rw [List.length_map]) enough⟩, ?_⟩
  have stored := loads_putChunks s (treeChunks H es)
  obtain ⟨h, holds⟩ := (treeRoot_holds es stored).1
  refine ⟨treeRoot H es, putChunks s (treeChunks H es), Exec.returns_update.mpr rfl,
    Cursor.yields_of_holds holds, ?_, ?_, ?_⟩
  · intro k v member
    rw [lookup_of_holds holds asc, (Entries.get?_eq_some_iff asc).mpr member]
  · intro k absent
    rw [lookup_of_holds holds asc, Entries.get?_eq_none_iff.mpr]
    intro e member at_k
    exact absent (at_k ▸ List.mem_map_of_mem member)
  · intro boundaries children written
    exact treeChunks_separated asc stored written

/-- Forty keys under a rolling hash that always cuts: three leaves and a root. -/
theorem buildTree_round_trip_forty :
    (buildLevels cuttingHashing (consecutive 0 40)).1.length = 1 ∧
    ∃ root s', (buildTree (consecutive 0 40) : StoreM cuttingHashing ℕ).Returns {} root s' ∧
      lookup s' root 17 = .ok (some 1017) ∧ lookup s' root 40 = .ok none := by
  obtain ⟨⟨single, -⟩, root, s', ran, -, present, absent, -⟩ :=
    buildTree_round_trip cuttingHashing {} (consecutive 0 40) (by decide)
  exact ⟨single, root, s', ran, present 17 1017 (by decide), absent 40 (by decide)⟩

end Mnem.Prolly
