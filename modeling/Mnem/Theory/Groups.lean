/-
# Theory.Groups — grouping rows by key

Two ways to group a list of rows while walking it: into maps of maps, where a
later row at the same pair of keys overwrites an earlier one (`addRows`), and
into lists, where every row is kept in order (`pushAll`).  A group exists only
once a row has been put into it (`Occupied`), so a grouping is determined by
its rows (`ext_row`).
-/
import Mnem.Theory.OrdMap

namespace Mnem.Theory.Groups

set_option autoImplicit false

universe u v w

variable {K : Type u} {J : Type v} {V : Type w} [LinearOrder K]

/-! ## Maps of maps -/

section Rows

variable [LinearOrder J]

/-- The value at a pair of keys. -/
def row (g : OrdMap K (OrdMap J V)) (k : K) (j : J) : Option V :=
  (g.get? k).bind fun m => m.get? j

/-- `entry(k).or_default().insert(j, v)`. -/
def addRow (g : OrdMap K (OrdMap J V)) (k : K) (j : J) (v : V) : OrdMap K (OrdMap J V) :=
  g.modify k fun m => (m.getD OrdMap.empty).insert j v

def addRows (g : OrdMap K (OrdMap J V)) (rows : List ((K × J) × V)) : OrdMap K (OrdMap J V) :=
  rows.foldl (fun g r => addRow g r.1.1 r.1.2 r.2) g

theorem addRows_append (g : OrdMap K (OrdMap J V)) (rs ts : List ((K × J) × V)) :
    addRows g (rs ++ ts) = addRows (addRows g rs) ts := List.foldl_append ..

/-- No group is empty. -/
def Occupied (g : OrdMap K (OrdMap J V)) : Prop :=
  ∀ k m, g.get? k = some m → ∃ j, (m.get? j).isSome

@[simp] theorem row_empty (k : K) (j : J) : row (OrdMap.empty : OrdMap K (OrdMap J V)) k j = none :=
  rfl

theorem row_addRow (g : OrdMap K (OrdMap J V)) (k : K) (j : J) (v : V) (k' : K) (j' : J) :
    row (addRow g k j v) k' j' = if (k, j) = (k', j') then some v else row g k' j' := by
  unfold row addRow
  rw [OrdMap.get?_modify]
  by_cases at_k : k = k'
  · subst at_k
    rw [if_pos rfl, Option.bind_some, OrdMap.get?_insert]
    by_cases at_j : j = j'
    · simp [at_j]
    · rw [if_neg at_j, if_neg (by simp [at_j])]
      cases g.get? k <;> rfl
  · rw [if_neg at_k, if_neg (by simp [at_k])]

theorem occupied_empty : Occupied (OrdMap.empty : OrdMap K (OrdMap J V)) := by
  intro k m found
  simp at found

theorem Occupied.addRow {g : OrdMap K (OrdMap J V)} (occupied : Occupied g) (k : K) (j : J)
    (v : V) : Occupied (addRow g k j v) := by
  intro k' m found
  unfold Groups.addRow at found
  rw [OrdMap.get?_modify] at found
  split at found
  · cases found
    exact ⟨j, by simp⟩
  · exact occupied k' m found

theorem Occupied.addRows {g : OrdMap K (OrdMap J V)} (occupied : Occupied g)
    (rows : List ((K × J) × V)) : Occupied (addRows g rows) := by
  induction rows generalizing g with
  | nil => exact occupied
  | cons r rows ih => exact ih (occupied.addRow r.1.1 r.1.2 r.2)

/-- The last row at a pair of keys wins, over any row that was there before. -/
theorem row_addRows (g : OrdMap K (OrdMap J V)) (rows : List ((K × J) × V)) (k : K) (j : J) :
    row (addRows g rows) k j = (Entries.get? (k, j) rows.reverse).or (row g k j) := by
  induction rows generalizing g with
  | nil => rfl
  | cons r rows ih =>
      change row (addRows (addRow g r.1.1 r.1.2 r.2) rows) k j = _
      rw [ih, row_addRow, List.reverse_cons, Entries.get?_append, Option.or_assoc,
        Entries.get?_cons]
      congr 1
      split <;> rfl

theorem row_addRows_empty (rows : List ((K × J) × V)) (k : K) (j : J) :
    row (addRows OrdMap.empty rows) k j = Entries.get? (k, j) rows.reverse := by
  rw [row_addRows, row_empty, Option.or_none]

theorem get?_isSome_iff_row {g : OrdMap K (OrdMap J V)} (occupied : Occupied g) (k : K) :
    (g.get? k).isSome ↔ ∃ j, (row g k j).isSome := by
  unfold row
  cases found : g.get? k with
  | none => simp
  | some m => simpa using occupied k m found

/-- A grouping is determined by its rows. -/
theorem ext_row {g g' : OrdMap K (OrdMap J V)} (occupied : Occupied g) (occupied' : Occupied g')
    (same : ∀ k j, row g k j = row g' k j) : g = g' := by
  ext k : 1
  have both : (g.get? k).isSome = (g'.get? k).isSome := by
    rw [Bool.eq_iff_iff, get?_isSome_iff_row occupied, get?_isSome_iff_row occupied']
    simp only [same]
  cases found : g.get? k with
  | none =>
      rw [found] at both
      have absent : g'.get? k = none := by simpa using both
      exact absent.symm
  | some m =>
      obtain ⟨m', found'⟩ := Option.isSome_iff_exists.mp (both.symm.trans (by simp [found]))
      rw [found']
      congr 1
      ext j : 1
      simpa [row, found, found'] using same k j

/-! ## One grouping over another -/

/-- A group with new entries written over it. -/
def mergeGroup (base : Option (OrdMap J V)) (additions : OrdMap J V) : OrdMap J V :=
  (base.getD OrdMap.empty).insertAll additions.entries

/-- Each group of `additions` written over the group at its key. -/
def overlay (g additions : OrdMap K (OrdMap J V)) : OrdMap K (OrdMap J V) :=
  g.insertAll (additions.entries.map fun e => (e.1, mergeGroup (g.get? e.1) e.2))

theorem mergeGroup_none (additions : OrdMap J V) : mergeGroup none additions = additions :=
  OrdMap.ofList_entries additions

theorem get?_mergeGroup (base : Option (OrdMap J V)) (additions : OrdMap J V) (j : J) :
    (mergeGroup base additions).get? j =
      (additions.get? j).or (base.bind fun m => m.get? j) := by
  unfold mergeGroup
  rw [OrdMap.get?_insertAll_entries]
  cases base <;> rfl

theorem get?_overlay (g additions : OrdMap K (OrdMap J V)) (k : K) :
    (overlay g additions).get? k =
      ((additions.get? k).map (mergeGroup (g.get? k))).or (g.get? k) := by
  unfold overlay
  rw [OrdMap.get?_insertAll]
  congr 1
  exact OrdMap.get?_reverse_map Function.injective_id additions (fun k a => mergeGroup (g.get? k) a) k

theorem row_overlay (g additions : OrdMap K (OrdMap J V)) (k : K) (j : J) :
    row (overlay g additions) k j = (row additions k j).or (row g k j) := by
  unfold row
  rw [get?_overlay]
  cases additions.get? k with
  | none => rfl
  | some a => exact get?_mergeGroup (g.get? k) a j

theorem Occupied.overlay {g additions : OrdMap K (OrdMap J V)} (occupied : Occupied g)
    (occupied' : Occupied additions) : Occupied (overlay g additions) := by
  intro k m found
  rw [get?_overlay] at found
  cases added : additions.get? k with
  | none =>
      rw [added] at found
      exact occupied k m found
  | some a =>
      rw [added] at found
      cases found
      obtain ⟨j, at_j⟩ := occupied' k a added
      refine ⟨j, ?_⟩
      rw [get?_mergeGroup, Option.isSome_or, at_j, Bool.true_or]

/-- Adding rows one by one is writing their grouping over what is there. -/
theorem overlay_addRows {g : OrdMap K (OrdMap J V)} (occupied : Occupied g)
    (rows : List ((K × J) × V)) : overlay g (addRows OrdMap.empty rows) = addRows g rows := by
  apply ext_row (occupied.overlay (occupied_empty.addRows rows)) (occupied.addRows rows)
  intro k j
  rw [row_overlay, row_addRows_empty, row_addRows]

end Rows

/-! ## Maps of lists -/

/-- `entry(k).or_default().push(v)`. -/
def push (g : OrdMap K (List V)) (k : K) (v : V) : OrdMap K (List V) :=
  g.modify k fun vs => vs.getD [] ++ [v]

def pushAll (g : OrdMap K (List V)) (rows : List (K × V)) : OrdMap K (List V) :=
  rows.foldl (fun g r => push g r.1 r.2) g

/-- The rows at `k`, in order. -/
def rowsAt (rows : List (K × V)) (k : K) : List V :=
  (rows.filter fun r => decide (r.1 = k)).map Prod.snd

theorem rowsAt_cons (r : K × V) (rows : List (K × V)) (k : K) :
    rowsAt (r :: rows) k = if r.1 = k then r.2 :: rowsAt rows k else rowsAt rows k := by
  unfold rowsAt
  by_cases h : r.1 = k <;> simp [h]

theorem mem_rowsAt {rows : List (K × V)} {k : K} {v : V} :
    v ∈ rowsAt rows k ↔ (k, v) ∈ rows := by
  simp [rowsAt]

theorem get?_pushAll (g : OrdMap K (List V)) (rows : List (K × V)) (k : K) :
    (pushAll g rows).get? k =
      if rowsAt rows k = [] then g.get? k else some ((g.get? k).getD [] ++ rowsAt rows k) := by
  induction rows generalizing g with
  | nil => simp [pushAll, rowsAt]
  | cons r rows ih =>
      change (pushAll (push g r.1 r.2) rows).get? k = _
      rw [ih, push, OrdMap.get?_modify, rowsAt_cons]
      by_cases at_k : r.1 = k
      · subst at_k
        simp only [if_pos]
        by_cases rest : rowsAt rows r.1 = [] <;> simp [rest]
      · simp [at_k]

/-- Grouped from nothing, the rows at `k` are its group, and there is no empty group. -/
theorem get?_pushAll_empty (rows : List (K × V)) (k : K) :
    (pushAll OrdMap.empty rows).get? k =
      if rowsAt rows k = [] then none else some (rowsAt rows k) := by
  rw [get?_pushAll]
  simp

end Mnem.Theory.Groups
