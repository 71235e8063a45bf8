/-
# Index.Append — when appending rows is rebuilding

A property row is keyed by the hash of the value alone, so nodes with one
label, one property and one value hash compete for it.  In a full rebuild the
holder with the greatest node id wins (`row_contentsOf_iff`); on the
incremental path an added holder wins over whatever the row was.  `Covers`
is what every index set of the repository satisfies, whichever path wrote it:
labels and adjacency are exact, and a property row names some holder.  The
two paths agree exactly when the added holders are the greatest
(`append_props_eq_iff`).
-/
import Mnem.Index.Contents

namespace Mnem.Index

open Theory Theory.Groups Prolly

set_option autoImplicit false
set_option linter.unusedSectionVars false

variable {Cid : Type} {H : Hashing Cid} [LinearOrder Cid]

/-! ## Holders of a property row -/

/-- The node has the label, and its property `name` hashes to `hash`. -/
def HasProp (H : Hashing Cid) (label name : String) (hash : ProllyKey) (n : Node Cid) : Prop :=
  n.ntype = label ∧ ∃ v, n.props.get? name = some v ∧ H.valueHash v = hash

/-- The row with the greatest key among those that satisfy `P`. -/
structure Greatest {α : Type} (P : α → Prop) (rows : List (Row Cid α)) (r : Row Cid α) : Prop where
  mem : r ∈ rows
  holds : P r.object
  le : ∀ r' ∈ rows, P r'.object → r'.key ≤ r.key

/-- Ascending rows: the order of a tree. -/
def AscendingRows {α : Type} (rows : List (Row Cid α)) : Prop :=
  rows.Pairwise fun a b => a.key < b.key

theorem ReadsRows.ascending {α : Type} [Object Cid α] {s : Store H} {m : OrdMap ProllyKey Cid}
    {rows : List (Row Cid α)} (reads : ReadsRows s m.entries rows) : AscendingRows rows := by
  have asc := m.ascending
  rw [← reads.entries, Entries.Ascending, List.pairwise_map] at asc
  exact asc

theorem AscendingRows.nodup {α : Type} {rows : List (Row Cid α)} (asc : AscendingRows rows) :
    (rows.map Row.key).Nodup :=
  List.pairwise_map.mpr (asc.imp fun h => ne_of_lt h)

theorem Greatest.unique {α : Type} {P : α → Prop} {rows : List (Row Cid α)} {r r' : Row Cid α}
    (asc : AscendingRows rows) (g : Greatest P rows r) (g' : Greatest P rows r') : r = r' := by
  have same : r.key = r'.key := le_antisymm (g'.le r g.mem g.holds) (g.le r' g'.mem g'.holds)
  exact List.inj_on_of_nodup_map asc.nodup g.mem g'.mem same

/-- Where some row satisfies `P`, one of them is the greatest. -/
theorem exists_greatest {α : Type} {P : α → Prop} {rows : List (Row Cid α)}
    (asc : AscendingRows rows) (some_row : ∃ r ∈ rows, P r.object) : ∃ r, Greatest P rows r := by
  induction rows with
  | nil => simp at some_row
  | cons x rows ih =>
      obtain ⟨below, asc'⟩ := List.pairwise_cons.mp asc
      by_cases later : ∃ r ∈ rows, P r.object
      · obtain ⟨r, g⟩ := ih asc' later
        refine ⟨r, List.mem_cons_of_mem _ g.mem, g.holds, fun r' m holds => ?_⟩
        rcases List.mem_cons.mp m with rfl | m'
        · exact le_of_lt (below r g.mem)
        · exact g.le r' m' holds
      · obtain ⟨r, m, holds⟩ := some_row
        rcases List.mem_cons.mp m with rfl | m'
        · refine ⟨r, List.mem_cons_self, holds, fun r' m' holds' => ?_⟩
          rcases List.mem_cons.mp m' with rfl | m''
          · exact le_refl _
          · exact absurd ⟨r', m'', holds'⟩ later
        · exact absurd ⟨r, m', holds⟩ later

/-- One node's rows at a key of the index. -/
theorem get?_nodePropRows (r : Row Cid (Node Cid)) (label name : String) (hash : ProllyKey)
    (cid : Cid) :
    Entries.get? (toLex (label, name), hash) (nodePropRows H r).reverse = some cid ↔
      HasProp H label name hash r.object ∧ r.cid = cid := by
  have mem_iff : ∀ c, ((toLex (label, name), hash), c) ∈ nodePropRows H r ↔
      HasProp H label name hash r.object ∧ r.cid = c := by
    intro c
    unfold nodePropRows HasProp
    simp only [List.mem_map, Prod.mk.injEq, EmbeddingLike.apply_eq_iff_eq, Prod.exists]
    constructor
    · rintro ⟨k, v, m, ⟨⟨rfl, rfl⟩, rfl⟩, rfl⟩
      exact ⟨⟨rfl, v, (OrdMap.get?_eq_some_iff _).mpr m, rfl⟩, rfl⟩
    · rintro ⟨⟨rfl, v, found, rfl⟩, rfl⟩
      exact ⟨name, v, (OrdMap.get?_eq_some_iff _).mp found, ⟨⟨rfl, rfl⟩, rfl⟩, rfl⟩
  constructor
  · intro found
    exact (mem_iff cid).mp (List.mem_reverse.mp (Entries.mem_of_get? found))
  · rintro ⟨holds, rfl⟩
    have present : (Entries.get? (toLex (label, name), hash) (nodePropRows H r).reverse).isSome := by
      rw [Entries.get?_isSome_iff]
      exact List.mem_map_of_mem (List.mem_reverse.mpr ((mem_iff r.cid).mpr ⟨holds, rfl⟩))
    obtain ⟨c, found⟩ := Option.isSome_iff_exists.mp present
    rw [found, ((mem_iff c).mp (List.mem_reverse.mp (Entries.mem_of_get? found))).2]

/-- **In a full rebuild the holder with the greatest node id has the row.** -/
theorem get?_propRows_iff {rows : List (Row Cid (Node Cid))} (asc : AscendingRows rows)
    (label name : String) (hash : ProllyKey) (cid : Cid) :
    Entries.get? (toLex (label, name), hash) (propRows H rows).reverse = some cid ↔
      ∃ r, Greatest (HasProp H label name hash) rows r ∧ r.cid = cid := by
  induction rows generalizing cid with
  | nil =>
      simp only [propRows, List.flatMap_nil, List.reverse_nil, Entries.get?_nil, reduceCtorEq,
        false_iff]
      rintro ⟨r, g, -⟩
      simpa using g.mem
  | cons x rows ih =>
      obtain ⟨below, asc'⟩ := List.pairwise_cons.mp asc
      have split : (propRows H (x :: rows)).reverse =
          (propRows H rows).reverse ++ (nodePropRows H x).reverse := by
        rw [← List.reverse_append]
        rfl
      rw [split, Entries.get?_append]
      cases later : Entries.get? (toLex (label, name), hash) (propRows H rows).reverse with
      | some c =>
          obtain ⟨r, g, rfl⟩ := (ih asc' c).mp later
          have g' : Greatest (HasProp H label name hash) (x :: rows) r := by
            refine ⟨List.mem_cons_of_mem _ g.mem, g.holds, fun r' m holds => ?_⟩
            rcases List.mem_cons.mp m with rfl | m'
            · exact le_of_lt (below r g.mem)
            · exact g.le r' m' holds
          constructor
          · intro found
            exact ⟨r, g', Option.some.inj found⟩
          · rintro ⟨r', g'', rfl⟩
            rw [g''.unique asc g']
            rfl
      | none =>
          have no_later : ∀ r ∈ rows, ¬ HasProp H label name hash r.object := by
            intro r m holds
            obtain ⟨g, greatest⟩ := exists_greatest asc' ⟨r, m, holds⟩
            have found := (ih asc' g.cid).mpr ⟨g, greatest, rfl⟩
            rw [later] at found
            cases found
          rw [Option.none_or, get?_nodePropRows]
          constructor
          · rintro ⟨holds, rfl⟩
            refine ⟨x, ⟨List.mem_cons_self, holds, fun r' m holds' => ?_⟩, rfl⟩
            rcases List.mem_cons.mp m with rfl | m'
            · exact le_refl _
            · exact absurd holds' (no_later r' m')
          · rintro ⟨r, g, rfl⟩
            rcases List.mem_cons.mp g.mem with rfl | m'
            · exact ⟨g.holds, rfl⟩
            · exact absurd g.holds (no_later r m')

theorem row_contentsOf_iff {nodes : List (Row Cid (Node Cid))} (edges : List (Row Cid (Edge Cid)))
    (asc : AscendingRows nodes) (label name : String) (hash : ProllyKey) (cid : Cid) :
    row (contentsOf H nodes edges).props (toLex (label, name)) hash = some cid ↔
      ∃ r, Greatest (HasProp H label name hash) nodes r ∧ r.cid = cid := by
  have all : row (contentsOf H nodes edges).props (toLex (label, name)) hash =
      Entries.get? (toLex (label, name), hash) (propRows H nodes).reverse :=
    row_addRows_empty _ _ _
  rw [all]
  exact get?_propRows_iff asc label name hash cid

/-! ## Label rows -/

theorem get?_labelRows_iff {rows : List (Row Cid (Node Cid))} (asc : AscendingRows rows)
    (label : String) (key : ProllyKey) (cid : Cid) :
    Entries.get? (label, key) (labelRows rows).reverse = some cid ↔
      ∃ r ∈ rows, r.object.ntype = label ∧ r.key = key ∧ r.cid = cid := by
  have nodup : ((labelRows rows).reverse.map Prod.fst).Nodup := by
    rw [List.map_reverse, List.nodup_reverse, labelRows, List.map_map]
    exact List.Nodup.of_map Prod.snd (by rw [List.map_map]; exact asc.nodup)
  rw [Entries.get?_eq_some_iff_of_nodup nodup]
  simp only [labelRows, List.mem_reverse, List.mem_map, Prod.mk.injEq, and_assoc]

/-! ## Appending -/

/-- The rows of a tree to which nodes with new ids were added. -/
structure Appended {α : Type} (base added merged : List (Row Cid α)) : Prop where
  base_asc : AscendingRows base
  added_asc : AscendingRows added
  merged_asc : AscendingRows merged
  fresh : ∀ a ∈ added, ∀ b ∈ base, b.key ≠ a.key
  mem_iff : ∀ r, r ∈ merged ↔ r ∈ base ∨ r ∈ added

/-- What every index set of the repository satisfies, whichever path wrote it. -/
structure Contents.Covers (H : Hashing Cid) (c : Contents Cid) (nodes : List (Row Cid (Node Cid)))
    (edges : List (Row Cid (Edge Cid))) : Prop where
  labels : c.labels = (contentsOf H nodes edges).labels
  outgoing : c.outgoing = (contentsOf H nodes edges).outgoing
  incoming : c.incoming = (contentsOf H nodes edges).incoming
  named : ∀ label name hash cid, row c.props (toLex (label, name)) hash = some cid →
    ∃ r ∈ nodes, HasProp H label name hash r.object ∧ r.cid = cid
  filed : ∀ r ∈ nodes, ∀ label name hash, HasProp H label name hash r.object →
    (row c.props (toLex (label, name)) hash).isSome

theorem covers_contentsOf {nodes : List (Row Cid (Node Cid))} (edges : List (Row Cid (Edge Cid)))
    (asc : AscendingRows nodes) : (contentsOf H nodes edges).Covers H nodes edges := by
  refine ⟨rfl, rfl, rfl, ?_, ?_⟩
  · intro label name hash cid found
    obtain ⟨r, g, rfl⟩ := (row_contentsOf_iff edges asc label name hash cid).mp found
    exact ⟨r, g.mem, g.holds, rfl⟩
  · intro r m label name hash holds
    obtain ⟨g, greatest⟩ := exists_greatest asc ⟨r, m, holds⟩
    rw [(row_contentsOf_iff edges asc label name hash g.cid).mpr ⟨g, greatest, rfl⟩]
    rfl

section Append

variable {base added merged : List (Row Cid (Node Cid))} {edges : List (Row Cid (Edge Cid))}
  {c : Contents Cid}

/-- An added holder has the row; otherwise the row stays what it was. -/
theorem row_append (c : Contents Cid) (added : List (Row Cid (Node Cid)))
    (k : String ×ₗ String) (hash : ProllyKey) :
    row (c.append H added).props k hash =
      (Entries.get? (k, hash) (propRows H added).reverse).or (row c.props k hash) :=
  row_addRows _ _ _ _

theorem append_labels (covers : c.Covers H base edges) (appended : Appended base added merged) :
    (c.append H added).labels = (contentsOf H merged edges).labels := by
  have start : c.labels = addRows OrdMap.empty (labelRows base) := covers.labels
  apply ext_row (c.append H added).labels_occupied (contentsOf H merged edges).labels_occupied
  intro label key
  change row (addRows c.labels (labelRows added)) label key =
    row (addRows OrdMap.empty (labelRows merged)) label key
  rw [start, row_addRows, row_addRows_empty, row_addRows_empty]
  ext cid
  rw [get?_labelRows_iff appended.merged_asc, Option.or_eq_some_iff,
    get?_labelRows_iff appended.added_asc, get?_labelRows_iff appended.base_asc]
  constructor
  · rintro (⟨r, m, h⟩ | ⟨-, r, m, h⟩)
    · exact ⟨r, (appended.mem_iff r).mpr (Or.inr m), h⟩
    · exact ⟨r, (appended.mem_iff r).mpr (Or.inl m), h⟩
  · rintro ⟨r, m, rfl, rfl, rfl⟩
    rcases (appended.mem_iff r).mp m with inBase | inAdded
    · by_cases absent :
          Entries.get? (r.object.ntype, r.key) (labelRows added).reverse = none
      · exact Or.inr ⟨absent, r, inBase, rfl, rfl, rfl⟩
      · -- an added row at this key is this row, by the distinct keys of the merged tree
        obtain ⟨cid, found⟩ := Option.ne_none_iff_exists'.mp absent
        obtain ⟨r', m', ⟨-, same, -⟩⟩ := (get?_labelRows_iff appended.added_asc _ _ _).mp found
        have inMerged := (appended.mem_iff r').mpr (Or.inr m')
        have eq := List.inj_on_of_nodup_map appended.merged_asc.nodup inMerged m same
        exact Or.inl ⟨r, eq ▸ m', rfl, rfl, rfl⟩
    · exact Or.inl ⟨r, inAdded, rfl, rfl, rfl⟩

/-- Appending keeps what every index set satisfies. -/
theorem Contents.Covers.append (covers : c.Covers H base edges)
    (appended : Appended base added merged) : (c.append H added).Covers H merged edges := by
  refine ⟨append_labels covers appended, covers.outgoing, covers.incoming, ?_, ?_⟩
  · intro label name hash cid found
    rw [row_append, Option.or_eq_some_iff, get?_propRows_iff appended.added_asc] at found
    rcases found with ⟨r, g, rfl⟩ | ⟨-, old⟩
    · exact ⟨r, (appended.mem_iff r).mpr (Or.inr g.mem), g.holds, rfl⟩
    · obtain ⟨r, m, holds, rfl⟩ := covers.named label name hash cid old
      exact ⟨r, (appended.mem_iff r).mpr (Or.inl m), holds, rfl⟩
  · intro r m label name hash holds
    rw [row_append, Option.isSome_or, Bool.or_eq_true]
    rcases (appended.mem_iff r).mp m with inBase | inAdded
    · exact Or.inr (covers.filed r inBase label name hash holds)
    · obtain ⟨g, greatest⟩ := exists_greatest appended.added_asc ⟨r, inAdded, holds⟩
      refine Or.inl ?_
      rw [(get?_propRows_iff appended.added_asc label name hash g.cid).mpr ⟨g, greatest, rfl⟩]
      rfl

/-- Every added holder of a row is above every base holder, and a row without an added
holder names the greatest base holder. -/
def AppendsInOrder (H : Hashing Cid) (c : Contents Cid) (base added : List (Row Cid (Node Cid))) :
    Prop :=
  ∀ label name hash,
    (∀ a, Greatest (HasProp H label name hash) added a →
      ∀ b ∈ base, HasProp H label name hash b.object → b.key < a.key) ∧
    ((∀ a ∈ added, ¬ HasProp H label name hash a.object) →
      ∀ b, Greatest (HasProp H label name hash) base b →
        row c.props (toLex (label, name)) hash = some b.cid)

/-- Distinct rows have distinct CIDs. -/
def DistinctCids {α : Type} (rows : List (Row Cid α)) : Prop :=
  ∀ r ∈ rows, ∀ r' ∈ rows, r.cid = r'.cid → r = r'

theorem Appended.greatest_of_added {P : Node Cid → Prop} {a : Row Cid (Node Cid)}
    (appended : Appended base added merged) (g : Greatest P added a)
    (below : ∀ b ∈ base, P b.object → b.key < a.key) : Greatest P merged a := by
  refine ⟨(appended.mem_iff a).mpr (Or.inr g.mem), g.holds, fun r m holds => ?_⟩
  rcases (appended.mem_iff r).mp m with inBase | inAdded
  · exact le_of_lt (below r inBase holds)
  · exact g.le r inAdded holds

theorem Appended.greatest_of_base {P : Node Cid → Prop} {b : Row Cid (Node Cid)}
    (appended : Appended base added merged) (g : Greatest P base b)
    (none_added : ∀ a ∈ added, ¬ P a.object) : Greatest P merged b := by
  refine ⟨(appended.mem_iff b).mpr (Or.inl g.mem), g.holds, fun r m holds => ?_⟩
  rcases (appended.mem_iff r).mp m with inBase | inAdded
  · exact g.le r inBase holds
  · exact absurd holds (none_added r inAdded)

/-- With an added holder, the row names the greatest of them. -/
theorem row_append_of_added {label name : String} {hash : ProllyKey} {a : Row Cid (Node Cid)}
    (asc : AscendingRows added) (g : Greatest (HasProp H label name hash) added a) :
    row (c.append H added).props (toLex (label, name)) hash = some a.cid := by
  rw [row_append, (get?_propRows_iff asc label name hash a.cid).mpr ⟨a, g, rfl⟩]
  rfl

/-- Without one, the row is untouched. -/
theorem row_append_of_none {label name : String} {hash : ProllyKey}
    (asc : AscendingRows added)
    (none_added : ∀ a ∈ added, ¬ HasProp H label name hash a.object) :
    row (c.append H added).props (toLex (label, name)) hash =
      row c.props (toLex (label, name)) hash := by
  have absent : Entries.get? (toLex (label, name), hash) (propRows H added).reverse = none := by
    rw [Option.eq_none_iff_forall_ne_some]
    intro cid found
    obtain ⟨r, g, -⟩ := (get?_propRows_iff asc label name hash cid).mp found
    exact none_added r g.mem g.holds
  rw [row_append, absent, Option.none_or]

/-- **Appending is rebuilding exactly when the added holders are the greatest.** -/
theorem append_props_eq_iff (covers : c.Covers H base edges)
    (appended : Appended base added merged) (distinct : DistinctCids merged) :
    (c.append H added).props = (contentsOf H merged edges).props ↔
      AppendsInOrder H c base added := by
  have exact_row := row_contentsOf_iff (H := H) edges appended.merged_asc
  constructor
  · intro same label name hash
    constructor
    · intro a g b m holds
      have found := row_append_of_added (c := c) appended.added_asc g
      rw [same, exact_row] at found
      obtain ⟨r, greatest, sameCid⟩ := found
      have inMerged := (appended.mem_iff a).mpr (Or.inr g.mem)
      have eq := distinct r greatest.mem a inMerged sameCid
      subst eq
      exact lt_of_le_of_ne (greatest.le b ((appended.mem_iff b).mpr (Or.inl m)) holds)
        (appended.fresh r g.mem b m)
    · intro none_added b g
      rw [← row_append_of_none appended.added_asc none_added, same, exact_row]
      exact ⟨b, appended.greatest_of_base g none_added, rfl⟩
  · intro inOrder
    apply ext_row (c.append H added).props_occupied (contentsOf H merged edges).props_occupied
    intro k hash
    obtain ⟨above, untouched⟩ := inOrder (ofLex k).1 (ofLex k).2 hash
    change row (c.append H added).props (toLex ((ofLex k).1, (ofLex k).2)) hash =
      row (contentsOf H merged edges).props (toLex ((ofLex k).1, (ofLex k).2)) hash
    by_cases some_added : ∃ a ∈ added, HasProp H (ofLex k).1 (ofLex k).2 hash a.object
    · obtain ⟨a, g⟩ := exists_greatest appended.added_asc some_added
      rw [row_append_of_added appended.added_asc g, eq_comm, exact_row]
      exact ⟨a, appended.greatest_of_added g (above a g), rfl⟩
    · have none_added : ∀ a ∈ added, ¬ HasProp H (ofLex k).1 (ofLex k).2 hash a.object :=
        fun a m holds => some_added ⟨a, m, holds⟩
      rw [row_append_of_none appended.added_asc none_added]
      by_cases some_base : ∃ b ∈ base, HasProp H (ofLex k).1 (ofLex k).2 hash b.object
      · obtain ⟨b, g⟩ := exists_greatest appended.base_asc some_base
        rw [untouched none_added b g, eq_comm, exact_row]
        exact ⟨b, appended.greatest_of_base g none_added, rfl⟩
      · -- no node has the row: neither index set files one
        have old : row c.props (toLex ((ofLex k).1, (ofLex k).2)) hash = none := by
          rw [Option.eq_none_iff_forall_ne_some]
          intro cid found
          obtain ⟨r, m, holds, -⟩ := covers.named _ _ _ cid found
          exact some_base ⟨r, m, holds⟩
        rw [old, eq_comm, Option.eq_none_iff_forall_ne_some]
        intro cid found
        obtain ⟨r, g, -⟩ := (exact_row _ _ hash cid).mp found
        rcases (appended.mem_iff r).mp g.mem with m | m
        · exact some_base ⟨r, m, g.holds⟩
        · exact none_added r m g.holds

end Append

/-! ## Rows read from a store -/

section Reads

variable {α : Type} [Object Cid α] {s : Store H} {base added : OrdMap ProllyKey Cid}
  {baseRows addedRows mergedRows : List (Row Cid α)}

/-- Entries at new keys, written over a tree, are appended to it. -/
theorem appended_of_reads (fresh : ∀ k, (added.get? k).isSome → base.get? k = none)
    (baseReads : ReadsRows s base.entries baseRows)
    (addedReads : ReadsRows s added.entries addedRows)
    (mergedReads : ReadsRows s (base.insertAll added.entries).entries mergedRows) :
    Appended baseRows addedRows mergedRows := by
  have at_key : ∀ {m : OrdMap ProllyKey Cid} {rows : List (Row Cid α)},
      ReadsRows s m.entries rows → ∀ r, r ∈ rows ↔ m.get? r.key = some r.cid ∧
        s.Loads r.cid r.object := by
    intro m rows reads r
    rw [reads.mem_iff, ← OrdMap.get?_eq_some_iff]
  refine ⟨baseReads.ascending, addedReads.ascending, mergedReads.ascending, ?_, fun r => ?_⟩
  · intro a inAdded b inBase same
    have absent := fresh a.key (by rw [((at_key addedReads a).mp inAdded).1]; rfl)
    rw [← same, ((at_key baseReads b).mp inBase).1] at absent
    cases absent
  · rw [at_key mergedReads, at_key baseReads, at_key addedReads, OrdMap.get?_insertAll_entries,
      Option.or_eq_some_iff, ← or_and_right, or_comm]
    refine and_congr_left fun _ => or_congr_left ⟨And.right, fun found => ⟨?_, found⟩⟩
    by_contra present
    have absent := fresh r.key (Option.isSome_iff_ne_none.mpr present)
    rw [found] at absent
    cases absent

/-- Rows filed under the ids of their objects have distinct CIDs. -/
theorem distinctCids_of_reads {es : List (ProllyKey × Cid)} {rows : List (Row Cid α)}
    (reads : ReadsRows s es rows) {idOf : α → ProllyKey}
    (filed : ∀ r ∈ rows, r.key = idOf r.object) : DistinctCids rows := by
  intro r m r' m' same
  have objects : r.object = r'.object := (same ▸ reads.loads r m).unique (reads.loads r' m')
  obtain ⟨key, cid, object⟩ := r
  obtain ⟨key', cid', object'⟩ := r'
  obtain rfl : cid = cid' := same
  obtain rfl : object = object' := objects
  rw [show key = idOf object from filed _ m, show key' = idOf object from filed _ m']

end Reads

end Mnem.Index
