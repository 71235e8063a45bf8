/-
# Prolly.Diff — the structural diff, and when it is the map difference

`diff` walks two trees together: equal CIDs are skipped, two leaves are merged, a
leaf against an internal chunk is merged with everything below that chunk, and
two internal chunks are compared child by child over the common refinement of
their separators.  The last step is where it goes wrong: when the separators
differ, one child meets two partners, and its keys are reported against each.

`ExactDiff` says what the doc of `diff` promises.  The walk always returns, never
misses a difference, and mentions only keys of the two trees (`diffCids_of_holds`);
it is exact **if and only if** the trees are `Aligned`: wherever the walk meets two
different internal chunks, their separators are the same.
-/
import Mnem.Prolly.Walk
import Mathlib.Data.List.Sort
import Mathlib.Data.List.Dedup

namespace Mnem.Prolly

open Theory

set_option autoImplicit false
set_option linter.unusedSectionVars false

variable {Cid : Type} {H : Hashing Cid} [LinearOrder Cid]

/-! ## Diff entries -/

/-- One difference between two trees. -/
inductive DiffEntry (Cid : Type) where
  | added (key : ProllyKey) (value : Cid)
  | removed (key : ProllyKey) (value : Cid)
  | changed (key : ProllyKey) (before after : Cid)
  deriving DecidableEq

def DiffEntry.key : DiffEntry Cid → ProllyKey
  | .added key _ => key
  | .removed key _ => key
  | .changed key _ _ => key

/-! ## The walk -/

/-- The merge of the rest of `a` (`more`, whose diff is `rest`) with `b`, from `first` on. -/
def mergeFrom (first : ProllyKey × Cid) (more : List (ProllyKey × Cid))
    (rest : List (ProllyKey × Cid) → List (DiffEntry Cid)) :
    List (ProllyKey × Cid) → List (DiffEntry Cid)
  | [] => (first :: more).map fun e => .removed e.1 e.2
  | b :: bs =>
      if first.1 < b.1 then .removed first.1 first.2 :: rest (b :: bs)
      else if b.1 < first.1 then .added b.1 b.2 :: mergeFrom first more rest bs
      else (if first.2 = b.2 then [] else [.changed first.1 first.2 b.2]) ++ rest bs

/-- Merge-diff two sorted entry lists. -/
def diffSortedEntries :
    List (ProllyKey × Cid) → List (ProllyKey × Cid) → List (DiffEntry Cid)
  | [] => fun b => b.map fun e => .added e.1 e.2
  | first :: more => mergeFrom first more (diffSortedEntries more)

/-- Everything below an internal chunk, in order. -/
def collectEntriesInternal (s : Store H) (children : List Cid) :
    Except (Error Cid) (List (ProllyKey × Cid)) :=
  List.flatten <$> children.mapM (entriesAt s (s.blocks.length + 1))

/-- The child whose range has the lower bound `lower`; no bound for the first range. -/
def childIndexFor (boundaries : List ProllyKey) : Option ProllyKey → Nat
  | none => 0
  | some k => partitionPoint boundaries k

/-- `sort` then `dedup`. -/
def sortDedup (keys : List ProllyKey) : List ProllyKey :=
  (keys.insertionSort fun a b => a ≤ b).dedup

/-- The pair of children whose ranges overlap the range from `lower` on. -/
def rangePair (boundariesA boundariesB : List ProllyKey) (lower : Option ProllyKey) : Nat × Nat :=
  (childIndexFor boundariesA lower, childIndexFor boundariesB lower)

/-- Visit the pairs of children whose ranges overlap, range by range, skipping a pair
equal to the last one. -/
def diffRanges (visit : Cid → Cid → Except (Error Cid) (List (DiffEntry Cid)))
    (boundariesA boundariesB : List ProllyKey) (childrenA childrenB : List Cid) :
    Option (Nat × Nat) → List (Option ProllyKey) → Except (Error Cid) (List (DiffEntry Cid))
  | _, [] => .ok []
  | lastPair, lower :: ranges =>
      let pair := rangePair boundariesA boundariesB lower
      if some pair = lastPair then
        diffRanges visit boundariesA boundariesB childrenA childrenB lastPair ranges
      else
        match childrenA[pair.1]?, childrenB[pair.2]? with
        | some a, some b => do
            let out ← visit a b
            let more ←
              diffRanges visit boundariesA boundariesB childrenA childrenB (some pair) ranges
            return out ++ more
        -- no index is out of range: a chunk has one more child than separators
        | _, _ => .error .diverged

/-- The lower bounds of the common refinement of two separator lists. -/
def rangeBounds (boundariesA boundariesB : List ProllyKey) : List (Option ProllyKey) :=
  none :: (sortDedup (boundariesA ++ boundariesB)).map some

def diffInternals (visit : Cid → Cid → Except (Error Cid) (List (DiffEntry Cid)))
    (boundariesA : List ProllyKey) (childrenA : List Cid)
    (boundariesB : List ProllyKey) (childrenB : List Cid) :
    Except (Error Cid) (List (DiffEntry Cid)) :=
  diffRanges visit boundariesA boundariesB childrenA childrenB none
    (rangeBounds boundariesA boundariesB)

def diffCids (s : Store H) : Nat → Cid → Cid → Except (Error Cid) (List (DiffEntry Cid))
  | 0, _, _ => .error .diverged
  | fuel + 1, a, b =>
      if a = b then .ok []
      else
        match loadTreeChunk s a with
        | .error e => .error e
        | .ok chunkA =>
            match loadTreeChunk s b with
            | .error e => .error e
            | .ok chunkB =>
                match chunkA, chunkB with
                | .leaf la, .leaf lb => .ok (diffSortedEntries la lb)
                | .internal ba ca, .internal bb cb => diffInternals (diffCids s fuel) ba ca bb cb
                | .leaf la, .internal _ cb => diffSortedEntries la <$> collectEntriesInternal s cb
                | .internal _ ca, .leaf lb =>
                    (fun flat => diffSortedEntries flat lb) <$> collectEntriesInternal s ca

/-- `diff`: the difference between two trees, from `rootA` to `rootB`. -/
def diff (s : Store H) (rootA rootB : Cid) : Except (Error Cid) (List (DiffEntry Cid)) :=
  diffCids s (s.blocks.length + 1) rootA rootB

/-! ## What a diff should be -/

/-- `e` is a difference from the map of `a` to the map of `b`. -/
def DiffAt (a b : List (ProllyKey × Cid)) : DiffEntry Cid → Prop
  | .added k v => Entries.get? k a = none ∧ Entries.get? k b = some v
  | .removed k v => Entries.get? k a = some v ∧ Entries.get? k b = none
  | .changed k x y => Entries.get? k a = some x ∧ Entries.get? k b = some y ∧ x ≠ y

/-- Every difference and nothing else, strictly ascending by key. -/
def ExactDiff (a b : List (ProllyKey × Cid)) (out : List (DiffEntry Cid)) : Prop :=
  out.Pairwise (fun x y => x.key < y.key) ∧ ∀ e, e ∈ out ↔ DiffAt a b e

/-- Every difference once and nothing else, in whatever order. -/
def Listed (a b : List (ProllyKey × Cid)) (out : List (DiffEntry Cid)) : Prop :=
  out.Nodup ∧ ∀ e, e ∈ out ↔ DiffAt a b e

theorem ExactDiff.listed {a b : List (ProllyKey × Cid)} {out : List (DiffEntry Cid)}
    (exact' : ExactDiff a b out) : Listed a b out :=
  ⟨exact'.1.imp fun before => ne_of_apply_ne DiffEntry.key before.ne, exact'.2⟩

/-- The values of `e` are those of `a` and of `b` at its key. -/
def DiffEntry.ReadFrom (a b : List (ProllyKey × Cid)) : DiffEntry Cid → Prop
  | .added k v => (k, v) ∈ b
  | .removed k v => (k, v) ∈ a
  | .changed k x y => (k, x) ∈ a ∧ (k, y) ∈ b

/-- Wherever the walk from `a` and `b` meets two different internal chunks, they have
the same separators. -/
inductive Aligned (s : Store H) : Cid → Cid → Prop where
  | same (a : Cid) : Aligned s a a
  | leafLeft {a b : Cid} {es : List (ProllyKey × Cid)}
      (loaded : loadTreeChunk s a = .ok (.leaf es)) : Aligned s a b
  | leafRight {a b : Cid} {es : List (ProllyKey × Cid)}
      (loaded : loadTreeChunk s b = .ok (.leaf es)) : Aligned s a b
  | internal {a b : Cid} {boundaries : List ProllyKey} {childrenA childrenB : List Cid}
      (loadedA : loadTreeChunk s a = .ok (.internal boundaries childrenA))
      (loadedB : loadTreeChunk s b = .ok (.internal boundaries childrenB))
      (children : List.Forall₂ (Aligned s) childrenA childrenB) : Aligned s a b

section Facts

variable {a b a' b' : List (ProllyKey × Cid)} {e : DiffEntry Cid}

/-- Being a difference depends only on the two lookups at its key. -/
theorem diffAt_congr (sameA : Entries.get? e.key a = Entries.get? e.key a')
    (sameB : Entries.get? e.key b = Entries.get? e.key b') : DiffAt a b e ↔ DiffAt a' b' e := by
  cases e <;> simp_all [DiffAt, DiffEntry.key]

theorem DiffAt.readFrom (diffAt : DiffAt a b e) : e.ReadFrom a b := by
  cases e with
  | added k v => exact Entries.mem_of_get? diffAt.2
  | removed k v => exact Entries.mem_of_get? diffAt.1
  | changed k x y => exact ⟨Entries.mem_of_get? diffAt.1, Entries.mem_of_get? diffAt.2.1⟩

theorem DiffEntry.ReadFrom.mono (read : e.ReadFrom a b) (subA : a ⊆ a') (subB : b ⊆ b') :
    e.ReadFrom a' b' := by
  cases e with
  | added k v => exact subB read
  | removed k v => exact subA read
  | changed k x y => exact ⟨subA read.1, subB read.2⟩

theorem DiffEntry.ReadFrom.mem_keys (read : e.ReadFrom a b) :
    e.key ∈ a.map Prod.fst ∨ e.key ∈ b.map Prod.fst := by
  cases e with
  | added k v => exact Or.inr (List.mem_map_of_mem read)
  | removed k v => exact Or.inl (List.mem_map_of_mem read)
  | changed k x y => exact Or.inl (List.mem_map_of_mem read.1)

theorem DiffAt.mem_keys (diffAt : DiffAt a b e) :
    e.key ∈ a.map Prod.fst ∨ e.key ∈ b.map Prod.fst := diffAt.readFrom.mem_keys

/-- The difference, if any, that two lookups at `k` make. -/
def delta (k : ProllyKey) : Option Cid → Option Cid → Option (DiffEntry Cid)
  | none, none => none
  | none, some y => some (.added k y)
  | some x, none => some (.removed k x)
  | some x, some y => if x = y then none else some (.changed k x y)

theorem diffAt_iff {k : ProllyKey} (at_k : e.key = k) :
    DiffAt a b e ↔ delta k (Entries.get? k a) (Entries.get? k b) = some e := by
  subst at_k
  cases e <;> simp only [DiffAt, DiffEntry.key] <;>
    cases Entries.get? _ a <;> cases Entries.get? _ b <;> simp [delta]
  constructor
  · rintro ⟨rfl, rfl, differ⟩
    exact ⟨differ, rfl, rfl⟩
  · rintro ⟨differ, rfl, rfl⟩
    exact ⟨rfl, rfl, differ⟩

end Facts

/-! ## Merging two sorted lists is exact -/

section Merge

theorem diffSortedEntries_cons_cons (x y : ProllyKey × Cid) (as bs : List (ProllyKey × Cid)) :
    diffSortedEntries (x :: as) (y :: bs) =
      if x.1 < y.1 then .removed x.1 x.2 :: diffSortedEntries as (y :: bs)
      else if y.1 < x.1 then .added y.1 y.2 :: diffSortedEntries (x :: as) bs
      else (delta x.1 (some x.2) (some y.2)).toList ++ diffSortedEntries as bs := by
  simp only [diffSortedEntries, mergeFrom, delta]
  split
  · rfl
  · split
    · rfl
    · split <;> rfl

/-- A head entry: its own difference, then the differences of the rest. -/
theorem exactDiff_cons {a b a' b' : List (ProllyKey × Cid)} {k : ProllyKey}
    {out : List (DiffEntry Cid)} (exact' : ExactDiff a' b' out)
    (above : ∀ j, j ∈ a'.map Prod.fst ∨ j ∈ b'.map Prod.fst → k < j)
    (others : ∀ j, j ≠ k → Entries.get? j a = Entries.get? j a' ∧
      Entries.get? j b = Entries.get? j b') :
    ExactDiff a b ((delta k (Entries.get? k a) (Entries.get? k b)).toList ++ out) := by
  obtain ⟨sorted, all⟩ := exact'
  have deltaKey : ∀ e ∈ (delta k (Entries.get? k a) (Entries.get? k b)).toList, e.key = k := by
    intro e member
    cases atA : Entries.get? k a <;> cases atB : Entries.get? k b <;>
      simp only [atA, atB, delta] at member
    · simp at member
    · simp at member
      rw [member]
      rfl
    · simp at member
      rw [member]
      rfl
    · split at member
      · simp at member
      · simp at member
        rw [member]
        rfl
  have outKey : ∀ e ∈ out, k < e.key := fun e member => above _ ((all e).mp member).mem_keys
  refine ⟨List.pairwise_append.mpr ⟨?_, sorted, fun x hx y hy => ?_⟩, fun e => ?_⟩
  · cases delta k (Entries.get? k a) (Entries.get? k b) <;> simp
  · rw [deltaKey x hx]
    exact outKey y hy
  · rw [List.mem_append, Option.mem_toList]
    by_cases at_k : e.key = k
    · rw [diffAt_iff at_k, or_iff_left]
      exact fun member => absurd (outKey e member) (by rw [at_k]; exact lt_irrefl k)
    · obtain ⟨sameA, sameB⟩ := others e.key at_k
      rw [diffAt_congr sameA sameB, ← all e, or_iff_right]
      exact fun member => at_k (deltaKey e (Option.mem_toList.mpr member))

theorem get?_head (x : ProllyKey × Cid) (as : List (ProllyKey × Cid)) :
    Entries.get? x.1 (x :: as) = some x.2 := by rw [Entries.get?_cons, if_pos rfl]

theorem get?_of_above {k : ProllyKey} {es : List (ProllyKey × Cid)} (above : ∀ e ∈ es, k < e.1) :
    Entries.get? k es = none :=
  Entries.get?_eq_none_iff.mpr fun e member => ne_of_gt (above e member)

theorem get?_tail {k : ProllyKey} {x : ProllyKey × Cid} {as : List (ProllyKey × Cid)}
    (other : k ≠ x.1) : Entries.get? k (x :: as) = Entries.get? k as := by
  rw [Entries.get?_cons, if_neg fun same => other same.symm]

theorem above_of_head {k : ProllyKey} {x : ProllyKey × Cid} {as : List (ProllyKey × Cid)}
    (asc : Entries.Ascending (x :: as)) (le : k < x.1) : ∀ e ∈ x :: as, k < e.1 := by
  intro e member
  rcases List.mem_cons.mp member with rfl | behind
  · exact le
  · exact le.trans (asc.head_lt e behind)

theorem key_above {k : ProllyKey} {as bs : List (ProllyKey × Cid)} (aboveA : ∀ e ∈ as, k < e.1)
    (aboveB : ∀ e ∈ bs, k < e.1) :
    ∀ j, j ∈ as.map Prod.fst ∨ j ∈ bs.map Prod.fst → k < j := by
  rintro j (member | member)
  · obtain ⟨e, inAs, rfl⟩ := List.mem_map.mp member
    exact aboveA e inAs
  · obtain ⟨e, inBs, rfl⟩ := List.mem_map.mp member
    exact aboveB e inBs

/-- **Merging two ascending lists gives exactly their differences.** -/
theorem diffSortedEntries_exact {as bs : List (ProllyKey × Cid)} (asc : Entries.Ascending as)
    (asc' : Entries.Ascending bs) : ExactDiff as bs (diffSortedEntries as bs) := by
  induction as generalizing bs with
  | nil =>
      induction bs with
      | nil =>
          refine ⟨List.Pairwise.nil, fun e => ?_⟩
          rw [diffAt_iff rfl]
          simp [diffSortedEntries, delta]
      | cons y bs ih =>
          have step := exactDiff_cons (a := []) (b := y :: bs) (k := y.1) (ih asc'.tail)
            (key_above (by simp) asc'.head_lt) fun j other => ⟨rfl, get?_tail other⟩
          rw [get?_head, Entries.get?_nil] at step
          exact step
  | cons x as ihA =>
      induction bs with
      | nil =>
          have step := exactDiff_cons (a := x :: as) (b := []) (k := x.1) (ihA asc.tail .nil)
            (key_above asc.head_lt (by simp)) fun j other => ⟨get?_tail other, rfl⟩
          rw [get?_head, Entries.get?_nil] at step
          refine (congrArg (ExactDiff (x :: as) []) ?_).mp step
          cases as <;> rfl
      | cons y bs ihB =>
          rw [diffSortedEntries_cons_cons]
          split
          · rename_i lt
            have above := above_of_head asc' lt
            have step := exactDiff_cons (a := x :: as) (b := y :: bs) (k := x.1)
              (ihA asc.tail asc') (key_above asc.head_lt above)
              fun j other => ⟨get?_tail other, rfl⟩
            rw [get?_head, get?_of_above above] at step
            exact step
          · split
            · rename_i gt
              have above := above_of_head asc gt
              have step := exactDiff_cons (a := x :: as) (b := y :: bs) (k := y.1)
                (ihB asc'.tail) (key_above above asc'.head_lt)
                fun j other => ⟨rfl, get?_tail other⟩
              rw [get?_head, get?_of_above above] at step
              exact step
            · rename_i notLt notGt
              have same : x.1 = y.1 := le_antisymm (not_lt.mp notGt) (not_lt.mp notLt)
              have step := exactDiff_cons (a := x :: as) (b := y :: bs) (k := x.1)
                (ihA asc.tail asc'.tail) (key_above asc.head_lt (same ▸ asc'.head_lt))
                fun j other => ⟨get?_tail other, get?_tail (same ▸ other)⟩
              rw [get?_head, same, get?_head, ← same] at step
              exact step

end Merge

/-! ## The ranges two separator lists cut -/

section Ranges

theorem mem_sortDedup {keys : List ProllyKey} {k : ProllyKey} : k ∈ sortDedup keys ↔ k ∈ keys := by
  rw [sortDedup, List.mem_dedup, List.mem_insertionSort]

theorem sortDedup_ascending (keys : List ProllyKey) : (sortDedup keys).Pairwise (· < ·) := by
  have sorted : (sortDedup keys).Pairwise (· ≤ ·) :=
    (List.pairwise_insertionSort (· ≤ ·) keys).sublist (List.dedup_sublist _)
  exact sorted.imp₂ (fun _ _ le ne => lt_of_le_of_ne le ne) (List.nodup_dedup _)

/-- A loop over ranges that never repeat a pair visits each of them. -/
theorem diffRanges_ok {visit : Cid → Cid → Except (Error Cid) (List (DiffEntry Cid))}
    {ba bb : List ProllyKey} {ca cb : List Cid} {res : Nat × Nat → List (DiffEntry Cid)}
    {last : Option (Nat × Nat)} {lowers : List (Option ProllyKey)}
    (fresh : (last.toList ++ lowers.map (rangePair ba bb)).Nodup)
    (visits : ∀ lower ∈ lowers, ∃ a b, ca[(rangePair ba bb lower).1]? = some a ∧
      cb[(rangePair ba bb lower).2]? = some b ∧ visit a b = .ok (res (rangePair ba bb lower))) :
    diffRanges visit ba bb ca cb last lowers =
      .ok ((lowers.map (rangePair ba bb)).flatMap res) := by
  induction lowers generalizing last with
  | nil => rfl
  | cons lower lowers ih =>
      obtain ⟨a, b, a_at, b_at, visited⟩ := visits lower List.mem_cons_self
      have new : some (rangePair ba bb lower) ≠ last := by
        rintro rfl
        simp at fresh
      have rest : diffRanges visit ba bb ca cb (some (rangePair ba bb lower)) lowers = _ := ih
        (fresh.sublist (by simp)) fun l member => visits l (List.mem_cons_of_mem _ member)
      simp only [diffRanges]
      rw [if_neg new]
      simp only [a_at, b_at, visited, rest]
      rfl

variable {ba bb : List ProllyKey}

/-- A later range has moved on in one of the two lists. -/
theorem rangeBounds_moves (sortedA : ba.Pairwise (· < ·)) (sortedB : bb.Pairwise (· < ·)) :
    (rangeBounds ba bb).Pairwise fun l l' =>
      childIndexFor ba l < childIndexFor ba l' ∨ childIndexFor bb l < childIndexFor bb l' := by
  have starts : ∀ {bs : List ProllyKey} {b : ProllyKey}, bs.Pairwise (· < ·) → b ∈ bs →
      0 < partitionPoint bs b := by
    intro bs b sorted member
    unfold partitionPoint
    cases bs with
    | nil => simp at member
    | cons x bs =>
        have x_le : x ≤ b := by
          rcases List.mem_cons.mp member with rfl | behind
          · exact le_refl _
          · exact le_of_lt ((List.pairwise_cons.mp sorted).1 b behind)
        rw [List.takeWhile_cons_of_pos (by simpa using x_le)]
        exact Nat.succ_pos _
  refine List.pairwise_cons.mpr ⟨fun l member => ?_, ?_⟩
  · obtain ⟨b, inAll, rfl⟩ := List.mem_map.mp member
    rcases List.mem_append.mp (mem_sortDedup.mp inAll) with inA | inB
    · exact Or.inl (starts sortedA inA)
    · exact Or.inr (starts sortedB inB)
  · rw [List.pairwise_map]
    refine (sortDedup_ascending (ba ++ bb)).imp_of_mem fun _ member lt => ?_
    rcases List.mem_append.mp (mem_sortDedup.mp member) with inA | inB
    · exact Or.inl (partitionPoint_lt_of_mem sortedA inA lt)
    · exact Or.inr (partitionPoint_lt_of_mem sortedB inB lt)

theorem rangePairs_nodup (sortedA : ba.Pairwise (· < ·)) (sortedB : bb.Pairwise (· < ·)) :
    ((rangeBounds ba bb).map (rangePair ba bb)).Nodup := by
  rw [List.Nodup, List.pairwise_map]
  refine (rangeBounds_moves sortedA sortedB).imp fun moved same => ?_
  have sameA := congrArg Prod.fst same
  have sameB := congrArg Prod.snd same
  simp only [rangePair] at sameA sameB
  omega

/-- A nonempty set of keys at or below `k` has a greatest. -/
theorem exists_greatest (keys : List ProllyKey) (k : ProllyKey) :
    (∀ x ∈ keys, ¬ x ≤ k) ∨ ∃ l ∈ keys, l ≤ k ∧ ∀ x ∈ keys, x ≤ k → x ≤ l := by
  induction keys with
  | nil => exact Or.inl (by simp)
  | cons a keys ih =>
      by_cases at_a : a ≤ k
      · right
        rcases ih with none_below | ⟨l, member, below, greatest⟩
        · refine ⟨a, List.mem_cons_self, at_a, fun x inAll le => ?_⟩
          rcases List.mem_cons.mp inAll with rfl | behind
          · exact le_refl _
          · exact absurd le (none_below x behind)
        · rcases le_total a l with le_l | l_le
          · refine ⟨l, List.mem_cons_of_mem _ member, below, fun x inAll le => ?_⟩
            rcases List.mem_cons.mp inAll with rfl | behind
            · exact le_l
            · exact greatest x behind le
          · refine ⟨a, List.mem_cons_self, at_a, fun x inAll le => ?_⟩
            rcases List.mem_cons.mp inAll with rfl | behind
            · exact le_refl _
            · exact (greatest x behind le).trans l_le
      · rcases ih with none_below | ⟨l, member, below, greatest⟩
        · refine Or.inl fun x inAll => ?_
          rcases List.mem_cons.mp inAll with rfl | behind
          · exact at_a
          · exact none_below x behind
        · refine Or.inr ⟨l, List.mem_cons_of_mem _ member, below, fun x inAll le => ?_⟩
          rcases List.mem_cons.mp inAll with rfl | behind
          · exact absurd le at_a
          · exact greatest x behind le

/-- **Every key is covered**: some range visits the two children the key routes to. -/
theorem exists_range (ba bb : List ProllyKey) (k : ProllyKey) :
    ∃ lower ∈ rangeBounds ba bb,
      rangePair ba bb lower = (partitionPoint ba k, partitionPoint bb k) := by
  have zero : ∀ {bs : List ProllyKey}, (∀ x ∈ bs, ¬ x ≤ k) → partitionPoint bs k = 0 := by
    intro bs none_below
    cases bs with
    | nil => rfl
    | cons x bs =>
        unfold partitionPoint
        rw [List.takeWhile_cons_of_neg (by simpa using none_below x List.mem_cons_self)]
        rfl
  rcases exists_greatest (sortDedup (ba ++ bb)) k with none_below | ⟨l, member, below, greatest⟩
  · refine ⟨none, List.mem_cons_self, ?_⟩
    rw [zero fun x inA => none_below x (mem_sortDedup.mpr (List.mem_append_left _ inA)),
      zero fun x inB => none_below x (mem_sortDedup.mpr (List.mem_append_right _ inB))]
    rfl
  · refine ⟨some l, List.mem_cons_of_mem _ (List.mem_map_of_mem member), ?_⟩
    have same : ∀ x ∈ ba ++ bb, x ≤ l ↔ x ≤ k := fun x inAll =>
      ⟨fun le => le.trans below, greatest x (mem_sortDedup.mpr inAll)⟩
    exact Prod.ext (partitionPoint_congr fun x inA => same x (List.mem_append_left _ inA))
      (partitionPoint_congr fun x inB => same x (List.mem_append_right _ inB))

/-- Where one list has a separator that the other lacks, one child of the other meets
two partners. -/
theorem exists_two_partners {bs cs : List ProllyKey} (sorted : cs.Pairwise (· < ·))
    {b : ProllyKey} (member : b ∈ cs) (absent : b ∉ bs) {low : ProllyKey} (pos : low < b) :
    ∃ k, partitionPoint bs k = partitionPoint bs b ∧
      partitionPoint cs k < partitionPoint cs b := by
  have b_pos : 0 < b.val := Nat.lt_of_le_of_lt (Nat.zero_le low.val) pos
  refine ⟨⟨b.val - 1, by omega⟩, partitionPoint_congr fun x inBs => ?_,
    partitionPoint_lt_of_mem sorted member ?_⟩
  · have ne : x.val ≠ b.val := fun same => absent (Fin.ext same ▸ inBs)
    simp only [Fin.le_def]
    omega
  · simp only [Fin.lt_def]
    omega

end Ranges

/-! ## Two internal chunks -/

/-- What the walk from `a` and `b`, which hold `as` and `bs`, is known to give: it misses
nothing, invents no value, and is exact just when the trees are aligned, or else repeats a
difference or reports one that is none. -/
structure WalkSpec (s : Store H) (a b : Cid) (as bs : List (ProllyKey × Cid))
    (out : List (DiffEntry Cid)) : Prop where
  covers : ∀ e, DiffAt as bs e → e ∈ out
  values : ∀ e ∈ out, e.ReadFrom as bs
  aligned : Listed as bs out → Aligned s a b
  exact_of : Aligned s a b → ExactDiff as bs out

theorem WalkSpec.exact_iff {s : Store H} {a b : Cid} {as bs : List (ProllyKey × Cid)}
    {out : List (DiffEntry Cid)} (walk : WalkSpec s a b as bs out) :
    ExactDiff as bs out ↔ Aligned s a b :=
  ⟨fun exact' => walk.aligned exact'.listed, walk.exact_of⟩

theorem ExactDiff.walkSpec {s : Store H} {a b : Cid} {as bs : List (ProllyKey × Cid)}
    {out : List (DiffEntry Cid)} (exact' : ExactDiff as bs out) (aligned : Aligned s a b) :
    WalkSpec s a b as bs out where
  covers e := (exact'.2 e).mpr
  values e member := ((exact'.2 e).mp member).readFrom
  aligned _ := aligned
  exact_of _ := exact'

section Internals

variable {s : Store H} {h h' : Nat} {run run' : List (ProllyKey × Cid)}
  {parts parts' : List (List (ProllyKey × Cid))} {res : Nat × Nat → List (DiffEntry Cid)}

/-- The separators of a run. -/
abbrev separators (run : List (ProllyKey × Cid)) : List ProllyKey := run.tail.map Prod.fst

/-- The pairs of children visited. -/
abbrev visitedPairs (run run' : List (ProllyKey × Cid)) : List (Nat × Nat) :=
  (rangeBounds (separators run) (separators run')).map (rangePair (separators run) (separators run'))

/-- `res` gives, for each pair of children, a walk as specified. -/
def ChildWalks (s : Store H) (run run' : List (ProllyKey × Cid))
    (parts parts' : List (List (ProllyKey × Cid))) (res : Nat × Nat → List (DiffEntry Cid)) :
    Prop :=
  ∀ i j e e' p p', run[i]? = some e → run'[j]? = some e' → parts[i]? = some p →
    parts'[j]? = some p' → WalkSpec s e.2 e'.2 p p' (res (i, j))

theorem separators_ascending (spans : List.Forall₂ (Spans s h) run parts)
    (asc : Entries.Ascending parts.flatten) : (separators run).Pairwise (· < ·) := by
  have all := firstKeys_ascending spans asc
  exact all.sublist ((List.tail_sublist run).map Prod.fst)

theorem firstKey_lt_separator (spans : List.Forall₂ (Spans s h) run parts)
    (asc : Entries.Ascending parts.flatten) {b : ProllyKey} (member : b ∈ separators run) :
    firstKey run < b := by
  have all := firstKeys_ascending spans asc
  cases run with
  | nil => simp at member
  | cons e run => exact (List.pairwise_cons.mp all).1 b member

/-- The pair a key is routed to is visited. -/
theorem routed_visited (run run' : List (ProllyKey × Cid)) (k : ProllyKey) :
    (partitionPoint (separators run) k, partitionPoint (separators run') k) ∈
      visitedPairs run run' := by
  obtain ⟨lower, member, pair⟩ := exists_range (separators run) (separators run') k
  rw [← pair]
  exact List.mem_map_of_mem member

/-- No difference is reported by two visits of a walk that repeats none. -/
theorem not_twice {pairs : List (Nat × Nat)} (nodup : (pairs.flatMap res).Nodup) {p q : Nat × Nat}
    (p_mem : p ∈ pairs) (q_mem : q ∈ pairs) (ne : p ≠ q) {e : DiffEntry Cid}
    (in_p : e ∈ res p) (in_q : e ∈ res q) : False := by
  have apart : pairs.Pairwise fun p q => ¬ (e ∈ res p ∧ e ∈ res q) :=
    (List.pairwise_flatMap.mp nodup).2.imp fun before both => before e both.1 e both.2 rfl
  have : Std.Symm fun p q => ¬ (e ∈ res p ∧ e ∈ res q) := ⟨fun _ _ h both => h both.symm⟩
  exact apart.forall p_mem q_mem ne ⟨in_p, in_q⟩

/-- A range visits a child of each run. -/
theorem rangePair_in_range (spans : List.Forall₂ (Spans s h) run parts)
    (spans' : List.Forall₂ (Spans s h') run' parts') (occupied : run ≠ []) (occupied' : run' ≠ [])
    (lower : Option ProllyKey) :
    ∃ c c' p p', run[(rangePair (separators run) (separators run') lower).1]? = some c ∧
      run'[(rangePair (separators run) (separators run') lower).2]? = some c' ∧
      parts[(rangePair (separators run) (separators run') lower).1]? = some p ∧
      parts'[(rangePair (separators run) (separators run') lower).2]? = some p' := by
  have pos : 0 < run.length := List.length_pos_iff.mpr occupied
  have pos' : 0 < run'.length := List.length_pos_iff.mpr occupied'
  have inA : (rangePair (separators run) (separators run') lower).1 < run.length := by
    cases lower with
    | none => exact pos
    | some k => exact partitionPoint_lt occupied k
  have inB : (rangePair (separators run) (separators run') lower).2 < run'.length := by
    cases lower with
    | none => exact pos'
    | some k => exact partitionPoint_lt occupied' k
  exact ⟨_, _, _, _, List.getElem?_eq_getElem inA, List.getElem?_eq_getElem inB,
    List.getElem?_eq_getElem (spans.length_eq ▸ inA),
    List.getElem?_eq_getElem (spans'.length_eq ▸ inB)⟩

variable (spans : List.Forall₂ (Spans s h) run parts)
  (spans' : List.Forall₂ (Spans s h') run' parts') (occupied : run ≠ []) (occupied' : run' ≠ [])
  (asc : Entries.Ascending parts.flatten) (asc' : Entries.Ascending parts'.flatten)
  (walks : ChildWalks s run run' parts parts' res)

include spans spans' occupied occupied' asc asc' walks

/-- The walk of two runs misses no difference. -/
theorem internals_covers (e : DiffEntry Cid) (diffAt : DiffAt parts.flatten parts'.flatten e) :
    e ∈ (visitedPairs run run').flatMap res := by
  obtain ⟨c, p, c_at, p_at, -, found⟩ := route spans occupied asc e.key
  obtain ⟨c', p', c_at', p_at', -, found'⟩ := route spans' occupied' asc' e.key
  refine List.mem_flatMap.mpr ⟨_, routed_visited run run' e.key, ?_⟩
  exact (walks _ _ c c' p p' c_at c_at' p_at p_at').covers e ((diffAt_congr found found').mp diffAt)

/-- The walk of two runs mentions only their values. -/
theorem internals_values :
    ∀ e ∈ (visitedPairs run run').flatMap res, e.ReadFrom parts.flatten parts'.flatten := by
  intro e member
  obtain ⟨pair, visited, inRes⟩ := List.mem_flatMap.mp member
  obtain ⟨lower, -, rfl⟩ := List.mem_map.mp visited
  obtain ⟨c, c', p, p', c_at, c_at', p_at, p_at'⟩ :=
    rangePair_in_range spans spans' occupied occupied' lower
  exact ((walks _ _ c c' p p' c_at c_at' p_at p_at').values e inRes).mono
    (List.sublist_flatten_of_mem (List.mem_of_getElem? p_at)).subset
    (List.sublist_flatten_of_mem (List.mem_of_getElem? p_at')).subset

/-- In a walk that repeats nothing no child meets two partners, so the separators agree. -/
theorem separators_eq_of_listed
    (exact' : Listed parts.flatten parts'.flatten ((visitedPairs run run').flatMap res)) :
    separators run = separators run' := by
  have sortedA := separators_ascending spans asc
  have sortedB := separators_ascending spans' asc'
  have inOut : ∀ {pair : Nat × Nat} {e : DiffEntry Cid}, pair ∈ visitedPairs run run' →
      e ∈ res pair → DiffAt parts.flatten parts'.flatten e := fun visited inRes =>
    (exact'.2 _).mp (List.mem_flatMap.mpr ⟨_, visited, inRes⟩)
  have absent : ∀ {k : ProllyKey} {p es : List (ProllyKey × Cid)}, p.Sublist es →
      Entries.get? k es = none → Entries.get? k p = none := by
    intro k p es sub none_in
    rw [Entries.get?_eq_none_iff] at none_in ⊢
    exact fun e member => none_in e (sub.subset member)
  refine List.Pairwise.eq_of_mem_iff sortedA sortedB fun b => ?_
  by_contra differ
  rw [not_iff] at differ
  by_cases inB : b ∈ separators run'
  · -- one child of the left tree, two partners on the right
    have notA : b ∉ separators run := fun inA => (differ.mpr inB) inA
    obtain ⟨k, sameA, lessB⟩ := exists_two_partners sortedB inB notA
      (firstKey_lt_separator spans' asc' inB)
    obtain ⟨c, p, c_at, p_at, sp, -⟩ := route spans occupied asc b
    obtain ⟨c₁, p₁, c₁_at, p₁_at, sp₁, -⟩ := route spans' occupied' asc' k
    obtain ⟨c₂, p₂, c₂_at, p₂_at, sp₂, -⟩ := route spans' occupied' asc' b
    have visit₁ := routed_visited run run' k
    have visit₂ := routed_visited run run' b
    rw [sameA] at visit₁
    have walk₁ := walks _ _ c c₁ p p₁ c_at c₁_at p_at p₁_at
    have walk₂ := walks _ _ c c₂ p p₂ c_at c₂_at p_at p₂_at
    obtain ⟨x, xs, p_eq⟩ := List.exists_cons_of_ne_nil sp.ne_nil
    have inP : Entries.get? x.1 p = some x.2 := by rw [p_eq, get?_head]
    have report₁ : Entries.get? x.1 p₁ = none → _ := fun none₁ =>
      walk₁.covers (.removed x.1 x.2) ⟨inP, none₁⟩
    have report₂ : Entries.get? x.1 p₂ = none → _ := fun none₂ =>
      walk₂.covers (.removed x.1 x.2) ⟨inP, none₂⟩
    have none_in_whole : Entries.get? x.1 parts'.flatten = none := by
      by_cases none₁ : Entries.get? x.1 p₁ = none
      · exact (inOut visit₁ (report₁ none₁)).2
      · refine (inOut visit₂ (report₂ ?_)).2
        rw [Entries.get?_eq_none_iff]
        intro y inP₂ same
        obtain ⟨v, found₁⟩ := Option.ne_none_iff_exists'.mp none₁
        have at₁ := partitionPoint_of_mem spans' asc' p₁_at
          (List.mem_map_of_mem (Entries.mem_of_get? found₁))
        have at₂ := partitionPoint_of_mem spans' asc' p₂_at (List.mem_map_of_mem inP₂)
        rw [same] at at₂
        exact absurd (at₁.symm.trans at₂) (ne_of_lt lessB)
    refine not_twice exact'.1 visit₁ visit₂ (fun same => ?_)
      (report₁ (absent (List.sublist_flatten_of_mem (List.mem_of_getElem? p₁_at)) none_in_whole))
      (report₂ (absent (List.sublist_flatten_of_mem (List.mem_of_getElem? p₂_at)) none_in_whole))
    exact absurd (congrArg Prod.snd same) (ne_of_lt lessB)
  · -- one child of the right tree, two partners on the left
    have inA : b ∈ separators run := by
      by_contra notA
      exact inB (differ.mp notA)
    obtain ⟨k, sameB, lessA⟩ := exists_two_partners sortedA inA inB
      (firstKey_lt_separator spans asc inA)
    obtain ⟨c, p, c_at, p_at, sp, -⟩ := route spans' occupied' asc' b
    obtain ⟨c₁, p₁, c₁_at, p₁_at, sp₁, -⟩ := route spans occupied asc k
    obtain ⟨c₂, p₂, c₂_at, p₂_at, sp₂, -⟩ := route spans occupied asc b
    have visit₁ := routed_visited run run' k
    have visit₂ := routed_visited run run' b
    rw [sameB] at visit₁
    have walk₁ := walks _ _ c₁ c p₁ p c₁_at c_at p₁_at p_at
    have walk₂ := walks _ _ c₂ c p₂ p c₂_at c_at p₂_at p_at
    obtain ⟨x, xs, p_eq⟩ := List.exists_cons_of_ne_nil sp.ne_nil
    have inP : Entries.get? x.1 p = some x.2 := by rw [p_eq, get?_head]
    have report₁ : Entries.get? x.1 p₁ = none → _ := fun none₁ =>
      walk₁.covers (.added x.1 x.2) ⟨none₁, inP⟩
    have report₂ : Entries.get? x.1 p₂ = none → _ := fun none₂ =>
      walk₂.covers (.added x.1 x.2) ⟨none₂, inP⟩
    have none_in_whole : Entries.get? x.1 parts.flatten = none := by
      by_cases none₁ : Entries.get? x.1 p₁ = none
      · exact (inOut visit₁ (report₁ none₁)).1
      · refine (inOut visit₂ (report₂ ?_)).1
        rw [Entries.get?_eq_none_iff]
        intro y inP₂ same
        obtain ⟨v, found₁⟩ := Option.ne_none_iff_exists'.mp none₁
        have at₁ := partitionPoint_of_mem spans asc p₁_at
          (List.mem_map_of_mem (Entries.mem_of_get? found₁))
        have at₂ := partitionPoint_of_mem spans asc p₂_at (List.mem_map_of_mem inP₂)
        rw [same] at at₂
        exact absurd (at₁.symm.trans at₂) (ne_of_lt lessA)
    refine not_twice exact'.1 visit₁ visit₂ (fun same => ?_)
      (report₁ (absent (List.sublist_flatten_of_mem (List.mem_of_getElem? p₁_at)) none_in_whole))
      (report₂ (absent (List.sublist_flatten_of_mem (List.mem_of_getElem? p₂_at)) none_in_whole))
    exact absurd (congrArg Prod.fst same) (ne_of_lt lessA)

/-- With equal separators a key of either part of a pair of children is routed to that pair. -/
theorem routed_of_mem (same : separators run = separators run') {i : Nat}
    {p p' : List (ProllyKey × Cid)} (p_at : parts[i]? = some p) (p_at' : parts'[i]? = some p')
    {k : ProllyKey} (member : k ∈ p.map Prod.fst ∨ k ∈ p'.map Prod.fst) :
    partitionPoint (separators run) k = i ∧ Entries.get? k parts.flatten = Entries.get? k p ∧
      Entries.get? k parts'.flatten = Entries.get? k p' := by
  have routed : partitionPoint (separators run) k = i := by
    rcases member with inA | inB
    · exact partitionPoint_of_mem spans asc p_at inA
    · rw [same]
      exact partitionPoint_of_mem spans' asc' p_at' inB
  refine ⟨routed, get?_flatten_eq spans asc k (by rw [routed]; exact p_at),
    get?_flatten_eq spans' asc' k ?_⟩
  change parts'[partitionPoint (separators run') k]? = some p'
  rw [← same, routed]
  exact p_at'

/-- With equal separators, a walk without a slip has none on any pair of children. -/
theorem listed_child (same : separators run = separators run')
    (exact' : Listed parts.flatten parts'.flatten ((visitedPairs run run').flatMap res)) {i : Nat}
    {c c' : ProllyKey × Cid} {p p' : List (ProllyKey × Cid)} (c_at : run[i]? = some c)
    (c_at' : run'[i]? = some c') (p_at : parts[i]? = some p) (p_at' : parts'[i]? = some p') :
    Listed p p' (res (i, i)) := by
  have walk := walks i i c c' p p' c_at c_at' p_at p_at'
  -- a key of the child shows that the pair is visited
  have visited : (i, i) ∈ visitedPairs run run' := by
    have sp : p ≠ [] := by
      obtain ⟨lt, rfl⟩ := List.getElem?_eq_some_iff.mp p_at
      exact ((List.forall₂_iff_get.mp spans).2 i (spans.length_eq ▸ lt) lt).ne_nil
    obtain ⟨x, xs, rfl⟩ := List.exists_cons_of_ne_nil sp
    have routed := (routed_of_mem spans spans' occupied occupied' asc asc' walks same p_at p_at'
      (k := x.1) (Or.inl (by simp))).1
    have visit := routed_visited run run' x.1
    rwa [← same, routed] at visit
  have inOut : ∀ e ∈ res (i, i), e ∈ (visitedPairs run run').flatMap res := fun e member =>
    List.mem_flatMap.mpr ⟨_, visited, member⟩
  refine ⟨(List.pairwise_flatMap.mp exact'.1).1 _ visited, fun e => ⟨fun member => ?_, walk.covers e⟩⟩
  obtain ⟨-, atA, atB⟩ := routed_of_mem spans spans' occupied occupied' asc asc' walks same p_at
    p_at' (walk.values e member).mem_keys
  exact (diffAt_congr atA atB).mp ((exact'.2 e).mp (inOut e member))

/-- With equal separators, walks exact on every pair of children are exact together. -/
theorem exact_of_children (same : separators run = separators run')
    (each : ∀ i c c' p p', run[i]? = some c → run'[i]? = some c' → parts[i]? = some p →
      parts'[i]? = some p' → ExactDiff p p' (res (i, i))) :
    ExactDiff parts.flatten parts'.flatten ((visitedPairs run run').flatMap res) := by
  have sorted := separators_ascending spans asc
  have diagonal : ∀ pair ∈ visitedPairs run run', ∃ c c' p p', pair = (pair.1, pair.1) ∧
      run[pair.1]? = some c ∧ run'[pair.1]? = some c' ∧ parts[pair.1]? = some p ∧
      parts'[pair.1]? = some p' := by
    intro pair member
    obtain ⟨lower, -, rfl⟩ := List.mem_map.mp member
    obtain ⟨c, c', p, p', c_at, c_at', p_at, p_at'⟩ :=
      rangePair_in_range spans spans' occupied occupied' lower
    have equal : (rangePair (separators run) (separators run') lower).2 =
        (rangePair (separators run) (separators run') lower).1 := by
      simp only [rangePair, same]
    exact ⟨c, c', p, p', Prod.ext rfl equal, c_at, equal ▸ c_at', p_at, equal ▸ p_at'⟩
  have routed : ∀ pair ∈ visitedPairs run run', ∀ e ∈ res pair,
      partitionPoint (separators run) e.key = pair.1 := by
    intro pair member e inRes
    obtain ⟨c, c', p, p', eq, c_at, c_at', p_at, p_at'⟩ := diagonal pair member
    rw [eq] at inRes
    exact (routed_of_mem spans spans' occupied occupied' asc asc' walks same p_at p_at'
      ((walks _ _ c c' p p' c_at c_at' p_at p_at').values e inRes).mem_keys).1
  constructor
  · rw [List.pairwise_flatMap]
    constructor
    · intro pair member
      obtain ⟨c, c', p, p', eq, c_at, c_at', p_at, p_at'⟩ := diagonal pair member
      rw [eq]
      exact (each _ c c' p p' c_at c_at' p_at p_at').1
    · have moves : (visitedPairs run run').Pairwise fun p q => p.1 < q.1 := by
        rw [List.pairwise_map]
        refine (rangeBounds_moves sorted (same ▸ sorted)).imp fun moved => ?_
        simp only [rangePair]
        rw [← same, or_self] at moved
        exact moved
      refine moves.imp_of_mem fun {q r} q_mem r_mem lt x inQ y inR => ?_
      by_contra notLt
      have le := partitionPoint_mono (separators run) (not_lt.mp notLt)
      rw [routed q q_mem x inQ, routed r r_mem y inR] at le
      omega
  · intro e
    refine ⟨fun member => ?_, internals_covers spans spans' occupied occupied' asc asc' walks e⟩
    obtain ⟨pair, visited, inRes⟩ := List.mem_flatMap.mp member
    obtain ⟨c, c', p, p', eq, c_at, c_at', p_at, p_at'⟩ := diagonal pair visited
    rw [eq] at inRes
    obtain ⟨-, atA, atB⟩ := routed_of_mem spans spans' occupied occupied' asc asc' walks same p_at
      p_at' ((walks _ _ c c' p p' c_at c_at' p_at p_at').values e inRes).mem_keys
    exact (diffAt_congr atA atB).mpr (((each _ c c' p p' c_at c_at' p_at p_at').2 e).mp inRes)

/-- The walk of two different internal chunks is as specified. -/
theorem internals_walkSpec {a b : Cid} (ne : a ≠ b)
    (loadedA : loadTreeChunk s a = .ok (.internal (separators run) (run.map Prod.snd)))
    (loadedB : loadTreeChunk s b = .ok (.internal (separators run') (run'.map Prod.snd))) :
    WalkSpec s a b parts.flatten parts'.flatten ((visitedPairs run run').flatMap res) where
  covers := internals_covers spans spans' occupied occupied' asc asc' walks
  values := internals_values spans spans' occupied occupied' asc asc' walks
  aligned listed := by
    have same := separators_eq_of_listed spans spans' occupied occupied' asc asc' walks listed
    have len : run.length = run'.length := by
      have tails := congrArg List.length same
      have pos : 0 < run.length := List.length_pos_iff.mpr occupied
      have pos' : 0 < run'.length := List.length_pos_iff.mpr occupied'
      rw [List.length_map, List.length_map, List.length_tail, List.length_tail] at tails
      omega
    refine .internal loadedA (same ▸ loadedB) ?_
    rw [List.forall₂_map_left_iff, List.forall₂_map_right_iff, List.forall₂_iff_get]
    refine ⟨len, fun i lt lt' => ?_⟩
    have c_at := List.getElem?_eq_getElem lt
    have c_at' := List.getElem?_eq_getElem lt'
    have p_at := List.getElem?_eq_getElem (spans.length_eq ▸ lt)
    have p_at' := List.getElem?_eq_getElem (spans'.length_eq ▸ lt')
    exact (walks i i _ _ _ _ c_at c_at' p_at p_at').aligned
      (listed_child spans spans' occupied occupied' asc asc' walks same listed c_at c_at' p_at p_at')
  exact_of aligned := by
    cases aligned with
    | same => exact absurd rfl ne
    | leafLeft leaf => rw [loadedA] at leaf; cases leaf
    | leafRight leaf => rw [loadedB] at leaf; cases leaf
    | internal loadA loadB children =>
        rw [loadedA] at loadA
        rw [loadedB] at loadB
        obtain ⟨rfl, rfl⟩ := TreeChunk.internal.inj (Except.ok.inj loadA)
        obtain ⟨same, rfl⟩ := TreeChunk.internal.inj (Except.ok.inj loadB)
        rw [List.forall₂_map_left_iff, List.forall₂_map_right_iff] at children
        refine exact_of_children spans spans' occupied occupied' asc asc' walks same.symm ?_
        intro i c c' p p' c_at c_at' p_at p_at'
        obtain ⟨lt, rfl⟩ := List.getElem?_eq_some_iff.mp c_at
        obtain ⟨lt', rfl⟩ := List.getElem?_eq_some_iff.mp c_at'
        exact (walks i i _ _ p p' c_at c_at' p_at p_at').exact_of
          ((List.forall₂_iff_get.mp children).2 i lt lt')

end Internals

/-! ## The whole walk -/

theorem exactDiff_self (es : List (ProllyKey × Cid)) : ExactDiff es es [] := by
  refine ⟨.nil, fun e => ⟨by simp, fun diffAt => ?_⟩⟩
  rw [diffAt_iff rfl] at diffAt
  cases found : Entries.get? e.key es <;> simp [delta, found] at diffAt

theorem collectEntriesInternal_of_spans {s : Store H} {h : Nat} {run : List (ProllyKey × Cid)}
    {parts : List (List (ProllyKey × Cid))} (spans : List.Forall₂ (Spans s h) run parts) :
    collectEntriesInternal s (run.map Prod.snd) = .ok parts.flatten := by
  have all := mapM_children (spans.imp fun _ _ sp => entries_of_holds sp.1)
  unfold entries at all
  rw [collectEntriesInternal, all]
  rfl

/-- The walk of two trees returns, and what it returns is as specified. -/
theorem diffCids_of_holds {s : Store H} (fuel : Nat) {h h' : Nat} {a b : Cid}
    {as bs : List (ProllyKey × Cid)} (holdsA : Holds s h a as) (holdsB : Holds s h' b bs)
    (ascA : Entries.Ascending as) (ascB : Entries.Ascending bs) (enough : h < fuel) :
    ∃ out, diffCids s fuel a b = .ok out ∧ WalkSpec s a b as bs out := by
  induction h generalizing fuel h' a b as bs with
  | zero =>
      obtain ⟨fuel, rfl⟩ : ∃ f, fuel = f + 1 := ⟨fuel - 1, by omega⟩
      have loadedA := loadTreeChunk_leaf holdsA
      by_cases ne : a = b
      · subst ne
        obtain ⟨-, rfl⟩ := holdsA.unique holdsB
        exact ⟨[], by rw [diffCids, if_pos rfl], (exactDiff_self as).walkSpec (.same a)⟩
      · refine ⟨diffSortedEntries as bs, ?_,
          (diffSortedEntries_exact ascA ascB).walkSpec (.leafLeft loadedA)⟩
        rw [diffCids, if_neg ne, loadedA]
        cases h' with
        | zero => simp only [loadTreeChunk_leaf holdsB]
        | succ h' =>
            obtain ⟨run, parts, loads, occupied, spans, rfl⟩ := holds_succ.mp holdsB
            simp only [loadTreeChunk_internal loads occupied, collectEntriesInternal_of_spans spans]
            rfl
  | succ h ih =>
      obtain ⟨fuel, rfl⟩ : ∃ f, fuel = f + 1 := ⟨fuel - 1, by omega⟩
      by_cases ne : a = b
      · subst ne
        obtain ⟨-, rfl⟩ := holdsA.unique holdsB
        exact ⟨[], by rw [diffCids, if_pos rfl], (exactDiff_self as).walkSpec (.same a)⟩
      · obtain ⟨run, parts, loads, occupied, spans, rfl⟩ := holds_succ.mp holdsA
        have loadedA := loadTreeChunk_internal loads occupied
        cases h' with
        | zero =>
            have loadedB := loadTreeChunk_leaf holdsB
            refine ⟨diffSortedEntries parts.flatten bs, ?_,
              (diffSortedEntries_exact ascA ascB).walkSpec (.leafRight loadedB)⟩
            rw [diffCids, if_neg ne, loadedA, loadedB]
            simp only [collectEntriesInternal_of_spans spans]
            rfl
        | succ h' =>
            obtain ⟨run', parts', loads', occupied', spans', rfl⟩ := holds_succ.mp holdsB
            have loadedB := loadTreeChunk_internal loads' occupied'
            have child : ∀ pair : Nat × Nat, ∃ out, ∀ c c' p p', run[pair.1]? = some c →
                run'[pair.2]? = some c' → parts[pair.1]? = some p → parts'[pair.2]? = some p' →
                diffCids s fuel c.2 c'.2 = .ok out ∧ WalkSpec s c.2 c'.2 p p' out := by
              intro pair
              by_cases inRange : pair.1 < run.length ∧ pair.2 < run'.length
              · obtain ⟨lt, lt'⟩ := inRange
                have inParts := spans.length_eq ▸ lt
                have inParts' := spans'.length_eq ▸ lt'
                have sp := (List.forall₂_iff_get.mp spans).2 _ lt inParts
                have sp' := (List.forall₂_iff_get.mp spans').2 _ lt' inParts'
                obtain ⟨out, ran, walk⟩ := ih fuel sp.1 sp'.1
                  (ascA.sublist (List.sublist_flatten_of_mem (List.get_mem _ _)))
                  (ascB.sublist (List.sublist_flatten_of_mem (List.get_mem _ _))) (by omega)
                refine ⟨out, fun c c' p p' c_at c_at' p_at p_at' => ?_⟩
                obtain ⟨_, rfl⟩ := List.getElem?_eq_some_iff.mp c_at
                obtain ⟨_, rfl⟩ := List.getElem?_eq_some_iff.mp c_at'
                obtain ⟨_, rfl⟩ := List.getElem?_eq_some_iff.mp p_at
                obtain ⟨_, rfl⟩ := List.getElem?_eq_some_iff.mp p_at'
                exact ⟨ran, walk⟩
              · refine ⟨[], fun c c' p p' c_at c_at' _ _ => absurd ?_ inRange⟩
                exact ⟨(List.getElem?_eq_some_iff.mp c_at).1, (List.getElem?_eq_some_iff.mp c_at').1⟩
            choose res child using child
            have walks : ChildWalks s run run' parts parts' res :=
              fun i j c c' p p' c_at c_at' p_at p_at' =>
                (child (i, j) c c' p p' c_at c_at' p_at p_at').2
            refine ⟨(visitedPairs run run').flatMap res, ?_, internals_walkSpec spans spans' occupied
              occupied' ascA ascB walks ne loadedA loadedB⟩
            rw [diffCids, if_neg ne, loadedA, loadedB]
            refine diffRanges_ok (rangePairs_nodup (separators_ascending spans ascA)
              (separators_ascending spans' ascB)) fun lower _ => ?_
            obtain ⟨c, c', p, p', c_at, c_at', p_at, p_at'⟩ :=
              rangePair_in_range spans spans' occupied occupied' lower
            refine ⟨c.2, c'.2, by rw [List.getElem?_map, c_at]; rfl,
              by rw [List.getElem?_map, c_at']; rfl,
              (child _ c c' p p' c_at c_at' p_at p_at').1⟩

/-- The diff of two trees returns, and is as specified. -/
theorem diff_walk {s : Store H} {rootA rootB : Cid} {a b : OrdMap ProllyKey Cid}
    (treeA : IsTree s rootA a) (treeB : IsTree s rootB b) :
    ∃ out, diff s rootA rootB = .ok out ∧ WalkSpec s rootA rootB a.entries b.entries out := by
  obtain ⟨h, holdsA⟩ := treeA
  obtain ⟨h', holdsB⟩ := treeB
  exact diffCids_of_holds (s.blocks.length + 1) holdsA holdsB a.ascending b.ascending
    (Nat.lt_succ_of_lt holdsA.lt_length)

/-- A reported change is one. -/
def DiffEntry.Differs : DiffEntry Cid → Prop
  | .changed _ before after => before ≠ after
  | _ => True

theorem diffSortedEntries_differs (as bs : List (ProllyKey × Cid)) :
    ∀ e ∈ diffSortedEntries as bs, e.Differs := by
  induction as generalizing bs with
  | nil =>
      intro e member
      obtain ⟨b, -, rfl⟩ := List.mem_map.mp member
      trivial
  | cons a as ih =>
      change ∀ e ∈ mergeFrom a as (diffSortedEntries as) bs, e.Differs
      induction bs with
      | nil =>
          intro e member
          obtain ⟨x, -, rfl⟩ := List.mem_map.mp member
          trivial
      | cons b bs ihb =>
          intro e member
          unfold mergeFrom at member
          split at member
          · rcases List.mem_cons.mp member with rfl | later
            · trivial
            · exact ih _ e later
          · split at member
            · rcases List.mem_cons.mp member with rfl | later
              · trivial
              · exact ihb e later
            · rcases List.mem_append.mp member with here | later
              · split at here
                · cases here
                · rename_i apart
                  obtain rfl := List.mem_singleton.mp here
                  exact apart
              · exact ih _ e later

theorem diffRanges_differs {visit : Cid → Cid → Except (Error Cid) (List (DiffEntry Cid))}
    (each : ∀ a b out, visit a b = .ok out → ∀ e ∈ out, e.Differs) {ba bb : List ProllyKey}
    {ca cb : List Cid} (ranges : List (Option ProllyKey)) (lastPair : Option (Nat × Nat))
    {out : List (DiffEntry Cid)} (ran : diffRanges visit ba bb ca cb lastPair ranges = .ok out) :
    ∀ e ∈ out, e.Differs := by
  induction ranges generalizing lastPair out with
  | nil =>
      cases ran
      exact fun e member => absurd member List.not_mem_nil
  | cons lower ranges ih =>
      unfold diffRanges at ran
      dsimp only at ran
      split at ran
      · exact ih _ ran
      · split at ran
        · obtain ⟨first, visited, ran⟩ := Exec.bind_eq_ok.mp ran
          obtain ⟨more, rest, last⟩ := Exec.bind_eq_ok.mp ran
          cases last
          intro e member
          rcases List.mem_append.mp member with here | later
          · exact each _ _ _ visited e here
          · exact ih _ rest e later
        · cases ran

/-- **No walk reports a change of a value into itself.** -/
theorem diff_differs {s : Store H} {rootA rootB : Cid} {out : List (DiffEntry Cid)}
    (ran : diff s rootA rootB = .ok out) : ∀ e ∈ out, e.Differs := by
  unfold diff at ran
  generalize s.blocks.length + 1 = fuel at ran
  induction fuel generalizing rootA rootB out with
  | zero => cases ran
  | succ fuel ih =>
      unfold diffCids at ran
      split at ran
      · cases ran
        exact fun e member => absurd member List.not_mem_nil
      · split at ran
        · cases ran
        · split at ran
          · cases ran
          · split at ran
            · cases ran
              exact diffSortedEntries_differs _ _
            · exact diffRanges_differs (fun a b out visited => ih visited) _ _ ran
            · obtain ⟨flat, -, rfl⟩ := Exec.map_eq_ok.mp ran
              exact diffSortedEntries_differs _ _
            · obtain ⟨flat, -, rfl⟩ := Exec.map_eq_ok.mp ran
              exact diffSortedEntries_differs _ _
/-- A walk that reports as many entries as there are differences has no slip. -/
theorem WalkSpec.listed_of_length {s : Store H} {a b : Cid} {as bs : List (ProllyKey × Cid)}
    {out es : List (DiffEntry Cid)} (walk : WalkSpec s a b as bs out) (listed : Listed as bs es)
    (length : out.length = es.length) : Listed as bs out := by
  have sub : es ⊆ out := fun e member => walk.covers e ((listed.2 e).mp member)
  have perm : es.Perm out := (List.subperm_of_subset listed.1 sub).perm_of_length_le length.le
  exact ⟨perm.nodup_iff.mp listed.1, fun e => perm.mem_iff.symm.trans (listed.2 e)⟩

/-- **The diff of two built trees is exactly the map difference if and only if the trees
are aligned.** -/
theorem diff_exact_iff (H : Hashing Cid) {s₀ s₁ s₂ s : Store H} {rootA rootB : Cid}
    {as bs : List (ProllyKey × Cid)} (ascA : Entries.Ascending as) (ascB : Entries.Ascending bs)
    (builtA : (buildTree as : StoreM H Cid).Returns s₀ rootA s₁)
    (builtB : (buildTree bs : StoreM H Cid).Returns s₁ rootB s₂) (le : s₂ ≤ s) :
    ∃ out, diff s rootA rootB = .ok out ∧ (ExactDiff as bs out ↔ Aligned s rootA rootB) := by
  obtain ⟨-, -, h, holdsA⟩ := (buildTree_holds as s₀).of_returns builtA
  obtain ⟨-, le₁, h', holdsB⟩ := (buildTree_holds bs s₁).of_returns builtB
  obtain ⟨out, ran, walk⟩ := diff_walk (a := ⟨as, ascA⟩) (b := ⟨bs, ascB⟩)
    ⟨h, (holdsA.mono le₁).mono le⟩ ⟨h', holdsB.mono le⟩
  exact ⟨out, ran, walk.exact_iff⟩

/-- A store with the trees of keys 0 to 31 and of keys 1 to 32, in leaves of sixteen. -/
def shiftedStore : Store cuttingHashing :=
  putChunks (putChunks {} (treeChunks cuttingHashing (consecutive 0 32)))
    (treeChunks cuttingHashing (consecutive 1 32))

theorem diff_exact_iff_shifted :
    ∃ out, diff shiftedStore (treeRoot cuttingHashing (consecutive 0 32))
        (treeRoot cuttingHashing (consecutive 1 32)) = .ok out ∧
      (ExactDiff (consecutive 0 32) (consecutive 1 32) out ↔
        Aligned shiftedStore (treeRoot cuttingHashing (consecutive 0 32))
          (treeRoot cuttingHashing (consecutive 1 32))) :=
  diff_exact_iff cuttingHashing (by decide) (by decide)
    (show (buildTree (consecutive 0 32)).Returns {} _ _ from Exec.returns_update.mpr rfl)
    (Exec.returns_update.mpr rfl) (le_refl shiftedStore)

/-- The separators are 16 and 17, and key 16, which both trees hold alike, is reported
as added. -/
theorem diff_shifted_not_exact :
    ∃ s₁ s₂ out,
      (buildTree (consecutive 0 32) : StoreM cuttingHashing ℕ).Returns {}
        (treeRoot cuttingHashing (consecutive 0 32)) s₁ ∧
      (buildTree (consecutive 1 32) : StoreM cuttingHashing ℕ).Returns s₁
        (treeRoot cuttingHashing (consecutive 1 32)) s₂ ∧
      diff s₂ (treeRoot cuttingHashing (consecutive 0 32))
        (treeRoot cuttingHashing (consecutive 1 32)) = .ok out ∧
      ¬ ExactDiff (consecutive 0 32) (consecutive 1 32) out := by
  have reported : (match diff shiftedStore (treeRoot cuttingHashing (consecutive 0 32))
      (treeRoot cuttingHashing (consecutive 1 32)) with
      | .ok out => decide (DiffEntry.added 16 1016 ∈ out)
      | .error _ => false) = true := by decide +kernel
  cases ran : diff shiftedStore (treeRoot cuttingHashing (consecutive 0 32))
      (treeRoot cuttingHashing (consecutive 1 32)) with
  | error e =>
      rw [ran] at reported
      cases reported
  | ok out =>
      rw [ran] at reported
      refine ⟨_, _, out, Exec.returns_update.mpr rfl, Exec.returns_update.mpr rfl, ran, ?_⟩
      intro exact'
      have unchanged : Entries.get? 16 (consecutive 0 32) = some 1016 := by decide
      have wrong := ((exact'.2 _).mp (of_decide_eq_true reported)).1
      rw [unchanged] at wrong
      cases wrong

end Mnem.Prolly
