/-
# Prolly.Build — the chunker and the level-by-level tree builder

The builder cuts an ascending entry list into runs with a rolling hash over the
keys, writes each run as a leaf, and repeats the cut on the `(first key, CID)`
pairs of the chunks it wrote until one chunk is left.  It never reads what it
wrote, so it is a pure function from entries to a root and the chunks written.

Nothing is assumed of the rolling hash.  What the cut guarantees is
`runs_flatten` (nothing lost, order kept), `runs_ne_nil` and `le_length_of_mem_runs`
(every run but the last has at least `minEntriesPerChunk` keys); the last bounds
the next level strictly below this one (`length_runs_lt`), so the loop over levels
ends with exactly one chunk (`levelLoop_length`) and its iteration bound is never
what stops it (`levelLoop_stable`).
-/
import Mnem.Store

namespace Mnem.Prolly

open Theory

set_option autoImplicit false

variable {Cid : Type}

/-! ## Chunker -/

def minEntriesPerChunk : Nat := 16

def maxEntriesPerChunk : Nat := 512

/-- `u64::MAX / 48`. -/
def threshold : UInt64 := 18446744073709551615 / 48

/-- The rolling state of one chunk: the last four keys and the count of keys pushed. -/
structure Chunker where
  window : Window := {}
  nKeys : Nat := 0

namespace Chunker

def pushKey (c : Chunker) (key : ProllyKey) : Chunker where
  window :=
    { first := c.window.second, second := c.window.third, third := c.window.last, last := key }
  nKeys := c.nKeys + 1

def shouldSplitAt (H : Hashing Cid) (c : Chunker) (entriesInChunk : Nat) : Bool :=
  if entriesInChunk < minEntriesPerChunk then false
  else if entriesInChunk ≥ maxEntriesPerChunk then true
  else decide (H.rollingHash c.window < threshold)

end Chunker

/-! ## One level -/

/-- Cut a sequence into runs: the loop that both level builders share.  `cur` is
the run in progress, `chunker` its rolling state. -/
def runs (H : Hashing Cid) :
    Chunker → List (ProllyKey × Cid) → List (ProllyKey × Cid) → List (List (ProllyKey × Cid))
  | _, cur, [] => if cur.isEmpty then [] else [cur]
  | chunker, cur, e :: es =>
      let chunker := chunker.pushKey e.1
      let cur := cur ++ [e]
      if chunker.shouldSplitAt H cur.length then cur :: runs H {} [] es
      else runs H chunker cur es

/-- The key of a run's first entry; a run is never empty. -/
def firstKey : List (ProllyKey × Cid) → ProllyKey
  | [] => 0
  | e :: _ => e.1

/-- A leaf with the key it is filed under in the level above. -/
def emitLeaf (cur : List (ProllyKey × Cid)) : ProllyKey × TreeChunk Cid :=
  (firstKey cur, .leaf cur)

/-- An internal chunk: the first child's key is not stored, the others separate. -/
def emitInternal (cur : List (ProllyKey × Cid)) : ProllyKey × TreeChunk Cid :=
  (firstKey cur, .internal (cur.tail.map Prod.fst) (cur.map Prod.snd))

/-- The leaves of an entry list; an empty list gives one empty leaf at the zero key. -/
def buildLeafLevel (H : Hashing Cid) (entries : List (ProllyKey × Cid)) :
    List (ProllyKey × TreeChunk Cid) :=
  let out := (runs H {} [] entries).map emitLeaf
  if out.isEmpty then [(0, .leaf [])] else out

def buildInternalLevel (H : Hashing Cid) (children : List (ProllyKey × Cid)) :
    List (ProllyKey × TreeChunk Cid) :=
  (runs H {} [] children).map emitInternal

/-! ## The tree -/

/-- A written chunk as the level above sees it. -/
def address (H : Hashing Cid) (chunk : ProllyKey × TreeChunk Cid) : ProllyKey × Cid :=
  (chunk.1, H.cidOf (.tree chunk.2))

/-- Build levels while the current one has more than one chunk; `out` collects the
chunks written. -/
def levelLoop (H : Hashing Cid) :
    Nat → List (ProllyKey × Cid) → List (TreeChunk Cid) →
      List (ProllyKey × Cid) × List (TreeChunk Cid)
  | 0, current, out => (current, out)
  | fuel + 1, current, out =>
      if current.length > 1 then
        let next := buildInternalLevel H current
        levelLoop H fuel (next.map (address H)) (out ++ next.map Prod.snd)
      else (current, out)

/-- The top level and every chunk written, bottom level first. -/
def buildLevels (H : Hashing Cid) (entries : List (ProllyKey × Cid)) :
    List (ProllyKey × Cid) × List (TreeChunk Cid) :=
  let level := buildLeafLevel H entries
  levelLoop H level.length (level.map (address H)) (level.map Prod.snd)

/-- The CID of the only chunk of the top level. -/
def treeRoot (H : Hashing Cid) (entries : List (ProllyKey × Cid)) : Cid :=
  match (buildLevels H entries).1 with
  | [] => H.cidOf (.tree (.leaf []))
  | top :: _ => top.2

/-- The chunks `build_tree` writes. -/
def treeChunks (H : Hashing Cid) (entries : List (ProllyKey × Cid)) : List (TreeChunk Cid) :=
  (buildLevels H entries).2

/-! ## What the cut guarantees -/

section Runs

variable (H : Hashing Cid)

theorem runs_flatten (chunker : Chunker) (cur es : List (ProllyKey × Cid)) :
    (runs H chunker cur es).flatten = cur ++ es := by
  induction es generalizing chunker cur with
  | nil =>
      unfold runs
      split
      · rename_i empty
        rw [List.isEmpty_iff.mp empty]
        rfl
      · simp
  | cons e es ih =>
      simp only [runs]
      split
      · rw [List.flatten_cons, ih, List.nil_append, List.append_assoc, List.singleton_append]
      · rw [ih, List.append_assoc, List.singleton_append]

theorem runs_ne_nil (chunker : Chunker) (cur es : List (ProllyKey × Cid)) :
    ∀ run ∈ runs H chunker cur es, run ≠ [] := by
  induction es generalizing chunker cur with
  | nil =>
      unfold runs
      split
      · simp
      · rename_i occupied
        simpa using occupied
  | cons e es ih =>
      simp only [runs]
      split
      · intro run member
        rcases List.mem_cons.mp member with rfl | later
        · simp
        · exact ih _ _ run later
      · exact ih _ _

/-- Every run but the last has at least the minimum number of keys. -/
theorem le_length_of_mem_runs (chunker : Chunker) (cur es : List (ProllyKey × Cid)) :
    ∀ run ∈ (runs H chunker cur es).dropLast, minEntriesPerChunk ≤ run.length := by
  induction es generalizing chunker cur with
  | nil =>
      unfold runs
      split <;> simp
  | cons e es ih =>
      simp only [runs]
      split
      · rename_i split_here
        have enough : minEntriesPerChunk ≤ (cur ++ [e]).length := by
          unfold Chunker.shouldSplitAt at split_here
          split at split_here
          · cases split_here
          · rename_i large
            exact Nat.le_of_not_lt large
        intro run member
        rcases hrest : runs H {} [] es with _ | ⟨r, rs⟩
        · rw [hrest] at member
          simp at member
        · rw [hrest, List.dropLast_cons_cons, ← hrest] at member
          rcases List.mem_cons.mp member with rfl | later
          · exact enough
          · exact ih _ _ run later
      · exact ih _ _

/-- Runs that each take at least two keys, but for the last, are fewer than the keys. -/
theorem length_lt_flatten {α : Type} (rs : List (List α)) (occupied : ∀ r ∈ rs, r ≠ [])
    (long : ∀ r ∈ rs.dropLast, 2 ≤ r.length) (many : 2 ≤ rs.flatten.length) :
    rs.length < rs.flatten.length := by
  have weak : ∀ rs : List (List α), (∀ r ∈ rs, r ≠ []) → rs.length ≤ rs.flatten.length := by
    intro rs occupied
    induction rs with
    | nil => simp
    | cons r rs ih =>
        have here : 0 < r.length := List.length_pos_iff.mpr (occupied r List.mem_cons_self)
        have rest := ih fun r' member => occupied r' (List.mem_cons_of_mem _ member)
        rw [List.flatten_cons, List.length_append, List.length_cons]
        omega
  match rs, occupied, long, many with
  | [], _, _, many => simp at many
  | [r], _, _, many =>
      rw [List.length_singleton]
      omega
  | r :: r' :: rs, occupied, long, _ =>
      have here : 2 ≤ r.length := long r (by simp)
      have rest := weak (r' :: rs) fun x member => occupied x (List.mem_cons_of_mem _ member)
      rw [List.flatten_cons, List.length_append, List.length_cons]
      omega

/-- **The next level is strictly shorter**, whatever the rolling hash. -/
theorem length_runs_lt (es : List (ProllyKey × Cid)) (many : 1 < es.length) :
    (runs H {} [] es).length < es.length := by
  have flat : (runs H {} [] es).flatten = es := runs_flatten H {} [] es
  have shorter := length_lt_flatten (runs H {} [] es) (runs_ne_nil H {} [] es)
    (fun run member => le_trans (by decide) (le_length_of_mem_runs H {} [] es run member))
    (by rw [flat]; omega)
  rwa [flat] at shorter

theorem runs_length_pos (es : List (ProllyKey × Cid)) (some_entry : es ≠ []) :
    0 < (runs H {} [] es).length := by
  rw [List.length_pos_iff]
  intro none_cut
  have flat : (runs H {} [] es).flatten = es := runs_flatten H {} [] es
  rw [none_cut] at flat
  exact some_entry flat.symm

end Runs

/-! ## The loop over levels -/

section Levels

variable (H : Hashing Cid)

theorem length_buildInternalLevel (children : List (ProllyKey × Cid)) :
    ((buildInternalLevel H children).map (address H)).length = (runs H {} [] children).length := by
  rw [List.length_map, buildInternalLevel, List.length_map]

theorem levelLoop_length {fuel : Nat} {current : List (ProllyKey × Cid)}
    {out : List (TreeChunk Cid)} (occupied : current ≠ []) (enough : current.length ≤ fuel) :
    (levelLoop H fuel current out).1.length = 1 := by
  induction fuel generalizing current out with
  | zero => exact absurd (List.length_eq_zero_iff.mp (Nat.le_zero.mp enough)) occupied
  | succ fuel ih =>
      have pos : 0 < current.length := List.length_pos_iff.mpr occupied
      simp only [levelLoop]
      split
      · rename_i many
        have shorter := length_runs_lt H current many
        refine ih ?_ ?_
        · rw [← List.length_pos_iff, length_buildInternalLevel]
          exact runs_length_pos H current occupied
        · rw [length_buildInternalLevel]
          omega
      · change current.length = 1
        omega

/-- More iterations than the first level has chunks change nothing. -/
theorem levelLoop_stable {fuel more : Nat} {current : List (ProllyKey × Cid)}
    {out : List (TreeChunk Cid)} (enough : current.length ≤ fuel) (le : fuel ≤ more) :
    levelLoop H more current out = levelLoop H fuel current out := by
  induction fuel generalizing more current out with
  | zero =>
      have none_left : current = [] := List.length_eq_zero_iff.mp (Nat.le_zero.mp enough)
      cases more <;> simp [levelLoop, none_left]
  | succ fuel ih =>
      obtain ⟨more, rfl⟩ : ∃ m, more = m + 1 := ⟨more - 1, by omega⟩
      simp only [levelLoop]
      split
      · rename_i many
        have shorter := length_runs_lt H current many
        refine ih ?_ (by omega)
        rw [length_buildInternalLevel]
        omega
      · rfl

theorem buildLeafLevel_ne_nil (entries : List (ProllyKey × Cid)) :
    buildLeafLevel H entries ≠ [] := by
  simp only [buildLeafLevel]
  split
  · simp
  · rename_i occupied
    simpa using occupied

/-- **The builder terminates with exactly one chunk at the top.** -/
theorem buildLevels_length (entries : List (ProllyKey × Cid)) :
    (buildLevels H entries).1.length = 1 := by
  refine levelLoop_length H ?_ (by simp)
  simpa using buildLeafLevel_ne_nil H entries

theorem buildLevels_top (entries : List (ProllyKey × Cid)) :
    ∃ key, (buildLevels H entries).1 = [(key, treeRoot H entries)] := by
  obtain ⟨⟨key, cid⟩, single⟩ := List.length_eq_one_iff.mp (buildLevels_length H entries)
  refine ⟨key, ?_⟩
  unfold treeRoot
  rw [single]

end Levels

end Mnem.Prolly
