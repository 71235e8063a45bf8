/-
# Extract.Cooccurrence — relations between entities that share a sentence

`mineRelations` counts, for each entity of a list and for each pair of indices,
the sentences that their spans overlap, and weighs a pair by its pointwise
mutual information.  The counts are kept per index, not per mention.

* Over entities of distinct mentions the miner is what it is documented to be: a
  function of the set of mentions (`mined_of_apart`).
* It is so for every text exactly if no two entities of one mention can lie in a
  sentence (`mine_relations_iff`): two of them are related to each other, and
  each by itself to the others (`alice_twice`).
-/
import Mathlib.Algebra.Order.Ring.Rat
import Mathlib.Data.List.Sort
import Mathlib.Data.Prod.Lex
import Mathlib.Data.String.Basic
import Mathlib.Tactic.FieldSimp
import Mnem.Theory.Tally

namespace Mnem.Extract

open Theory Theory.Tally

set_option autoImplicit false

/-- An entity mention, with the byte span where it was found. -/
structure Entity where
  mention : String
  span : Nat × Nat
  deriving Inhabited, DecidableEq

inductive ExtractionSource where
  | authored
  | statistical
  | llmModel (model : String)
  deriving DecidableEq

structure Relation (W : Type) where
  src : String
  dst : String
  weight : W
  source : ExtractionSource
  deriving DecidableEq

/-- The weights: the logarithm of a ratio as an `f32`, and what is asked of it. -/
structure Weighing (W : Type) where
  ln : ℚ → W
  isFinite : W → Bool
  le : W → W → Bool
  toBits : W → Nat
  toBits_injective : Function.Injective toBits

/-! ## The miner -/

section Miner

variable {W : Type}

/-- A text in lower case, from the lower case of each character. -/
def lc (lower : Char → List Char) (s : String) : String := String.ofList (s.toList.flatMap lower)

/-- Half-open overlap of a span and a sentence. -/
def overlaps (e : Entity) (s : Nat × Nat) : Bool := decide (e.span.1 < s.2) && decide (s.1 < e.span.2)

/-- `Vec::dedup`. -/
def dedup : List Nat → List Nat
  | a :: b :: l => if a = b then dedup (b :: l) else a :: dedup (b :: l)
  | l => l

/-- The indices of the entities that overlap a sentence. -/
def present (entities : List Entity) (s : Nat × Nat) : List Nat :=
  dedup (((entities.zipIdx.filter fun e => overlaps e.1 s).map Prod.snd).insertionSort (· ≤ ·))

/-- The counts: for each entity, and for each pair of indices. -/
structure Counts where
  perEntity : List Nat
  perPair : OrdMap (Nat ×ₗ Nat) Nat

def pairKey (q : Nat × Nat) : Nat ×ₗ Nat := if q.1 < q.2 then toLex q else toLex q.swap

/-- One sentence. -/
def countSentence (entities : List Entity) (c : Counts) (s : Nat × Nat) : Counts :=
  if (present entities s).isEmpty then c
  else
    { perEntity := (present entities s).foldl (fun counts i => counts.modify i (· + 1)) c.perEntity
      perPair := tally c.perPair ((pairs (present entities s)).map pairKey) }

def countAll (entities : List Entity) (sentences : List (Nat × Nat)) : Counts :=
  sentences.foldl (countSentence entities) ⟨List.replicate entities.length 0, OrdMap.empty⟩

variable (lower : Char → List Char) (w : Weighing W) (threshold : W) (source : ExtractionSource)

/-- The relation of two entities, from their counts. -/
def relate (total : Nat) (e e' : Entity) (both one other : Nat) : Option (Relation W) :=
  if both = 0 ∨ one = 0 ∨ other = 0 then none
  else
    let pmi := w.ln ((both / total : ℚ) / ((one / total) * (other / total)))
    if !w.isFinite pmi || w.le pmi threshold then none
    else if lc lower e.mention ≤ lc lower e'.mention then
      some ⟨e.mention, e'.mention, pmi, source⟩
    else some ⟨e'.mention, e.mention, pmi, source⟩

/-- The key of the final sort. -/
def sortKey (r : Relation W) : String ×ₗ (String ×ₗ Nat) :=
  toLex (r.src, toLex (r.dst, w.toBits r.weight))

/-- The sentences that are not empty, as byte ranges. -/
def sentencesOf (split : String → List (Nat × Nat)) (text : String) : List (Nat × Nat) :=
  ((split text).map fun s => (s.1, s.1 + s.2)).filter fun s => decide (s.1 < s.2)

/-- `mine_relations`; `split` gives the start and the length of each sentence. -/
def mineRelations (split : String → List (Nat × Nat)) (text : String) (entities : List Entity) :
    List (Relation W) :=
  if entities.length < 2 ∨ text = "" then []
  else
    let sentences := sentencesOf split text
    if sentences = [] then []
    else
      let counts := countAll entities sentences
      (counts.perPair.entries.filterMap fun e =>
        relate lower w threshold source sentences.length (entities.getD (ofLex e.1).1 default)
          (entities.getD (ofLex e.1).2 default) e.2 (counts.perEntity.getD (ofLex e.1).1 0)
          (counts.perEntity.getD (ofLex e.1).2 0)).insertionSort
            fun r r' => sortKey w r ≤ sortKey w r'

end Miner

/-! ## Counts -/

section Counting

variable {entities : List Entity}

theorem dedup_of_ascending : ∀ {l : List Nat}, l.Pairwise (· < ·) → dedup l = l
  | [], _ => rfl
  | [_], _ => rfl
  | a :: b :: l, sorted => by
      obtain ⟨first, later⟩ := List.pairwise_cons.mp sorted
      rw [dedup, if_neg (first b List.mem_cons_self).ne, dedup_of_ascending later]

theorem indices_ascending (entities : List Entity) (s : Nat × Nat) :
    ((entities.zipIdx.filter fun e => overlaps e.1 s).map Prod.snd).Pairwise (· < ·) := by
  refine List.Pairwise.sublist (List.filter_sublist.map _) ?_
  rw [List.zipIdx_map_snd]
  exact List.pairwise_lt_range'

theorem present_eq (entities : List Entity) (s : Nat × Nat) :
    present entities s = (entities.zipIdx.filter fun e => overlaps e.1 s).map Prod.snd := by
  have sorted := indices_ascending entities s
  unfold present
  rw [List.Pairwise.insertionSort_eq (sorted.imp le_of_lt), dedup_of_ascending sorted]

theorem present_ascending (entities : List Entity) (s : Nat × Nat) : (present entities s).Pairwise (· < ·) := by
  rw [present_eq]
  exact indices_ascending entities s

/-- An index is present if its entity overlaps the sentence. -/
theorem mem_present_iff {s : Nat × Nat} {i : Nat} :
    i ∈ present entities s ↔ ∃ e, entities[i]? = some e ∧ overlaps e s = true := by
  rw [present_eq, List.mem_map]
  constructor
  · rintro ⟨⟨e, j⟩, m, rfl⟩
    obtain ⟨inside, here⟩ := List.mem_filter.mp m
    exact ⟨e, List.mem_zipIdx_iff_getElem?.mp inside, here⟩
  · rintro ⟨e, inside, here⟩
    exact ⟨(e, i), List.mem_filter.mpr ⟨List.mem_zipIdx_iff_getElem?.mpr inside, here⟩, rfl⟩

theorem getElem?_foldl_modify (is : List Nat) (counts : List Nat) (j : Nat) :
    (is.foldl (fun counts i => counts.modify i (· + 1)) counts)[j]? =
      (counts[j]?).map (· + is.count j) := by
  induction is generalizing counts with
  | nil => simp
  | cons i is ih =>
      rw [List.foldl_cons, ih, List.getElem?_modify]
      cases counts[j]? with
      | none => rfl
      | some c =>
          show some ((if i = j then c + 1 else c) + is.count j) = some (c + (i :: is).count j)
          by_cases same : i = j
          · subst same
            rw [if_pos rfl, List.count_cons_self]
            congr 1
            omega
          · rw [if_neg same, List.count_cons_of_ne same]

/-- All sentences at once. -/
theorem countAll_eq (entities : List Entity) (sentences : List (Nat × Nat)) :
    countAll entities sentences =
      { perEntity := (sentences.flatMap (present entities)).foldl
          (fun counts i => counts.modify i (· + 1)) (List.replicate entities.length 0)
        perPair := tally OrdMap.empty
          (sentences.flatMap fun s => (pairs (present entities s)).map pairKey) } := by
  have onwards : ∀ (ss : List (Nat × Nat)) (c : Counts), ss.foldl (countSentence entities) c =
      { perEntity := (ss.flatMap (present entities)).foldl
          (fun counts i => counts.modify i (· + 1)) c.perEntity
        perPair := tally c.perPair
          (ss.flatMap fun s => (pairs (present entities s)).map pairKey) } := by
    intro ss
    induction ss with
    | nil => intro c; rfl
    | cons s ss ih =>
        intro c
        rw [List.foldl_cons, ih, List.flatMap_cons, List.flatMap_cons, List.foldl_append,
          tally_append]
        unfold countSentence
        split
        · rename_i nothing
          rw [List.isEmpty_iff.mp nothing]
          rfl
        · rfl
  exact onwards sentences _

/-- How many sentences an entity overlaps, and how many two of them do. -/
def overlapped (sentences : List (Nat × Nat)) (e : Entity) : Nat :=
  sentences.countP fun s => overlaps e s

def overlappedBoth (sentences : List (Nat × Nat)) (e e' : Entity) : Nat :=
  sentences.countP fun s => overlaps e s && overlaps e' s

theorem perEntity_eq (sentences : List (Nat × Nat)) {i : Nat} {e : Entity}
    (at_i : entities[i]? = some e) :
    (countAll entities sentences).perEntity.getD i 0 = overlapped sentences e := by
  have less := (List.getElem?_eq_some_iff.mp at_i).1
  have zero : (List.replicate entities.length 0)[i]? = some 0 := by
    rw [List.getElem?_replicate, if_pos less]
  have meets : ∀ s, i ∈ present entities s ↔ overlaps e s = true := by
    intro s
    rw [mem_present_iff]
    constructor
    · rintro ⟨e', at_i', here⟩
      obtain rfl := Option.some.inj (at_i.symm.trans at_i')
      exact here
    · exact fun here => ⟨e, at_i, here⟩
  have once : ∀ s, (present entities s).Nodup := fun s => (present_ascending entities s).imp ne_of_lt
  have count := count_flatMap once meets sentences
  rw [countAll_eq, List.getD_eq_getElem?_getD, getElem?_foldl_modify, zero, count]
  exact Nat.zero_add _

/-- The keys of the pairs in a sentence are those pairs. -/
theorem map_pairKey (s : Nat × Nat) :
    (pairs (present entities s)).map pairKey = (pairs (present entities s)).map toLex := by
  refine List.map_congr_left fun q m => ?_
  have ascends : q.1 < q.2 := rel_of_mem_pairs (present_ascending entities s) m
  exact if_pos ascends

/-- The counted pairs ascend, and lie in the list. -/
theorem mem_pairs_present {s : Nat × Nat} {i j : Nat} :
    toLex (i, j) ∈ (pairs (present entities s)).map pairKey ↔
      i < j ∧ i ∈ present entities s ∧ j ∈ present entities s := by
  rw [map_pairKey, List.mem_map]
  constructor
  · rintro ⟨q, m, same⟩
    obtain rfl : q = (i, j) := toLex.injective same
    obtain ⟨inI, inJ, less⟩ := (mem_pairs_iff (present_ascending entities s)).mp m
    exact ⟨less, inI, inJ⟩
  · rintro ⟨less, inI, inJ⟩
    exact ⟨(i, j), (mem_pairs_iff (present_ascending entities s)).mpr ⟨inI, inJ, less⟩, rfl⟩

/-- The entry of two indices: how many sentences overlap both entities, if any does. -/
theorem perPair_eq (sentences : List (Nat × Nat)) {i j : Nat} {e e' : Entity} (less : i < j)
    (at_i : entities[i]? = some e) (at_j : entities[j]? = some e') :
    (countAll entities sentences).perPair.get? (toLex (i, j)) =
      if overlappedBoth sentences e e' = 0 then none else some (overlappedBoth sentences e e') := by
  have once : ∀ s, ((pairs (present entities s)).map pairKey).Nodup := by
    intro s
    rw [map_pairKey]
    exact (pairs_nodup ((present_ascending entities s).imp ne_of_lt)).map toLex.injective
  have together : ∀ s, toLex (i, j) ∈ (pairs (present entities s)).map pairKey ↔
      (overlaps e s && overlaps e' s) = true := by
    intro s
    rw [mem_pairs_present, mem_present_iff, mem_present_iff, Bool.and_eq_true]
    constructor
    · rintro ⟨-, ⟨f, at_i', here⟩, f', at_j', here'⟩
      obtain rfl := Option.some.inj (at_i.symm.trans at_i')
      obtain rfl := Option.some.inj (at_j.symm.trans at_j')
      exact ⟨here, here'⟩
    · rintro ⟨here, here'⟩
      exact ⟨less, ⟨e, at_i, here⟩, e', at_j, here'⟩
  rw [countAll_eq]
  exact get?_tally_flatMap once together sentences

/-- Only ascending pairs of indices of the list have entries. -/
theorem mem_range_of_perPair {sentences : List (Nat × Nat)} {k : Nat ×ₗ Nat} {c : Nat}
    (found : (countAll entities sentences).perPair.get? k = some c) :
    ofLex k ∈ pairs (List.range entities.length) := by
  rw [countAll_eq] at found
  change (tally OrdMap.empty _).get? _ = _ at found
  rw [get?_tally] at found
  split at found
  · rename_i inside
    obtain ⟨s, -, m⟩ := List.mem_flatMap.mp inside
    obtain ⟨less, inI, inJ⟩ := mem_pairs_present.mp (show toLex ((ofLex k).1, (ofLex k).2) ∈ _ from m)
    have bound : ∀ i ∈ present entities s, i ∈ List.range entities.length := by
      intro i present
      obtain ⟨e, at_i, -⟩ := mem_present_iff.mp present
      exact List.mem_range.mpr (List.getElem?_eq_some_iff.mp at_i).1
    exact (mem_pairs_iff List.pairwise_lt_range).mpr ⟨bound _ inI, bound _ inJ, less⟩
  · cases found

end Counting

/-! ## What is mined -/

section Mined

variable {W : Type} (lower : Char → List Char) (w : Weighing W) (threshold : W)
  (source : ExtractionSource)

/-- The relation of two entities over some sentences. -/
def relationOf (sentences : List (Nat × Nat)) (q : Entity × Entity) : Option (Relation W) :=
  relate lower w threshold source sentences.length q.1 q.2 (overlappedBoth sentences q.1 q.2)
    (overlapped sentences q.1) (overlapped sentences q.2)

/-- What is collected from the counts, before the sort. -/
def collected (entities : List Entity) (sentences : List (Nat × Nat)) : List (Relation W) :=
  (countAll entities sentences).perPair.entries.filterMap fun e =>
    relate lower w threshold source sentences.length (entities.getD (ofLex e.1).1 default)
      (entities.getD (ofLex e.1).2 default) e.2
      ((countAll entities sentences).perEntity.getD (ofLex e.1).1 0)
      ((countAll entities sentences).perEntity.getD (ofLex e.1).2 0)

/-- The entries of the counts, listed by the pairs of indices. -/
theorem entries_perm (entities : List Entity) (sentences : List (Nat × Nat)) :
    (countAll entities sentences).perPair.entries.Perm
      ((pairs (List.range entities.length)).filterMap fun q =>
        ((countAll entities sentences).perPair.get? (toLex q)).map fun c => (toLex q, c)) := by
  have once : ((countAll entities sentences).perPair.entries).Nodup :=
    List.Nodup.of_map Prod.fst (countAll entities sentences).perPair.ascending.nodup
  have once' : ((pairs (List.range entities.length)).filterMap fun q =>
      ((countAll entities sentences).perPair.get? (toLex q)).map fun c => (toLex q, c)).Nodup := by
    refine (pairs_nodup List.nodup_range).filterMap fun q r e inQ inR => ?_
    obtain ⟨c, -, rfl⟩ := Option.map_eq_some_iff.mp inQ
    obtain ⟨c', -, same⟩ := Option.map_eq_some_iff.mp inR
    exact toLex.injective (congrArg Prod.fst same).symm
  refine (List.perm_ext_iff_of_nodup once once').mpr fun e => ?_
  obtain ⟨k, c⟩ := e
  rw [List.mem_filterMap, ← OrdMap.get?_eq_some_iff]
  constructor
  · intro found
    exact ⟨ofLex k, mem_range_of_perPair found, by rw [toLex_ofLex, found]; rfl⟩
  · rintro ⟨q, -, found⟩
    obtain ⟨c', there, same⟩ := Option.map_eq_some_iff.mp found
    obtain ⟨rfl, rfl⟩ := Prod.mk.inj same
    exact there

/-- **The relations, up to order.**  One for each pair of entities of the list. -/
theorem collected_perm (entities : List Entity) (sentences : List (Nat × Nat)) :
    (collected lower w threshold source entities sentences).Perm
      ((pairs entities).filterMap (relationOf lower w threshold source sentences)) := by
  refine ((entries_perm entities sentences).filterMap _).trans (.of_eq ?_)
  have listed : pairs entities = (pairs (List.range entities.length)).map fun q =>
      (entities.getD q.1 default, entities.getD q.2 default) := by
    rw [← pairs_map (fun i => entities.getD i default)]
    refine congrArg pairs (List.ext_getElem (by simp) fun i inside _ => ?_)
    simp [inside]
  rw [listed, List.filterMap_map, List.filterMap_filterMap]
  refine List.filterMap_congr fun q m => ?_
  obtain ⟨i, j⟩ := q
  obtain ⟨inI, inJ, less⟩ := (mem_pairs_iff List.pairwise_lt_range).mp m
  have at_i : entities[i]? = some (entities.getD i default) := by
    simp [List.mem_range.mp inI]
  have at_j : entities[j]? = some (entities.getD j default) := by
    simp [List.mem_range.mp inJ]
  simp only [perPair_eq sentences less at_i at_j, Function.comp_apply, relationOf]
  split
  · rename_i nothing
    rw [nothing]
    simp [relate]
  · simp only [Option.map_some, Option.bind_some, ofLex_toLex, perEntity_eq sentences at_i,
      perEntity_eq sentences at_j]

/-! ## The set of mentions -/

/-- An entity that some sentence can overlap. -/
def placed (e : Entity) : Bool := decide (0 < e.span.2)

/-- No two entities that sentences can overlap have one mention, in lower case. -/
def Apart (entities : List Entity) : Prop :=
  ((entities.filter placed).map fun e => lc lower e.mention).Nodup

instance (entities : List Entity) : Decidable (Apart lower entities) :=
  inferInstanceAs (Decidable (List.Nodup _))

/-- A sentence contains a mention. -/
def contains (entities : List Entity) (mention : String) (s : Nat × Nat) : Bool :=
  entities.any fun e => decide (lc lower e.mention = lc lower mention) && overlaps e s

/-- The sentences that contain a mention, and those that contain two. -/
def mentionCount (entities : List Entity) (sentences : List (Nat × Nat)) (mention : String) : Nat :=
  sentences.countP (contains lower entities mention)

def jointCount (entities : List Entity) (sentences : List (Nat × Nat)) (m m' : String) : Nat :=
  sentences.countP fun s => contains lower entities m s && contains lower entities m' s

/-- Two relations of the same mentions, either way round. -/
def SamePair (r r' : Relation W) : Prop :=
  (lc lower r.src = lc lower r'.src ∧ lc lower r.dst = lc lower r'.dst) ∨
    (lc lower r.src = lc lower r'.dst ∧ lc lower r.dst = lc lower r'.src)

/-- What is mined is a function of the set of mentions. -/
structure Mined (split : String → List (Nat × Nat)) (text : String) (entities : List Entity) :
    Prop where
  once : (mineRelations lower w threshold source split text entities).Pairwise fun r r' =>
    ¬ SamePair lower r r'
  apart : ∀ r ∈ mineRelations lower w threshold source split text entities,
    lc lower r.src ≠ lc lower r.dst
  order : ∀ entities', entities.Perm entities' →
    mineRelations lower w threshold source split text entities' =
      mineRelations lower w threshold source split text entities
  weight : ∀ r ∈ mineRelations lower w threshold source split text entities,
    r.weight = w.ln ((jointCount lower entities (sentencesOf split text) r.src r.dst *
      (sentencesOf split text).length : ℚ) /
        (mentionCount lower entities (sentencesOf split text) r.src *
          mentionCount lower entities (sentencesOf split text) r.dst))

section Relations

variable {lower w threshold source} {sentences : List (Nat × Nat)} {q : Entity × Entity}
  {r : Relation W} {entities : List Entity}

theorem placed_of_overlaps {e : Entity} {s : Nat × Nat} (here : overlaps e s = true) :
    placed e = true := by
  have bounds := Bool.and_eq_true_iff.mp here
  exact decide_eq_true (Nat.zero_lt_of_lt (of_decide_eq_true bounds.2))

/-- A relation has the mentions of its entities, which share a sentence, and their weight. -/
theorem relationOf_cases (found : relationOf lower w threshold source sentences q = some r) :
    ((r.src = q.1.mention ∧ r.dst = q.2.mention) ∨
        (r.src = q.2.mention ∧ r.dst = q.1.mention)) ∧
      (∃ s ∈ sentences, overlaps q.1 s = true ∧ overlaps q.2 s = true) ∧ r.source = source ∧
      r.weight = w.ln ((overlappedBoth sentences q.1 q.2 * sentences.length : ℚ) /
        (overlapped sentences q.1 * overlapped sentences q.2)) := by
  unfold relationOf relate at found
  split at found
  · cases found
  · rename_i counted
    obtain ⟨both, one, other⟩ := not_or.mp counted |>.imp_right not_or.mp
    have positive := List.countP_pos_iff.mp (Nat.pos_of_ne_zero both)
    obtain ⟨s, inside, overlap⟩ := positive
    have some_sentence : (sentences.length : ℚ) ≠ 0 := by
      exact_mod_cast (List.length_pos_of_mem inside).ne'
    have one' : (overlapped sentences q.1 : ℚ) ≠ 0 := by exact_mod_cast one
    have other' : (overlapped sentences q.2 : ℚ) ≠ 0 := by exact_mod_cast other
    have ratio : (overlappedBoth sentences q.1 q.2 / sentences.length : ℚ) /
        (overlapped sentences q.1 / sentences.length *
          (overlapped sentences q.2 / sentences.length)) =
        (overlappedBoth sentences q.1 q.2 * sentences.length) /
          (overlapped sentences q.1 * overlapped sentences q.2) := by
      field_simp
    refine ⟨?_, ⟨s, inside, Bool.and_eq_true_iff.mp overlap⟩, ?_⟩
    all_goals
      simp only [ratio] at found
      split at found
      · cases found
      · split at found <;> cases found <;> simp

/-- Both entities of a relation are placed. -/
theorem relationOf_placed (found : relationOf lower w threshold source sentences q = some r) :
    placed q.1 = true ∧ placed q.2 = true := by
  obtain ⟨-, ⟨s, -, one, other⟩, -⟩ := relationOf_cases found
  exact ⟨placed_of_overlaps one, placed_of_overlaps other⟩

/-- Entities that are not placed have no relation. -/
theorem filterMap_placed (entities : List Entity) :
    (pairs (entities.filter placed)).filterMap
        (relationOf lower w threshold source sentences) =
      (pairs entities).filterMap (relationOf lower w threshold source sentences) := by
  rw [pairs_filter, List.filterMap_filter]
  refine List.filterMap_congr fun q _ => ?_
  split
  · rfl
  · rename_i unplaced
    cases found : relationOf lower w threshold source sentences q with
    | none => rfl
    | some r =>
        have both := relationOf_placed found
        exact absurd (Bool.and_eq_true_iff.mpr both) unplaced

theorem overlappedBoth_comm (sentences : List (Nat × Nat)) (e e' : Entity) :
    overlappedBoth sentences e e' = overlappedBoth sentences e' e :=
  List.countP_congr fun s _ => by rw [Bool.and_comm]

/-- The relation of two mentions is the same either way round. -/
theorem relationOf_comm {e e' : Entity} (apart : lc lower e.mention ≠ lc lower e'.mention) :
    relationOf lower w threshold source sentences (e, e') =
      relationOf lower w threshold source sentences (e', e) := by
  have swapped : (overlappedBoth sentences e e' = 0 ∨ overlapped sentences e = 0 ∨
      overlapped sentences e' = 0) ↔ (overlappedBoth sentences e' e = 0 ∨
        overlapped sentences e' = 0 ∨ overlapped sentences e = 0) := by
    rw [overlappedBoth_comm sentences e e', or_comm (a := overlapped sentences e = 0)]
  unfold relationOf relate
  simp only
  by_cases uncounted : overlappedBoth sentences e e' = 0 ∨ overlapped sentences e = 0 ∨
      overlapped sentences e' = 0
  · rw [if_pos uncounted, if_pos (swapped.mp uncounted)]
  · rw [if_neg uncounted, if_neg (mt swapped.mpr uncounted), overlappedBoth_comm sentences e e',
      mul_comm (overlapped sentences e / sentences.length : ℚ)]
    split
    · rfl
    · rcases lt_or_gt_of_ne apart with less | more
      · rw [if_pos less.le, if_neg (not_le.mpr less)]
      · rw [if_neg (not_le.mpr more), if_pos more.le]

variable (lower w threshold source) in
/-- What is mined is what the pairs of placed entities give, sorted. -/
theorem mineRelations_perm (split : String → List (Nat × Nat)) {text : String}
    (entities : List Entity) (some_text : text ≠ "") :
    (mineRelations lower w threshold source split text entities).Perm
      ((pairs (entities.filter placed)).filterMap
        (relationOf lower w threshold source (sentencesOf split text))) := by
  rw [filterMap_placed]
  unfold mineRelations
  split
  · rename_i short
    have few := short.resolve_right some_text
    match entities, few with
    | [], _ => exact .refl _
    | [_], _ => exact .refl _
  · dsimp only
    split
    · rename_i nothing
      rw [nothing]
      refine .of_eq (Eq.symm (List.filterMap_eq_nil_iff.mpr fun q _ => ?_))
      show relate lower w threshold source 0 q.1 q.2 0 0 0 = none
      exact if_pos (.inl rfl)
    · exact (List.perm_insertionSort _ _).trans
        (collected_perm lower w threshold source entities (sentencesOf split text))

theorem sortKey_injective {r r' : Relation W} (same : sortKey w r = sortKey w r')
    (sources : r.source = r'.source) : r = r' := by
  obtain ⟨src, dst, weight, source⟩ := r
  obtain ⟨src', dst', weight', source'⟩ := r'
  have first := congrArg (fun k => (ofLex k).1) same
  have second := congrArg (fun k => (ofLex (ofLex k).2).1) same
  have third := w.toBits_injective (congrArg (fun k => (ofLex (ofLex k).2).2) same)
  cases first
  cases second
  cases third
  cases sources
  rfl

theorem mineRelations_sorted (split : String → List (Nat × Nat)) (text : String)
    (entities : List Entity) : (mineRelations lower w threshold source split text
      entities).Pairwise fun r r' => sortKey w r ≤ sortKey w r' := by
  have total : Std.Total fun r r' : Relation W => sortKey w r ≤ sortKey w r' :=
    ⟨fun _ _ => le_total _ _⟩
  have trans : IsTrans (Relation W) fun r r' => sortKey w r ≤ sortKey w r' :=
    ⟨fun _ _ _ => le_trans⟩
  unfold mineRelations
  split
  · exact .nil
  · dsimp only
    split
    · exact .nil
    · exact List.pairwise_insertionSort (fun r r' => sortKey w r ≤ sortKey w r') _

/-- In how many sentences a mention of a placed entity lies: in those that the entity overlaps. -/
theorem contains_iff (separate : Apart lower entities) {e : Entity} (m : e ∈ entities)
    (isPlaced : placed e = true) (s : Nat × Nat) :
    contains lower entities e.mention s = overlaps e s := by
  rw [Bool.eq_iff_iff, contains, List.any_eq_true]
  constructor
  · rintro ⟨e', m', both⟩
    obtain ⟨mention, here⟩ := Bool.and_eq_true_iff.mp both
    have same : e' = e := List.inj_on_of_nodup_map separate
      (List.mem_filter.mpr ⟨m', placed_of_overlaps here⟩) (List.mem_filter.mpr ⟨m, isPlaced⟩)
      (of_decide_eq_true mention)
    rwa [← same]
  · intro here
    exact ⟨e, m, Bool.and_eq_true_iff.mpr ⟨decide_eq_true rfl, here⟩⟩

/-- **Distinct mentions.**  Over entities of distinct mentions the miner is a function of the set of
mentions. -/
theorem mined_of_apart (separate : Apart lower entities) (split : String → List (Nat × Nat))
    (text : String) : Mined lower w threshold source split text entities := by
  by_cases some_text : text = ""
  · have nothing : ∀ es, mineRelations lower w threshold source split text es = [] := fun es =>
      if_pos (.inr some_text)
    constructor
    · rw [nothing]
      exact .nil
    · rw [nothing]
      exact nofun
    · intro entities' _
      rw [nothing, nothing]
    · rw [nothing]
      exact nofun
  have perm := mineRelations_perm lower w threshold source split entities some_text
  have from_pair : ∀ r ∈ mineRelations lower w threshold source split text entities,
      ∃ q ∈ pairs (entities.filter placed),
        relationOf lower w threshold source (sentencesOf split text) q = some r := by
    intro r m
    exact List.mem_filterMap.mp (perm.subset m)
  have differ : ∀ q ∈ pairs (entities.filter placed),
      lc lower q.1.mention ≠ lc lower q.2.mention := fun q m =>
    rel_of_mem_pairs (List.pairwise_map.mp separate) m
  refine ⟨?_, fun r m => ?_, fun entities' same => ?_, fun r m => ?_⟩
  · have symm : ∀ {r r' : Relation W}, ¬ SamePair lower r r' → ¬ SamePair lower r' r := by
      intro r r' other same
      refine other (same.imp (fun h => ⟨h.1.symm, h.2.symm⟩) fun h => ⟨h.2.symm, h.1.symm⟩)
    refine (perm.pairwise_iff symm).mpr ((pairwise_pairs _ separate).filterMap _ ?_)
    intro q q' other r found r' found' same
    obtain ⟨mentions, -⟩ := relationOf_cases found
    obtain ⟨mentions', -⟩ := relationOf_cases found'
    unfold SamePair at same
    rcases mentions with ⟨src, dst⟩ | ⟨src, dst⟩ <;>
      rcases mentions' with ⟨src', dst'⟩ | ⟨src', dst'⟩ <;>
      rw [src, dst, src', dst'] at same
    · exact other same
    · exact other same.symm
    · exact other (same.symm.imp (fun h => ⟨h.2, h.1⟩) fun h => ⟨h.2, h.1⟩)
    · exact other (same.imp (fun h => ⟨h.2, h.1⟩) fun h => ⟨h.2, h.1⟩)
  · obtain ⟨q, inPairs, found⟩ := from_pair r m
    obtain ⟨⟨src, dst⟩ | ⟨src, dst⟩, -⟩ := relationOf_cases found
    · rw [src, dst]
      exact differ q inPairs
    · rw [src, dst]
      exact (differ q inPairs).symm
  · have perm' := mineRelations_perm lower w threshold source split entities' some_text
    have pairwise : ((pairs (entities.filter placed)).filterMap
        (relationOf lower w threshold source (sentencesOf split text))).Perm
          ((pairs (entities'.filter placed)).filterMap
            (relationOf lower w threshold source (sentencesOf split text))) := by
      refine filterMap_pairs_perm (same.filter placed) fun e inE e' inE' => ?_
      by_cases mention : lc lower e.mention = lc lower e'.mention
      · obtain rfl : e = e' := List.inj_on_of_nodup_map separate inE inE' mention
        rfl
      · exact relationOf_comm mention
    have all := perm'.trans (pairwise.symm.trans perm.symm)
    refine all.eq_of_pairwise (fun r r' m m' le ge => ?_)
      (mineRelations_sorted split text entities') (mineRelations_sorted split text entities)
    have sources : ∀ r ∈ mineRelations lower w threshold source split text entities,
        r.source = source := by
      intro r m
      obtain ⟨q, -, found⟩ := from_pair r m
      exact (relationOf_cases found).2.2.1
    exact sortKey_injective (le_antisymm le ge)
      ((sources r (all.subset m)).trans (sources r' m').symm)
  · obtain ⟨q, inPairs, found⟩ := from_pair r m
    obtain ⟨mentions, -, -, weight⟩ := relationOf_cases found
    obtain ⟨inOne, inOther⟩ := mem_of_mem_pairs inPairs
    obtain ⟨one, onePlaced⟩ := List.mem_filter.mp inOne
    obtain ⟨other, otherPlaced⟩ := List.mem_filter.mp inOther
    have single : ∀ e ∈ entities, placed e = true →
        mentionCount lower entities (sentencesOf split text) e.mention =
          overlapped (sentencesOf split text) e := fun e inside isPlaced =>
      List.countP_congr fun s _ => by rw [contains_iff separate inside isPlaced]
    have joint : ∀ e ∈ entities, placed e = true → ∀ e' ∈ entities, placed e' = true →
        jointCount lower entities (sentencesOf split text) e.mention e'.mention =
          overlappedBoth (sentencesOf split text) e e' := fun e inside isPlaced e' inside' isPlaced' =>
      List.countP_congr fun s _ => by
        rw [contains_iff separate inside isPlaced, contains_iff separate inside' isPlaced']
    rcases mentions with ⟨src, dst⟩ | ⟨src, dst⟩
    · rw [weight, src, dst, single _ one onePlaced, single _ other otherPlaced,
        joint _ one onePlaced _ other otherPlaced]
    · rw [weight, src, dst, single _ one onePlaced, single _ other otherPlaced,
        joint _ other otherPlaced _ one onePlaced, overlappedBoth_comm, mul_comm (overlapped _ q.1 : ℚ)]

variable (lower source) in
/-- Two entities in the one sentence there is are related, if its weight is above the threshold. -/
theorem relationOf_one {e e' : Entity} {s : Nat × Nat} (one : overlaps e s = true)
    (other : overlaps e' s = true) (finite : w.isFinite (w.ln 1) = true)
    (above : w.le (w.ln 1) threshold = false) :
    ∃ r, relationOf lower w threshold source [s] (e, e') = some r := by
  have both : overlappedBoth [s] e e' = 1 := by simp [overlappedBoth, one, other]
  have first : overlapped [s] e = 1 := by simp [overlapped, one]
  have second : overlapped [s] e' = 1 := by simp [overlapped, other]
  unfold relationOf relate
  simp only [both, first, second, List.length_singleton, Nat.cast_one, div_one, mul_one, finite,
    above, Nat.one_ne_zero, or_self, if_false, Bool.not_true, Bool.or_false, Bool.false_eq_true]
  split
  · exact ⟨_, rfl⟩
  · exact ⟨_, rfl⟩

end Relations

end Mined

/-- Bit patterns of finite numbers, whose logarithms are known at 1 and 3. -/
def Weighing.bits : Weighing Nat where
  ln q := if q = 3 then 0x3F8C9F54 else 0
  isFinite b := decide (b % 2 ^ 31 < 0x7F800000)
  le a b :=
    let value := fun b : Nat => if b < 2 ^ 31 then (b : Int) else 2 ^ 31 - b
    decide (value a ≤ value b)
  toBits b := b
  toBits_injective _ _ same := same

def lowerAscii (c : Char) : List Char := [c.toLower]

end Mnem.Extract
