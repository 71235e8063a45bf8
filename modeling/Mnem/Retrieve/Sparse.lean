/-
# Retrieve.Sparse — the inverted index of sparse vectors

A sparse vector lists tokens with weights.  The index keeps for each token the
nodes whose vectors have it, and a search adds up, token by token, what the nodes
share with the query.  In exact arithmetic the sums are the dot products of the
vectors with the query, which a merge of the two ascending lists computes, and
the search returns the first nodes of the ranking by them (`search_brute_force`).
-/
import Mnem.Retrieve.Exact

namespace Mnem.Retrieve

open Theory Prolly Repo Index

set_option autoImplicit false
set_option linter.unusedSectionVars false

/-- Tokens of a vocabulary with their weights. -/
structure SparseEmbed (F : Type) where
  indices : List Nat
  values : List F
  vocabId : String
  deriving DecidableEq

namespace SparseEmbed

variable {F : Type}

/-- The tokens with their weights, as the loops of the index pair them up. -/
def entries (e : SparseEmbed F) : List (Nat × F) := e.indices.zip e.values

/-- As many weights as tokens, and the tokens strictly ascending. -/
structure Valid (e : SparseEmbed F) : Prop where
  aligned : e.indices.length = e.values.length
  ascending : e.indices.Pairwise (· < ·)

theorem Valid.map_fst {e : SparseEmbed F} (valid : e.Valid) : e.entries.map Prod.fst = e.indices :=
  List.map_fst_zip valid.aligned.le

/-- The merge of two lists of tokens. -/
def dotFrom (a : Arith F) : List (Nat × F) → List (Nat × F) → F → F
  | x :: xs, y :: ys, sum =>
      if x.1 < y.1 then dotFrom a xs (y :: ys) sum
      else if y.1 < x.1 then dotFrom a (x :: xs) ys sum
      else dotFrom a xs ys (a.add sum (a.mul x.2 y.2))
  | _, _, sum => sum
termination_by xs ys => xs.length + ys.length

/-- The dot product, within one vocabulary. -/
def dot (a : Arith F) (e other : SparseEmbed F) : Option F :=
  if e.vocabId = other.vocabId then some (dotFrom a e.entries other.entries a.zero) else none

end SparseEmbed

/-- For each token, the nodes that have it, with its weight there. -/
structure SparseInvertedIndex (F : Type) where
  postings : OrdMap Nat (List (NodeId × F)) := .empty
  vocabId : String
  docCount : Nat := 0

namespace SparseInvertedIndex

variable {F : Type}

/-- Take in the vector of a node, unless it is of another vocabulary or empty. -/
def add (idx : SparseInvertedIndex F) (node : NodeId) (embed : SparseEmbed F) :
    SparseInvertedIndex F :=
  if embed.vocabId ≠ idx.vocabId then idx
  else if embed.indices.isEmpty then idx
  else
    { idx with
      postings := embed.entries.foldl (fun postings e =>
        postings.modify e.1 fun list => list.getD [] ++ [(node, e.2)]) idx.postings
      docCount := min (idx.docCount + 1) (2 ^ 32 - 1) }

/-- Sort every posting list by node. -/
def finalize (idx : SparseInvertedIndex F) : SparseInvertedIndex F :=
  { idx with postings := idx.postings.mapValues fun list => list.insertionSort fun p q => p.1 ≤ q.1 }

def search (a : Arith F) (idx : SparseInvertedIndex F) (query : SparseEmbed F) (k : Nat) :
    List (NodeId × F) :=
  if query.vocabId ≠ idx.vocabId then []
  else if query.indices.isEmpty || k == 0 then []
  else
    let scores := query.entries.foldl (fun scores e =>
      ((idx.postings.get? e.1).getD []).foldl (fun scores p =>
        a.addTo scores p.1 (a.mul e.2 p.2)) scores) .empty
    (a.sortRanked scores.entries).take k

/-- The index of some vectors, ready to be searched. -/
def build (vocabId : String) (docs : List (NodeId × SparseEmbed F)) : SparseInvertedIndex F :=
  (docs.foldl (fun (idx : SparseInvertedIndex F) d => idx.add d.1 d.2) { vocabId }).finalize

end SparseInvertedIndex

/-! ## What the postings hold -/

section Postings

variable {F : Type}

/-- What a vector posts under a token. -/
def posted (i : Nat) (node : NodeId) (e : SparseEmbed F) : List (NodeId × F) :=
  (e.entries.filter fun x => x.1 == i).map fun x => (node, x.2)

/-- The postings hold, under each token, what the vectors post there, in some order. -/
def Posts (docs : List (NodeId × SparseEmbed F)) (postings : OrdMap Nat (List (NodeId × F))) : Prop :=
  ∀ i, List.Perm ((postings.get? i).getD []) (docs.flatMap fun d => posted i d.1 d.2)

theorem get?_foldl_modify (node : NodeId) (es : List (Nat × F))
    (postings : OrdMap Nat (List (NodeId × F))) (i : Nat) :
    ((es.foldl (fun postings e =>
        postings.modify e.1 fun list => list.getD [] ++ [(node, e.2)]) postings).get? i).getD [] =
      (postings.get? i).getD [] ++ (es.filter fun x => x.1 == i).map fun x => (node, x.2) := by
  induction es generalizing postings with
  | nil => simp
  | cons e es ih =>
      rw [List.foldl_cons, ih, OrdMap.get?_modify]
      by_cases same : e.1 = i
      · subst same
        rw [if_pos rfl, List.filter_cons_of_pos (by simp)]
        simp
      · rw [if_neg same, List.filter_cons_of_neg (by simpa using same)]

variable {idx : SparseInvertedIndex F} {docs : List (NodeId × SparseEmbed F)}

theorem Posts.add (posts : Posts docs idx.postings) (node : NodeId) {e : SparseEmbed F}
    (vocab : e.vocabId = idx.vocabId) : Posts (docs ++ [(node, e)]) (idx.add node e).postings := by
  intro i
  rw [List.flatMap_append, List.flatMap_singleton]
  unfold SparseInvertedIndex.add
  rw [if_neg (not_not.mpr vocab)]
  split
  · next empty =>
      have nothing : posted i node e = [] := by
        rw [posted, SparseEmbed.entries, List.isEmpty_iff.mp empty]
        rfl
      rw [nothing, List.append_nil]
      exact posts i
  · dsimp only
    rw [get?_foldl_modify]
    exact (posts i).append_right _

theorem vocabId_add (node : NodeId) (e : SparseEmbed F) : (idx.add node e).vocabId = idx.vocabId := by
  unfold SparseInvertedIndex.add
  split
  · rfl
  · split <;> rfl

theorem Posts.foldl (more : List (NodeId × SparseEmbed F)) (posts : Posts docs idx.postings)
    (vocab : ∀ d ∈ more, d.2.vocabId = idx.vocabId) :
    Posts (docs ++ more) (more.foldl (fun (idx : SparseInvertedIndex F) d => idx.add d.1 d.2)
      idx).postings := by
  induction more generalizing docs idx with
  | nil => simpa using posts
  | cons d more ih =>
      have one := posts.add d.1 (vocab d List.mem_cons_self)
      have rest := ih one fun d' m => (vocab d' (List.mem_cons_of_mem _ m)).trans
        (vocabId_add d.1 d.2).symm
      rwa [List.append_assoc] at rest

theorem vocabId_foldl (more : List (NodeId × SparseEmbed F)) :
    (more.foldl (fun (idx : SparseInvertedIndex F) d => idx.add d.1 d.2) idx).vocabId =
      idx.vocabId := by
  induction more generalizing idx with
  | nil => rfl
  | cons d more ih => rw [List.foldl_cons, ih, vocabId_add]

theorem Posts.build {vocabId : String} (vocab : ∀ d ∈ docs, d.2.vocabId = vocabId) :
    Posts docs (SparseInvertedIndex.build vocabId docs).postings := by
  have start : Posts [] ({ vocabId } : SparseInvertedIndex F).postings := fun i => List.Perm.nil
  have all := start.foldl docs vocab
  rw [List.nil_append] at all
  intro i
  refine List.Perm.trans ?_ (all i)
  unfold SparseInvertedIndex.build SparseInvertedIndex.finalize
  dsimp only
  rw [OrdMap.get?_mapValues]
  cases (docs.foldl (fun (idx : SparseInvertedIndex F) d => idx.add d.1 d.2)
      { vocabId }).postings.get? i with
  | none => exact List.Perm.nil
  | some list => exact List.perm_insertionSort _ _

end Postings

/-! ## The merge and the sums -/

section Dot

variable {K : Type} [Field K] [LinearOrder K]

/-- The products of the weights of every token that two vectors share. -/
def shared (xs ys : List (Nat × K)) : K :=
  (xs.map fun x => ((ys.filter fun y => y.1 == x.1).map fun y => x.2 * y.2).sum).sum

theorem shared_cons (x : Nat × K) (xs ys : List (Nat × K)) :
    shared (x :: xs) ys = ((ys.filter fun y => y.1 == x.1).map fun y => x.2 * y.2).sum + shared xs ys := by
  rw [shared, List.map_cons, List.sum_cons]
  rfl

/-- A token that the first vector does not have adds nothing. -/
theorem shared_skip {xs : List (Nat × K)} {y : Nat × K} (ys : List (Nat × K))
    (apart : ∀ x ∈ xs, y.1 ≠ x.1) : shared xs (y :: ys) = shared xs ys := by
  unfold shared
  refine congrArg List.sum (List.map_congr_left fun x m => ?_)
  rw [List.filter_cons_of_neg (by simpa using apart x m)]

def lifted (xs : List (Nat × K)) : List (Nat × Extended K) := xs.map fun x => (x.1, .finite x.2)

abbrev Ascends (xs : List (Nat × K)) : Prop := xs.Pairwise fun x y => x.1 < y.1

/-- No token after the first is like it. -/
theorem filter_head {x : Nat × K} {xs : List (Nat × K)} {i : Nat} (ascends : Ascends (x :: xs))
    (least : i ≤ x.1) : (xs.filter fun y => y.1 == i) = [] := by
  rw [List.filter_eq_nil_iff]
  intro y m same
  have above := (List.pairwise_cons.mp ascends).1 y m
  rw [beq_iff_eq] at same
  omega

/-- **The merge of two ascending vectors is their dot product.** -/
theorem dotFrom_eq {xs ys : List (Nat × K)} (left : Ascends xs) (right : Ascends ys) (sum : K) :
    SparseEmbed.dotFrom (Arith.exact K) (lifted xs) (lifted ys) (.finite sum) =
      .finite (sum + shared xs ys) := by
  induction xs generalizing ys sum with
  | nil => simp [lifted, SparseEmbed.dotFrom, shared]
  | cons x xs ihx =>
      obtain ⟨aboveX, leftTail⟩ := List.pairwise_cons.mp left
      induction ys generalizing sum with
      | nil => simp [lifted, SparseEmbed.dotFrom, shared]
      | cons y ys ihy =>
          obtain ⟨aboveY, rightTail⟩ := List.pairwise_cons.mp right
          show SparseEmbed.dotFrom (Arith.exact K) ((x.1, .finite x.2) :: lifted xs)
            ((y.1, .finite y.2) :: lifted ys) (.finite sum) = _
          rw [SparseEmbed.dotFrom]
          dsimp only
          by_cases below : x.1 < y.1
          · have alone : ((y :: ys).filter fun z => z.1 == x.1) = [] := by
              rw [List.filter_cons_of_neg (by simpa using below.ne'), filter_head right below.le]
            rw [if_pos below, shared_cons, alone, List.map_nil, List.sum_nil, zero_add]
            exact ihx leftTail right sum
          · rw [if_neg below]
            by_cases above : y.1 < x.1
            · rw [if_pos above, shared_skip ys]
              · exact ihy rightTail sum
              · intro z m
                rcases List.mem_cons.mp m with rfl | later
                · exact above.ne
                · exact (above.trans (aboveX z later)).ne
            · have same : y.1 = x.1 := by omega
              have matched : ((y :: ys).filter fun z => z.1 == x.1) = [y] := by
                rw [List.filter_cons_of_pos (by simpa using same), filter_head right same.ge]
              rw [if_neg above, exact_mul, exact_add, shared_cons, matched, List.map_singleton,
                List.sum_singleton, shared_skip ys, ← add_assoc]
              · exact ihx leftTail rightTail _
              · intro z m
                exact (same ▸ aboveX z m).ne

/-- A vector whose weights are scores. -/
def SparseEmbed.exact (e : SparseEmbed K) : SparseEmbed (Extended K) :=
  { e with values := e.values.map .finite }

theorem entries_exact (e : SparseEmbed K) : e.exact.entries = lifted e.entries := by
  unfold SparseEmbed.entries SparseEmbed.exact lifted
  dsimp only
  rw [List.zip_map_right]
  rfl

theorem SparseEmbed.Valid.ascends {e : SparseEmbed K} (valid : e.Valid) : Ascends e.entries := by
  have keys := valid.ascending
  rw [← valid.map_fst, List.pairwise_map] at keys
  exact keys

theorem dot_exact {query e : SparseEmbed K} (valid : query.Valid) (valid' : e.Valid)
    (same : query.vocabId = e.vocabId) :
    query.exact.dot (Arith.exact K) e.exact = some (.finite (shared query.entries e.entries)) := by
  unfold SparseEmbed.dot
  have vocab : query.exact.vocabId = e.exact.vocabId := same
  rw [if_pos vocab, entries_exact, entries_exact, exact_zero, dotFrom_eq valid.ascends valid'.ascends,
    zero_add]

end Dot

/-! ## The search -/

section Search

variable {K : Type} [Field K] [LinearOrder K]

/-- The vectors of an index, as scores. -/
def exactDocs (docs : List (NodeId × SparseEmbed K)) : List (NodeId × SparseEmbed (Extended K)) :=
  docs.map fun d => (d.1, d.2.exact)

theorem posted_exact (i : Nat) (node : NodeId) (e : SparseEmbed K) :
    posted i node e.exact = (posted i node e).map fun p => (p.1, Extended.finite p.2) := by
  unfold posted
  rw [entries_exact, lifted, List.filter_map, List.map_map, List.map_map]
  rfl

theorem finite_injective :
    Function.Injective fun p : NodeId × K => (p.1, Extended.finite p.2) := by
  rintro ⟨n, x⟩ ⟨m, y⟩ same
  cases same
  rfl

/-- The posting list of a token holds numbers, those that the vectors post. -/
theorem exists_list (vocabId : String) (docs : List (NodeId × SparseEmbed K))
    (vocab : ∀ d ∈ docs, d.2.vocabId = vocabId) (i : Nat) :
    ∃ list : List (NodeId × K),
      (((SparseInvertedIndex.build vocabId (exactDocs docs)).postings.get? i).getD [] =
        list.map fun p => (p.1, Extended.finite p.2)) ∧
      List.Perm list (docs.flatMap fun d => posted i d.1 d.2) := by
  have vocab' : ∀ d ∈ exactDocs docs, d.2.vocabId = vocabId := by
    intro d m
    obtain ⟨d', m', rfl⟩ := List.mem_map.mp m
    exact vocab d' m'
  have posts := Posts.build vocab' i
  have numbers : (exactDocs docs).flatMap (fun d => posted i d.1 d.2) =
      (docs.flatMap fun d => posted i d.1 d.2).map fun p => (p.1, Extended.finite p.2) := by
    rw [exactDocs, List.flatMap_map, List.map_flatMap]
    exact List.flatMap_congr fun d _ => posted_exact i d.1 d.2
  rw [numbers] at posts
  obtain ⟨list, same⟩ := exists_finite _ fun e m => by
    obtain ⟨p, -, rfl⟩ := List.mem_map.mp (posts.mem_iff.mp m)
    exact ⟨p.2, rfl⟩
  refine ⟨list, same, ?_⟩
  rw [same] at posts
  exact (List.map_perm_map_iff finite_injective).mp posts

/-- What one vector adds, to its own node alone. -/
theorem sumAt_posted (i : Nat) (node id : NodeId) (e : SparseEmbed K) (q : K) :
    sumAt ((posted i node e).map fun p => (p.1, q * p.2)) id =
      if node = id then ((e.entries.filter fun y => y.1 == i).map fun y => q * y.2).sum else 0 := by
  unfold posted
  rw [List.map_map]
  generalize e.entries.filter (fun y => y.1 == i) = ys
  induction ys with
  | nil => simp
  | cons y ys ih =>
      rw [List.map_cons, sumAt_cons, ih]
      by_cases own : node = id <;> simp [own]

theorem sum_ite_of_mem {β : Type} {docs : List (NodeId × β)} (distinct : (docs.map Prod.fst).Nodup)
    {id : NodeId} {e : β} (m : (id, e) ∈ docs) (f : β → K) :
    (docs.map fun d => if d.1 = id then f d.2 else 0).sum = f e := by
  induction docs with
  | nil => cases m
  | cons d docs ih =>
      rw [List.map_cons, List.nodup_cons] at distinct
      rw [List.map_cons, List.sum_cons]
      rcases List.mem_cons.mp m with rfl | later
      · have rest : (docs.map fun d => if d.1 = id then f d.2 else 0).sum = 0 := by
          refine List.sum_eq_zero fun x inside => ?_
          obtain ⟨d, m', rfl⟩ := List.mem_map.mp inside
          exact if_neg fun same => distinct.1 (List.mem_map.mpr ⟨d, m', same⟩)
        rw [if_pos rfl, rest, add_zero]
      · have apart : d.1 ≠ id := fun same =>
          distinct.1 (List.mem_map.mpr ⟨_, later, same.symm⟩)
        rw [if_neg apart, zero_add, ih distinct.2 later]

/-- What all vectors add to a node for one token of the query. -/
theorem sumAt_posting {docs : List (NodeId × SparseEmbed K)} (distinct : (docs.map Prod.fst).Nodup)
    {id : NodeId} {e : SparseEmbed K} (m : (id, e) ∈ docs) {i : Nat} {list : List (NodeId × K)}
    (perm : List.Perm list (docs.flatMap fun d => posted i d.1 d.2)) (q : K) :
    sumAt (list.map fun p => (p.1, q * p.2)) id =
      ((e.entries.filter fun y => y.1 == i).map fun y => q * y.2).sum := by
  rw [sumAt_perm (perm.map _), List.map_flatMap, sumAt_flatMap]
  simp only [sumAt_posted]
  exact sum_ite_of_mem distinct m fun e => ((e.entries.filter fun y => y.1 == i).map fun y => q * y.2).sum

theorem mem_posting {docs : List (NodeId × SparseEmbed K)} (valid : ∀ d ∈ docs, d.2.Valid) {id : NodeId}
    {i : Nat} {list : List (NodeId × K)}
    (perm : List.Perm list (docs.flatMap fun d => posted i d.1 d.2)) :
    id ∈ list.map Prod.fst ↔ ∃ e, (id, e) ∈ docs ∧ i ∈ e.indices := by
  rw [(perm.map _).mem_iff, List.map_flatMap, List.mem_flatMap]
  constructor
  · rintro ⟨⟨node, e⟩, m, inside⟩
    obtain ⟨p, inPosted, rfl⟩ := List.mem_map.mp inside
    obtain ⟨y, kept, rfl⟩ := List.mem_map.mp inPosted
    obtain ⟨inEntries, key⟩ := List.mem_filter.mp kept
    refine ⟨e, m, ?_⟩
    rw [← (valid _ m).map_fst, ← beq_iff_eq.mp key]
    exact List.mem_map_of_mem inEntries
  · rintro ⟨e, m, token⟩
    rw [← (valid _ m).map_fst] at token
    obtain ⟨y, inEntries, key⟩ := List.mem_map.mp token
    refine ⟨(id, e), m, List.mem_map.mpr ⟨(id, y.2), ?_, rfl⟩⟩
    exact List.mem_map.mpr ⟨y, List.mem_filter.mpr ⟨inEntries, beq_iff_eq.mpr key⟩, rfl⟩

/-- **A search of the index is a brute-force scoring.**  The index is that of vectors of its
vocabulary, of distinct nodes.  A query of the same vocabulary gets the first `k` of the ranking, by
the dot product with the query, of the nodes that have a token of it; one of another vocabulary gets
nothing. -/
theorem search_brute_force (K : Type) [Field K] [LinearOrder K] (vocabId : String)
    (docs : List (NodeId × SparseEmbed K)) (distinct : (docs.map Prod.fst).Nodup)
    (each : ∀ d ∈ docs, d.2.Valid ∧ d.2.vocabId = vocabId) (query : SparseEmbed K)
    (valid : query.Valid) (k : Nat) :
    (query.vocabId = vocabId → ∃ (ids : List NodeId) (score : NodeId → K),
      (∀ d ∈ docs, query.exact.dot (Arith.exact K) d.2.exact = some (.finite (score d.1))) ∧
      IsRanking score (fun id => ∃ e, (id, e) ∈ docs ∧ ∃ i ∈ query.indices, i ∈ e.indices) ids ∧
      (SparseInvertedIndex.build vocabId (exactDocs docs)).search (Arith.exact K) query.exact k =
        (ids.take k).map fun id => (id, .finite (score id))) ∧
    (query.vocabId ≠ vocabId →
      (SparseInvertedIndex.build vocabId (exactDocs docs)).search (Arith.exact K) query.exact k =
        []) := by
  have valid' : ∀ d ∈ docs, d.2.Valid := fun d m => (each d m).1
  have bound : (SparseInvertedIndex.build vocabId (exactDocs docs)).vocabId = vocabId :=
    vocabId_foldl _
  refine ⟨fun same => ?_, fun other => ?_⟩
  · choose lists inLists perms using exists_list vocabId docs fun d m => (each d m).2
    have tallied := tallied_all (K := K)
      (query.entries.flatMap fun x => (lists x.1).map fun p => (p.1, x.2 * p.2))
    obtain ⟨ids, sorted, ranking⟩ := ranking_of_tallied tallied
    have members : ∀ id, id ∈ (query.entries.flatMap fun x => (lists x.1).map fun p =>
        (p.1, x.2 * p.2)).map Prod.fst ↔
        ∃ e, (id, e) ∈ docs ∧ ∃ i ∈ query.indices, i ∈ e.indices := by
      intro id
      rw [List.map_flatMap, List.mem_flatMap, ← valid.map_fst]
      simp only [List.map_map, List.mem_map]
      constructor
      · rintro ⟨x, inQuery, p, inList, rfl⟩
        obtain ⟨e, m, token⟩ := (mem_posting valid' (perms x.1)).mp (List.mem_map_of_mem inList)
        exact ⟨e, m, x.1, ⟨x, inQuery, rfl⟩, token⟩
      · rintro ⟨e, m, i, ⟨x, inQuery, rfl⟩, token⟩
        obtain ⟨p, inList, own⟩ := List.mem_map.mp
          ((mem_posting valid' (perms x.1)).mpr ⟨e, m, token⟩)
        exact ⟨x, inQuery, p, inList, own⟩
    refine ⟨ids, sumAt _, fun d m => ?_, ranking.congr (fun _ => rfl) fun id => (members id).symm, ?_⟩
    · rw [dot_exact valid (valid' d m) (same.trans (each d m).2.symm), sumAt_flatMap]
      unfold shared
      exact congrArg some (congrArg Extended.finite (congrArg List.sum (List.map_congr_left fun x _ =>
        (sumAt_posting distinct m (perms x.1) x.2).symm)))
    · unfold SparseInvertedIndex.search
      have agree : ¬ query.exact.vocabId ≠
          (SparseInvertedIndex.build vocabId (exactDocs docs)).vocabId := by
        rw [bound]
        exact not_not.mpr same
      rw [if_neg agree]
      split
      · next idle =>
          rcases Bool.or_eq_true_iff.mp idle with empty | zero
          · have nothing : query.indices = [] := List.isEmpty_iff.mp empty
            have noIds : ids = [] := List.eq_nil_iff_forall_not_mem.mpr fun id m => by
              obtain ⟨e, -, i, inQuery, -⟩ := (members id).mp ((ranking.mem id).mp m)
              rw [nothing] at inQuery
              cases inQuery
            rw [noIds, List.take_nil, List.map_nil]
          · rw [beq_iff_eq.mp zero, List.take_zero, List.map_nil]
      · dsimp only
        rw [List.map_take, ← sorted, entries_exact, lifted]
        congr 3
        refine foldl_tally _ (fun x : Nat × K => (x.1, Extended.finite x.2)) _ query.entries
          (fun x _ totals => ?_) _
        dsimp only
        rw [inLists x.1, List.foldl_map, tally, List.foldl_map]
        rfl
  · unfold SparseInvertedIndex.search
    have differ : query.exact.vocabId ≠
        (SparseInvertedIndex.build vocabId (exactDocs docs)).vocabId := by
      rw [bound]
      exact other
    rw [if_pos differ]

end Search

/-! ### Two vectors -/

/-- Node 1 has tokens 10 and 20, and node 2 has token 20. -/
def twoVectors : List (NodeId × SparseEmbed ℚ) :=
  [(1, ⟨[10, 20], [1, 2], "v"⟩), (2, ⟨[20], [3], "v"⟩)]

theorem twoVectors_each : ∀ d ∈ twoVectors, d.2.Valid ∧ d.2.vocabId = "v" := by
  intro d m
  simp only [twoVectors, List.mem_cons, List.not_mem_nil, or_false] at m
  rcases m with rfl | rfl <;> exact ⟨⟨rfl, by decide⟩, rfl⟩

theorem search_brute_force_two : ∃ (ids : List NodeId) (score : NodeId → ℚ),
    (∀ d ∈ twoVectors, (SparseEmbed.exact ⟨[20], [1], "v"⟩).dot (Arith.exact ℚ) d.2.exact =
      some (.finite (score d.1))) ∧
    (SparseInvertedIndex.build "v" (exactDocs twoVectors)).search (Arith.exact ℚ)
      (SparseEmbed.exact ⟨[20], [1], "v"⟩) 1 = (ids.take 1).map fun id => (id, .finite (score id)) := by
  obtain ⟨ids, score, dots, -, found⟩ := (search_brute_force ℚ "v" twoVectors (by decide)
    twoVectors_each ⟨[20], [1], "v"⟩ ⟨rfl, by decide⟩ 1).1 rfl
  exact ⟨ids, score, dots, found⟩

/-- **A query of another vocabulary finds nothing, though it shares tokens, and one whose tokens are
out of order is not scored by the merge.** -/
theorem search_exceptions :
    (SparseInvertedIndex.build "v" (exactDocs twoVectors)).search (Arith.exact ℚ)
      (SparseEmbed.exact ⟨[20], [1], "w"⟩) 5 = [] ∧
    (SparseInvertedIndex.build "v" (exactDocs twoVectors)).search (Arith.exact ℚ)
      (SparseEmbed.exact ⟨[20, 10], [1, 1], "v"⟩) 5 = [(1, .finite 3), (2, .finite 3)] ∧
    (SparseEmbed.exact ⟨[20, 10], [1, 1], "v"⟩).dot (Arith.exact ℚ)
      (SparseEmbed.exact ⟨[10, 20], [1, 2], "v"⟩) = some (.finite 2) := by
  decide +kernel

end Mnem.Retrieve
