/-
# Index.Vector — exact search over the vector sidecar

`build_from_repo` walks the head nodes in key order, takes the vector that the
sidecar has for each under the model, and lays the normalised vectors in one
flat buffer.  The first of them fixes the dimension; those of other dimensions
are skipped.  A query of that dimension gets the first `k` of the ranking by
the dot product, and a query of another dimension is refused
(`search_buildFromRepo`).

The arithmetic is exact.  How the bytes of an element stand for a number, and
how a vector is normalised, are parameters.
-/
import Mnem.Repo.StagedVectors
import Mnem.Theory.Ranking
import Mnem.Theory.Rows
import Mathlib.Algebra.Field.Rat
import Mathlib.Algebra.Order.Ring.Rat

namespace Mnem.Index

open Theory Prolly Repo

set_option autoImplicit false
set_option linter.unusedSectionVars false

/-! ## Vectors -/

/-- Bytes per vector element. -/
def byteWidth : Dtype → Nat
  | .f16 => 2
  | .f32 => 4
  | .f64 => 8
  | .i8 => 1

/-- `Embedding::validate`. -/
def validate {Cid : Type} (embed : Embedding) : Except (Error Cid) Unit :=
  let expected := embed.dim.toNat * byteWidth embed.dtype
  if embed.vector.length = expected then .ok ()
  else .error (.embeddingSizeMismatch expected embed.vector.length)

/-- The bytes are as many as the elements take. -/
def Valid (embed : Embedding) : Prop :=
  embed.vector.length = embed.dim.toNat * byteWidth embed.dtype

instance : DecidablePred Valid := fun embed =>
  inferInstanceAs (Decidable (embed.vector.length = embed.dim.toNat * byteWidth embed.dtype))

/-- A normalisation keeps the number of elements. -/
structure Normalisation (K : Type) where
  run : List K → List K
  length_run : ∀ v, (run v).length = v.length

section Search

variable {K : Type} [Field K] [LinearOrder K]

def dot (a b : List K) : K := (a.zip b).foldl (fun acc p => acc + p.1 * p.2) 0

/-- A zero vector is returned unchanged. -/
def normalise (sqrt : K → K) (v : List K) : List K :=
  let norm := sqrt (dot v v)
  if 0 < norm then v.map fun x => x / norm else v

theorem length_normalise (sqrt : K → K) (v : List K) : (normalise sqrt v).length = v.length := by
  unfold normalise
  dsimp only
  split
  · exact List.length_map _
  · rfl

/-- The normalisation of the source, with some root function. -/
def l2 (sqrt : K → K) : Normalisation K := ⟨normalise sqrt, length_normalise sqrt⟩

/-- The numbers of the elements, unless the bytes are not as many as they take. -/
def decodeToF32 (number : Dtype → List UInt8 → K) (embed : Embedding) : Option (List K) :=
  let dim := embed.dim.toNat
  if embed.vector.length ≠ dim * byteWidth embed.dtype then none
  else some ((rows (byteWidth embed.dtype) dim embed.vector).map (number embed.dtype))

structure VectorHit (K : Type) where
  nodeId : NodeId
  score : K
  deriving DecidableEq

/-- Normalised vectors of one model and one dimension, row after row in one buffer. -/
structure BruteForceVectorIndex (K : Type) where
  model : String
  dim : UInt32
  ids : List NodeId := []
  data : List K := []

/-- The order of the hits: score descending, ties by id. -/
def HitLe (a b : VectorHit K) : Prop :=
  b.score < a.score ∨ (a.score = b.score ∧ a.nodeId ≤ b.nodeId)

instance : DecidableRel (HitLe : VectorHit K → VectorHit K → Prop) := fun a b =>
  inferInstanceAs (Decidable (b.score < a.score ∨ (a.score = b.score ∧ a.nodeId ≤ b.nodeId)))

namespace BruteForceVectorIndex

variable (norm : Normalisation K) (number : Dtype → List UInt8 → K)

/-- Insert a node's vector, and tell whether it was; other models and dimensions are skipped. -/
def tryInsert (idx : BruteForceVectorIndex K) (nodeId : NodeId) (embed : Embedding) :
    BruteForceVectorIndex K × Bool :=
  if embed.model ≠ idx.model then (idx, false)
  else if embed.dim ≠ idx.dim then (idx, false)
  else
    match decodeToF32 number embed with
    | none => (idx, false)
    | some v =>
        ({ idx with ids := idx.ids ++ [nodeId], data := idx.data ++ norm.run v }, true)

variable {Cid : Type} {H : Hashing Cid} [LinearOrder Cid]

/-- One node of the walk. -/
def walkNode (s : Store H) (r : ReadonlyRepo Cid) (model : String)
    (idx : Option (BruteForceVectorIndex K)) (entry : ProllyKey × Cid) :
    Except (Error Cid) (Option (BruteForceVectorIndex K)) := do
  let node ← s.decodeFromStore (Node Cid) entry.2
  match ← r.embeddingFor s entry.2 model with
  | none => return idx
  | some embed =>
      validate embed
      -- the first matching vector decides the dimension
      let existing := idx.getD { model, dim := embed.dim }
      return some (existing.tryInsert norm number node.id embed).1

def buildFromRepo (s : Store H) (r : ReadonlyRepo Cid) (model : String) :
    Except (Error Cid) (BruteForceVectorIndex K) :=
  match r.commit with
  | none => .error .uninitialized
  | some commit => do
      let es ← entries s commit.nodes
      let idx ← es.foldlM (walkNode norm number s r model) none
      return idx.getD { model, dim := 0 }

def search (idx : BruteForceVectorIndex K) (query : List K) (k : Nat) :
    Except (Error Cid) (List (VectorHit K)) :=
  if idx.dim = 0 && idx.ids.isEmpty then .ok []
  else if query.length ≠ idx.dim.toNat then .error (.vectorDimMismatch idx.dim query.length)
  else if k == 0 || idx.ids.isEmpty then .ok []
  else
    let qNorm := norm.run query
    let hits := idx.ids.zipIdx.map fun p =>
      (⟨p.1, dot qNorm (rowAt idx.dim.toNat idx.data p.2)⟩ : VectorHit K)
    .ok ((hits.insertionSort HitLe).take k)

/-! ## The rows of an index -/

/-- The buffer holds one row for each node. -/
structure HasRows (idx : BruteForceVectorIndex K) (rs : List (NodeId × List K)) : Prop where
  ids : idx.ids = rs.map Prod.fst
  data : idx.data = (rs.map Prod.snd).flatten
  length : ∀ p ∈ rs, p.2.length = idx.dim.toNat

variable {idx : BruteForceVectorIndex K} {rs : List (NodeId × List K)}

theorem hasRows_empty (model : String) (dim : UInt32) :
    HasRows ({ model, dim } : BruteForceVectorIndex K) [] :=
  ⟨rfl, rfl, fun _ m => nomatch m⟩

/-- The row that a vector becomes in an index of this model and dimension. -/
def rowOf (model : String) (dim : UInt32) (p : NodeId × Embedding) : Option (NodeId × List K) :=
  if p.2.model = model ∧ p.2.dim = dim then
    (decodeToF32 number p.2).map fun v => (p.1, norm.run v)
  else none

omit [LinearOrder K] in
theorem length_decodeToF32 {embed : Embedding} {v : List K}
    (decoded : decodeToF32 number embed = some v) : v.length = embed.dim.toNat := by
  unfold decodeToF32 at decoded
  dsimp only at decoded
  split at decoded
  · cases decoded
  · cases decoded
    simp

omit [LinearOrder K] in
/-- A vector of the right size decodes. -/
theorem exists_decodeToF32 {embed : Embedding} (valid : Valid embed) :
    ∃ v, decodeToF32 number embed = some v := by
  have whole : ¬ embed.vector.length ≠ embed.dim.toNat * byteWidth embed.dtype := not_not.mpr valid
  unfold decodeToF32
  dsimp only
  rw [if_neg whole]
  exact ⟨_, rfl⟩

/-- What an insertion does: at most one row more, and the model and the dimension stay. -/
theorem tryInsert_rows (rows : HasRows idx rs) (p : NodeId × Embedding) :
    HasRows (idx.tryInsert norm number p.1 p.2).1
        (rs ++ (rowOf norm number idx.model idx.dim p).toList) ∧
      (idx.tryInsert norm number p.1 p.2).1.model = idx.model ∧
      (idx.tryInsert norm number p.1 p.2).1.dim = idx.dim := by
  have skipped : HasRows idx (rs ++ []) ∧ idx.model = idx.model ∧ idx.dim = idx.dim := by
    rw [List.append_nil]
    exact ⟨rows, rfl, rfl⟩
  unfold tryInsert rowOf
  by_cases model : p.2.model = idx.model
  · rw [if_neg (not_not.mpr model)]
    by_cases dim : p.2.dim = idx.dim
    · rw [if_neg (not_not.mpr dim), if_pos ⟨model, dim⟩]
      cases decoded : decodeToF32 number p.2 with
      | none => exact skipped
      | some v =>
          have long : (norm.run v).length = idx.dim.toNat := by
            rw [norm.length_run, length_decodeToF32 number decoded, dim]
          refine ⟨⟨?_, ?_, ?_⟩, rfl, rfl⟩
          · simp [rows.ids]
          · simp [rows.data]
          · intro q m
            rcases List.mem_append.mp m with old | new
            · exact rows.length q old
            · rw [Option.map_some, Option.toList_some, List.mem_singleton] at new
              rw [new]
              exact long
    · rw [if_pos dim, if_neg fun both => dim both.2]
      exact skipped
  · rw [if_pos model, if_neg fun both => model both.1]
    exact skipped

/-- The rows after some insertions. -/
theorem foldl_tryInsert_rows (held : List (NodeId × Embedding)) (rows : HasRows idx rs) :
    ∃ idx' : BruteForceVectorIndex K,
      held.foldl (fun idx p => (idx.tryInsert norm number p.1 p.2).1) idx = idx' ∧
      HasRows idx' (rs ++ held.filterMap (rowOf norm number idx.model idx.dim)) ∧
      idx'.dim = idx.dim := by
  induction held generalizing idx rs with
  | nil => exact ⟨idx, rfl, by simpa using rows, rfl⟩
  | cons p held ih =>
      obtain ⟨one, model, dim⟩ := tryInsert_rows norm number rows p
      obtain ⟨idx', ran, all, dim'⟩ := ih one
      rw [model, dim] at all
      refine ⟨idx', ran, ?_, dim'.trans dim⟩
      rw [List.filterMap_cons]
      cases inserted : rowOf norm number idx.model idx.dim p with
      | none => simpa [inserted] using all
      | some row => simpa [inserted] using all

/-! ## The search -/

/-- The score of a node whose row is known. -/
def scoreOf (rs : List (NodeId × List K)) (query : List K) (id : NodeId) : K :=
  ((Entries.get? id rs).map (dot query)).getD 0

omit [LinearOrder K] in
theorem scoreOf_eq (distinct : (rs.map Prod.fst).Nodup) (query : List K) {p : NodeId × List K}
    (m : p ∈ rs) : scoreOf rs query p.1 = dot query p.2 := by
  have found : Entries.get? p.1 rs = some p.2 :=
    (Entries.get?_eq_some_iff_of_nodup distinct).mpr m
  rw [scoreOf, found]
  rfl

omit [LinearOrder K] in
/-- Each node is scored by its own row. -/
theorem scored_eq (rows : HasRows idx rs) (distinct : (rs.map Prod.fst).Nodup) (query : List K) :
    (idx.ids.zipIdx.map fun p =>
        (⟨p.1, dot query (rowAt idx.dim.toNat idx.data p.2)⟩ : VectorHit K)) =
      (rs.map Prod.fst).map fun id => ⟨id, scoreOf rs query id⟩ := by
  have read : Theory.rows idx.dim.toNat rs.length idx.data = rs.map Prod.snd := by
    have each : ∀ r ∈ rs.map Prod.snd, r.length = idx.dim.toNat := by
      intro r m
      obtain ⟨p, inRows, rfl⟩ := List.mem_map.mp m
      exact rows.length p inRows
    have back := rows_flatten each
    rwa [List.length_map, ← rows.data] at back
  have paired : (idx.ids.zipIdx.map fun p => (p.1, rowAt idx.dim.toNat idx.data p.2)) = rs := by
    calc (idx.ids.zipIdx.map fun p => (p.1, rowAt idx.dim.toNat idx.data p.2))
        = (rs.map Prod.fst).zip (Theory.rows idx.dim.toNat rs.length idx.data) := by
          rw [List.zipIdx_eq_zip_range', ← List.range_eq_range', Theory.rows, List.zip_map_right,
            rows.ids, List.length_map]
          rfl
      _ = rs := by
          rw [read, ← List.unzip_fst, ← List.unzip_snd, List.zip_unzip]
  calc (idx.ids.zipIdx.map fun p =>
        (⟨p.1, dot query (rowAt idx.dim.toNat idx.data p.2)⟩ : VectorHit K))
      = rs.map fun p => ⟨p.1, dot query p.2⟩ := by
        conv_rhs => rw [← paired]
        rw [List.map_map]
        rfl
    _ = (rs.map Prod.fst).map fun id => ⟨id, scoreOf rs query id⟩ := by
        rw [List.map_map]
        refine List.map_congr_left fun p m => ?_
        rw [Function.comp_apply, scoreOf_eq distinct query m]

/-- **The search, by rows.**  A query of the dimension gets the first `k` of the ranking. -/
theorem search_of_rows (rows : HasRows idx rs) (distinct : (rs.map Prod.fst).Nodup) {query : List K}
    (fits : query.length = idx.dim.toNat) (k : Nat) :
    (idx.search norm query k : Except (Error Cid) _) =
      .ok (((ranked (scoreOf rs (norm.run query)) (rs.map Prod.fst)).take k).map fun id =>
        ⟨id, scoreOf rs (norm.run query) id⟩) := by
  have sorted : ((rs.map Prod.fst).map fun id =>
        (⟨id, scoreOf rs (norm.run query) id⟩ : VectorHit K)).insertionSort HitLe =
      (ranked (scoreOf rs (norm.run query)) (rs.map Prod.fst)).map fun id =>
        ⟨id, scoreOf rs (norm.run query) id⟩ :=
    (List.map_insertionSort (NotAfter (scoreOf rs (norm.run query))) HitLe
      _ _ fun a _ b _ => Iff.rfl).symm
  have nothing : idx.ids.isEmpty = true →
      ranked (scoreOf rs (norm.run query)) (rs.map Prod.fst) = [] := fun empty => by
    rw [← rows.ids, List.isEmpty_iff.mp empty]
    simp [ranked]
  unfold search
  split
  · rename_i unset
    rw [nothing (Bool.and_eq_true_iff.mp unset).2, List.take_nil]
    rfl
  · rw [if_neg (not_not.mpr fits)]
    split
    · rename_i zero
      rcases Bool.or_eq_true_iff.mp zero with none | empty
      · rw [beq_iff_eq.mp none]
        rfl
      · rw [nothing empty, List.take_nil]
        rfl
    · dsimp only
      rw [scored_eq rows distinct, sorted, List.map_take]

/-- A query of another dimension is refused, unless the index is empty and has no dimension. -/
theorem search_mismatch {query : List K} (misfits : query.length ≠ idx.dim.toNat) (k : Nat) :
    (idx.search norm query k : Except (Error Cid) _) =
      if idx.dim = 0 ∧ idx.ids = [] then .ok []
      else .error (.vectorDimMismatch idx.dim query.length) := by
  unfold search
  rw [if_pos misfits]
  refine if_congr ?_ rfl rfl
  simp

/-! ## The walk -/

/-- The head has the vector for the node under the model. -/
def Carries (s : Store H) (r : ReadonlyRepo Cid) (model : String) (id : NodeId)
    (embed : Embedding) : Prop :=
  ∃ commit c, r.commit = some commit ∧ lookup s commit.nodes id = .ok (some c) ∧
    r.embeddingFor s c model = .ok (some embed)

/-- The vector of one entry of the node tree. -/
def carriedAt (H : Hashing Cid) (g : Graph Cid) (model : String) (e : ProllyKey × Cid) :
    Option (NodeId × Embedding) :=
  ((g.embeddings.get? (H.cidHash e.2)).bind fun b => b.get model).map fun embed => (e.1, embed)

/-- The vectors of a graph under a model, in the order of its nodes. -/
def carried (H : Hashing Cid) (g : Graph Cid) (model : String) : List (NodeId × Embedding) :=
  g.nodes.entries.filterMap (carriedAt H g model)

section Walk

variable {s : Store H} {r : ReadonlyRepo Cid} {commit : Commit Cid} {g : Graph Cid}
  {model : String}

theorem embeddingFor_head (head : r.commit = some commit) (stands : Stands s commit g) (c : Cid)
    (model : String) : r.embeddingFor s c model =
      .ok ((g.embeddings.get? (H.cidHash c)).bind fun b => b.get model) := by
  rw [embeddingFor_eq, head]
  exact vectorFor_sidecar stands.embeddings c model

theorem mem_carried_iff (head : r.commit = some commit) (stands : Stands s commit g) {id : NodeId}
    {embed : Embedding} : (id, embed) ∈ carried H g model ↔ Carries s r model id embed := by
  rw [carried, List.mem_filterMap]
  constructor
  · rintro ⟨⟨k, c⟩, m, found⟩
    obtain ⟨e, here, same⟩ := Option.map_eq_some_iff.mp found
    cases same
    refine ⟨commit, c, head, ?_, ?_⟩
    · rw [lookup_of_isTree stands.nodes.tree, g.nodes.get?_eq_some_iff.mpr m]
    · rw [embeddingFor_head head stands, here]
  · rintro ⟨_, c, head', found, here⟩
    cases head.symm.trans head'
    rw [lookup_of_isTree stands.nodes.tree] at found
    rw [embeddingFor_head head stands] at here
    refine ⟨(id, c), g.nodes.get?_eq_some_iff.mp (Except.ok.inj found), ?_⟩
    rw [carriedAt, Except.ok.inj here]
    rfl

/-- The carried vectors are in ascending order of their nodes. -/
theorem carried_ascending (g : Graph Cid) (model : String) :
    (carried H g model).Pairwise fun p q => p.1 < q.1 := by
  refine List.pairwise_filterMap.mpr (g.nodes.ascending.imp fun less p first q second => ?_)
  obtain ⟨e, -, rfl⟩ := Option.map_eq_some_iff.mp first
  obtain ⟨f, -, rfl⟩ := Option.map_eq_some_iff.mp second
  exact less

/-- One step of the build, at the node that carries a vector. -/
def insertHeld (model : String) (idx : Option (BruteForceVectorIndex K))
    (p : NodeId × Embedding) : Option (BruteForceVectorIndex K) :=
  some ((idx.getD { model, dim := p.2.dim }).tryInsert norm number p.1 p.2).1

/-- What the walk does at a node of the head. -/
theorem walkNode_eq (head : r.commit = some commit) (stands : Stands s commit g)
    (valid : ∀ id embed, Carries s r model id embed → Valid embed) {e : ProllyKey × Cid}
    (member : e ∈ g.nodes.entries) (idx : Option (BruteForceVectorIndex K)) :
    walkNode norm number s r model idx e =
      .ok (((carriedAt H g model e).map (insertHeld norm number model idx)).getD idx) := by
  obtain ⟨node, loads, filed⟩ :=
    stands.nodes.filed e.1 e.2 (g.nodes.get?_eq_some_iff.mpr member)
  have decoded : s.decodeFromStore (Node Cid) e.2 = .ok node := loads
  unfold walkNode
  rw [decoded, embeddingFor_head head stands]
  cases here : (g.embeddings.get? (H.cidHash e.2)).bind fun b => b.get model with
  | none =>
      rw [carriedAt, here]
      rfl
  | some embed =>
      have held : carriedAt H g model e = some (e.1, embed) := by
        rw [carriedAt, here]
        rfl
      have carries : Carries s r model e.1 embed :=
        (mem_carried_iff head stands).mp (List.mem_filterMap.mpr ⟨e, member, held⟩)
      have passes : (validate embed : Except (Error Cid) Unit) = .ok () :=
        if_pos (valid _ _ carries)
      rw [held, ← filed]
      change (validate embed >>= fun _ => _) = _
      rw [passes]
      rfl

/-- The walk inserts the vectors that the nodes carry. -/
theorem foldlM_walkNode (head : r.commit = some commit) (stands : Stands s commit g)
    (valid : ∀ id embed, Carries s r model id embed → Valid embed) {es : List (ProllyKey × Cid)}
    (inNodes : ∀ e ∈ es, e ∈ g.nodes.entries) (idx : Option (BruteForceVectorIndex K)) :
    es.foldlM (walkNode norm number s r model) idx =
      .ok ((es.filterMap (carriedAt H g model)).foldl (insertHeld norm number model) idx) := by
  induction es generalizing idx with
  | nil => rfl
  | cons e es ih =>
      have rest := ih fun e' m => inNodes e' (List.mem_cons_of_mem _ m)
      rw [List.foldlM_cons,
        walkNode_eq norm number head stands valid (inNodes e List.mem_cons_self), List.filterMap_cons]
      cases carriedAt H g model e with
      | none => exact rest idx
      | some p => exact rest (insertHeld norm number model idx p)

/-- From nothing the first vector fixes the dimension. -/
theorem foldl_insertHeld (idx : BruteForceVectorIndex K) (held : List (NodeId × Embedding)) :
    held.foldl (insertHeld norm number model) (some idx) =
      some (held.foldl (fun idx p => (idx.tryInsert norm number p.1 p.2).1) idx) := by
  induction held generalizing idx with
  | nil => rfl
  | cons p held ih => exact ih _

theorem buildFromRepo_eq (head : r.commit = some commit) (stands : Stands s commit g)
    (valid : ∀ id embed, Carries s r model id embed → Valid embed) :
    buildFromRepo norm number s r model =
      .ok ((carried H g model).foldl (fun idx p => (idx.tryInsert norm number p.1 p.2).1)
        { model, dim := ((carried H g model).head?.map fun p => p.2.dim).getD 0 }) := by
  unfold buildFromRepo
  rw [head]
  simp only [entries_of_isTree stands.nodes.tree]
  change (g.nodes.entries.foldlM (walkNode norm number s r model) none >>= _) = _
  rw [foldlM_walkNode norm number head stands valid fun _ m => m]
  rw [← carried]
  cases carried H g model with
  | nil => rfl
  | cons p held =>
      have first : (p :: held).foldl (insertHeld norm number model) none =
          (p :: held).foldl (insertHeld norm number model) (some { model, dim := p.2.dim }) := rfl
      rw [first, foldl_insertHeld]
      rfl

/-! ## Exactness -/

/-- The head has, under the model, a vector of this dimension that is labelled with it. -/
def Searchable (s : Store H) (r : ReadonlyRepo Cid) (model : String) (dim : UInt32) (id : NodeId) :
    Prop :=
  ∃ embed, Carries s r model id embed ∧ embed.dim = dim ∧ embed.model = model

/-- The rows of the index built from a head. -/
def rowsOf (g : Graph Cid) (model : String) (dim : UInt32) : List (NodeId × List K) :=
  (carried H g model).filterMap (rowOf norm number model dim)

theorem mem_rowsOf (head : r.commit = some commit) (stands : Stands s commit g) {dim : UInt32}
    {p : NodeId × List K} : p ∈ rowsOf (H := H) norm number g model dim ↔
      ∃ embed v, Carries s r model p.1 embed ∧ embed.dim = dim ∧ embed.model = model ∧
        decodeToF32 number embed = some v ∧ p.2 = norm.run v := by
  rw [rowsOf, List.mem_filterMap]
  constructor
  · rintro ⟨⟨id, embed⟩, m, row⟩
    rw [rowOf] at row
    split at row
    · rename_i both
      obtain ⟨v, decoded, rfl⟩ := Option.map_eq_some_iff.mp row
      exact ⟨embed, v, (mem_carried_iff head stands).mp m, both.2, both.1, decoded, rfl⟩
    · cases row
  · rintro ⟨embed, v, carries, dim, labelled, decoded, row⟩
    refine ⟨(p.1, embed), (mem_carried_iff head stands).mpr carries, ?_⟩
    rw [rowOf, if_pos ⟨labelled, dim⟩, decoded, Option.map_some, ← row]

theorem rowsOf_distinct (g : Graph Cid) (model : String) (dim : UInt32) :
    ((rowsOf (H := H) norm number g model dim).map Prod.fst).Nodup := by
  have ascending : (rowsOf (H := H) norm number g model dim).Pairwise fun p q => p.1 < q.1 := by
    refine List.pairwise_filterMap.mpr ((carried_ascending g model).imp fun less p first q second => ?_)
    rw [rowOf] at first second
    split at first
    · obtain ⟨v, -, rfl⟩ := Option.map_eq_some_iff.mp first
      split at second
      · obtain ⟨w, -, rfl⟩ := Option.map_eq_some_iff.mp second
        exact less
      · cases second
    · cases first
  exact List.pairwise_map.mpr (ascending.imp fun less => less.ne)

/-- The nodes with rows are the searchable ones. -/
theorem mem_ids_rowsOf (head : r.commit = some commit) (stands : Stands s commit g)
    (valid : ∀ id embed, Carries s r model id embed → Valid embed) {dim : UInt32} {id : NodeId} :
    id ∈ (rowsOf (H := H) norm number g model dim).map Prod.fst ↔ Searchable s r model dim id := by
  rw [List.mem_map]
  constructor
  · rintro ⟨p, m, rfl⟩
    obtain ⟨embed, v, carries, dim, labelled, -, -⟩ := (mem_rowsOf norm number head stands).mp m
    exact ⟨embed, carries, dim, labelled⟩
  · rintro ⟨embed, carries, dim, labelled⟩
    obtain ⟨v, decoded⟩ := exists_decodeToF32 number (valid id embed carries)
    exact ⟨(id, norm.run v), (mem_rowsOf norm number head stands).mpr
      ⟨embed, v, carries, dim, labelled, decoded, rfl⟩, rfl⟩

/-- The first carried vector is that of the least node. -/
theorem head?_carried (head : r.commit = some commit) (stands : Stands s commit g) {id₀ : NodeId}
    {first : Embedding} (carries : Carries s r model id₀ first)
    (least : ∀ id embed, Carries s r model id embed → id₀ ≤ id) :
    (carried H g model).head? = some (id₀, first) := by
  have m := (mem_carried_iff head stands).mpr carries
  have ascending := carried_ascending (H := H) g model
  cases held : carried H g model with
  | nil => rw [held] at m; cases m
  | cons p rest =>
      rw [held] at m ascending
      have below : id₀ ≤ p.1 := least p.1 p.2
        ((mem_carried_iff head stands).mp (held ▸ List.mem_cons_self))
      rcases List.mem_cons.mp m with same | later
      · rw [← same]
        rfl
      · exact absurd ((List.pairwise_cons.mp ascending).1 _ later) (not_lt.mpr below)

/-- The index built from a head has the rows of the dimension that comes first. -/
theorem exists_built (head : r.commit = some commit) (stands : Stands s commit g)
    (valid : ∀ id embed, Carries s r model id embed → Valid embed) :
    ∃ idx, buildFromRepo norm number s r model = .ok idx ∧
      idx.dim = ((carried H g model).head?.map fun p => p.2.dim).getD 0 ∧
      HasRows idx (rowsOf (H := H) norm number g model idx.dim) := by
  obtain ⟨idx, ran, rows, dim⟩ := foldl_tryInsert_rows norm number (carried H g model)
    (hasRows_empty (K := K) model (((carried H g model).head?.map fun p => p.2.dim).getD 0))
  refine ⟨idx, (buildFromRepo_eq norm number head stands valid).trans (congrArg Except.ok ran), dim, ?_⟩
  rw [List.nil_append, ← dim] at rows
  exact rows

/-- **Dense search over the sidecar.**  The first vector that the head has for the model, in the
order of the nodes, fixes the dimension.  A query of that dimension gets the first `k` of the
ranking of the nodes that have a vector of it; any other query is refused, and finds nothing when
the index has neither vectors nor a dimension. -/
theorem search_buildFromRepo (holds : HeadHolds s r.commit g) (model : String)
    (valid : ∀ id embed, Carries s r model id embed → Valid embed) :
    (r.commit = none → buildFromRepo norm number s r model = .error .uninitialized) ∧
    (r.commit ≠ none → ∃ idx, buildFromRepo norm number s r model = .ok idx ∧
      ∀ (query : List K) (k : Nat),
        ((∀ id embed, ¬ Carries s r model id embed) →
          (idx.search norm query k : Except (Error Cid) _) = .ok []) ∧
        ∀ id₀ first, Carries s r model id₀ first →
          (∀ id embed, Carries s r model id embed → id₀ ≤ id) →
          (query.length = first.dim.toNat → ∃ (ids : List NodeId) (score : NodeId → K),
            IsRanking score (Searchable s r model first.dim) ids ∧
            (∀ id ∈ ids, ∃ embed v, Carries s r model id embed ∧
              decodeToF32 number embed = some v ∧ score id = dot (norm.run query) (norm.run v)) ∧
            (idx.search norm query k : Except (Error Cid) _) =
              .ok ((ids.take k).map fun id => ⟨id, score id⟩)) ∧
          (query.length ≠ first.dim.toNat →
            (first.dim ≠ 0 ∨ (∃ id, Searchable s r model first.dim id) →
              (idx.search norm query k : Except (Error Cid) _) =
                .error (.vectorDimMismatch first.dim query.length)) ∧
            (first.dim = 0 → (∀ id, ¬ Searchable s r model first.dim id) →
              (idx.search norm query k : Except (Error Cid) _) = .ok []))) := by
  constructor
  · intro unborn
    unfold buildFromRepo
    rw [unborn]
  intro born
  obtain ⟨commit, head⟩ := Option.ne_none_iff_exists'.mp born
  have stands : Stands s commit g := by
    rw [head] at holds
    exact holds
  obtain ⟨idx, built, dim, rows⟩ := exists_built norm number head stands valid
  have distinct := rowsOf_distinct (H := H) norm number g model idx.dim
  have searchable : ∀ id, id ∈ (rowsOf (H := H) norm number g model idx.dim).map Prod.fst ↔
      Searchable s r model idx.dim id := fun id => mem_ids_rowsOf norm number head stands valid
  have empty_iff : idx.ids = [] ↔ ∀ id, ¬ Searchable s r model idx.dim id := by
    rw [rows.ids, List.eq_nil_iff_forall_not_mem]
    exact forall_congr' fun id => not_congr (searchable id)
  refine ⟨idx, built, fun query k => ⟨fun nothing => ?_, fun id₀ first carries least => ?_⟩⟩
  · have none_carried : carried H g model = [] := List.eq_nil_iff_forall_not_mem.mpr fun p m =>
      nothing p.1 p.2 ((mem_carried_iff head stands).mp m)
    rw [none_carried] at dim
    have unset : idx.dim = 0 ∧ idx.ids = [] :=
      ⟨dim, empty_iff.mpr fun id ⟨embed, carries, _⟩ => nothing id embed carries⟩
    unfold search
    simp [unset.1, unset.2]
  rw [head?_carried head stands carries least] at dim
  have same : idx.dim = first.dim := dim
  rw [← same]
  refine ⟨fun fits => ?_, fun misfits => ?_⟩
  · refine ⟨_, _, (isRanking_ranked (scoreOf _ (norm.run query)) distinct).congr (fun _ => rfl)
      fun id => (searchable id).symm, fun id m => ?_, search_of_rows norm rows distinct fits k⟩
    obtain ⟨p, inRows, rfl⟩ := List.mem_map.mp (List.mem_insertionSort _ |>.mp m)
    obtain ⟨embed, v, carries', -, -, decoded, row⟩ := (mem_rowsOf norm number head stands).mp inRows
    exact ⟨embed, v, carries', decoded, by rw [scoreOf_eq distinct _ inRows, row]⟩
  · rw [search_mismatch norm misfits]
    refine ⟨fun filled => if_neg fun both => ?_, fun zero nothing => if_pos ⟨zero, empty_iff.mpr nothing⟩⟩
    rcases filled with positive | ⟨id, found⟩
    · exact positive both.1
    · exact empty_iff.mp both.2 id found

end Walk

/-! ### Vectors of two dimensions -/

/-- Whether every entry of the head's node tree passes a test. -/
def everyEntry (s : Store H) (r : ReadonlyRepo Cid) (test : ProllyKey × Cid → Bool) : Bool :=
  r.commit.any fun commit => Exec.okAnd (entries s commit.nodes) fun es => es.all test

theorem of_everyEntry {s : Store H} {r : ReadonlyRepo Cid} {g : Graph Cid}
    {test : ProllyKey × Cid → Bool} (holds : HeadHolds s r.commit g)
    (passed : everyEntry s r test = true) {model : String} {id : NodeId} {embed : Embedding}
    (carries : Carries s r model id embed) :
    ∃ c, r.embeddingFor s c model = .ok (some embed) ∧ test (id, c) = true := by
  obtain ⟨commit, c, head, found, here⟩ := carries
  obtain ⟨commit', head', passed⟩ := (Option.any_eq_true _ _).mp passed
  cases head.symm.trans head'
  rw [head] at holds
  obtain ⟨es, drained, passed⟩ := Exec.exists_of_okAnd passed
  rw [entries_of_isTree (Stands.nodes holds).tree] at drained
  cases drained
  rw [lookup_of_isTree (Stands.nodes holds).tree] at found
  have member := g.nodes.get?_eq_some_iff.mp (Except.ok.inj found)
  exact ⟨c, here, List.all_eq_true.mp passed _ member⟩

/-- Whether the vector of an entry reads, and is valid if there is one. -/
def readsValid (s : Store H) (r : ReadonlyRepo Cid) (model : String) (e : ProllyKey × Cid) : Bool :=
  Exec.okAnd (r.embeddingFor s e.2 model) fun found => found.all fun embed => decide (Valid embed)

theorem valid_of_everyEntry {s : Store H} {r : ReadonlyRepo Cid} {g : Graph Cid} {model : String}
    (holds : HeadHolds s r.commit g) (passed : everyEntry s r (readsValid s r model) = true)
    (id : NodeId) (embed : Embedding) (carries : Carries s r model id embed) : Valid embed := by
  obtain ⟨c, here, passed⟩ := of_everyEntry holds passed carries
  obtain ⟨_, read, passed⟩ := Exec.exists_of_okAnd passed
  rw [here] at read
  cases read
  exact of_decide_eq_true passed

def planarNode : Node ℕ := { id := 1, ntype := "Doc" }

def linearNode : Node ℕ := { id := 2, ntype := "Doc" }

def planar : Embedding := ⟨"m", .i8, 2, [1, 0]⟩

def linear : Embedding := ⟨"m", .i8, 1, [1]⟩

/-- The first node has a vector of dimension two, the second one of dimension one. -/
def twoDimensions : WorldM shortHashing (ReadonlyRepo ℕ) :=
  seeded [.addNode planarNode, .setEmbedding (shortHashing.cidOf (Object.toBlock planarNode)) "m" planar,
    .addNode linearNode, .setEmbedding (shortHashing.cidOf (Object.toBlock linearNode)) "m" linear]

/-- The number of a byte of a small positive element. -/
def firstByte (_ : Dtype) (bytes : List UInt8) : ℚ := ((bytes.headD 0).toNat : ℚ)

/-- Whether the head has the vector for the node. -/
def carriesAt (s : Store shortHashing) (r : ReadonlyRepo ℕ) (node : Node ℕ) (embed : Embedding) :
    Bool :=
  r.commit.any fun commit =>
    decide (lookup s commit.nodes node.id = .ok (some (shortHashing.cidOf (Object.toBlock node)))) &&
      decide (r.embeddingFor s (shortHashing.cidOf (Object.toBlock node)) "m" = .ok (some embed))

theorem carries_of_carriesAt {s : Store shortHashing} {r : ReadonlyRepo ℕ} {node : Node ℕ}
    {embed : Embedding} (passed : carriesAt s r node embed = true) :
    Carries s r "m" node.id embed := by
  obtain ⟨commit, head, passed⟩ := (Option.any_eq_true _ _).mp passed
  obtain ⟨found, here⟩ := Bool.and_eq_true_iff.mp passed
  exact ⟨commit, _, head, of_decide_eq_true found, of_decide_eq_true here⟩

theorem twoDimensions_checked : ∃ r w, twoDimensions.Returns {} r w ∧
    everyEntry w.store r (readsValid w.store r "m") = true ∧
    everyEntry w.store r (fun e => decide (1 ≤ e.1)) = true ∧
    carriesAt w.store r planarNode planar = true ∧ carriesAt w.store r linearNode linear = true ∧
    ∃ idx, buildFromRepo (l2 id) firstByte w.store r "m" = .ok idx ∧
      (idx.search (l2 id) [1] 1 : Except (Error ℕ) _) = .error (.vectorDimMismatch 2 1) := by
  have passed : twoDimensions.check {} (fun r w => everyEntry w.store r (readsValid w.store r "m") &&
      (everyEntry w.store r (fun e => decide (1 ≤ e.1)) &&
      (carriesAt w.store r planarNode planar && (carriesAt w.store r linearNode linear &&
        Exec.okAnd (buildFromRepo (l2 id) firstByte w.store r "m") fun idx =>
          decide ((idx.search (l2 id) [1] 1 : Except (Error ℕ) _) =
            .error (.vectorDimMismatch 2 1)))))) = true := by decide +kernel
  obtain ⟨r, w, ran, passed⟩ := Exec.exists_of_check passed
  obtain ⟨valid, passed⟩ := Bool.and_eq_true_iff.mp passed
  obtain ⟨least, passed⟩ := Bool.and_eq_true_iff.mp passed
  obtain ⟨first, passed⟩ := Bool.and_eq_true_iff.mp passed
  obtain ⟨second, passed⟩ := Bool.and_eq_true_iff.mp passed
  obtain ⟨idx, built, passed⟩ := Exec.exists_of_okAnd passed
  exact ⟨r, w, ran, valid, least, first, second, idx, built, of_decide_eq_true passed⟩

/-- A query of the dimension of a vector that the head has is refused. -/
theorem other_dimension_refused : ∃ (w : World shortHashing) (r : ReadonlyRepo ℕ) (g : Graph ℕ)
    (idx : BruteForceVectorIndex ℚ), Pinned (fun _ => True) w.store r g ∧
      (∀ id embed, Carries w.store r "m" id embed → Valid embed) ∧
      buildFromRepo (l2 id) firstByte w.store r "m" = .ok idx ∧ Searchable w.store r "m" 1 2 ∧
      (idx.search (l2 id) [1] 1 : Except (Error ℕ) _) = .error (.vectorDimMismatch 2 1) := by
  obtain ⟨r, w, ran, valid, -, -, second, idx, built, refused⟩ := twoDimensions_checked
  obtain ⟨g, pinned⟩ := seeded_returns ran
  exact ⟨w, r, g, idx, pinned, valid_of_everyEntry pinned.holds valid, built,
    ⟨linear, carries_of_carriesAt second, rfl, rfl⟩, refused⟩

/-- A query of the first dimension there, and one of the other. -/
theorem search_buildFromRepo_twoDimensions : ∃ (w : World shortHashing) (r : ReadonlyRepo ℕ)
    (idx : BruteForceVectorIndex ℚ), buildFromRepo (l2 id) firstByte w.store r "m" = .ok idx ∧
      (∃ (ids : List NodeId) (score : NodeId → ℚ),
        IsRanking score (Searchable w.store r "m" 2) ids ∧
        (idx.search (l2 id) [1, 0] 5 : Except (Error ℕ) _) =
          .ok ((ids.take 5).map fun id => ⟨id, score id⟩)) ∧
      (idx.search (l2 id) [1] 5 : Except (Error ℕ) _) = .error (.vectorDimMismatch 2 1) := by
  obtain ⟨r, w, ran, valid, least, first, -⟩ := twoDimensions_checked
  obtain ⟨g, pinned⟩ := seeded_returns ran
  have carries := carries_of_carriesAt first
  have born : r.commit ≠ none := by
    obtain ⟨commit, -, head, -⟩ := carries
    rw [head]
    exact Option.some_ne_none commit
  obtain ⟨idx, built, answers⟩ := (search_buildFromRepo (l2 id) firstByte pinned.holds "m"
    (valid_of_everyEntry pinned.holds valid)).2 born
  have lowest : ∀ id embed, Carries w.store r "m" id embed → planarNode.id ≤ id := by
    intro id embed carries
    obtain ⟨_, -, passed⟩ := of_everyEntry pinned.holds least carries
    exact of_decide_eq_true passed
  obtain ⟨ids, score, ranking, -, found⟩ :=
    ((answers [1, 0] 5).2 planarNode.id planar carries lowest).1 rfl
  refine ⟨w, r, idx, built, ⟨ids, score, ranking, found⟩, ?_⟩
  exact (((answers [1] 5).2 planarNode.id planar carries lowest).2 (by decide)).1 (.inl (by decide))

end BruteForceVectorIndex

end Search

end Mnem.Index
