/-
# Addressing — a computable addressing of blocks by numbers

The results of this development hold for every `Hashing`.  This module gives one
that evaluates: a block's address is a number that spells out the block, so the
addressing is injective, and larger than every address the block contains.  It
is what the concrete runs of the other modules are computed with; the rolling
hash is left open, so that a run can choose where chunks are cut.
-/
import Mnem.Store
import Mnem.Theory.PrefixCode
import Mathlib.Order.Nat

namespace Mnem

open Theory Theory.PrefixCode

set_option autoImplicit false

namespace Addressing

/-! ## Values -/

mutual

def encIpld : Ipld ℕ → List ℕ
  | .null => [0]
  | .bool b => 1 :: enc b
  | .integer i => 2 :: enc i
  | .float bits => 3 :: enc bits
  | .string s => 4 :: enc s
  | .bytes bs => 5 :: enc bs
  | .list xs => 6 :: encIplds xs
  | .map kvs => 7 :: encIpldMap kvs
  | .link c => 8 :: enc c

/-- Each element behind a mark, and a different mark at the end. -/
def encIplds : List (Ipld ℕ) → List ℕ
  | [] => [0]
  | x :: xs => 1 :: (encIpld x ++ encIplds xs)

def encIpldMap : List (String × Ipld ℕ) → List ℕ
  | [] => [0]
  | (k, x) :: kvs => 1 :: (enc k ++ (encIpld x ++ encIpldMap kvs))

end

mutual

theorem encIpld_cancel : ∀ (a b : Ipld ℕ) {s t : List ℕ},
    encIpld a ++ s = encIpld b ++ t → a = b ∧ s = t := by
  intro a b s t same
  cases a <;> cases b <;>
    simp only [encIpld, List.cons_append, List.nil_append, List.cons.injEq] at same <;>
    first
      | exact absurd same.1 (by decide)
      | replace same := same.2
  case null.null => exact ⟨rfl, same⟩
  case list.list xs ys =>
    obtain ⟨rfl, rest⟩ := encIplds_cancel xs ys same
    exact ⟨rfl, rest⟩
  case map.map kvs jws =>
    obtain ⟨rfl, rest⟩ := encIpldMap_cancel kvs jws same
    exact ⟨rfl, rest⟩
  all_goals
    obtain ⟨rfl, rest⟩ := cancel same
    exact ⟨rfl, rest⟩

theorem encIplds_cancel : ∀ (xs ys : List (Ipld ℕ)) {s t : List ℕ},
    encIplds xs ++ s = encIplds ys ++ t → xs = ys ∧ s = t
  | [], [], _, _, same => ⟨rfl, (List.cons.inj same).2⟩
  | [], _ :: _, _, _, same => by simp [encIplds] at same
  | _ :: _, [], _, _, same => by simp [encIplds] at same
  | x :: xs, y :: ys, _, _, same => by
      simp only [encIplds, List.cons_append, List.cons.injEq, true_and, List.append_assoc] at same
      obtain ⟨rfl, rest⟩ := encIpld_cancel x y same
      obtain ⟨rfl, tails⟩ := encIplds_cancel xs ys rest
      exact ⟨rfl, tails⟩

theorem encIpldMap_cancel : ∀ (kvs jws : List (String × Ipld ℕ)) {s t : List ℕ},
    encIpldMap kvs ++ s = encIpldMap jws ++ t → kvs = jws ∧ s = t
  | [], [], _, _, same => ⟨rfl, (List.cons.inj same).2⟩
  | [], (_, _) :: _, _, _, same => by simp [encIpldMap] at same
  | (_, _) :: _, [], _, _, same => by simp [encIpldMap] at same
  | (k, x) :: kvs, (j, y) :: jws, _, _, same => by
      simp only [encIpldMap, List.cons_append, List.cons.injEq, true_and,
        List.append_assoc] at same
      obtain ⟨rfl, rest⟩ := cancel same
      obtain ⟨rfl, others⟩ := encIpld_cancel x y rest
      obtain ⟨rfl, tails⟩ := encIpldMap_cancel kvs jws others
      exact ⟨rfl, tails⟩

end

instance : PrefixCode (Ipld ℕ) := ⟨encIpld, fun same => encIpld_cancel _ _ same⟩

/-! ## Objects -/

instance : PrefixCode (Node ℕ) :=
  ofInjective
    (fun n => (n.id, n.ntype, n.summary, n.props, n.content, n.contextSentence, n.extra))
    fun a b same => by cases a; cases b; simpa using same

instance : PrefixCode (Edge ℕ) :=
  ofInjective (fun e => (e.id, e.etype, e.src, e.dst, e.props, e.extra))
    fun a b same => by cases a; cases b; simpa using same

instance : PrefixCode (TreeChunk ℕ) where
  enc
    | .leaf entries => 0 :: enc entries
    | .internal boundaries children => 1 :: enc (boundaries, children)
  cancel {a b s t} same := by
    cases a <;> cases b <;> simp only [List.cons_append, List.cons.injEq] at same <;>
      first
        | exact absurd same.1 (by decide)
        | replace same := same.2
    · obtain ⟨rfl, rest⟩ := cancel same
      exact ⟨rfl, rest⟩
    · obtain ⟨both, rest⟩ := cancel same
      cases both
      exact ⟨rfl, rest⟩

instance : PrefixCode (AdjacencyBucket ℕ) :=
  ofInjective (fun b => b.edges.map fun e => (e.label, e.edge)) fun a b same => by
    cases a
    cases b
    simp only [AdjacencyBucket.mk.injEq]
    refine List.map_injective_iff.mpr (fun e f h => ?_) same
    cases e
    cases f
    simpa using h

instance : PrefixCode (IncomingAdjacencyBucket ℕ) :=
  ofInjective (fun b => b.edges.map fun e => (e.label, e.src, e.edge)) fun a b same => by
    cases a
    cases b
    simp only [IncomingAdjacencyBucket.mk.injEq]
    refine List.map_injective_iff.mpr (fun e f h => ?_) same
    cases e
    cases f
    simpa using h

instance : PrefixCode (IndexSet ℕ) :=
  ofInjective (fun i => (i.nodesByLabel, i.nodesByProp, i.outgoing, i.incoming, i.extra))
    fun a b same => by cases a; cases b; simpa using same

instance : PrefixCode Dtype :=
  ofInjective (fun | .f16 => 0 | .f32 => 1 | .f64 => 2 | .i8 => (3 : ℕ)) fun a b same => by
    cases a <;> cases b <;> simp_all

instance : PrefixCode Embedding :=
  ofInjective (fun e => (e.model, e.dtype, e.dim, e.vector))
    fun a b same => by cases a; cases b; simpa using same

instance : PrefixCode SparseEmbed :=
  ofInjective (fun e => (e.indices, e.values, e.vocabId))
    fun a b same => by cases a; cases b; simpa using same

instance {V : Type} [PrefixCode V] : PrefixCode (Bucket V) :=
  ofInjective Bucket.entries fun a b same => by cases a; cases b; simpa using same

instance : PrefixCode (Commit ℕ) :=
  ofInjective
    (fun c => (c.changeId, c.parents, c.nodes, c.edges, c.schema, c.indexes, c.embeddings,
      c.sparse, c.author, c.time, c.message, c.extra))
    fun a b same => by cases a; cases b; simpa using same

instance : PrefixCode (RefTarget ℕ) :=
  ofInjective
    (fun | .normal target => (false, [target], []) | .conflicted adds removes => (true, adds, removes))
    fun a b same => by cases a <;> cases b <;> simp_all

instance : PrefixCode Tombstone :=
  ofInjective (fun t => (t.reason, t.tombstonedAt))
    fun a b same => by cases a; cases b; simpa using same

instance : PrefixCode (View ℕ) :=
  ofInjective (fun v => (v.heads, v.refs, v.remoteRefs, v.wcCommit, v.tombstones, v.extra))
    fun a b same => by cases a; cases b; simpa using same

instance : PrefixCode (Operation ℕ) :=
  ofInjective
    (fun o => (o.parents, o.view, o.author, o.agentId, o.taskId, o.time, o.description))
    fun a b same => by cases a; cases b; simpa using same

/-! ## Blocks -/

/-- A block with its kind as the first number. -/
def encBlock : Block ℕ → List ℕ
  | .raw bytes => 0 :: enc bytes
  | .node n => 1 :: enc n
  | .edge e => 2 :: enc e
  | .tree t => 3 :: enc t
  | .commit c => 4 :: enc c
  | .view v => 5 :: enc v
  | .operation o => 6 :: enc o
  | .indexSet i => 7 :: enc i
  | .adjacencyBucket b => 8 :: enc b
  | .incomingAdjacencyBucket b => 9 :: enc b
  | .embeddingBucket b => 10 :: enc b
  | .sparseBucket b => 11 :: enc b

theorem encBlock_injective : Function.Injective encBlock := by
  intro a b same
  cases a <;> cases b <;> simp only [encBlock, List.cons.injEq] at same <;>
    first
      | exact absurd same.1 (by decide)
      | exact congrArg _ (enc_injective same.2)

/-- The address of a block: a bound on the addresses it contains, then the block. -/
def cidOf (b : Block ℕ) : ℕ := pack ((b.links.foldr max 0) :: encBlock b)

theorem cidOf_injective : Function.Injective cidOf := fun _ _ same =>
  encBlock_injective (List.cons.inj (pack_injective same)).2

theorem le_foldr_max {c : ℕ} : ∀ {l : List ℕ}, c ∈ l → c ≤ l.foldr max 0
  | x :: l, member => by
      rw [List.foldr_cons]
      rcases List.mem_cons.mp member with rfl | later
      · exact le_max_left _ _
      · exact (le_foldr_max later).trans (le_max_right _ _)

/-- A block's address is above the addresses it contains. -/
theorem lt_cidOf {b : Block ℕ} {c : ℕ} (link : c ∈ b.links) : c < cidOf b :=
  (le_foldr_max link).trans_lt (lt_pack_cons _ _)

/-- The bound on the addresses a block contains, where spelling the block does not give one. -/
def guard (b : Block ℕ) : ℕ :=
  if ∀ c ∈ b.links, c < packTight (0 :: encBlock b) then 0 else b.links.foldr max 0

/-- A shorter address. -/
def shortCidOf (b : Block ℕ) : ℕ := packTight (guard b :: encBlock b)

theorem shortCidOf_injective : Function.Injective shortCidOf := fun _ _ same =>
  encBlock_injective (List.cons.inj (packTight_injective same)).2

theorem lt_shortCidOf {b : Block ℕ} {c : ℕ} (link : c ∈ b.links) : c < shortCidOf b := by
  unfold shortCidOf guard
  split
  · rename_i above
    exact above c link
  · exact (le_foldr_max link).trans_lt (lt_packTight_cons _ _)

/-- Sixteen bytes of a number. -/
def truncate (n : ℕ) : ProllyKey := ⟨n % 2 ^ 128, Nat.mod_lt _ (Nat.two_pow_pos 128)⟩

end Addressing

/-- Addressing by numbers, with a chosen rolling hash. -/
def numberHashing (rollingHash : Window → UInt64) : Hashing ℕ where
  cidOf := Addressing.cidOf
  cidOf_injective := Addressing.cidOf_injective
  cidOf_not_mem_links _ link := lt_irrefl _ (Addressing.lt_cidOf link)
  acceptsValue _ := true
  acceptsValue_of_numberFree _ _ := rfl
  rollingHash := rollingHash
  valueHash v := Addressing.truncate (pack (enc v))
  cidHash := Addressing.truncate
  mergeChangeHash cids := Addressing.truncate (pack (enc cids))
  cidString := Nat.repr

/-- Addressing by numbers, with a rolling hash that cuts wherever a cut is allowed. -/
abbrev cuttingHashing : Hashing ℕ := numberHashing fun _ => 0

/-- The same with the shorter addresses, written by their last digits, for runs that chain many
blocks. -/
abbrev shortHashing : Hashing ℕ :=
  { cuttingHashing with
    cidOf := Addressing.shortCidOf
    cidOf_injective := Addressing.shortCidOf_injective
    cidOf_not_mem_links := fun _ link => lt_irrefl _ (Addressing.lt_shortCidOf link)
    cidString := fun c => Nat.repr (c % 10 ^ 6) }

/-! ## The same addresses, evaluated -/

def quickCidOf (b : Block ℕ) : ℕ :=
  quickPackTight ((if ∀ c ∈ b.links, c < quickPackTight (0 :: Addressing.encBlock b) then 0
    else b.links.foldr max 0) :: Addressing.encBlock b)

theorem shortCidOf_eq_quickCidOf : Addressing.shortCidOf = quickCidOf := by
  funext b
  rw [Addressing.shortCidOf, quickCidOf, Addressing.guard, packTight_eq_quickPackTight]

/-- What a long run is evaluated with: `shortHashing` by quicker logarithms. -/
def quickHashing : Hashing ℕ :=
  { shortHashing with
    cidOf := quickCidOf
    cidOf_injective := shortCidOf_eq_quickCidOf ▸ shortHashing.cidOf_injective
    cidOf_not_mem_links := shortCidOf_eq_quickCidOf ▸ shortHashing.cidOf_not_mem_links
    valueHash := fun v => Addressing.truncate (quickPack (enc v))
    mergeChangeHash := fun cids => Addressing.truncate (quickPack (enc cids)) }

theorem shortHashing_eq_quickHashing : shortHashing = quickHashing := by
  unfold shortHashing quickHashing cuttingHashing numberHashing
  simp only [shortCidOf_eq_quickCidOf, pack_eq_quickPack]
  rfl

/-- `n` entries at consecutive keys from `lo`, each with a value of its own. -/
def consecutive (lo n : ℕ) : List (ProllyKey × ℕ) :=
  (List.range' lo n).map fun i => (Addressing.truncate i, 1000 + i)

end Mnem
