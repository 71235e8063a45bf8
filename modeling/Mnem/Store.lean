/-
# Store — content addressing, the block store, and typed reads and writes

What the repository code gets from its hash functions and its codec is
collected in `Hashing`: an injective block address that no block can contain,
a codec that may refuse a value, and four hashes about which nothing is known
but that they are functions.  Every result is about every `Hashing`.

A `Store` holds blocks under their own addresses.  Stores only grow: `s ≤ s'`
says everything readable in `s` reads the same in `s'`, and `decodeFromStore`
is monotone along it.
-/
import Mnem.Objects
import Mnem.Theory.Exec

namespace Mnem

open Theory

set_option autoImplicit false
set_option linter.unusedSectionVars false

/-! ## Hashing -/

/-- The last four keys pushed into a chunker, oldest first. -/
structure Window where
  first : ProllyKey := 0
  second : ProllyKey := 0
  third : ProllyKey := 0
  last : ProllyKey := 0

/-- The hash functions and the codec, as the repository uses them. -/
structure Hashing (Cid : Type) where
  /-- The address of a block: the hash of its canonical encoding. -/
  cidOf : Block Cid → Cid
  cidOf_injective : Function.Injective cidOf
  /-- A block does not contain its own hash. -/
  cidOf_not_mem_links : ∀ b, cidOf b ∉ b.links
  /-- Whether the canonical encoding exists; it has no form for NaN or infinity. -/
  acceptsValue : Ipld Cid → Bool
  acceptsValue_of_numberFree : ∀ v, v.numberFree = true → acceptsValue v = true
  /-- The keyed hash of the rolling window, cut to 64 bits. -/
  rollingHash : Window → UInt64
  /-- The hash of a value's canonical encoding, cut to 16 bytes. -/
  valueHash : Ipld Cid → ProllyKey
  /-- The hash of a CID's wire form, cut to 16 bytes. -/
  cidHash : Cid → ProllyKey
  /-- The hash of a list of CIDs under the merge-change-id prefix, cut to 16 bytes. -/
  mergeChangeHash : List Cid → ChangeId
  /-- The text form of a CID. -/
  cidString : Cid → String

/-- A single-precision weight that is neither NaN nor infinite. -/
def finiteWeight (bits : UInt32) : Bool := bits.toNat / 2 ^ 23 % 2 ^ 8 != 255

/-- Whether a block has a canonical encoding. -/
def Hashing.encodes {Cid : Type} (H : Hashing Cid) (b : Block Cid) : Bool :=
  b.values.all H.acceptsValue && b.weights.all finiteWeight

/-! ## Errors -/

/-- The failures of the modelled operations.  `diverged` is no failure of the
source: it marks a loop cut off by its bound, and is proved not to occur. -/
inductive Error (Cid : Type) where
  | notFound (cid : Cid)
  | decode (cid : Cid)
  | encode
  | invalidInput (message : String)
  | uninitialized
  | stale
  | noCommonAncestor
  | indexCorrupt (context : String) (key : ProllyKey) (cid : Cid)
  | danglingEdge (id : NodeId) (role : String)
  | embeddingSizeMismatch (expected got : Nat)
  | vectorDimMismatch (indexDim : UInt32) (queryDim : Nat)
  | diverged
  deriving DecidableEq

/-! ## The block store -/

theorem addressed_nil {Cid : Type} (H : Hashing Cid) :
    ∀ e ∈ ([] : List (Cid × Block Cid)), H.cidOf e.2 = e.1 ∧ H.encodes e.2 = true := nofun

/-- Blocks under their own addresses, newest first. -/
structure Store {Cid : Type} (H : Hashing Cid) where
  blocks : List (Cid × Block Cid) := []
  addressed : ∀ e ∈ blocks, H.cidOf e.2 = e.1 ∧ H.encodes e.2 = true := by exact addressed_nil _

namespace Store

variable {Cid : Type} {H : Hashing Cid}

/-- Add a block that has an encoding. -/
def insert (s : Store H) (b : Block Cid) (ok : H.encodes b = true) : Store H where
  blocks := (H.cidOf b, b) :: s.blocks
  addressed e member := by
    rcases List.mem_cons.mp member with rfl | old
    · exact ⟨rfl, ok⟩
    · exact s.addressed e old

variable [LinearOrder Cid]

def get (s : Store H) (cid : Cid) : Option (Block Cid) := Entries.get? cid s.blocks

theorem cidOf_of_get {s : Store H} {cid : Cid} {b : Block Cid} (found : s.get cid = some b) :
    H.cidOf b = cid := (s.addressed _ (Entries.mem_of_get? found)).1

theorem encodes_of_get {s : Store H} {cid : Cid} {b : Block Cid} (found : s.get cid = some b) :
    H.encodes b = true := (s.addressed _ (Entries.mem_of_get? found)).2

theorem get_insert (s : Store H) (b : Block Cid) (ok : H.encodes b = true) (cid : Cid) :
    (s.insert b ok).get cid = if H.cidOf b = cid then some b else s.get cid := rfl

/-- Everything readable in `s` reads the same in `s'`. -/
instance : Preorder (Store H) where
  le s s' := ∀ cid b, s.get cid = some b → s'.get cid = some b
  le_refl _ _ _ found := found
  le_trans _ _ _ first second cid b found := second cid b (first cid b found)

theorem le_insert (s : Store H) (b : Block Cid) (ok : H.encodes b = true) :
    s ≤ s.insert b ok := by
  intro cid b' found
  rw [get_insert]
  split
  · rename_i same
    rw [H.cidOf_injective (same.trans (cidOf_of_get found).symm)]
  · exact found

/-! ## Typed reads -/

section Decode

variable {α : Type} [Object Cid α]

/-- Fetch a block and decode it at the expected kind. -/
def decodeFromStore (α : Type) [Object Cid α] (s : Store H) (cid : Cid) :
    Except (Error Cid) α :=
  match s.get cid with
  | none => .error (.notFound cid)
  | some b =>
      match (Object.ofBlock? b : Option α) with
      | none => .error (.decode cid)
      | some a => .ok a

/-- `cid` reads as `a`. -/
def Loads (s : Store H) (cid : Cid) (a : α) : Prop := s.decodeFromStore α cid = .ok a

theorem loads_iff {s : Store H} {cid : Cid} {a : α} :
    s.Loads cid a ↔ s.get cid = some (Object.toBlock a) := by
  unfold Loads decodeFromStore
  cases found : s.get cid with
  | none => simp
  | some b =>
      simp only [Option.some.injEq]
      rw [← Object.ofBlock?_eq_some_iff]
      cases (Object.ofBlock? b : Option α) <;> simp

theorem Loads.mono {s s' : Store H} {cid : Cid} {a : α} (loads : s.Loads cid a) (le : s ≤ s') :
    s'.Loads cid a := loads_iff.mpr (le _ _ (loads_iff.mp loads))

theorem Loads.unique {s : Store H} {cid : Cid} {a b : α} (la : s.Loads cid a)
    (lb : s.Loads cid b) : a = b := by
  have same := la.symm.trans lb
  exact Except.ok.inj same

theorem Loads.cidOf {s : Store H} {cid : Cid} {a : α} (loads : s.Loads cid a) :
    H.cidOf (Object.toBlock a) = cid := cidOf_of_get (loads_iff.mp loads)

theorem toBlock_injective {a b : α} (h : (Object.toBlock a : Block Cid) = Object.toBlock b) :
    a = b := by
  have la : Object.ofBlock? (Object.toBlock a : Block Cid) = some a :=
    Object.ofBlock?_eq_some_iff.mpr rfl
  have lb : Object.ofBlock? (Object.toBlock a : Block Cid) = some b :=
    Object.ofBlock?_eq_some_iff.mpr h
  exact Option.some.inj (la.symm.trans lb)

/-- An address determines what is read at it, whatever the store. -/
theorem Loads.same {s s' : Store H} {cid : Cid} {a b : α} (la : s.Loads cid a)
    (lb : s'.Loads cid b) : a = b :=
  toBlock_injective (H.cidOf_injective (la.cidOf.trans lb.cidOf.symm))

theorem loads_insert (s : Store H) (a : α) (ok : H.encodes (Object.toBlock a) = true) :
    (s.insert (Object.toBlock a) ok).Loads (H.cidOf (Object.toBlock a)) a :=
  loads_iff.mpr (by rw [get_insert, if_pos rfl])

/-- A block of another kind adds nothing to read. -/
theorem loads_of_insert {s : Store H} {b : Block Cid} {ok : H.encodes b = true} {cid : Cid} {a : α}
    (other : (Object.ofBlock? b : Option α) = none) (loads : (s.insert b ok).Loads cid a) :
    s.Loads cid a := by
  rw [loads_iff, get_insert] at loads
  split at loads
  · rw [Option.some.inj loads, Object.ofBlock?_eq_some_iff.mpr rfl] at other
    cases other
  · exact loads_iff.mpr loads

end Decode

end Store

/-! ## Stateful operations -/

/-- Operations that read and write the block store. -/
abbrev StoreM {Cid : Type} (H : Hashing Cid) (α : Type) := Exec (Store H) (Error Cid) α

section Put

variable {Cid : Type} {H : Hashing Cid} [LinearOrder Cid] {α : Type} [Object Cid α]

/-- `hash_to_cid` followed by `put_trusted`. -/
def putObject (a : α) : StoreM H Cid :=
  if ok : H.encodes (Object.toBlock a) = true then
    Exec.update fun s => (H.cidOf (Object.toBlock a), s.insert (Object.toBlock a) ok)
  else throw .encode

theorem putObject_returns {a : α} {s s' : Store H} {cid : Cid}
    (h : (putObject a : StoreM H Cid).Returns s cid s') :
    cid = H.cidOf (Object.toBlock a) ∧ s ≤ s' ∧ s'.Loads cid a := by
  unfold putObject at h
  split at h
  · rw [Exec.returns_update] at h
    cases h
    exact ⟨rfl, s.le_insert _ _, s.loads_insert a _⟩
  · exact absurd h Exec.returns_throw

theorem putObject_succeeds {a : α} (ok : H.encodes (Object.toBlock a) = true) (s : Store H) :
    (putObject a : StoreM H Cid).Succeeds s fun cid s' =>
      cid = H.cidOf (Object.toBlock a) ∧ s ≤ s' ∧ s'.Loads cid a := by
  unfold putObject
  rw [dif_pos ok]
  exact Exec.succeeds_update ⟨rfl, s.le_insert _ ok, s.loads_insert a ok⟩

theorem putObject_grows (a : α) : Exec.Grows (putObject a : StoreM H Cid) := by
  unfold putObject
  split
  · rename_i ok
    exact Exec.grows_update fun s => s.le_insert _ ok
  · exact Exec.grows_throw _

end Put

end Mnem
