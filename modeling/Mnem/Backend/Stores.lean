/-
# Backend.Stores — the two backends of a repository

A repository keeps its blocks and its operation heads in memory, or in a database
file of two tables.  `Memory` and `File` are the two, and `Memory.step` and
`File.step` answer the same calls.

They differ in three places.  The table's keys are the bytes of the identifiers,
so that a listing has to parse them.  A read of the file recomputes the
identifier.  And a batch is one transaction of the file, while memory writes its
blocks one after another and keeps those before one that is refused.
-/
import Mnem.Repo.OpHeads
import Mnem.Transport.Reachable
import Mnem.Theory.Ascending
import Mnem.Theory.Journal

namespace Mnem.Backend

open Theory Transport

set_option autoImplicit false
set_option linter.unusedSectionVars false

/-! ## Calls -/

/-- A call of the block store, or (the last two) of the op-heads store. -/
inductive Call where
  | has (cid : Cid)
  | get (cid : Cid)
  | put (cid : Cid) (data : Bytes)
  | putTrusted (cid : Cid) (data : Bytes)
  | batchPut (blocks : List (Cid × Bytes))
  | delete (cid : Cid)
  /-- The `n`-th item of `iter_from_root`. -/
  | item (root : Cid) (n : Nat)
  | allCids
  | current
  | update (new : Cid) (supersedes : List Cid)

inductive Answer where
  | stored (found : Bool)
  | block (data : Option Bytes)
  | item (found : Option (Except StoreError (Cid × Bytes)))
  | cids (listed : List Cid)
  | heads (listed : List Cid)
  | written
  | cidMismatch (claimed computed : Cid)
  | failed (cause : StoreError)

/-- What the backends get from elsewhere: the hashes, the parser, and the text of an identifier. -/
structure Packages where
  formats : Formats
  cidText : Cid → String

variable (P : Packages)

/-- The recomputed identifier of a block that is not what it claims to be. -/
def mismatch (cid : Cid) (data : Bytes) : Option Cid :=
  (recomputeCid P.formats cid data).filter fun computed => computed ≠ cid

/-- A block that a check lets pass: it hashes to its identifier, or its hash is unknown. -/
def Intact (cid : Cid) (data : Bytes) : Prop := mismatch P cid data = none

instance (cid : Cid) (data : Bytes) : Decidable (Intact P cid data) :=
  inferInstanceAs (Decidable (_ = _))

/-! ## In memory -/

/-- `MemoryBlockstore` and `MemoryOpHeadsStore`. -/
structure Memory [LinearOrder Cid] where
  blocks : OrdMap Cid Bytes := OrdMap.empty
  opHeads : OrdSet Cid := OrdMap.empty

namespace Memory

variable [LinearOrder Cid] (m : Memory)

def putTrusted (cid : Cid) (data : Bytes) : Memory :=
  { m with blocks := m.blocks.insert cid data }

def put (cid : Cid) (data : Bytes) : Answer × Memory :=
  match mismatch P cid data with
  | some computed => (.cidMismatch cid computed, m)
  | none => (.written, m.putTrusted cid data)

/-- The default of `Blockstore::batch_put`: a loop of `put` that stops at a failure. -/
def batchPut (m : Memory) : List (Cid × Bytes) → Answer × Memory
  | [] => (.written, m)
  | (cid, data) :: blocks =>
      match mismatch P cid data with
      | some computed => (.cidMismatch cid computed, m)
      | none => (m.putTrusted cid data).batchPut blocks

/-- The reads of the store. -/
def reads : Transport.Backend where
  get cid := .ok (m.blocks.get? cid)
  stored := m.blocks.keys
  finite cid data found := m.blocks.mem_keys_iff.mpr (by rw [Except.ok.inj found]; rfl)

def step : Call → Answer × Memory
  | .has cid => (.stored (m.blocks.contains cid), m)
  | .get cid => (.block (m.blocks.get? cid), m)
  | .put cid data => m.put P cid data
  | .putTrusted cid data => (.written, m.putTrusted cid data)
  | .batchPut blocks => m.batchPut P blocks
  | .delete cid => (.written, { m with blocks := m.blocks.erase cid })
  | .item root n => (.item (m.reads.call P.formats n (Transport.Backend.iterFromRoot root)), m)
  | .allCids => (.cids m.blocks.keys, m)
  | .current => (.heads (Repo.OpHeads.current m.opHeads), m)
  | .update new supersedes =>
      (.written, { m with opHeads := Repo.OpHeads.update m.opHeads new supersedes })

end Memory

/-! ## In a file -/

/-- A key of a table.  Keys are ordered by their bytes. -/
structure Key where
  bytes : Bytes
  deriving DecidableEq

theorem Key.octets_injective : Function.Injective fun k : Key => k.bytes.map UInt8.toNat := by
  rintro ⟨a⟩ ⟨b⟩ same
  exact congrArg Key.mk (List.map_injective_iff.mpr (fun _ _ => UInt8.toNat_inj.mp) same)

instance : LinearOrder Key :=
  LinearOrder.lift' (fun k => k.bytes.map UInt8.toNat) Key.octets_injective

def key (cid : Cid) : Key := ⟨cid.toBytes⟩

/-- `OBJECTS_TABLE` and `OP_HEADS_TABLE`. -/
structure File where
  objects : OrdMap Key Bytes := OrdMap.empty
  opHeads : OrdMap Key Unit := OrdMap.empty

namespace File

variable [LinearOrder Cid] (f : File)

def has (cid : Cid) : Bool := f.objects.contains (key cid)

/-- The identifier is recomputed, so that bytes changed on disk are not returned. -/
def get (cid : Cid) : Except StoreError (Option Bytes) :=
  match f.objects.get? (key cid) with
  | some data =>
      match mismatch P cid data with
      | some computed => .error (.corruption (P.cidText cid)
          ("expected " ++ P.cidText cid ++ ", recomputed " ++ P.cidText computed))
      | none => .ok (some data)
  | none => .ok none

def putTrusted (cid : Cid) (data : Bytes) : File :=
  { f with objects := f.objects.insert (key cid) data }

def put (cid : Cid) (data : Bytes) : Answer × File :=
  match mismatch P cid data with
  | some computed => (.cidMismatch cid computed, f)
  | none => (.written, f.putTrusted cid data)

/-- The objects in a write transaction, as the blocks of a batch are inserted. -/
def stage (objects : OrdMap Key Bytes) : List (Cid × Bytes) → Except Answer (OrdMap Key Bytes)
  | [] => .ok objects
  | (cid, data) :: blocks =>
      match mismatch P cid data with
      | some computed => .error (.cidMismatch cid computed)
      | none => stage (objects.insert (key cid) data) blocks

/-- One transaction, dropped without a commit when a block is refused. -/
def batchPut (blocks : List (Cid × Bytes)) : Answer × File :=
  match stage P f.objects blocks with
  | .error refused => (refused, f)
  | .ok objects => (.written, { f with objects := objects })

/-- The identifiers that the keys of a table are. -/
def parseKeys {V : Type} (what : String) (table : OrdMap Key V) : Except StoreError (List Cid) :=
  table.keys.mapM fun k => (P.formats.parseCid k.bytes).mapError fun e => .io (what ++ e)

def allCids : Except StoreError (List Cid) := parseKeys P "invalid CID key in store: " f.objects

def current : Except StoreError (List Cid) :=
  (parseKeys P "parse op-head key: " f.opHeads).map ascending

def update (new : Cid) (supersedes : List Cid) : File :=
  { f with opHeads :=
      supersedes.foldl (fun heads s => heads.erase (key s)) (f.opHeads.insert (key new) ()) }

theorem mem_stored {cid : Cid} {data : Bytes} (found : f.get P cid = .ok (some data)) :
    cid ∈ f.objects.keys.filterMap fun k => (P.formats.parseCid k.bytes).toOption := by
  refine List.mem_filterMap.mpr ⟨key cid, f.objects.mem_keys_iff.mpr ?_, ?_⟩
  · unfold get at found
    cases here : f.objects.get? (key cid) with
    | some data => rfl
    | none => simp [here] at found
  · simp [key, P.formats.parseCid_toBytes, Except.toOption]

/-- The reads of the store. -/
def reads : Transport.Backend where
  get := f.get P
  stored := f.objects.keys.filterMap fun k => (P.formats.parseCid k.bytes).toOption
  finite _ _ := f.mem_stored P

/-- An answer, unless the call failed. -/
def answer {α : Type} (wrap : α → Answer) : Except StoreError α → Answer
  | .ok a => wrap a
  | .error e => .failed e

def step : Call → Answer × File
  | .has cid => (.stored (f.has cid), f)
  | .get cid => (answer .block (f.get P cid), f)
  | .put cid data => f.put P cid data
  | .putTrusted cid data => (.written, f.putTrusted cid data)
  | .batchPut blocks => f.batchPut P blocks
  | .delete cid => (.written, { f with objects := f.objects.erase (key cid) })
  | .item root n =>
      (.item ((f.reads P).call P.formats n (Transport.Backend.iterFromRoot root)), f)
  | .allCids => (answer .cids (f.allCids P), f)
  | .current => (answer .heads (f.current P), f)
  | .update new supersedes => (.written, f.update new supersedes)

end File

end Mnem.Backend
