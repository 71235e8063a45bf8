/-
# Transport.HaveSet — what a client already has

A have-set stands for a set of identifiers in a bloom filter.  `extend` counts
an identifier only when it changes a bit, the walk of `build_have_set` counts
every block.  The bitmap is a function of the set; the count, and with it the
serialised form, is one exactly when no new identifier finds all its bits set
(`summary_iff`).
-/
import Mnem.Theory.Bloom
import Mnem.Transport.Export

namespace Mnem.Transport

open Theory

set_option autoImplicit false

/-- A filter of the `bloomfilter` package of one size: the bits it sets and tests for an item, and
how it lays them out. -/
structure BloomShape where
  mBits : UInt64
  hashes : UInt32
  positions : Bytes → List Nat
  asSlice : OrdSet Nat → Bytes

structure BloomHaveSet where
  shape : BloomShape
  bits : OrdSet Nat := OrdMap.empty
  itemCount : Nat := 0

/-- `BLOOM_SEED_KEY`. -/
def bloomSeedKey : Bytes :=
  "mnem-have-set-bloom-1".toUTF8.data.toList ++ List.replicate 11 0

/-- The bits of an identifier. -/
def BloomShape.bitsFor (shape : BloomShape) (cid : Cid) : List Nat := shape.positions cid.toBytes

namespace BloomHaveSet

def contains (hs : BloomHaveSet) (cid : Cid) : Bool := Bloom.check hs.shape.bitsFor hs.bits cid

/-- One round of `extend`: `check_and_set`, then count what was not there. -/
def add (hs : BloomHaveSet) (cid : Cid) : BloomHaveSet :=
  let state := Bloom.insert hs.shape.bitsFor (hs.bits, hs.itemCount) cid
  { hs with bits := state.1, itemCount := state.2 }

def extend (hs : BloomHaveSet) (cids : List Cid) : BloomHaveSet := cids.foldl add hs

def len (hs : BloomHaveSet) : Nat := hs.itemCount

/-- `serialize`; `toVec` is `serde_ipld_dagcbor::to_vec`. -/
def serialize (toVec : Ipld Cid → Bytes) (hs : BloomHaveSet) : Bytes :=
  toVec (.map [("_kind", .string "have-set-bloom"), ("bitmap", .bytes (hs.shape.asSlice hs.bits)),
    ("item_hint", .integer (if hs.itemCount < 2 ^ 32 then hs.itemCount else 2 ^ 32 - 1)),
    ("k", .integer hs.shape.hashes.toNat), ("m_bits", .integer hs.shape.mBits.toNat),
    ("seed_key", .bytes bloomSeedKey)])

/-- `set`, and count. -/
def addWalked (hs : BloomHaveSet) (cid : Cid) : BloomHaveSet :=
  { hs with bits := Bloom.set hs.shape.bitsFor hs.bits cid, itemCount := hs.itemCount + 1 }

end BloomHaveSet

/-- `build_have_set`; `sized` is the size the package chooses for a number of items. -/
def buildHaveSet (F : Formats) (sized : Nat → BloomShape) (bs : Blockstore) (root : Cid) :
    Except TransportError BloomHaveSet := do
  let items ← (bs.iterFromRoot F root).mapError .store
  return (items.map Prod.fst).foldl .addWalked { shape := sized 10000 }

/-! ## Builds -/

/-- What a have-set starts from: nothing, in a filter of some size, or a walk. -/
inductive Source where
  | fresh (shape : BloomShape)
  | walk (bs : Blockstore) (root : Cid)

/-- A start, and the calls of `extend` after it. -/
structure Build where
  source : Source
  calls : List (List Cid)

variable (F : Formats) (sized : Nat → BloomShape)

def Source.shape : Source → BloomShape
  | fresh shape => shape
  | walk _ _ => sized 10000

def Source.start : Source → Except TransportError BloomHaveSet
  | fresh shape => .ok { shape := shape }
  | walk bs root => buildHaveSet F sized bs root

def Build.run (b : Build) : Except TransportError BloomHaveSet := do
  let hs ← b.source.start F sized
  return b.calls.foldl .extend hs

/-- The identifiers of a walk. -/
def Source.walked : Source → List Cid
  | fresh _ => []
  | walk bs root =>
      match bs.iterFromRoot F root with
      | .ok items => items.map Prod.fst
      | .error _ => []

/-- All identifiers that were put in, in their order. -/
def Build.inserted (b : Build) : List Cid := b.source.walked F ++ b.calls.flatten

/-- Every identifier that `extend` brings anew has a bit that none before it has. -/
def Build.Distinguished (b : Build) : Prop :=
  Bloom.Distinguished (b.source.shape sized).bitsFor (b.source.walked F) b.calls.flatten

/-- Two have-sets of the same identifiers answer alike, have all of them, serialise alike, and do
not undercount. -/
structure SameSummary (toVec : Ipld Cid → Bytes) (cids : List Cid) (x y : BloomHaveSet) : Prop where
  answers : ∀ c, x.contains c = y.contains c
  holds : ∀ c ∈ cids, x.contains c = true ∧ y.contains c = true
  bytes : x.serialize toVec = y.serialize toVec
  counted : cids.toFinset.card ≤ x.len ∧ cids.toFinset.card ≤ y.len

section Runs

variable {F sized}

theorem extend_eq (hs : BloomHaveSet) (cids : List Cid) :
    hs.extend cids = { hs with
      bits := (cids.foldl (Bloom.insert hs.shape.bitsFor) (hs.bits, hs.itemCount)).1
      itemCount := (cids.foldl (Bloom.insert hs.shape.bitsFor) (hs.bits, hs.itemCount)).2 } := by
  unfold BloomHaveSet.extend
  induction cids generalizing hs with
  | nil => rfl
  | cons c cids ih => exact ih (hs.add c)

theorem extends_eq (hs : BloomHaveSet) (calls : List (List Cid)) :
    calls.foldl .extend hs = hs.extend calls.flatten := by
  induction calls generalizing hs with
  | nil => rfl
  | cons cids calls ih =>
      rw [List.foldl_cons, ih, List.flatten_cons]
      exact (List.foldl_append).symm

theorem walked_eq (cids : List Cid) (hs : BloomHaveSet) :
    cids.foldl .addWalked hs = { hs with
      bits := cids.foldl (Bloom.set hs.shape.bitsFor) hs.bits
      itemCount := hs.itemCount + cids.length } := by
  induction cids generalizing hs with
  | nil => rfl
  | cons c cids ih =>
      rw [List.foldl_cons, ih]
      simp only [BloomHaveSet.addWalked, List.foldl_cons, List.length_cons, Nat.add_assoc,
        Nat.add_comm 1]

/-- A start has the bits of the walk, and counts each of its blocks once. -/
theorem start_eq {source : Source} {hs : BloomHaveSet} (ran : source.start F sized = .ok hs) :
    hs = { shape := source.shape sized
           bits := Bloom.bitsOf (source.shape sized).bitsFor (source.walked F)
           itemCount := (source.walked F).toFinset.card } := by
  cases source with
  | fresh shape =>
      cases ran
      rfl
  | walk bs root =>
      obtain ⟨items, walked, ran⟩ := Exec.bind_eq_ok.mp ran
      cases found : bs.iterFromRoot F root with
      | error e =>
          rw [found] at walked
          cases walked
      | ok items' =>
          rw [found] at walked
          obtain rfl := Except.ok.inj walked
          have once : (items'.map Prod.fst).Nodup := (Walk.collect_exact found).1
          obtain rfl := Except.ok.inj ran
          have same : Source.walked F (.walk bs root) = items'.map Prod.fst := by
            simp only [Source.walked, found]
          rw [walked_eq, same, List.toFinset_card_of_nodup once, Nat.zero_add]
          rfl

/-- A build has the bits of what was put in; it never overcounts, and it counts all exactly where
each new identifier is distinguished. -/
theorem run_spec {b : Build} {hs : BloomHaveSet} (ran : b.run F sized = .ok hs) :
    hs.shape = b.source.shape sized ∧
      hs.bits = Bloom.bitsOf (b.source.shape sized).bitsFor (b.inserted F) ∧
      hs.len ≤ (b.inserted F).toFinset.card ∧
      ((b.inserted F).toFinset.card ≤ hs.len ↔ b.Distinguished F sized) := by
  obtain ⟨first, started, ran⟩ := Exec.bind_eq_ok.mp ran
  obtain rfl := Except.ok.inj ran
  obtain rfl := start_eq started
  obtain ⟨m, run, most, least⟩ := @Bloom.count_eq_iff _ (b.source.shape sized).bitsFor
    b.calls.flatten (b.source.walked F) _ (b.source.walked F).toFinset.card
  rw [extends_eq, extend_eq]
  dsimp only
  rw [run]
  refine ⟨rfl, rfl, ?_, ?_⟩
  · show m ≤ _
    unfold Build.inserted
    omega
  · unfold Build.Distinguished Build.inserted
    rw [← least]
    show _ ≤ m ↔ _
    omega

end Runs

/-- Two builds of one set of identifiers in filters of one size are one summary exactly where each
identifier that `extend` brings anew has a bit that none before it has. -/
theorem summary_iff (toVec : Ipld Cid → Bytes) {a b : Build} {x y : BloomHaveSet}
    (ranA : a.run F sized = .ok x) (ranB : b.run F sized = .ok y)
    (size : a.source.shape sized = b.source.shape sized)
    (same : ∀ c, c ∈ a.inserted F ↔ c ∈ b.inserted F) :
    SameSummary toVec (a.inserted F) x y ↔ a.Distinguished F sized ∧ b.Distinguished F sized := by
  obtain ⟨shapeX, bitsX, mostX, leastX⟩ := run_spec ranA
  obtain ⟨shapeY, bitsY, mostY, leastY⟩ := run_spec ranB
  have cards : (a.inserted F).toFinset = (b.inserted F).toFinset := by
    ext c
    rw [List.mem_toFinset, List.mem_toFinset, same]
  have shape : x.shape = y.shape := by rw [shapeX, shapeY, size]
  have bits : x.bits = y.bits := by rw [bitsX, bitsY, size, Bloom.bitsOf_congr same]
  have answers : ∀ c, x.contains c = y.contains c := fun c => by
    rw [BloomHaveSet.contains, BloomHaveSet.contains, shape, bits]
  rw [← leastX, ← leastY, ← cards]
  constructor
  · exact fun summary => summary.counted
  · intro counted
    have holds : ∀ c ∈ a.inserted F, x.contains c = true := by
      intro c member
      rw [BloomHaveSet.contains, shapeX, bitsX]
      exact Bloom.check_of_mem member
    have count : x.itemCount = y.itemCount := by
      rw [← cards] at mostY
      have inX := counted.1
      have inY := counted.2
      unfold BloomHaveSet.len at *
      omega
    refine ⟨answers, fun c member => ⟨holds c member, answers c ▸ holds c member⟩, ?_, counted⟩
    unfold BloomHaveSet.serialize
    rw [shape, bits, count]

/-! ## Two blocks -/

open Fragment (helloCid)

def worldCid : Cid := Fragment.cidOf codecRaw Fragment.world

/-- Eight bits and two hashes; both bits of `world` are the first one of `hello`. -/
def smallShape : BloomShape where
  mBits := 8
  hashes := 2
  positions item := if item = helloCid.toBytes then [0, 1] else [0, 0]
  asSlice bits := [UInt8.ofNat ((bits.keys.map fun p => 2 ^ p).sum)]

def smallBuild (cids : List Cid) : Build := { source := .fresh smallShape, calls := [cids] }

/-- In one order two identifiers count as one. -/
theorem summary_order : ∃ x y,
    (smallBuild [helloCid, worldCid]).run (Fragment.formats Fragment.table) (fun _ => smallShape) =
        .ok x ∧
      (smallBuild [worldCid, helloCid]).run (Fragment.formats Fragment.table)
        (fun _ => smallShape) = .ok y ∧
      x.len = 1 ∧ y.len = 2 ∧ ¬ SameSummary (fun _ => []) [helloCid, worldCid] x y := by
  have one : (BloomHaveSet.extend { shape := smallShape } [helloCid, worldCid]).len = 1 := by
    decide
  have two : (BloomHaveSet.extend { shape := smallShape } [worldCid, helloCid]).len = 2 := by
    decide
  have distinct : [helloCid, worldCid].toFinset.card = 2 := by decide
  refine ⟨_, _, rfl, rfl, one, two, fun summary => ?_⟩
  have counted := summary.counted.1
  rw [distinct] at counted
  exact absurd (counted.trans (Nat.le_of_eq one)) (by decide)

/-- A set of one identifier, put in once and twice. -/
theorem summary_iff_hello : ∃ x y,
    (SameSummary (fun _ => []) [helloCid] x y ↔
      (smallBuild [helloCid]).Distinguished (Fragment.formats Fragment.table) (fun _ => smallShape) ∧
        (smallBuild [helloCid, helloCid]).Distinguished (Fragment.formats Fragment.table)
          (fun _ => smallShape)) := by
  refine ⟨_, _, summary_iff (Fragment.formats Fragment.table) (fun _ => smallShape) (fun _ => [])
    (a := smallBuild [helloCid]) (b := smallBuild [helloCid, helloCid]) rfl rfl rfl fun c => ?_⟩
  show c ∈ [helloCid] ↔ c ∈ [helloCid, helloCid]
  simp

end Mnem.Transport
