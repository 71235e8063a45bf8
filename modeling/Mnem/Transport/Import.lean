/-
# Transport.Import — reading an untrusted archive into a block store

`import_with_limit` reads a section, recomputes the hash of its payload, checks
the running total against the limit and only then writes; at the end every
declared root must be among the sections.  A failure leaves what was written
before it.

`Wrote` says what a run has written, and one section extends it
(`importBlock_wrote`), so a whole run from any bytes does, whether it returns or
fails (`importLoop_wrote`).  `import_keeps_sound` reads the consequences off.
-/
import Mnem.Transport.Car
import Mnem.Transport.Fragment

namespace Mnem.Transport

open Theory

set_option autoImplicit false

/-! ## The block store -/

/-- Blocks under their identifiers, newest first. -/
structure Blockstore where
  blocks : List (Cid × Bytes) := []

namespace Blockstore

def get (bs : Blockstore) (cid : Cid) : Option Bytes := Entries.get? cid bs.blocks

/-- Write without recomputing the identifier. -/
def putTrusted (bs : Blockstore) (cid : Cid) (data : Bytes) : Blockstore :=
  { blocks := (cid, data) :: bs.blocks }

/-- Each block under a known hash algorithm hashes to its identifier. -/
def Sound (F : Formats) (bs : Blockstore) : Prop :=
  ∀ cid data computed, bs.get cid = some data → recomputeCid F cid data = some computed →
    computed = cid

end Blockstore

/-! ## The import -/

structure ImportStats where
  blocks : Nat
  bytes : Nat
  roots : List Cid
  deriving DecidableEq

/-- What the loop has counted, and the identifiers it has stored. -/
structure Imported where
  blocks : Nat := 0
  bytes : Nat := 0
  cids : List Cid := []

/-- One section: check its hash and the running total, then store it. -/
def importBlock (F : Formats) (limit : UInt64) (st : Imported) (claimed : Cid) (data : Bytes) :
    Exec Blockstore TransportError Imported :=
  match recomputeCid F claimed data with
  | none => throw (.unsupportedHash claimed.multihash.code)
  | some computed =>
      if computed ≠ claimed then throw (.cidMismatch claimed computed)
      else
        let nextTotal := st.bytes + data.length
        if 2 ^ 64 ≤ nextTotal then throw (.sizeLimit limit.toNat (2 ^ 64 - 1))
        else if limit.toNat < nextTotal then throw (.sizeLimit limit.toNat nextTotal)
        else do
          Exec.update fun bs => ((), bs.putTrusted claimed data)
          return { blocks := st.blocks + 1, bytes := nextTotal, cids := claimed :: st.cids }

def importLoop (F : Formats) (limit : UInt64) :
    Nat → Imported → Bytes → Exec Blockstore TransportError Imported
  | 0, _, _ => throw .diverged
  | fuel + 1, st, stream =>
      match nextBlock F stream with
      | .error e => throw e
      | .ok (none, _) => pure st
      | .ok (some (cid, data), stream) => do
          let st ← importBlock F limit st cid data
          importLoop F limit fuel st stream

/-- `import_with_limit`. -/
def importWithLimit (F : Formats) (stream : Bytes) (limit : UInt64) :
    Exec Blockstore TransportError ImportStats :=
  match readHeader F stream with
  | .error e => throw e
  | .ok (header, stream) => do
      let st ← importLoop F limit (stream.length + 1) {} stream
      match header.roots.find? fun root => root ∉ st.cids with
      | some root => throw (.missingRoot root)
      | none => return { blocks := st.blocks, bytes := st.bytes, roots := header.roots }

/-! ## What a run writes -/

def sizes (blocks : List (Cid × Bytes)) : Nat := (blocks.map fun e => e.2.length).sum

theorem sizes_append (l m : List (Cid × Bytes)) : sizes (l ++ m) = sizes l + sizes m := by
  simp [sizes]

/-- `written` went into the store, newest first: sections of the stream, each hashed and within
the limit. -/
structure Wrote (F : Formats) (limit : UInt64) (stream : Bytes) (before after : Blockstore)
    (written : List (Cid × Bytes)) : Prop where
  blocks : after.blocks = written ++ before.blocks
  hashed : ∀ e ∈ written, recomputeCid F e.1 e.2 = some e.1
  delivered : ∀ e ∈ written, e.2 <:+: stream
  limited : sizes written ≤ limit.toNat

variable {F : Formats} {limit : UInt64}

/-- A section that is hashed and fits is stored. -/
theorem importBlock_returns (st : Imported) {claimed : Cid} {data : Bytes} (bs : Blockstore)
    (hashed : recomputeCid F claimed data = some claimed)
    (room : st.bytes + data.length ≤ limit.toNat) :
    (importBlock F limit st claimed data).Returns bs
      { blocks := st.blocks + 1, bytes := st.bytes + data.length, cids := claimed :: st.cids }
      (bs.putTrusted claimed data) := by
  have below := limit.toNat_lt
  unfold importBlock
  rw [hashed]
  dsimp only
  rw [if_neg (by simp), if_neg (by omega), if_neg (by omega)]
  rfl

/-- A section is refused, or hashed, counted and stored. -/
theorem importBlock_cases (limit : UInt64) (st : Imported) (claimed : Cid) (data : Bytes) (bs : Blockstore) :
    (∃ e, e ≠ .diverged ∧ (importBlock F limit st claimed data).outcome bs = (.error e, bs)) ∨
      recomputeCid F claimed data = some claimed ∧ st.bytes + data.length ≤ limit.toNat ∧
        (importBlock F limit st claimed data).Returns bs
          { blocks := st.blocks + 1, bytes := st.bytes + data.length, cids := claimed :: st.cids }
          (bs.putTrusted claimed data) := by
  unfold importBlock
  cases computed : recomputeCid F claimed data with
  | none => exact .inl ⟨_, by simp, rfl⟩
  | some c =>
      dsimp only
      split
      · exact .inl ⟨_, by simp, rfl⟩
      · rename_i same
        obtain rfl := not_not.mp same
        split
        · exact .inl ⟨_, by simp, rfl⟩
        · split
          · exact .inl ⟨_, by simp, rfl⟩
          · exact .inr ⟨rfl, by omega, rfl⟩

/-- A loop that has counted `done` bytes: what it goes on to write, and how it ends. -/
theorem importLoop_wrote : ∀ {fuel : Nat} {st : Imported} {stream : Bytes} {bs bs' : Blockstore}
    {r : Except TransportError Imported}, stream.length < fuel → st.bytes ≤ limit.toNat →
      (importLoop F limit fuel st stream).outcome bs = (r, bs') →
        r ≠ .error .diverged ∧ ∃ written, bs'.blocks = written ++ bs.blocks ∧
          (∀ e ∈ written, recomputeCid F e.1 e.2 = some e.1) ∧
          (∀ e ∈ written, e.2 <:+: stream) ∧ st.bytes + sizes written ≤ limit.toNat ∧
          ∀ st', r = .ok st' → st'.blocks = st.blocks + written.length ∧
            st'.bytes = st.bytes + sizes written ∧ st'.cids = written.map Prod.fst ++ st.cids
  | 0, _, _, _, _, _, enough, _, _ => absurd enough (by omega)
  | fuel + 1, st, stream, bs, bs', r, enough, below, ran => by
      rw [importLoop] at ran
      split at ran
      · rename_i e read
        obtain ⟨rfl, rfl⟩ := Prod.mk.inj ran
        have other : e ≠ .diverged := by
          rintro rfl
          exact ends_nextBlock F stream read
        exact ⟨by simpa using other, [], rfl, nofun, nofun, by simpa [sizes] using below, nofun⟩
      · obtain ⟨rfl, rfl⟩ := Prod.mk.inj ran
        refine ⟨nofun, [], rfl, nofun, nofun, by simpa [sizes] using below, ?_⟩
        intro st' same
        obtain rfl := Except.ok.inj same
        exact ⟨rfl, rfl, rfl⟩
      · rename_i cid data rest read
        obtain ⟨front, some_front, split⟩ := nextBlock_splits read
        have inside : data <:+: stream := ⟨front, rest, by rw [split, List.append_assoc]⟩
        have shorter : rest.length < fuel := by
          have positive := List.length_pos_of_ne_nil some_front
          rw [split, List.length_append, List.length_append] at enough
          omega
        rcases importBlock_cases limit st cid data bs with
          ⟨e, other, failed⟩ | ⟨hashed, room, stored⟩
        · rw [Exec.outcome_bind, failed] at ran
          obtain ⟨rfl, rfl⟩ := Prod.mk.inj ran
          exact ⟨by simpa using other, [], rfl, nofun, nofun, by simpa [sizes] using below, nofun⟩
        · rw [Exec.outcome_bind, stored] at ran
          obtain ⟨ends, written, blocks, hashes, parts, total, counts⟩ :=
            importLoop_wrote shorter room ran
          refine ⟨ends, written ++ [(cid, data)], ?_, ?_, ?_, ?_, ?_⟩
          · rw [blocks, List.append_assoc]
            rfl
          · intro e member
            rcases List.mem_append.mp member with later | here
            · exact hashes e later
            · obtain rfl := List.mem_singleton.mp here
              exact hashed
          · intro e member
            rcases List.mem_append.mp member with later | here
            · exact (parts e later).trans ⟨front ++ data, [], by rw [split]; simp⟩
            · obtain rfl := List.mem_singleton.mp here
              exact inside
          · change st.bytes + data.length + sizes written ≤ _ at total
            rw [sizes_append]
            change st.bytes + (sizes written + (data.length + 0)) ≤ _
            omega
          · intro st' same
            obtain ⟨number, bytes, cids⟩ := counts st' same
            change _ = st.bytes + data.length + sizes written at bytes
            rw [sizes_append, List.length_append, bytes, cids, number]
            refine ⟨?_, ?_, by simp⟩
            · change st.blocks + 1 + written.length = st.blocks + (written.length + 1)
              omega
            · change _ = st.bytes + (sizes written + (data.length + 0))
              omega

/-- A whole run: what it writes, and what it reports. -/
theorem importWithLimit_wrote {stream : Bytes} {bs bs' : Blockstore}
    {r : Except TransportError ImportStats}
    (ran : (importWithLimit F stream limit).outcome bs = (r, bs')) :
    r ≠ .error .diverged ∧ ∃ written, Wrote F limit stream bs bs' written ∧
      ∀ stats, r = .ok stats → stats.blocks = written.length ∧ stats.bytes = sizes written ∧
        ∃ header rest, readHeader F stream = .ok (header, rest) ∧ stats.roots = header.roots ∧
          ∀ root ∈ header.roots, root ∈ written.map Prod.fst := by
  have nothing : Wrote F limit stream bs bs [] := ⟨rfl, nofun, nofun, Nat.zero_le _⟩
  unfold importWithLimit at ran
  split at ran
  · rename_i e read
    obtain ⟨rfl, rfl⟩ := Prod.mk.inj ran
    refine ⟨?_, [], nothing, nofun⟩
    intro same
    obtain rfl := Except.error.inj same
    exact ends_readHeader F stream read
  · rename_i header rest read
    obtain ⟨front, split⟩ := readHeader_splits read
    rw [Exec.outcome_bind] at ran
    rcases looped : (importLoop F limit (rest.length + 1) {} rest).outcome bs with ⟨r₁, bs₁⟩
    rw [looped] at ran
    obtain ⟨ends, written, blocks, hashed, parts, total, counts⟩ :=
      importLoop_wrote (Nat.lt_succ_self _) (Nat.zero_le _) looped
    change 0 + sizes written ≤ _ at total
    have wrote : Wrote F limit stream bs bs₁ written :=
      ⟨blocks, hashed, fun e m => (parts e m).trans ⟨front, [], by rw [split]; simp⟩, by omega⟩
    cases r₁ with
    | error e =>
        obtain ⟨rfl, rfl⟩ := Prod.mk.inj ran
        refine ⟨fun same => ends ?_, written, wrote, nofun⟩
        rw [Except.error.inj same]
    | ok st =>
        obtain ⟨number, bytes, cids⟩ := counts st rfl
        rw [show ({} : Imported).blocks = 0 from rfl, Nat.zero_add] at number
        rw [show ({} : Imported).bytes = 0 from rfl, Nat.zero_add] at bytes
        change _ = written.map Prod.fst ++ [] at cids
        dsimp only at ran
        split at ran
        · obtain ⟨rfl, rfl⟩ := Prod.mk.inj ran
          exact ⟨by simp, written, wrote, nofun⟩
        · rename_i all
          obtain ⟨rfl, rfl⟩ := Prod.mk.inj ran
          refine ⟨nofun, written, wrote, ?_⟩
          intro stats same
          obtain rfl := Except.ok.inj same
          refine ⟨number, bytes, header, rest, read, rfl, fun root member => ?_⟩
          have inside := List.find?_eq_none.mp all root member
          rw [cids, List.append_nil] at inside
          simpa using inside

/-- Neither hash makes these two byte strings collide. -/
def Apart (F : Formats) (a b : Bytes) : Prop :=
  (F.sha2_256 a = F.sha2_256 b → a = b) ∧ (F.blake3_256 a = F.blake3_256 b → a = b)

theorem eq_of_recomputed {cid : Cid} {a b : Bytes} (apart : Apart F a b)
    (left : recomputeCid F cid a = some cid) (right : recomputeCid F cid b = some cid) : a = b := by
  have both := left.trans right.symm
  unfold recomputeCid at both
  split at both
  · exact apart.1 (by simpa using both)
  · split at both
    · exact apart.2 (by simpa using both)
    · rename_i other unknown
      simp [recomputeCid, other, unknown] at left

/-- Importing any bytes ends, writes only blocks that hash to their identifiers, within the limit,
changes no block that was there, and returns only where every declared root was delivered. -/
theorem import_keeps_sound (stream : Bytes) (limit : UInt64) {bs : Blockstore}
    (sound : bs.Sound F)
    (apart : ∀ cid old new, bs.get cid = some old → new <:+: stream → Apart F old new) :
    ∃ r bs' written, (importWithLimit F stream limit).outcome bs = (r, bs') ∧
      r ≠ .error .diverged ∧ bs'.blocks = written ++ bs.blocks ∧
      (∀ e ∈ written, recomputeCid F e.1 e.2 = some e.1) ∧ sizes written ≤ limit.toNat ∧
      (∀ cid data, bs.get cid = some data → bs'.get cid = some data) ∧ bs'.Sound F ∧
      ∀ stats, r = .ok stats → ∃ header rest, readHeader F stream = .ok (header, rest) ∧
        stats.roots = header.roots ∧ ∀ root ∈ header.roots, root ∈ written.map Prod.fst := by
  rcases ran : (importWithLimit F stream limit).outcome bs with ⟨r, bs'⟩
  obtain ⟨ends, written, wrote, reports⟩ := importWithLimit_wrote ran
  have reads : ∀ cid, bs'.get cid = (Entries.get? cid written).or (bs.get cid) := by
    intro cid
    rw [Blockstore.get, wrote.blocks, Entries.get?_append]
    rfl
  have hashes : ∀ cid data, Entries.get? cid written = some data →
      recomputeCid F cid data = some cid :=
    fun cid data found => wrote.hashed _ (Entries.mem_of_get? found)
  refine ⟨r, bs', written, rfl, ends, wrote.blocks, wrote.hashed, wrote.limited, ?_, ?_, ?_⟩
  · intro cid old stored
    rw [reads]
    cases found : Entries.get? cid written with
    | none => exact stored
    | some new =>
        -- the delivered block is under a known algorithm, so the stored one was sound
        have hashed := hashes cid new found
        have before : recomputeCid F cid old = some cid := by
          obtain ⟨c, computed⟩ := recomputeCid_known hashed old
          rw [computed, sound cid old c stored computed]
        have part := wrote.delivered _ (Entries.mem_of_get? found)
        rw [eq_of_recomputed (apart cid old new stored part) before hashed]
        rfl
  · intro cid data computed stored hashed
    rw [reads] at stored
    cases found : Entries.get? cid written with
    | none =>
        rw [found] at stored
        exact sound cid data computed stored hashed
    | some new =>
        rw [found] at stored
        obtain rfl := Option.some.inj stored
        exact Option.some.inj (hashed.symm.trans (hashes cid new found))
  · intro stats same
    exact (reports stats same).2.2

/-- A store that has `hello`, and an archive that brings `world`. -/
def helloStore : Blockstore := { blocks := [(Fragment.cidOf codecRaw Fragment.hello, Fragment.hello)] }

def worldArchive : Bytes :=
  [0x11, 0xa2, 0x65, 0x72, 0x6f, 0x6f, 0x74, 0x73, 0x80, 0x67, 0x76, 0x65, 0x72, 0x73, 0x69, 0x6f,
    0x6e, 0x01] ++ writeBlock (Fragment.cidOf codecRaw Fragment.world) Fragment.world

/-- Neither the first byte of `hello` nor that of its digest is anywhere in the archive. -/
theorem apart_worldArchive {new : Bytes} (part : new <:+: worldArchive) :
    Apart (Fragment.formats Fragment.table) Fragment.hello new := by
  have all : ∀ b ∈ worldArchive, b ≠ 0x2c ∧ b ≠ 0x68 := by decide +kernel
  have first : new.headD 0 ≠ 0x2c ∧ new.headD 0 ≠ 0x68 := by
    cases new with
    | nil => decide
    | cons b new => exact all b (part.subset List.mem_cons_self)
  constructor
  · intro same
    have heads := congrArg List.head? same
    change (Fragment.digest Fragment.table Fragment.hello).head? =
      (Fragment.digest Fragment.table new).head? at heads
    rw [Fragment.head?_digest, Fragment.head?_digest] at heads
    cases found : Entries.get? new Fragment.table with
    | none =>
        rw [found] at heads
        exact absurd (Option.some.inj heads).symm first.1
    | some d =>
        rw [found, Option.getD_some] at heads
        have member := Entries.mem_of_get? found
        simp only [Fragment.table, List.mem_cons, Prod.mk.injEq, List.not_mem_nil, or_false] at member
        rcases member with ⟨rfl, -⟩ | ⟨-, rfl⟩ | ⟨-, rfl⟩ | ⟨-, rfl⟩
        · rfl
        · exact absurd heads (by decide)
        · exact absurd heads (by decide)
        · exact absurd heads (by decide)
  · intro same
    have heads := congrArg List.head? same
    change (Fragment.digest [] Fragment.hello).head? = (Fragment.digest [] new).head? at heads
    rw [Fragment.head?_digest, Fragment.head?_digest] at heads
    exact absurd (Option.some.inj heads).symm first.2

/-- Importing `world` beside `hello`. -/
theorem import_keeps_sound_world : ∃ r bs' written,
    (importWithLimit (Fragment.formats Fragment.table) worldArchive 1000).outcome helloStore =
        (r, bs') ∧
      r ≠ .error .diverged ∧ bs'.blocks = written ++ helloStore.blocks ∧
      (∀ e ∈ written, recomputeCid (Fragment.formats Fragment.table) e.1 e.2 = some e.1) ∧
      sizes written ≤ 1000 ∧
      (∀ cid data, helloStore.get cid = some data → bs'.get cid = some data) ∧
      bs'.Sound (Fragment.formats Fragment.table) ∧
      ∀ stats, r = .ok stats → ∃ header rest,
        readHeader (Fragment.formats Fragment.table) worldArchive = .ok (header, rest) ∧
          stats.roots = header.roots ∧ ∀ root ∈ header.roots, root ∈ written.map Prod.fst := by
  have stored : ∀ cid data, helloStore.get cid = some data →
      cid = Fragment.cidOf codecRaw Fragment.hello ∧ data = Fragment.hello := by
    intro cid data found
    have member := List.mem_singleton.mp (Entries.mem_of_get? found)
    exact Prod.mk.inj member
  refine import_keeps_sound worldArchive 1000 ?_ ?_
  · intro cid data computed found hashed
    obtain ⟨rfl, rfl⟩ := stored cid data found
    rw [Fragment.recomputeCid_cidOf] at hashed
    exact (Option.some.inj hashed).symm
  · intro cid old new found part
    obtain ⟨-, rfl⟩ := stored cid old found
    exact apart_worldArchive part

end Mnem.Transport
