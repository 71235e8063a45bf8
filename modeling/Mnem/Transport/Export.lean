/-
# Transport.Export — writing what a root reaches, and the round trip

`export` writes the blocks reachable from one root in the order of the store's
walk; `fetch_blocks` does so for several roots and writes no block twice.  A
`Carried` block is one that archives can carry: present, hashed, within the
reader's cap, and with links the walk finds.  Where every reachable block is
carried, an import gives back the roots, the number of blocks, and exactly the
reachable blocks (`car_round_trip`).
-/
import Mnem.Transport.Fragment
import Mnem.Transport.Import
import Mnem.Theory.Walk
import Mathlib.Algebra.Order.BigOperators.Group.List

namespace Mnem.Transport

open Theory

set_option autoImplicit false

/-! ## The walk -/

namespace Blockstore

/-- One block of the walk and its links; only DAG-CBOR blocks have any. -/
def visit (F : Formats) (bs : Blockstore) (cid : Cid) : Except StoreError (Bytes × List Cid) :=
  match bs.get cid with
  | none => .error (.notFound cid)
  | some data =>
      if cid.codec = codecDagCbor then
        match Codec.extractLinks F.cbor data with
        | .ok links => .ok (data, links)
        | .error e => .error (.links cid e)
      else .ok (data, [])

/-- `iter_from_root`. -/
def iterFromRoot (F : Formats) (bs : Blockstore) (root : Cid) :
    Except StoreError (List (Cid × Bytes)) :=
  Walk.collect (bs.visit F) .diverged (bs.blocks.length + 1) (Walk.start root)

end Blockstore

/-! ## Export -/

structure ExportStats where
  blocks : Nat
  bytes : Nat

def writeBlocks (sections : List (Cid × Bytes)) : Bytes :=
  sections.flatMap fun e => writeBlock e.1 e.2

/-- `export`: the archive it writes. -/
def exportRoot (F : Formats) (bs : Blockstore) (root : Cid) :
    Except TransportError (Bytes × ExportStats) := do
  let header ← writeHeader F (.singleRoot root)
  let sections ← (bs.iterFromRoot F root).mapError .store
  return (header ++ writeBlocks sections,
    { blocks := sections.length, bytes := header.length + (writeBlocks sections).length })

inductive RemoteError where
  | badRequest (message : String)
  | notFound (cid : Cid)
  | header (cause : TransportError)
  | walk (cause : StoreError)
  deriving DecidableEq

/-- One block of a want: written unless an earlier want had it. -/
def emit (acc : List Cid × Bytes) (block : Cid × Bytes) : List Cid × Bytes :=
  if block.1 ∈ acc.1 then acc else (block.1 :: acc.1, acc.2 ++ writeBlock block.1 block.2)

def fetchWant (F : Formats) (bs : Blockstore) (acc : List Cid × Bytes) (want : Cid) :
    Except RemoteError (List Cid × Bytes) := do
  let blocks ← (bs.iterFromRoot F want).mapError fun e =>
    match e with
    | .notFound cid => .notFound cid
    | other => .walk other
  return blocks.foldl emit acc

/-- `post_fetch_blocks`: the archive it answers with. -/
def fetchBlocks (F : Formats) (bs : Blockstore) (wants : List Cid) : Except RemoteError Bytes :=
  if wants = [] then .error (.badRequest "wants: must be non-empty")
  else do
    let header ← (writeHeader F { version := 1, roots := wants }).mapError .header
    let (_, buf) ← wants.foldlM (fetchWant F bs) ([], header)
    return buf

/-! ## Reachability -/

namespace Blockstore

variable {F : Formats} {bs : Blockstore}

/-- The block at `a` is DAG-CBOR, and `b` is a link in it. -/
def LinksTo (F : Formats) (bs : Blockstore) (a b : Cid) : Prop :=
  ∃ data v, bs.get a = some data ∧ a.codec = codecDagCbor ∧ F.cbor.decode data = .ok v ∧ b ∈ v.links

def Reaches (F : Formats) (bs : Blockstore) : Cid → Cid → Prop :=
  Relation.ReflTransGen (LinksTo F bs)

/-- What an archive can carry: the block is there, its links are found, it is hashed by a known
algorithm to its identifier, and its section is within the reader's cap. -/
structure Carried (F : Formats) (bs : Blockstore) (cid : Cid) (data : Bytes) : Prop where
  present : bs.get cid = some data
  linked : cid.codec = codecDagCbor → ∃ links, Codec.extractLinks F.cbor data = .ok links
  hashed : recomputeCid F cid data = some cid
  capped : cid.toBytes.length + data.length ≤ maxBlockBytes

/-- Blocks with different identifiers from a set are together no larger than a limit. -/
def Fits (bs : Blockstore) (reached : Cid → Prop) (limit : UInt64) : Prop :=
  ∀ blocks : List (Cid × Bytes), (blocks.map Prod.fst).Nodup →
    (∀ e ∈ blocks, reached e.1 ∧ bs.get e.1 = some e.2) → sizes blocks ≤ limit.toNat

/-- The links the walk finds are the links of the value. -/
theorem links_of_extractLinks {data : Bytes} {links : List Cid}
    (found : Codec.extractLinks F.cbor data = .ok links) :
    ∃ v, F.cbor.decode data = .ok v ∧ links = v.links := by
  unfold Codec.extractLinks at found
  split at found
  · rename_i v decoded
    rw [Codec.walkIpld_eq] at found
    split at found
    · exact ⟨v, decoded, (Except.ok.inj found).symm⟩
    · cases found
  · cases found

theorem visit_ok_iff {cid : Cid} {data : Bytes} {links : List Cid} :
    bs.visit F cid = .ok (data, links) ↔ bs.get cid = some data ∧
      if cid.codec = codecDagCbor then Codec.extractLinks F.cbor data = .ok links
      else links = [] := by
  unfold visit
  cases bs.get cid with
  | none => simp
  | some stored =>
      simp only [Option.some.injEq]
      by_cases cbor : cid.codec = codecDagCbor
      · rw [if_pos cbor, if_pos cbor]
        cases found : Codec.extractLinks F.cbor stored with
        | ok links' =>
            simp only [Except.ok.injEq, Prod.mk.injEq]
            constructor
            · rintro ⟨rfl, rfl⟩
              exact ⟨rfl, found⟩
            · rintro ⟨rfl, again⟩
              exact ⟨rfl, Except.ok.inj (found.symm.trans again)⟩
        | error e =>
            simp only [reduceCtorEq, false_iff]
            rintro ⟨rfl, again⟩
            cases found.symm.trans again
      · rw [if_neg cbor, if_neg cbor]
        simp [eq_comm]

theorem linksTo_of_links {a b : Cid} (link : Walk.Links (bs.visit F) a b) : LinksTo F bs a b := by
  obtain ⟨data, links, read, member⟩ := link
  obtain ⟨present, found⟩ := visit_ok_iff.mp read
  split at found
  · obtain ⟨v, decoded, rfl⟩ := links_of_extractLinks found
    exact ⟨data, v, present, ‹_›, decoded, member⟩
  · subst found
    cases member

theorem Carried.links {a b : Cid} {data : Bytes} (carried : Carried F bs a data)
    (link : LinksTo F bs a b) : Walk.Links (bs.visit F) a b := by
  obtain ⟨data', v, present, cbor, decoded, member⟩ := link
  obtain rfl := Option.some.inj (carried.present.symm.trans present)
  obtain ⟨links, found⟩ := carried.linked cbor
  obtain ⟨v', decoded', rfl⟩ := links_of_extractLinks found
  obtain rfl := Except.ok.inj (decoded.symm.trans decoded')
  exact ⟨data, v.links, visit_ok_iff.mpr ⟨present, by rw [if_pos cbor]; exact found⟩, member⟩

theorem Carried.visited {cid : Cid} {data : Bytes} (carried : Carried F bs cid data) :
    ∃ links, bs.visit F cid = .ok (data, links) := by
  by_cases cbor : cid.codec = codecDagCbor
  · obtain ⟨links, found⟩ := carried.linked cbor
    exact ⟨links, visit_ok_iff.mpr ⟨carried.present, by rw [if_pos cbor]; exact found⟩⟩
  · exact ⟨[], visit_ok_iff.mpr ⟨carried.present, if_neg cbor ▸ rfl⟩⟩

theorem reaches_of_walk {root c : Cid} (reached : Walk.Reaches (bs.visit F) root c) :
    bs.Reaches F root c :=
  reached.lift id fun _ _ => linksTo_of_links

theorem walk_of_reaches {root : Cid}
    (all : ∀ c, bs.Reaches F root c → ∃ data, Carried F bs c data) {c : Cid}
    (reached : bs.Reaches F root c) : Walk.Reaches (bs.visit F) root c := by
  induction reached with
  | refl => exact .refl
  | tail before link ih =>
      obtain ⟨data, carried⟩ := all _ before
      exact ih.tail (carried.links link)

/-- Where everything reachable is carried, the walk yields exactly that, each block once. -/
theorem iterFromRoot_carried {root : Cid}
    (all : ∀ c, bs.Reaches F root c → ∃ data, Carried F bs c data) :
    ∃ items, bs.iterFromRoot F root = .ok items ∧ (items.map Prod.fst).Nodup ∧
      (∀ c, c ∈ items.map Prod.fst ↔ bs.Reaches F root c) ∧
      ∀ e ∈ items, Carried F bs e.1 e.2 := by
  have finite : ∀ k v links, bs.visit F k = .ok (v, links) → k ∈ bs.blocks.map Prod.fst := by
    intro k v links read
    have present := (visit_ok_iff.mp read).1
    exact List.mem_map_of_mem (f := Prod.fst) (Entries.mem_of_get? present)
  have enough : (bs.blocks.map Prod.fst).length < bs.blocks.length + 1 := by simp
  rcases Walk.collect_cases finite enough root with ⟨items, ran⟩ | ⟨k, e, reached, fails, -⟩
  · obtain ⟨once, exact, values⟩ := Walk.collect_exact ran
    have same : ∀ c, c ∈ items.map Prod.fst ↔ bs.Reaches F root c :=
      fun c => (exact c).trans ⟨reaches_of_walk, walk_of_reaches all⟩
    refine ⟨items, ran, once, same, fun item member => ?_⟩
    obtain ⟨data, carried⟩ := all item.1 ((same _).mp (List.mem_map_of_mem (f := Prod.fst) member))
    obtain ⟨links, read⟩ := values item member
    obtain ⟨present, -⟩ := visit_ok_iff.mp read
    obtain rfl := Option.some.inj (carried.present.symm.trans present)
    exact carried
  · obtain ⟨data, carried⟩ := all k (reaches_of_walk reached)
    obtain ⟨links, read⟩ := carried.visited
    rw [read] at fails
    cases fails

end Blockstore

/-! ## Importing what was written -/

variable {F : Formats} {limit : UInt64}

theorem length_le_writeBlocks (sections : List (Cid × Bytes)) :
    sections.length ≤ (writeBlocks sections).length := by
  induction sections with
  | nil => exact Nat.zero_le _
  | cons e sections ih =>
      have some_bytes : 0 < (writeBlock e.1 e.2).length :=
        List.length_pos_of_ne_nil (by simp [writeBlock, Leb128.encode_ne_nil])
      change _ ≤ (writeBlock e.1 e.2 ++ writeBlocks sections).length
      rw [List.length_cons, List.length_append]
      omega

/-- The loop stores every section, the last one newest. -/
theorem importLoop_writeBlocks : ∀ (sections : List (Cid × Bytes)) (fuel : Nat) (st : Imported)
    (dst : Blockstore), sections.length < fuel →
      (∀ e ∈ sections, recomputeCid F e.1 e.2 = some e.1 ∧
        e.1.toBytes.length + e.2.length ≤ maxBlockBytes) →
      st.bytes + sizes sections ≤ limit.toNat →
        (importLoop F limit fuel st (writeBlocks sections)).Returns dst
          { blocks := st.blocks + sections.length, bytes := st.bytes + sizes sections,
            cids := (sections.map Prod.fst).reverse ++ st.cids }
          { blocks := sections.reverse ++ dst.blocks }
  | [], 0, _, _, enough, _, _ => absurd enough (by simp)
  | [], _ + 1, _, _, _, _, _ => rfl
  | _ :: _, 0, _, _, enough, _, _ => absurd enough (by simp)
  | (cid, data) :: sections, fuel + 1, st, dst, enough, each, room => by
      obtain ⟨hashed, capped⟩ := each _ List.mem_cons_self
      have total : st.bytes + (data.length + sizes sections) ≤ limit.toNat := room
      obtain ⟨codec, hash, same⟩ := recomputeCid_v1 hashed
      dsimp only at same hashed capped
      subst same
      have stored := importBlock_returns st dst hashed (by omega : st.bytes + data.length ≤ limit.toNat)
      have rest := importLoop_writeBlocks sections fuel
        { blocks := st.blocks + 1, bytes := st.bytes + data.length, cids := .v1 codec hash :: st.cids }
        (dst.putTrusted (.v1 codec hash) data) (by simpa using enough)
        (fun e m => each e (List.mem_cons_of_mem _ m)) (by change _ + _ + _ ≤ _; omega)
      have read := nextBlock_writeBlock F codec hash data (writeBlocks sections) capped
      have looped : (importLoop F limit (fuel + 1) st (writeBlocks ((.v1 codec hash, data) :: sections))) =
          (importBlock F limit st (.v1 codec hash) data >>= fun st =>
            importLoop F limit fuel st (writeBlocks sections)) := by
        change importLoop F limit (fuel + 1) st
          (writeBlock (.v1 codec hash) data ++ writeBlocks sections) = _
        rw [importLoop, read]
      rw [looped, Exec.returns_bind]
      refine ⟨_, _, stored, ?_⟩
      have counted : sizes ((.v1 codec hash, data) :: sections) = data.length + sizes sections := rfl
      simpa [counted, Nat.add_assoc, Nat.add_comm 1, Blockstore.putTrusted] using rest

/-- An archive whose header fits and whose sections are sound is stored as it stands. -/
theorem importWithLimit_archive {roots : List Cid} {body : Bytes} {sections : List (Cid × Bytes)}
    (dst : Blockstore) (written : F.cbor.encode (headerIpld 1 roots) = .ok body)
    (short : body.length ≤ maxHeaderBytes)
    (each : ∀ e ∈ sections, recomputeCid F e.1 e.2 = some e.1 ∧
      e.1.toBytes.length + e.2.length ≤ maxBlockBytes)
    (room : sizes sections ≤ limit.toNat) (delivered : ∀ root ∈ roots, root ∈ sections.map Prod.fst) :
    (importWithLimit F (Leb128.encode body.length ++ body ++ writeBlocks sections) limit).Returns dst
      { blocks := sections.length, bytes := sizes sections, roots := roots }
      { blocks := sections.reverse ++ dst.blocks } := by
  have steps := length_le_writeBlocks sections
  have within : ({} : Imported).bytes + sizes sections ≤ limit.toNat := by
    change 0 + _ ≤ _
    omega
  have looped := importLoop_writeBlocks sections ((writeBlocks sections).length + 1)
    {} dst (by omega) each within
  unfold importWithLimit
  rw [readHeader_writeHeader (writeBlocks sections) written short]
  dsimp only
  rw [Exec.returns_bind]
  refine ⟨_, _, looped, ?_⟩
  have none_missing : roots.find? (fun root => root ∉ (sections.map Prod.fst).reverse ++ []) = none := by
    rw [List.find?_eq_none]
    intro root member
    simpa using delivered root member
  dsimp only
  rw [none_missing]
  simp

/-! ## Several roots -/

/-- What has been emitted behind `front`: carried blocks, each once. -/
structure Emitted (F : Formats) (bs : Blockstore) (front : Bytes) (acc : List Cid × Bytes)
    (sections : List (Cid × Bytes)) : Prop where
  visited : ∀ c, c ∈ acc.1 ↔ c ∈ sections.map Prod.fst
  written : acc.2 = front ++ writeBlocks sections
  once : (sections.map Prod.fst).Nodup
  carried : ∀ e ∈ sections, Blockstore.Carried F bs e.1 e.2

theorem writeBlocks_append (l m : List (Cid × Bytes)) :
    writeBlocks (l ++ m) = writeBlocks l ++ writeBlocks m := List.flatMap_append

/-- One want adds the blocks that no earlier want had. -/
theorem Emitted.emit {bs : Blockstore} {front : Bytes} : ∀ {items : List (Cid × Bytes)}
    {acc : List Cid × Bytes} {sections : List (Cid × Bytes)}, Emitted F bs front acc sections →
      (∀ e ∈ items, Blockstore.Carried F bs e.1 e.2) →
        ∃ sections', Emitted F bs front (items.foldl Transport.emit acc) sections' ∧
          ∀ c, c ∈ sections'.map Prod.fst ↔ c ∈ sections.map Prod.fst ∨ c ∈ items.map Prod.fst
  | [], _, sections, before, _ => ⟨sections, before, by simp⟩
  | (cid, data) :: items, acc, sections, before, each => by
      have rest := fun e m => each e (List.mem_cons_of_mem _ m)
      rw [List.foldl_cons]
      by_cases old : cid ∈ acc.1
      · have kept : Transport.emit acc (cid, data) = acc := if_pos old
        rw [kept]
        obtain ⟨sections', after, members⟩ := before.emit rest
        refine ⟨sections', after, fun c => (members c).trans ?_⟩
        have known := (before.visited cid).mp old
        simp only [List.map_cons, List.mem_cons]
        constructor
        · exact Or.imp_right .inr
        · rintro (h | rfl | h)
          · exact .inl h
          · exact .inl known
          · exact .inr h
      · have added : Transport.emit acc (cid, data) =
            (cid :: acc.1, acc.2 ++ writeBlock cid data) := if_neg old
        have next : Emitted F bs front (cid :: acc.1, acc.2 ++ writeBlock cid data)
            (sections ++ [(cid, data)]) := by
          constructor
          case visited =>
            intro c
            simp [before.visited c, or_comm]
          case written =>
            rw [writeBlocks_append, before.written, List.append_assoc]
            simp [writeBlocks]
          case once =>
            rw [List.map_append, List.nodup_append]
            refine ⟨before.once, by simp, ?_⟩
            rintro c known d here rfl
            obtain rfl := List.mem_singleton.mp here
            exact old ((before.visited _).mpr known)
          case carried =>
            intro e member
            rcases List.mem_append.mp member with earlier | last
            · exact before.carried e earlier
            · obtain rfl := List.mem_singleton.mp last
              exact each _ List.mem_cons_self
        rw [added]
        obtain ⟨sections', after, members⟩ := next.emit rest
        refine ⟨sections', after, fun c => (members c).trans ?_⟩
        simp [or_assoc]

/-- Where everything reachable from the wants is carried, each of it is emitted once. -/
theorem Emitted.wants {bs : Blockstore} {front : Bytes} : ∀ {wants : List Cid}
    {acc : List Cid × Bytes} {sections : List (Cid × Bytes)}, Emitted F bs front acc sections →
      (∀ want ∈ wants, ∀ c, bs.Reaches F want c → ∃ data, Blockstore.Carried F bs c data) →
        ∃ acc' sections', wants.foldlM (fetchWant F bs) acc = .ok acc' ∧
          Emitted F bs front acc' sections' ∧ ∀ c, c ∈ sections'.map Prod.fst ↔
            c ∈ sections.map Prod.fst ∨ ∃ want ∈ wants, bs.Reaches F want c
  | [], acc, sections, before, _ => ⟨acc, sections, rfl, before, by simp⟩
  | want :: wants, acc, sections, before, all => by
      obtain ⟨items, ran, -, reached, carried⟩ :=
        Blockstore.iterFromRoot_carried (all want List.mem_cons_self)
      obtain ⟨sections₁, one, members₁⟩ := before.emit carried
      obtain ⟨acc', sections', others, after, members⟩ :=
        one.wants fun w m => all w (List.mem_cons_of_mem _ m)
      refine ⟨acc', sections', ?_, after, fun c => (members c).trans ?_⟩
      · rw [List.foldlM_cons, fetchWant, ran]
        exact others
      · rw [members₁, reached]
        simp [or_assoc]

/-! ## The round trip -/

/-- What an import has copied: what is reached, as the source has it, and nothing else. -/
structure Copied (reached : Cid → Prop) (src dst dst' : Blockstore) : Prop where
  present : ∀ c, reached c → ∃ data, src.get c = some data ∧ dst'.get c = some data
  others : ∀ c, ¬ reached c → dst'.get c = dst.get c

/-- The header of an archive with these roots is within the reader's cap. -/
def HeaderFits (F : Formats) (roots : List Cid) : Prop :=
  ∃ body, F.cbor.encode (headerIpld 1 roots) = .ok body ∧ body.length ≤ maxHeaderBytes

theorem headerFits_singleRoot (F : Formats) (root : Cid) : HeaderFits F [root] := by
  obtain ⟨body, written, short⟩ := F.encode_header [root] (by simp)
  refine ⟨body, written, short.trans ?_⟩
  change 64 + 128 * 1 ≤ 8 * 1024 * 1024
  omega

theorem writeHeader_eq {F : Formats} {roots : List Cid} {body : Bytes}
    (written : F.cbor.encode (headerIpld 1 roots) = .ok body) :
    writeHeader F { version := 1, roots := roots } = .ok (Leb128.encode body.length ++ body) := by
  unfold writeHeader CarHeader.toDagcbor
  rw [written]
  rfl

/-- What `fetch_blocks` answers: the header, and everything reachable once. -/
theorem fetchBlocks_carried {src : Blockstore} {wants : List Cid} {body : Bytes}
    (some_wants : wants ≠ []) (written : F.cbor.encode (headerIpld 1 wants) = .ok body)
    (all : ∀ want ∈ wants, ∀ c, src.Reaches F want c → ∃ data, Blockstore.Carried F src c data) :
    ∃ sections,
      fetchBlocks F src wants = .ok (Leb128.encode body.length ++ body ++ writeBlocks sections) ∧
        (sections.map Prod.fst).Nodup ∧
        (∀ c, c ∈ sections.map Prod.fst ↔ ∃ want ∈ wants, src.Reaches F want c) ∧
        ∀ e ∈ sections, Blockstore.Carried F src e.1 e.2 := by
  have front : Emitted F src (Leb128.encode body.length ++ body)
      ([], Leb128.encode body.length ++ body) [] :=
    ⟨fun c => Iff.rfl, by simp [writeBlocks], List.nodup_nil, nofun⟩
  obtain ⟨acc, sections, ran, after, members⟩ := front.wants all
  refine ⟨sections, ?_, after.once, fun c => (members c).trans ?_, after.carried⟩
  · rw [fetchBlocks, if_neg some_wants, writeHeader_eq written]
    change (wants.foldlM (fetchWant F src) ([], Leb128.encode body.length ++ body) >>= _) = _
    rw [ran]
    exact congrArg _ after.written
  · exact ⟨fun h => h.resolve_left nofun, .inr⟩

/-- Storing sections that stand for what is reached copies it. -/
theorem copied_of_sections {src dst : Blockstore} {reached : Cid → Prop}
    {sections : List (Cid × Bytes)} (once : (sections.map Prod.fst).Nodup)
    (exact : ∀ c, c ∈ sections.map Prod.fst ↔ reached c)
    (present : ∀ e ∈ sections, src.get e.1 = some e.2) :
    Copied reached src dst { blocks := sections.reverse ++ dst.blocks } := by
  have reads : ∀ c, Blockstore.get { blocks := sections.reverse ++ dst.blocks } c =
      (Entries.get? c sections.reverse).or (dst.get c) := fun c => Entries.get?_append c _ _
  constructor
  case present =>
    intro c h
    obtain ⟨⟨c, data⟩, member, rfl⟩ := List.mem_map.mp ((exact c).mpr h)
    have nodup : (sections.reverse.map Prod.fst).Nodup := by
      rw [List.map_reverse]
      exact List.nodup_reverse.mpr once
    have found : Entries.get? c sections.reverse = some data :=
      (Entries.get?_eq_some_iff_of_nodup nodup).mpr (List.mem_reverse.mpr member)
    exact ⟨data, present _ member, by rw [reads, found]; rfl⟩
  case others =>
    intro c h
    have absent : Entries.get? c sections.reverse = none := by
      refine Entries.get?_eq_none_iff.mpr fun e member same => h ((exact c).mp ?_)
      exact same ▸ List.mem_map_of_mem (f := Prod.fst) (List.mem_reverse.mp member)
    rw [reads, absent]
    rfl

/-- Export and import, and `fetch_blocks` and import: where every reachable block is carried, the
archives are written, and importing one copies exactly what the roots reach. -/
theorem car_round_trip (F : Formats) (src : Blockstore) (limit : UInt64) :
    (∀ root, (∀ c, src.Reaches F root c → ∃ data, Blockstore.Carried F src c data) →
      src.Fits (src.Reaches F root) limit →
        ∃ archive stats, exportRoot F src root = .ok (archive, stats) ∧ ∀ dst, ∃ bytes dst',
          (importWithLimit F archive limit).Returns dst
            { blocks := stats.blocks, bytes := bytes, roots := [root] } dst' ∧
          Copied (src.Reaches F root) src dst dst') ∧
    ∀ wants, wants ≠ [] → HeaderFits F wants →
      (∀ want ∈ wants, ∀ c, src.Reaches F want c → ∃ data, Blockstore.Carried F src c data) →
      src.Fits (fun c => ∃ want ∈ wants, src.Reaches F want c) limit →
        ∃ header sections, fetchBlocks F src wants = .ok (header ++ writeBlocks sections) ∧
          (sections.map Prod.fst).Nodup ∧
          (∀ c, c ∈ sections.map Prod.fst ↔ ∃ want ∈ wants, src.Reaches F want c) ∧
          (∀ e ∈ sections, src.get e.1 = some e.2) ∧
          ∀ dst, ∃ bytes dst',
            (importWithLimit F (header ++ writeBlocks sections) limit).Returns dst
              { blocks := sections.length, bytes := bytes, roots := wants } dst' ∧
            Copied (fun c => ∃ want ∈ wants, src.Reaches F want c) src dst dst' := by
  constructor
  · intro root all fits
    obtain ⟨body, written, short⟩ := headerFits_singleRoot F root
    obtain ⟨sections, ran, once, exact, carried⟩ := Blockstore.iterFromRoot_carried all
    have room : sizes sections ≤ limit.toNat := fits sections once fun e m =>
      ⟨(exact _).mp (List.mem_map_of_mem (f := Prod.fst) m), (carried e m).present⟩
    refine ⟨_, _, by rw [exportRoot, CarHeader.singleRoot, writeHeader_eq written, ran]; rfl, ?_⟩
    intro dst
    refine ⟨_, _, importWithLimit_archive dst written short
      (fun e m => ⟨(carried e m).hashed, (carried e m).capped⟩) room ?_, ?_⟩
    · intro r member
      obtain rfl := List.mem_singleton.mp member
      exact (exact r).mpr .refl
    · exact copied_of_sections once exact fun e m => (carried e m).present
  · rintro wants some_wants ⟨body, written, short⟩ all fits
    obtain ⟨sections, ran, once, exact, carried⟩ := fetchBlocks_carried some_wants written all
    have room : sizes sections ≤ limit.toNat := fits sections once fun e m =>
      ⟨(exact _).mp (List.mem_map_of_mem (f := Prod.fst) m), (carried e m).present⟩
    refine ⟨Leb128.encode body.length ++ body, sections, ran, once, exact,
      fun e m => (carried e m).present, fun dst => ?_⟩
    refine ⟨_, _, importWithLimit_archive dst written short
      (fun e m => ⟨(carried e m).hashed, (carried e m).capped⟩) room ?_, ?_⟩
    · intro want member
      exact (exact want).mpr ⟨want, member, .refl⟩
    · exact copied_of_sections once exact fun e m => (carried e m).present

/-! ### Archives that are refused -/

/-- A raw block links to nothing. -/
theorem eq_of_reaches_raw {bs : Blockstore} {root c : Cid} (raw : root.codec ≠ codecDagCbor)
    (reached : bs.Reaches F root c) : c = root := by
  induction reached with
  | refl => rfl
  | tail _ link ih =>
      subst ih
      obtain ⟨-, -, -, cbor, -⟩ := link
      exact absurd cbor raw

/-- Different blocks of a store are together no larger than the store. -/
theorem fits_of_sizes {bs : Blockstore} {reached : Cid → Prop}
    (room : sizes bs.blocks ≤ limit.toNat) : bs.Fits reached limit := by
  intro blocks once each
  have inside : blocks ⊆ bs.blocks := fun e m => Entries.mem_of_get? (each e m).2
  obtain ⟨l, perm, sub⟩ := (List.Nodup.of_map _ once).subperm inside
  have fewer : (l.map fun e => e.2.length).sum ≤ sizes bs.blocks :=
    (sub.map _).sum_le_sum fun _ _ => Nat.zero_le _
  have same : sizes blocks = (l.map fun e => e.2.length).sum := (perm.symm.map _).sum_nat
  omega

namespace Fragment

theorem carried_hello {bs : Blockstore} (present : bs.get (cidOf codecRaw hello) = some hello) :
    Blockstore.Carried (formats table) bs (cidOf codecRaw hello) hello where
  present := present
  linked cbor := absurd cbor (by decide)
  hashed := recomputeCid_cidOf _ _
  capped := by decide

/-- A block of lists inside lists, alone in its store. -/
def nestedCid : Cid := cidOf codecDagCbor (nestedBytes 64)

def nestedStore : Blockstore := { blocks := [(nestedCid, nestedBytes 64)] }

theorem links_nested : ∀ n, (nested n : Ipld Cid).links = []
  | 0 => rfl
  | n + 1 => by
      change (nested n : Ipld Cid).links ++ [] = []
      rw [links_nested n]
      rfl

theorem ordered_nested : ∀ n, (nested n : Ipld Cid).Ordered
  | 0 => trivial
  | n + 1 => ⟨ordered_nested n, trivial⟩

theorem decode_nested {n : Nat} (low : n ≤ 128) :
    (formats table).cbor.decode (nestedBytes n) = .ok (nested n) := by
  have item := encode_nested n
  have written : (formats table).cbor.encode (nested n) = .ok (nestedBytes n) := by
    cases n <;> exact encode_list item
  rcases (formats table).cbor.decode_encode _ _ (ordered_nested n) written with back | ⟨high, -⟩
  · exact back
  · rw [height_nested] at high
    omega

theorem get_nestedCid : nestedStore.get nestedCid = some (nestedBytes 64) := by
  rw [Blockstore.get, nestedStore, Entries.get?_cons, if_pos rfl]

theorem get_nestedStore {c : Cid} {data : Bytes} (found : nestedStore.get c = some data) :
    c = nestedCid ∧ data = nestedBytes 64 :=
  Prod.mk.inj (List.mem_singleton.mp (Entries.mem_of_get? found))

theorem eq_of_reaches_nested {c : Cid}
    (reached : nestedStore.Reaches (formats table) nestedCid c) : c = nestedCid := by
  induction reached with
  | refl => rfl
  | tail _ link ih =>
      obtain ⟨data, v, found, -, decoded, member⟩ := link
      obtain ⟨-, rfl⟩ := get_nestedStore found
      obtain rfl := Except.ok.inj ((decode_nested (by omega)).symm.trans decoded)
      rw [links_nested] at member
      cases member

end Fragment

/-- Two archives of present, hashed and small blocks: one with more roots than the reader's header
cap lets in, and one that is not written since its root nests too deep for the walk. -/
theorem car_round_trip_refused :
    (∃ (F : Formats) (src : Blockstore) (wants : List Cid) (limit : UInt64), wants ≠ [] ∧
      (∀ want ∈ wants, ∀ c, src.Reaches F want c → ∃ data, Blockstore.Carried F src c data) ∧
      src.Fits (fun c => ∃ want ∈ wants, src.Reaches F want c) limit ∧
      ∃ archive, fetchBlocks F src wants = .ok archive ∧ ∀ dst stats dst',
        ¬ (importWithLimit F archive limit).Returns dst stats dst') ∧
    ∃ (F : Formats) (src : Blockstore) (root : Cid) (limit : UInt64),
      (∀ c, src.Reaches F root c → ∃ data v, src.get c = some data ∧ F.cbor.decode data = .ok v ∧
        recomputeCid F c data = some c ∧ c.toBytes.length + data.length ≤ maxBlockBytes) ∧
      src.Fits (src.Reaches F root) limit ∧ ∀ out, exportRoot F src root ≠ .ok out := by
  constructor
  · obtain ⟨wants, wants_eq⟩ : ∃ wants, wants = List.replicate 300000
        (Fragment.cidOf codecRaw Fragment.hello) := ⟨_, rfl⟩
    have count : wants.length = 300000 := by rw [wants_eq, List.length_replicate]
    have carried : ∀ want ∈ wants,
        ∀ c, helloStore.Reaches (Fragment.formats Fragment.table) want c →
          ∃ data, Blockstore.Carried (Fragment.formats Fragment.table) helloStore c data := by
      intro want member c reached
      rw [wants_eq] at member
      obtain rfl := List.eq_of_mem_replicate member
      obtain rfl := eq_of_reaches_raw (by decide) reached
      exact ⟨_, Fragment.carried_hello rfl⟩
    obtain ⟨body, written, least, most⟩ := Fragment.encode_header wants (by omega)
    have some_wants : wants ≠ [] := by
      rintro rfl
      cases count
    obtain ⟨sections, ran, -⟩ := fetchBlocks_carried some_wants written carried
    refine ⟨_, helloStore, wants, 1000, some_wants, carried, fits_of_sizes (by decide), _, ran, ?_⟩
    intro dst stats dst' imported
    have link : (Fragment.linkBytes (Fragment.cidOf codecRaw Fragment.hello)).length = 41 := by
      decide
    have links : (wants.flatMap Fragment.linkBytes).length = 300000 * 41 := by
      rw [wants_eq, List.length_flatMap, List.map_replicate, List.sum_replicate_nat, link]
    have long : maxHeaderBytes < body.length := by
      change 8 * 1024 * 1024 < _
      omega
    unfold importWithLimit at imported
    rw [readHeader_tooLarge _ (by omega) long] at imported
    cases imported
  · refine ⟨Fragment.formats Fragment.table, Fragment.nestedStore, Fragment.nestedCid, 1000, ?_,
      fits_of_sizes (by decide), ?_⟩
    · intro c reached
      obtain rfl := Fragment.eq_of_reaches_nested reached
      have small : Fragment.nestedCid.toBytes.length + (nestedBytes 64).length ≤ maxBlockBytes := by
        decide
      have decodes := Fragment.decode_nested (by decide : 64 ≤ 128)
      have hashed := Fragment.recomputeCid_cidOf codecDagCbor (nestedBytes 64)
      exact ⟨_, _, Fragment.get_nestedCid, decodes, hashed, small⟩
    · intro out ran
      -- the walk reads the root first, and fails there
      have refused : Codec.extractLinks (Fragment.formats Fragment.table).cbor (nestedBytes 64) =
          .error Codec.tooDeep := by
        unfold Codec.extractLinks
        rw [Fragment.decode_nested (by omega)]
        change Codec.walkIpld (nested 64) 0 = _
        rw [Codec.walkIpld_eq, height_nested, if_neg (by decide)]
      have fails : Fragment.nestedStore.visit (Fragment.formats Fragment.table) Fragment.nestedCid =
          .error (.links Fragment.nestedCid Codec.tooDeep) := by
        unfold Blockstore.visit
        rw [Fragment.get_nestedCid]
        change (if codecDagCbor = codecDagCbor then _ else _) = _
        rw [if_pos rfl, refused]
      obtain ⟨header, -, ran⟩ := Exec.bind_eq_ok.mp ran
      obtain ⟨sections, walked, -⟩ := Exec.bind_eq_ok.mp ran
      have stopped : Fragment.nestedStore.iterFromRoot (Fragment.formats Fragment.table)
          Fragment.nestedCid = .error (.links Fragment.nestedCid Codec.tooDeep) := by
        unfold Blockstore.iterFromRoot
        rw [Walk.collect, Walk.next_error rfl rfl fails]
      rw [stopped] at walked
      cases walked

namespace Fragment

/-- A block with two links to `hello`, beside `hello`. -/
def pairStore : Blockstore :=
  { blocks := [(cidOf codecDagCbor pairBytes, pairBytes), (cidOf codecRaw hello, hello)] }

theorem decode_pair : (formats table).cbor.decode pairBytes = .ok pair := by
  have ordered : pair.Ordered := ⟨trivial, trivial, trivial⟩
  rcases (formats table).cbor.decode_encode pair pairBytes ordered rfl with back | ⟨high, -⟩
  · exact back
  · exact absurd high (by decide)

theorem carried_pair :
    Blockstore.Carried (formats table) pairStore (cidOf codecDagCbor pairBytes) pairBytes where
  present := rfl
  linked _ := by
    refine ⟨[helloCid, helloCid], ?_⟩
    unfold Codec.extractLinks
    rw [decode_pair]
    rfl
  hashed := recomputeCid_cidOf _ _
  capped := by decide

theorem reaches_pair {c : Cid}
    (reached : pairStore.Reaches (formats table) (cidOf codecDagCbor pairBytes) c) :
    c = cidOf codecDagCbor pairBytes ∨ c = cidOf codecRaw hello := by
  induction reached with
  | refl => exact .inl rfl
  | tail _ link ih =>
      obtain ⟨data, v, found, cbor, decoded, member⟩ := link
      rcases ih with rfl | rfl
      · obtain rfl := Option.some.inj (carried_pair.present.symm.trans found)
        obtain rfl := Except.ok.inj (decode_pair.symm.trans decoded)
        rw [cidOf_hello]
        exact .inr (by simpa [pair, Ipld.links, Ipld.linksList] using member)
      · exact absurd cbor (by decide)

end Fragment

/-- The pair, exported and fetched. -/
theorem car_round_trip_pair :
    (∃ archive stats, exportRoot (Fragment.formats Fragment.table) Fragment.pairStore
        (Fragment.cidOf codecDagCbor Fragment.pairBytes) = .ok (archive, stats)) ∧
      ∃ archive, fetchBlocks (Fragment.formats Fragment.table) Fragment.pairStore
        [Fragment.cidOf codecDagCbor Fragment.pairBytes] = .ok archive := by
  have all : ∀ c, Fragment.pairStore.Reaches (Fragment.formats Fragment.table)
      (Fragment.cidOf codecDagCbor Fragment.pairBytes) c →
        ∃ data, Blockstore.Carried (Fragment.formats Fragment.table) Fragment.pairStore c data := by
    intro c reached
    rcases Fragment.reaches_pair reached with rfl | rfl
    · exact ⟨_, Fragment.carried_pair⟩
    · exact ⟨_, Fragment.carried_hello (by decide)⟩
  have round := car_round_trip (Fragment.formats Fragment.table) Fragment.pairStore 1000
  obtain ⟨archive, stats, ran, -⟩ := round.1 _ all (fits_of_sizes (by decide))
  obtain ⟨header, sections, fetched, -⟩ := round.2 _ (List.cons_ne_nil _ [])
    (headerFits_singleRoot _ _)
    (fun want member => by
      obtain rfl := List.mem_singleton.mp member
      exact all)
    (fits_of_sizes (by decide))
  exact ⟨⟨archive, stats, ran⟩, _, fetched⟩

end Mnem.Transport
