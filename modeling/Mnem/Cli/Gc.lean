/-
# Cli.Gc — collecting the blocks that nothing reaches

`mnem gc` opens the repository, walks from its operation and from every target
its view names, and with `--force` deletes what no walk yielded.  `Live` is
what the roots reach along the links that blocks decode to; `Mentioned` is what
the operation reaches along the references of its objects.

* A `gc` that fails leaves what opening left, and its walk fails only at a live
  block that is missing or whose links cannot be found; one that returns has
  kept the live blocks and deleted every other block that the backend lets go
  (`gc_exact`).
* Opening merges several operation heads before the walk, so a `gc` that fails
  may have written (`gc_may_write_and_fail`).
-/
import Mnem.Codec.Wire
import Mnem.Cli.Checkout
import Mnem.Theory.Walk

namespace Mnem.Cli

open Theory Repo

set_option autoImplicit false
set_option linter.unusedSectionVars false

variable {Cid : Type} {H : Hashing Cid} [LinearOrder Cid]

/-! ## Blocks and their bytes -/

/-- The codec that blocks are written in, and the identifiers that name it. -/
structure BlockCodec (H : Hashing Cid) where
  cbor : Codec.DagCbor Cid
  /-- Whether an identifier says that its block is DAG-CBOR. -/
  isDagCbor : Cid → Bool
  /-- `hash_to_cid` gives every object such an identifier. -/
  typed : ∀ b : Block Cid, b.isRaw = false → isDagCbor (H.cidOf b) = true

namespace BlockCodec

/-- What the bytes of a block decode to; an object's bytes decode to the value it wrote. -/
def decode (F : BlockCodec H) : Block Cid → Except String (Ipld Cid)
  | .raw bytes => F.cbor.decode bytes
  | b => .ok b.wire

/-- `extract_links` on the bytes of a block. -/
def extractLinks (F : BlockCodec H) (b : Block Cid) : Except Codec.CodecError (List Cid) :=
  match F.decode b with
  | .ok root => Codec.walkIpld root 0
  | .error message => .error (.decode message)

variable {F : BlockCodec H}

/-- The links found in an object's bytes are those found in its value. -/
theorem extractLinks_bytes {b : Block Cid} {bytes : List UInt8} {links : List Cid}
    (object : b.isRaw = false) (ordered : b.wire.Ordered)
    (written : F.cbor.encode b.wire = .ok bytes) :
    Codec.extractLinks F.cbor bytes = .ok links ↔ F.extractLinks b = .ok links := by
  have value : F.decode b = .ok b.wire := by
    cases b with
    | raw bytes => cases object
    | _ => rfl
  unfold Codec.extractLinks extractLinks
  rw [value]
  rcases F.cbor.decode_encode b.wire bytes ordered written with back | ⟨high, message, refused⟩
  · rw [back]
  · -- the codec's own limit lies above the cap of the walk
    have low : ¬ 0 + b.wire.height < Codec.walkIpldMaxDepth := by
      unfold Codec.walkIpldMaxDepth
      omega
    rw [refused]
    dsimp only
    rw [Codec.walkIpld_eq, if_neg low]
    simp

theorem links_of_extractLinks {b : Block Cid} {links : List Cid}
    (found : F.extractLinks b = .ok links) : ∃ v, F.decode b = .ok v ∧ links = v.links := by
  unfold extractLinks at found
  split at found
  · rename_i v decoded
    rw [Codec.walkIpld_eq] at found
    split at found
    · exact ⟨v, decoded, (Except.ok.inj found).symm⟩
    · cases found
  · cases found

end BlockCodec

/-! ## The walk -/

inductive WalkError (Cid : Type) where
  | notFound (cid : Cid)
  | links (cid : Cid) (cause : Codec.CodecError)
  | diverged
  deriving DecidableEq

/-- One block of the walk and its links; only DAG-CBOR blocks have any. -/
def visit (F : BlockCodec H) (s : Store H) (cid : Cid) :
    Except (WalkError Cid) (Block Cid × List Cid) :=
  match s.get cid with
  | none => .error (.notFound cid)
  | some b =>
      if F.isDagCbor cid then
        match F.extractLinks b with
        | .ok links => .ok (b, links)
        | .error e => .error (.links cid e)
      else .ok (b, [])

/-- `iter_from_root`. -/
def iterFromRoot (F : BlockCodec H) (s : Store H) (root : Cid) :
    Except (WalkError Cid) (List (Cid × Block Cid)) :=
  Walk.collect (visit F s) .diverged (s.blocks.length + 1) (Walk.start root)

/-- The block at `a` is DAG-CBOR, and `b` is a link in what its bytes decode to. -/
def Refers (F : BlockCodec H) (s : Store H) (a b : Cid) : Prop :=
  ∃ block v, s.get a = some block ∧ F.isDagCbor a = true ∧ F.decode block = .ok v ∧ b ∈ v.links

section Walk

variable {F : BlockCodec H} {s : Store H}

theorem visit_ok {cid : Cid} {b : Block Cid} {links : List Cid}
    (read : visit F s cid = .ok (b, links)) : s.get cid = some b ∧
      if F.isDagCbor cid then F.extractLinks b = .ok links else links = [] := by
  unfold visit at read
  split at read
  · cases read
  · rename_i stored found
    by_cases cbor : F.isDagCbor cid = true
    · rw [if_pos cbor] at read ⊢
      split at read
      · cases read
        exact ⟨found, ‹_›⟩
      · cases read
    · rw [if_neg cbor] at read ⊢
      cases read
      exact ⟨found, rfl⟩

theorem refers_of_links {a b : Cid} (link : Walk.Links (visit F s) a b) : Refers F s a b := by
  obtain ⟨block, links, read, member⟩ := link
  obtain ⟨present, found⟩ := visit_ok read
  split at found
  · obtain ⟨v, decoded, rfl⟩ := BlockCodec.links_of_extractLinks found
    exact ⟨block, v, present, ‹_›, decoded, member⟩
  · subst found
    cases member

/-- At a block that was read, the links of its value are the links of the walk. -/
theorem links_of_refers {a b : Cid} {block : Block Cid} {links : List Cid}
    (read : visit F s a = .ok (block, links)) (refers : Refers F s a b) :
    Walk.Links (visit F s) a b := by
  obtain ⟨block', v, present, cbor, decoded, member⟩ := refers
  obtain ⟨here, found⟩ := visit_ok read
  obtain rfl := Option.some.inj (here.symm.trans present)
  rw [if_pos cbor] at found
  obtain ⟨v', decoded', rfl⟩ := BlockCodec.links_of_extractLinks found
  obtain rfl := Except.ok.inj (decoded.symm.trans decoded')
  exact ⟨block, v.links, read, member⟩

/-- A drained walk has yielded what its root reaches, and all of that is present. -/
theorem iterFromRoot_exact {root : Cid} {items : List (Cid × Block Cid)}
    (ran : iterFromRoot F s root = .ok items) (c : Cid) :
    (c ∈ items.map Prod.fst ↔ Relation.ReflTransGen (Refers F s) root c) ∧
      (c ∈ items.map Prod.fst → (s.get c).isSome) := by
  obtain ⟨-, exact, values⟩ := Walk.collect_exact ran
  have read : ∀ k ∈ items.map Prod.fst, ∃ b links, visit F s k = .ok (b, links) := by
    intro k m
    obtain ⟨item, member, rfl⟩ := List.mem_map.mp m
    exact ⟨item.2, values item member⟩
  refine ⟨⟨fun m => ?_, fun path => (exact c).mpr ?_⟩, fun m => ?_⟩
  · exact ((exact c).mp m).lift id fun _ _ => refers_of_links
  · induction path with
    | refl => exact .refl
    | tail _ link ih =>
        obtain ⟨b, links, here⟩ := read _ ((exact _).mpr ih)
        exact ih.tail (links_of_refers here link)
  · obtain ⟨b, links, here⟩ := read c m
    rw [(visit_ok here).1]
    rfl

/-- A walk that fails has met a block that cannot be read. -/
theorem iterFromRoot_fails {root : Cid} {e : WalkError Cid} (ran : iterFromRoot F s root = .error e) :
    ∃ k, Relation.ReflTransGen (Refers F s) root k ∧ visit F s k = .error e := by
  have finite : ∀ k b links, visit F s k = .ok (b, links) → k ∈ s.blocks.map Prod.fst :=
    fun k b links read =>
      List.mem_map_of_mem (f := Prod.fst) (Entries.mem_of_get? (visit_ok read).1)
  have enough : (s.blocks.map Prod.fst).length < s.blocks.length + 1 := by simp
  have outcomes : (∃ items, iterFromRoot F s root = .ok items) ∨
      ∃ k e, Walk.Reaches (visit F s) root k ∧ visit F s k = .error e ∧
        iterFromRoot F s root = .error e := Walk.collect_cases finite enough root
  rw [ran] at outcomes
  rcases outcomes with ⟨items, drained⟩ | ⟨k, e', reached, fails, same⟩
  · cases drained
  · obtain rfl := Except.error.inj same
    exact ⟨k, reached.lift id fun _ _ => refers_of_links, fails⟩

end Walk

/-! ## The command -/

/-- The block store's side of a collection: what it enumerates, and what it does not delete. -/
structure Backend (H : Hashing Cid) where
  /-- `all_cids`; `none` where the store does not support enumeration. -/
  allCids : Store H → Except String (Option (List Cid))
  allCids_exact : ∀ s cids, allCids s = .ok (some cids) → ∀ c, c ∈ cids ↔ (s.get c).isSome
  /-- The identifiers for which `delete` fails. -/
  refuses : Cid → Bool

inductive GcError (Cid : Type) where
  | opening (cause : Error Cid)
  | walk (cause : WalkError Cid)
  | store (message : String)
  deriving DecidableEq

/-- What `gc` reports. -/
inductive GcReport where
  | unsupported (reachable : Nat)
  | dryRun (reachable total unreachable : Nat)
  | clean
  | collected (deleted errors : Nat)
  deriving DecidableEq

def collectable : RefTarget Cid → List Cid
  | .normal target => [target]
  | .conflicted adds _ => adds

/-- The roots of the collection: the operation, and the targets that the view names. -/
def gcRoots (repo : ReadonlyRepo Cid) : List Cid :=
  sortDedup ([repo.opId] ++ repo.view.refs.values.flatMap collectable ++
    (repo.view.remoteRefs.toList.flatMap fun remotes =>
      remotes.values.flatMap fun refs => refs.values.flatMap collectable) ++
    repo.view.wcCommit.toList)

/-- The walk from one root, added to those before it. -/
def addReachable (F : BlockCodec H) (s : Store H) (reachable : OrdSet Cid) (root : Cid) :
    Except (WalkError Cid) (OrdSet Cid) := do
  let items ← iterFromRoot F s root
  return (items.map Prod.fst).foldl OrdSet.add reachable

/-- The union of the walks from all roots. -/
def reachableFrom (F : BlockCodec H) (s : Store H) (roots : List Cid) :
    Except (WalkError Cid) (OrdSet Cid) :=
  roots.foldlM (addReachable F s) OrdMap.empty

/-- `Blockstore::delete`. -/
def deleteBlock (s : Store H) (cid : Cid) : Store H where
  blocks := s.blocks.filter fun e => decide (e.1 ≠ cid)
  addressed e member := s.addressed e (List.mem_filter.mp member).1

/-- One deletion, counted as done or as failed. -/
def deleteOne (B : Backend H) (acc : (Nat × Nat) × Store H) (cid : Cid) : (Nat × Nat) × Store H :=
  if B.refuses cid then ((acc.1.1, acc.1.2 + 1), acc.2)
  else ((acc.1.1 + 1, acc.1.2), deleteBlock acc.2 cid)

/-- `open_all`: open, or initialize where there is no head to open at. -/
def openAll (now : Nat) : WorldM H (ReadonlyRepo Cid) := do
  let heads ← readHeads
  if heads = [] then init now else openAt heads

abbrev GcM (H : Hashing Cid) (α : Type) := Exec (World H) (GcError Cid) α

/-- Everything after the opening. -/
def collectGarbage (F : BlockCodec H) (B : Backend H) (force : Bool) (repo : ReadonlyRepo Cid) :
    GcM H GcReport := do
  let reachable ← Exec.read fun w => (reachableFrom F w.store (gcRoots repo)).mapError .walk
  let all ← Exec.read fun w => (B.allCids w.store).mapError .store
  match all with
  | none => return .unsupported reachable.keys.length
  | some cids =>
      let unreachable := cids.filter fun cid => decide (cid ∉ reachable)
      if force = false then
        return .dryRun reachable.keys.length cids.length unreachable.length
      else if unreachable = [] then return .clean
      else
        let (deleted, errors) ← Exec.update fun w =>
          let (counts, store) := unreachable.foldl (deleteOne B) ((0, 0), w.store)
          (counts, { w with store := store })
        return .collected deleted errors

/-- `mnem gc`. -/
def gc (F : BlockCodec H) (B : Backend H) (force : Bool) (now : Nat) : GcM H GcReport := do
  let repo ← ExceptT.adapt GcError.opening (openAll now)
  collectGarbage F B force repo

/-! ## What is live -/

/-- The walks from the roots reach the block. -/
def Live (F : BlockCodec H) (s : Store H) (repo : ReadonlyRepo Cid) (cid : Cid) : Prop :=
  ∃ root ∈ gcRoots repo, Relation.ReflTransGen (Refers F s) root cid

/-- The object at `a` refers to `b`. -/
def ObjectRefers (s : Store H) (a b : Cid) : Prop :=
  ∃ block, s.get a = some block ∧ block.Apart ∧ b ∈ block.links

/-- The objects of the current operation lead to the block. -/
def Mentioned (s : Store H) (repo : ReadonlyRepo Cid) : Cid → Prop :=
  Relation.ReflTransGen (ObjectRefers s) repo.opId

/-- What a collection leaves of a store. -/
structure Swept (F : BlockCodec H) (B : Backend H) (repo : ReadonlyRepo Cid) (s s' : Store H) :
    Prop where
  kept : ∀ cid, Live F s repo cid ∨ B.refuses cid = true → s'.get cid = s.get cid
  dropped : ∀ cid, ¬ Live F s repo cid → B.refuses cid = false → s'.get cid = none
  mentioned : ∀ cid, Mentioned s repo cid → ∃ b, s.get cid = some b ∧ s'.get cid = some b

section Sweep

variable {F : BlockCodec H} {B : Backend H} {s s' : Store H} {repo : ReadonlyRepo Cid}

theorem opId_mem_gcRoots (repo : ReadonlyRepo Cid) : repo.opId ∈ gcRoots repo :=
  mem_sortDedup.mpr (by simp)

theorem refers_of_objectRefers {a b : Cid} (refers : ObjectRefers s a b) : Refers F s a b := by
  obtain ⟨block, found, apart, member⟩ := refers
  cases block with
  | raw bytes => cases member
  | _ =>
      refine ⟨_, _, found, ?_, rfl, (Block.mem_links_iff _ apart).mpr member⟩
      rw [← Store.cidOf_of_get found]
      exact F.typed _ rfl

theorem Mentioned.live {cid : Cid} (mentioned : Mentioned s repo cid) : Live F s repo cid :=
  ⟨repo.opId, opId_mem_gcRoots repo, mentioned.lift id fun _ _ => refers_of_objectRefers⟩

theorem Live.refers {a b : Cid} (live : Live F s repo a) (refers : Refers F s a b) :
    Live F s repo b := by
  obtain ⟨root, isRoot, path⟩ := live
  exact ⟨root, isRoot, path.tail refers⟩

/-- What the walks have yielded is what their roots reach. -/
theorem addReachable_exact : ∀ {roots : List Cid} {set set' : OrdSet Cid},
    roots.foldlM (addReachable F s) set = .ok set' → ∀ c,
      (c ∈ set' ↔ c ∈ set ∨ ∃ root ∈ roots, Relation.ReflTransGen (Refers F s) root c) ∧
        (c ∈ set' → c ∈ set ∨ (s.get c).isSome)
  | [], set, set', ran, c => by
      cases ran
      exact ⟨by simp, .inl⟩
  | root :: roots, set, set', ran, c => by
      rw [List.foldlM_cons] at ran
      obtain ⟨_, walked, ran⟩ := Exec.bind_eq_ok.mp ran
      obtain ⟨items, drained, added⟩ := Exec.bind_eq_ok.mp walked
      cases added
      obtain ⟨exact, present⟩ := iterFromRoot_exact drained c
      obtain ⟨members, found⟩ := addReachable_exact ran c
      rw [OrdSet.mem_addAll] at members found
      constructor
      · rw [members, exact, List.exists_mem_cons_iff]
        exact or_assoc.trans or_left_comm
      · intro m
        rcases found m with (here | before) | later
        · exact .inr (present here)
        · exact .inl before
        · exact .inr later

theorem addReachable_fails {e : WalkError Cid} : ∀ {roots : List Cid} {set : OrdSet Cid},
    roots.foldlM (addReachable F s) set = .error e →
      ∃ root ∈ roots, ∃ k, Relation.ReflTransGen (Refers F s) root k ∧ visit F s k = .error e
  | [], set, ran => by cases ran
  | root :: roots, set, ran => by
      rw [List.foldlM_cons, addReachable] at ran
      cases walked : iterFromRoot F s root with
      | error e' =>
          rw [walked] at ran
          cases ran
          obtain ⟨k, path, fails⟩ := iterFromRoot_fails walked
          exact ⟨root, List.mem_cons_self, k, path, fails⟩
      | ok items =>
          rw [walked] at ran
          obtain ⟨root', later, found⟩ := addReachable_fails ran
          exact ⟨root', List.mem_cons_of_mem _ later, found⟩

theorem mem_reachableFrom {set : OrdSet Cid}
    (ran : reachableFrom F s (gcRoots repo) = .ok set) (c : Cid) :
    (c ∈ set ↔ Live F s repo c) ∧ (c ∈ set → (s.get c).isSome) := by
  obtain ⟨members, present⟩ := addReachable_exact ran c
  simp only [OrdSet.not_mem_empty, false_or] at members present
  exact ⟨members, present⟩

theorem get_deleteBlock (s : Store H) (cid c : Cid) :
    (deleteBlock s cid).get c = if c = cid then none else s.get c := by
  have filtered : (deleteBlock s cid).get c = if decide (c ≠ cid) then s.get c else none :=
    Entries.get?_filter (fun k => decide (k ≠ cid)) c
  rw [filtered]
  by_cases here : c = cid
  · simp [here]
  · simp [here]

/-- A round of deletions takes what is listed and not refused. -/
theorem get_deleteAll (c : Cid) : ∀ (cids : List Cid) (acc : (Nat × Nat) × Store H),
    (cids.foldl (deleteOne B) acc).2.get c =
      if c ∈ cids ∧ B.refuses c = false then none else acc.2.get c
  | [], acc => by simp
  | cid :: cids, acc => by
      rw [List.foldl_cons, get_deleteAll c cids, deleteOne]
      by_cases later : c ∈ cids ∧ B.refuses c = false
      · rw [if_pos later, if_pos ⟨List.mem_cons_of_mem _ later.1, later.2⟩]
      · rw [if_neg later]
        by_cases refused : B.refuses cid = true
        · rw [if_pos refused]
          refine (if_neg ?_).symm
          rintro ⟨m, lets⟩
          rcases List.mem_cons.mp m with rfl | after
          · rw [refused] at lets
            cases lets
          · exact later ⟨after, lets⟩
        · rw [if_neg refused]
          dsimp only
          rw [get_deleteBlock]
          by_cases here : c = cid
          · subst here
            rw [if_pos rfl, if_pos ⟨List.mem_cons_self, by simpa using refused⟩]
          · rw [if_neg here, if_neg]
            rintro ⟨m, lets⟩
            rcases List.mem_cons.mp m with same | after
            · exact here same
            · exact later ⟨after, lets⟩

/-- The ways a collection ends: it fails, it cannot enumerate, or it has swept. -/
inductive Ends (F : BlockCodec H) (B : Backend H) (repo : ReadonlyRepo Cid) (w : World H) :
    Except (GcError Cid) GcReport × World H → Prop where
  | failed (e : GcError Cid) (blocked : ∀ cause, e = .walk cause →
      ∃ cid, Live F w.store repo cid ∧ visit F w.store cid = .error cause)
      (opened : ∀ cause, e ≠ .opening cause) : Ends F B repo w (.error e, w)
  | unsupported (reachable : Nat) (noList : B.allCids w.store = .ok none) :
      Ends F B repo w (.ok (.unsupported reachable), w)
  | swept (report : GcReport) (s' : Store H) (left : Swept F B repo w.store s') :
      Ends F B repo w (.ok report, { w with store := s' })

/-- Deleting what no walk yielded keeps what is live. -/
theorem swept_of_deleted {reachable : OrdSet Cid} {cids : List Cid} (counts : Nat × Nat)
    (walked : reachableFrom F s (gcRoots repo) = .ok reachable)
    (listed : B.allCids s = .ok (some cids)) :
    Swept F B repo s ((cids.filter fun cid => decide (cid ∉ reachable)).foldl (deleteOne B)
      (counts, s)).2 := by
  have live := fun c => (mem_reachableFrom walked c).1
  have kept : ∀ cid, Live F s repo cid ∨ B.refuses cid = true →
      ((cids.filter fun cid => decide (cid ∉ reachable)).foldl (deleteOne B) (counts, s)).2.get cid =
        s.get cid := by
    intro cid held
    rw [get_deleteAll]
    refine if_neg ?_
    rintro ⟨garbage, lets⟩
    have unreached := of_decide_eq_true (List.mem_filter.mp garbage).2
    rcases held with reached | refused
    · exact unreached ((live cid).mpr reached)
    · rw [refused] at lets
      cases lets
  refine ⟨kept, fun cid dead lets => ?_, fun cid mentioned => ?_⟩
  · rw [get_deleteAll]
    by_cases stored : cid ∈ cids
    · refine if_pos ⟨List.mem_filter.mpr ⟨stored, decide_eq_true fun m => ?_⟩, lets⟩
      exact dead ((live cid).mp m)
    · have absent := mt (B.allCids_exact s cids listed cid).mpr stored
      rw [if_neg fun garbage => stored (List.mem_of_mem_filter garbage.1)]
      simpa using absent
  · have there := (mem_reachableFrom walked cid).2 ((live cid).mpr mentioned.live)
    obtain ⟨b, found⟩ := Option.isSome_iff_exists.mp there
    exact ⟨b, found, (kept cid (.inl mentioned.live)).trans found⟩

theorem collectGarbage_ends (F : BlockCodec H) (B : Backend H) (repo : ReadonlyRepo Cid)
    (w : World H) : Ends F B repo w ((collectGarbage F B true repo).outcome w) := by
  unfold collectGarbage
  rw [Exec.outcome_bind, Exec.outcome_read]
  cases walked : reachableFrom F w.store (gcRoots repo) with
  | error cause =>
      refine .failed (.walk cause) (fun cause' same => ?_) nofun
      obtain rfl := GcError.walk.inj same
      obtain ⟨root, isRoot, k, path, fails⟩ := addReachable_fails walked
      exact ⟨k, ⟨root, isRoot, path⟩, fails⟩
  | ok reachable =>
      simp only [Except.mapError]
      rw [Exec.outcome_bind, Exec.outcome_read]
      cases listed : B.allCids w.store with
      | error message => exact .failed (.store message) nofun nofun
      | ok all =>
          cases all with
          | none => exact .unsupported _ listed
          | some cids =>
              have left := swept_of_deleted (0, 0) walked listed
              simp only [Bool.true_eq_false, if_false]
              split
              · rename_i clean
                rw [clean] at left
                exact .swept .clean w.store left
              · exact .swept _ _ left

end Sweep

/-! ## Whole runs -/

section Runs

variable {F : BlockCodec H} {B : Backend H} {w w' : World H} {now : Nat} {repo : ReadonlyRepo Cid}

/-- A collection opens the repository and goes on from there. -/
theorem gc_outcome (F : BlockCodec H) (B : Backend H) (force : Bool) (now : Nat) (w : World H) :
    (gc F B force now).outcome w = match (openAll now).outcome w with
      | (.ok repo, w₁) => (collectGarbage F B force repo).outcome w₁
      | (.error e, w₁) => (.error (.opening e), w₁) := by
  have adapted : Exec.outcome (ExceptT.adapt GcError.opening (openAll now : WorldM H _)) w =
      (((openAll now).outcome w).1.mapError GcError.opening, ((openAll now).outcome w).2) := rfl
  unfold gc
  rw [Exec.outcome_bind, adapted]
  rcases (openAll now : WorldM H _).outcome w with ⟨e | repo, w₁⟩ <;> rfl

/-- Opening at one head only reads. -/
theorem openAll_single {head : Cid} (alone : OpHeads.current w.opHeads = [head]) :
    (openAll now).outcome w = (ReadonlyRepo.loadAt w.store head, w) := by
  unfold openAll
  have read : (readHeads : WorldM H _).outcome w = (.ok (OpHeads.current w.opHeads), w) := rfl
  rw [Exec.outcome_bind, read, alone]
  rfl

theorem openAll_at (ran : (openAll now).Returns w repo w') : At w' repo := by
  obtain ⟨heads, w₁, read, ran⟩ := Exec.returns_bind.mp ran
  obtain ⟨same, rfl⟩ := returns_readHeads.mp read
  split at ran
  · rename_i none
    obtain ⟨-, pinned, -, updated⟩ := init_returns (P := fun _ => True) ran
    refine ⟨OrdSet.keys_eq_singleton_iff.mpr fun c => ?_, pinned.op, pinned.view⟩
    have empty : c ∉ w.opHeads := fun m => by
      have inNone := OpHeads.mem_current.mpr m
      rw [same, none] at inNone
      cases inNone
    rw [updated, OpHeads.mem_update]
    simp [empty]
  · refine (openRepo_opens (w := w) ?_).1
    exact Exec.returns_bind.mpr ⟨heads, w, read, ran⟩

/-- The operation and its view are live. -/
theorem At.live_view (at_op : At w repo) : Live F w.store repo repo.op.view := by
  refine Mentioned.live (.single ⟨Object.toBlock repo.op, Store.loads_iff.mp at_op.reads.op, ?_, ?_⟩)
  · exact fun e member => absurd member List.not_mem_nil
  · simp [Object.toBlock, Block.links]

theorem live_opId : Live F w.store repo repo.opId := ⟨repo.opId, opId_mem_gcRoots repo, .refl⟩

/-- The repository reads the same in what a collection leaves. -/
theorem Swept.at {s' : Store H} (left : Swept F B repo w.store s') (at_op : At w repo) :
    At { w with store := s' } repo := by
  refine ⟨at_op.current, Store.loads_iff.mpr ?_, Store.loads_iff.mpr ?_⟩
  · exact (left.kept _ (.inl live_opId)).trans (Store.loads_iff.mp at_op.reads.op)
  · exact (left.kept _ (.inl at_op.live_view)).trans (Store.loads_iff.mp at_op.reads.view)

/-- What is live stays live. -/
theorem Swept.live {s s' : Store H} (left : Swept F B repo s s') {cid : Cid}
    (live : Live F s repo cid) : Live F s' repo cid := by
  obtain ⟨root, isRoot, path⟩ := live
  refine ⟨root, isRoot, ?_⟩
  induction path with
  | refl => exact .refl
  | tail before link ih =>
      obtain ⟨block, v, found, rest⟩ := link
      exact ih.tail ⟨block, v, (left.kept _ (.inl ⟨root, isRoot, before⟩)).trans found, rest⟩

/-- A second collection deletes nothing that the first could delete. -/
theorem Swept.again {s' : Store H} (left : Swept F B repo w.store s') (at_op : At w repo)
    (B' : Backend H) (now' : Nat) {result : Except (GcError Cid) GcReport} {w'' : World H}
    (ran : (gc F B' true now').outcome { w with store := s' } = (result, w'')) :
    w''.opHeads = w.opHeads ∧ ∀ cid, B.refuses cid = false → w''.store.get cid = s'.get cid := by
  have here := left.at at_op
  rw [gc_outcome, openAll_single here.current] at ran
  cases loaded : ReadonlyRepo.loadAt s' repo.opId with
  | error e =>
      rw [loaded] at ran
      cases ran
      exact ⟨rfl, fun _ _ => rfl⟩
  | ok repo' =>
      rw [loaded] at ran
      dsimp only at ran
      have reads := reads_of_loadAt loaded
      have sameId : repo'.opId = repo.opId := ReadonlyRepo.opId_of_loadAt loaded
      have sameOp : repo'.op = repo.op := reads.op.unique (sameId ▸ here.reads.op)
      have sameView : repo'.view = repo.view := reads.view.unique (sameOp ▸ here.reads.view)
      have sameRoots : gcRoots repo' = gcRoots repo := by
        unfold gcRoots
        rw [sameId, sameView]
      have ends := collectGarbage_ends F B' repo' { w with store := s' }
      rw [ran] at ends
      cases ends with
      | failed _ _ _ => exact ⟨rfl, fun _ _ => rfl⟩
      | unsupported _ _ => exact ⟨rfl, fun _ _ => rfl⟩
      | swept report s'' left' =>
          refine ⟨rfl, fun cid lets => ?_⟩
          by_cases live : Live F w.store repo cid
          · refine left'.kept cid (.inl ?_)
            unfold Live
            rw [sameRoots]
            exact left.live live
          · have gone := left.dropped cid live lets
            dsimp only
            rw [gone]
            by_cases live' : Live F s' repo' cid
            · exact (left'.kept cid (.inl live')).trans gone
            · cases refused : B'.refuses cid with
              | true => exact (left'.kept cid (.inr refused)).trans gone
              | false => exact left'.dropped cid live' refused

/-- A forced collection fails and leaves what opening left, or keeps exactly what is live and
what the backend does not let go; a second one deletes nothing that the first one could. -/
theorem gc_exact (F : BlockCodec H) (B : Backend H) (now : Nat) (w : World H) :
    (∀ head, OpHeads.current w.opHeads = [head] → ((openAll now).outcome w).2 = w) ∧
    (∀ e w', (gc F B true now).outcome w = (.error e, w') →
      w' = ((openAll now).outcome w).2 ∧ ∀ cause, e = .walk cause → ∃ repo cid,
        (openAll now).Returns w repo w' ∧ Live F w'.store repo cid ∧
          visit F w'.store cid = .error cause) ∧
    ∀ report w', (gc F B true now).Returns w report w' → ∃ repo w₁,
      (openAll now).Returns w repo w₁ ∧ w'.opHeads = w₁.opHeads ∧
        (w' = w₁ ∧ B.allCids w₁.store = .ok none ∨
          Swept F B repo w₁.store w'.store ∧ ∀ (B' : Backend H) now' result w'',
            (gc F B' true now').outcome w' = (result, w'') → w''.opHeads = w'.opHeads ∧
              ∀ cid, B.refuses cid = false → w''.store.get cid = w'.store.get cid) := by
  refine ⟨fun head alone => ?_, fun e w' ran => ?_, fun report w' ran => ?_⟩
  · rw [openAll_single alone]
  · rw [gc_outcome] at ran
    cases opened : (openAll now : WorldM H _).outcome w with
    | mk result w₁ =>
        cases result with
        | error cause =>
            rw [opened] at ran
            cases ran
            exact ⟨rfl, nofun⟩
        | ok repo =>
            rw [opened] at ran
            have ends := collectGarbage_ends F B repo w₁
            dsimp only at ran
            rw [ran] at ends
            cases ends with
            | failed _ blocked _ =>
                refine ⟨rfl, fun cause same => ?_⟩
                obtain ⟨cid, live, fails⟩ := blocked cause same
                exact ⟨repo, cid, opened, live, fails⟩
  · change (gc F B true now).outcome w = _ at ran
    rw [gc_outcome] at ran
    cases opened : (openAll now : WorldM H _).outcome w with
    | mk result w₁ =>
        cases result with
        | error cause =>
            rw [opened] at ran
            cases ran
        | ok repo =>
            rw [opened] at ran
            have ends := collectGarbage_ends F B repo w₁
            dsimp only at ran
            rw [ran] at ends
            refine ⟨repo, w₁, opened, ?_⟩
            cases ends with
            | unsupported _ noList => exact ⟨rfl, .inl ⟨rfl, noList⟩⟩
            | swept _ s' left =>
                exact ⟨rfl, .inr ⟨left, fun B' now' result w'' again =>
                  left.again (openAll_at opened) B' now' again⟩⟩

end Runs

/-! ### Runs on small repositories -/

/-- A backend that enumerates its blocks. -/
def enumerating (refuses : Cid → Bool) : Backend H where
  allCids s := .ok (some (s.blocks.map Prod.fst))
  allCids_exact s cids listed c := by
    cases listed
    exact (Entries.get?_isSome_iff.trans (by simp)).symm
  refuses := refuses

/-- Every block is an object. -/
def objectCodec : BlockCodec shortHashing where
  cbor := { encode := fun _ => .error "", decode := fun _ => .error "", decode_encode := nofun }
  isDagCbor _ := true
  typed _ _ := rfl

/-- Two processes set a ref on one operation, both to a commit that was never written. -/
def danglingRefs : WorldM shortHashing Unit := do
  let root ← init 0
  let _ ← root.updateRef "a" none (some (.normal 7)) "" 0
  let _ ← root.updateRef "b" none (some (.normal 7)) "" 0

/-- A repository and a block that nothing refers to. -/
def orphaned : WorldM shortHashing ℕ := do
  let _ ← init 0
  onStore (putObject ({ time := 1, view := 7, author := "", description := "" } : Operation ℕ))

/-- A collection over dangling refs merges the heads and then fails; and a block that nothing
reaches stays when the backend does not let it go. -/
theorem gc_may_write_and_fail :
    (∃ (F : BlockCodec shortHashing) (B : Backend shortHashing) (w w' : World shortHashing)
      (e : GcError ℕ) (cid : ℕ), danglingRefs.Returns {} () w ∧
        (gc F B true 0).outcome w = (.error e, w') ∧
          w.store.get cid = none ∧ (w'.store.get cid).isSome) ∧
    ∃ (F : BlockCodec shortHashing) (B : Backend shortHashing) (w w₁ w' : World shortHashing)
      (repo : ReadonlyRepo ℕ) (report : GcReport) (cid : ℕ), orphaned.Returns {} cid w ∧
        (gc F B true 0).Returns w report w' ∧ (openAll 0).Returns w repo w₁ ∧
          ¬ Live F w₁.store repo cid ∧ (w'.store.get cid).isSome := by
  constructor
  · have ran : danglingRefs.check {} (fun _ w =>
        (gc objectCodec (enumerating fun _ => false) true 0).checkError w fun w' =>
          (OpHeads.current w'.opHeads).any fun cid =>
            (w.store.get cid).isNone && (w'.store.get cid).isSome) = true := by decide +kernel
    obtain ⟨_, w, returned, failed⟩ := Exec.exists_of_check ran
    obtain ⟨e, w', outcome, failed⟩ := Exec.exists_of_checkError failed
    obtain ⟨cid, -, test⟩ := List.any_eq_true.mp failed
    obtain ⟨absent, present⟩ := Bool.and_eq_true_iff.mp test
    exact ⟨objectCodec, _, w, w', e, cid, returned, outcome, Option.isNone_iff_eq_none.mp absent,
      present⟩
  · have ran : orphaned.check {} (fun cid w =>
        (gc objectCodec (enumerating fun _ => true) true 0).check w (fun _ w' =>
          (w'.store.get cid).isSome) &&
        (openAll 0).check w fun repo w₁ =>
          Exec.okAnd (reachableFrom objectCodec w₁.store (gcRoots repo)) fun set =>
            decide (cid ∉ set)) = true := by decide
    obtain ⟨cid, w, returned, both⟩ := Exec.exists_of_check ran
    obtain ⟨collected, opened⟩ := Bool.and_eq_true_iff.mp both
    obtain ⟨report, w', done, present⟩ := Exec.exists_of_check collected
    obtain ⟨repo, w₁, opened, walked⟩ := Exec.exists_of_check opened
    obtain ⟨set, walked, unreached⟩ := Exec.exists_of_okAnd walked
    refine ⟨objectCodec, _, w, w₁, w', repo, report, cid, returned, done, opened, ?_, present⟩
    exact fun live => of_decide_eq_true unreached ((mem_reachableFrom walked cid).1.mpr live)

/-- A collection that deletes the one block that nothing reaches. -/
theorem gc_exact_orphaned : ∃ (cid : ℕ) (w w' : World shortHashing) (repo : ReadonlyRepo ℕ),
    orphaned.Returns {} cid w ∧ (w.store.get cid).isSome ∧ w'.store.get cid = none ∧
      (gc objectCodec (enumerating fun _ => false) true 0).Returns w (.collected 1 0) w' ∧
        Swept objectCodec (enumerating fun _ => false) repo w.store w'.store := by
  have ran : orphaned.check {} (fun cid w =>
      (w.store.get cid).isSome && decide ((OpHeads.current w.opHeads).length = 1) &&
        (gc objectCodec (enumerating fun _ => false) true 0).check w fun report w' =>
          decide (report = .collected 1 0) && (w'.store.get cid).isNone) = true := by
    decide
  obtain ⟨cid, w, returned, tests⟩ := Exec.exists_of_check ran
  obtain ⟨stored, collected⟩ := Bool.and_eq_true_iff.mp tests
  obtain ⟨stored, single⟩ := Bool.and_eq_true_iff.mp stored
  obtain ⟨report, w', done, tests⟩ := Exec.exists_of_check collected
  obtain ⟨counted, gone⟩ := Bool.and_eq_true_iff.mp tests
  obtain rfl : report = .collected 1 0 := of_decide_eq_true counted
  obtain ⟨head, alone⟩ := List.length_eq_one_iff.mp (of_decide_eq_true single)
  obtain ⟨same, -, returns⟩ := gc_exact objectCodec (enumerating fun _ => false) 0 w
  obtain ⟨repo, w₁, opened, -, left⟩ := returns _ w' done
  have unmoved := same head alone
  rw [show (openAll 0).outcome w = (.ok repo, w₁) from opened] at unmoved
  obtain rfl : w₁ = w := unmoved
  rcases left with ⟨-, noList⟩ | ⟨left, -⟩
  · cases noList
  · exact ⟨cid, w₁, w', repo, returned, stored, Option.isNone_iff_eq_none.mp gone, done, left⟩

end Mnem.Cli
