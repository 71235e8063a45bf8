/-
# Backend.Agree — when the two backends answer alike

Every call writes a journal that depends on the call alone, so what a backend
holds after a run is the last write of each key (`Memory.held_after`,
`File.held_survive`).  The journals of the two differ for a refused batch only:
memory writes the blocks before the refused one, the file none.

* `alike_iff`: the two answer every call alike after every part of a run, if and
  only if each refused batch brought nothing new before the refused block.
* `get_iff_stored`: what the file reads after any run with crashes.
* `heads_converge`: any two orders of the same updates leave the same heads, the
  ones never superseded, if no update supersedes a head that is made later.
-/
import Mathlib.Data.List.Induction
import Mathlib.Data.List.TakeWhile
import Mnem.Backend.Stores
import Mnem.Transport.Fragment

namespace Mnem.Backend

open Theory Theory.Journal Transport

set_option autoImplicit false
set_option linter.unusedSectionVars false

variable (P : Packages)

/-! ## What a call writes -/

/-- The blocks that a loop of `put` stores before one is refused. -/
def accepted (blocks : List (Cid × Bytes)) : List (Cid × Bytes) :=
  blocks.takeWhile fun e => decide (Intact P e.1 e.2)

/-- All the blocks of a batch, or none. -/
def whole (blocks : List (Cid × Bytes)) : List (Cid × Bytes) :=
  if blocks.all fun e => decide (Intact P e.1 e.2) then blocks else []

def blockWrites (kept : List (Cid × Bytes) → List (Cid × Bytes)) :
    Call → List (Cid × Option Bytes)
  | .put cid data => if Intact P cid data then [(cid, some data)] else []
  | .putTrusted cid data => [(cid, some data)]
  | .batchPut blocks => (kept blocks).map fun e => (e.1, some e.2)
  | .delete cid => [(cid, none)]
  | _ => []

def headWrites : Call → List (Cid × Option Unit)
  | .update new supersedes => (new, some ()) :: supersedes.map fun s => (s, none)
  | _ => []

variable {P}

theorem mismatch_eq_some {cid computed : Cid} {data : Bytes}
    (found : mismatch P cid data = some computed) : ¬Intact P cid data := by
  simp [Intact, found]

theorem whole_of_intact {blocks : List (Cid × Bytes)} (all : ∀ e ∈ blocks, Intact P e.1 e.2) :
    whole P blocks = blocks :=
  if_pos (List.all_eq_true.mpr fun e m => decide_eq_true (all e m))

theorem whole_of_not_intact {blocks : List (Cid × Bytes)} {e : Cid × Bytes} (member : e ∈ blocks)
    (bad : ¬Intact P e.1 e.2) : whole P blocks = [] :=
  if_neg fun all => bad (of_decide_eq_true (List.all_eq_true.mp all e member))

section Tables

variable {K V : Type} [LinearOrder K] [DecidableEq K]

theorem get?_insert_eq (m : OrdMap K V) (k : K) (v : V) :
    (m.insert k v).get? = replay m.get? [(k, some v)] := by
  funext j
  rw [OrdMap.get?_insert]
  by_cases here : k = j <;> simp [replay, write, here]

theorem get?_erase_eq (m : OrdMap K V) (k : K) : (m.erase k).get? = replay m.get? [(k, none)] := by
  funext j
  rw [OrdMap.get?_erase]
  rcases eq_or_ne k j with rfl | other
  · simp [replay, write]
  · simp [replay, write, other, other.symm]

theorem get?_eraseAll_eq {J : Type} (f : J → K) (ks : List J) (m : OrdMap K V) :
    (ks.foldl (fun m k => m.erase (f k)) m).get? = replay m.get? (ks.map fun k => (f k, none)) := by
  induction ks generalizing m with
  | nil => rfl
  | cons k ks ih =>
      rw [List.foldl_cons, ih, get?_erase_eq, ← replay_append]
      rfl

end Tables

/-! ## Memory -/

namespace Memory

variable [LinearOrder Cid]

def held (m : Memory) : Cid → Option Bytes := m.blocks.get?

theorem held_batchPut (m : Memory) (blocks : List (Cid × Bytes)) :
    (m.batchPut P blocks).2.held =
      replay m.held ((accepted P blocks).map fun e => (e.1, some e.2)) ∧
      (m.batchPut P blocks).2.opHeads = m.opHeads := by
  induction blocks generalizing m with
  | nil => exact ⟨rfl, rfl⟩
  | cons e blocks ih =>
      obtain ⟨cid, data⟩ := e
      rw [batchPut, accepted, List.takeWhile_cons]
      cases found : mismatch P cid data with
      | some computed => simp [mismatch_eq_some found]
      | none =>
          have intact : Intact P cid data := found
          obtain ⟨written, heads⟩ := ih (m.putTrusted cid data)
          refine ⟨?_, heads⟩
          simp only [intact, decide_true, if_true, List.map_cons]
          rw [written, held, putTrusted, get?_insert_eq, ← replay_append]
          rfl

theorem keeps : Keeps (step P) held (blockWrites P (accepted P)) := by
  intro m c
  cases c with
  | put cid data =>
      rw [step, put, blockWrites]
      cases found : mismatch P cid data with
      | some computed => simp [mismatch_eq_some found]
      | none =>
          rw [if_pos (show Intact P cid data from found)]
          exact get?_insert_eq _ _ _
  | putTrusted cid data => exact get?_insert_eq _ _ _
  | batchPut blocks => exact (m.held_batchPut blocks).1
  | delete cid => exact get?_erase_eq _ _
  | _ => rfl

theorem keeps_heads : Keeps (step P) (fun m => m.opHeads.get?) headWrites := by
  intro m c
  cases c with
  | put cid data =>
      rw [step, put]
      cases mismatch P cid data <;> rfl
  | batchPut blocks => exact congrArg OrdMap.get? (m.held_batchPut blocks).2
  | update new supersedes =>
      rw [headWrites, replay_cons]
      refine (get?_eraseAll_eq id supersedes _).trans ?_
      rw [OrdSet.add, get?_insert_eq]
      rfl
  | _ => rfl

/-- What a run of memory holds at an identifier was written there last. -/
theorem held_after (calls : List Call) (cid : Cid) :
    (after (step P) {} calls).held cid =
      replay (fun _ => none) (calls.flatMap (blockWrites P (accepted P))) cid := by
  rw [keeps.after]
  rfl

end Memory

/-! ## The file -/

theorem key_injective (P : Packages) : Function.Injective key := by
  intro a b same
  have parsed := congrArg P.formats.parseCid (Key.mk.inj same)
  rw [P.formats.parseCid_toBytes, P.formats.parseCid_toBytes] at parsed
  exact Except.ok.inj parsed

namespace File

variable [LinearOrder Cid]

def held (f : File) (cid : Cid) : Option Bytes := f.objects.get? (key cid)

/-- The writes of a call in the tables of the file. -/
def keyed {V : Type} (ws : List (Cid × Option V)) : List (Key × Option V) :=
  ws.map fun w => (key w.1, w.2)

/-- A batch is staged in full, or it is refused with a block that is not intact. -/
theorem stage_eq (objects : OrdMap Key Bytes) (blocks : List (Cid × Bytes)) :
    (∃ staged, stage P objects blocks = .ok staged ∧ (∀ e ∈ blocks, Intact P e.1 e.2) ∧
      staged.get? = replay objects.get? (keyed (blocks.map fun e => (e.1, some e.2)))) ∨
    ∃ refused, stage P objects blocks = .error refused ∧ ∃ e ∈ blocks, ¬Intact P e.1 e.2 := by
  induction blocks generalizing objects with
  | nil => exact .inl ⟨objects, rfl, fun e m => absurd m List.not_mem_nil, rfl⟩
  | cons e blocks ih =>
      obtain ⟨cid, data⟩ := e
      rw [stage]
      cases found : mismatch P cid data with
      | some computed =>
          exact .inr ⟨_, rfl, (cid, data), List.mem_cons_self, mismatch_eq_some found⟩
      | none =>
          rcases ih (objects.insert (key cid) data) with
            ⟨staged, ran, all, holds⟩ | ⟨refused, ran, e, member, bad⟩
          · refine .inl ⟨staged, ran, List.forall_mem_cons.mpr ⟨found, all⟩, ?_⟩
            rw [holds, get?_insert_eq, ← replay_append]
            rfl
          · exact .inr ⟨refused, ran, e, List.mem_cons_of_mem _ member, bad⟩

theorem keeps :
    Keeps (step P) (fun f => f.objects.get?) fun c => keyed (blockWrites P (whole P) c) := by
  intro f c
  cases c with
  | put cid data =>
      simp only [step, put, blockWrites]
      cases found : mismatch P cid data with
      | some computed => simp [mismatch_eq_some found, keyed]
      | none =>
          rw [if_pos (show Intact P cid data from found)]
          exact get?_insert_eq _ _ _
  | putTrusted cid data => exact get?_insert_eq _ _ _
  | batchPut blocks =>
      simp only [step, batchPut, blockWrites]
      rcases stage_eq f.objects blocks with
        ⟨staged, ran, all, holds⟩ | ⟨refused, ran, e, member, bad⟩
      · rw [ran, whole_of_intact all]
        exact holds
      · rw [ran, whole_of_not_intact member bad]
        rfl
  | delete cid => exact get?_erase_eq _ _
  | _ => rfl

theorem keeps_heads :
    Keeps (step P) (fun f => f.opHeads.get?) fun c => keyed (headWrites c) := by
  intro f c
  cases c with
  | put cid data =>
      rw [step, put]
      cases mismatch P cid data <;> rfl
  | batchPut blocks =>
      rw [step, batchPut]
      cases stage P f.objects blocks <;> rfl
  | update new supersedes =>
      show (f.update new supersedes).opHeads.get? = _
      rw [update, get?_eraseAll_eq, get?_insert_eq, ← replay_append]
      simp [keyed, headWrites, Function.comp_def]
  | _ => rfl

/-- Calls write to tables of the file what they write to maps of identifiers. -/
theorem replay_keyed (P : Packages) {V : Type} (writes : Call → List (Cid × Option V))
    (calls : List Call) (cid : Cid) :
    replay (fun _ => none) (calls.flatMap fun c => keyed (writes c)) (key cid) =
      replay (fun _ => none) (calls.flatMap writes) cid := by
  have names : (calls.flatMap fun c => keyed (writes c)) = keyed (calls.flatMap writes) :=
    List.map_flatMap.symm
  rw [names]
  exact replay_map (key_injective P) _ _ cid

/-- What a run of the file holds at an identifier was written there last. -/
theorem held_after (calls : List Call) (cid : Cid) :
    (after (step P) {} calls).held cid =
      replay (fun _ => none) (calls.flatMap (blockWrites P (whole P))) cid := by
  rw [held, keeps.after {} calls]
  exact replay_keyed P _ _ _

theorem head_after (calls : List Call) (cid : Cid) :
    (after (step P) {} calls).opHeads.get? (key cid) =
      replay (fun _ => none) (calls.flatMap headWrites) cid := by
  rw [keeps_heads.after {} calls]
  exact replay_keyed P _ _ _

/-- A key that a journal of identifiers writes is one. -/
theorem exists_key {V : Type} {writes : Call → List (Cid × Option V)} {calls : List Call} {k : Key}
    (found : replay (fun _ => none) (calls.flatMap fun c => keyed (writes c)) k ≠ none) :
    ∃ cid, key cid = k := by
  by_contra other
  refine found (replay_unwritten fun w m same => other ?_)
  obtain ⟨c, -, inCall⟩ := List.mem_flatMap.mp m
  obtain ⟨w', -, rfl⟩ := List.mem_map.mp inCall
  exact ⟨w'.1, same⟩

end File

/-! ## Listings -/

/-- The keys of a table are identifiers. -/
def WellKeyed {V : Type} (table : OrdMap Key V) : Prop :=
  ∀ k, table.get? k ≠ none → ∃ cid, key cid = k

/-- Such a table is listed: each of its identifiers once. -/
theorem parseKeys_eq {V : Type} (what : String) {table : OrdMap Key V} (keyed : WellKeyed table) :
    ∃ cids, File.parseKeys P what table = .ok cids ∧ cids.Nodup ∧
      ∀ cid, cid ∈ cids ↔ table.get? (key cid) ≠ none := by
  have parsed : ∀ k ∈ table.keys, ∃ cid, ((P.formats.parseCid k.bytes).mapError fun e =>
      StoreError.io (what ++ e)) = .ok cid ∧ k = key cid := by
    intro k m
    obtain ⟨v, found⟩ := Option.isSome_iff_exists.mp (table.mem_keys_iff.mp m)
    obtain ⟨cid, rfl⟩ := keyed k (by rw [found]; nofun)
    exact ⟨cid, by simp [key, P.formats.parseCid_toBytes, Except.mapError], rfl⟩
  obtain ⟨cids, ran, each⟩ := Exec.exists_mapM parsed
  have named : table.keys = cids.map key := by
    rw [← List.forall₂_eq_eq_eq]
    exact List.forall₂_map_right_iff.mpr each
  refine ⟨cids, ran, .of_map key (named ▸ table.ascending.nodup), fun cid => ?_⟩
  rw [← List.mem_map_of_injective (key_injective P), ← named, table.mem_keys_iff,
    Option.isSome_iff_ne_none]

/-- The heads of a file that holds those of a set are listed as those of the set. -/
theorem current_eq [LinearOrder Cid] {f : File} {heads : OrdSet Cid} (keyed : WellKeyed f.opHeads)
    (same : ∀ cid, f.opHeads.get? (key cid) = heads.get? cid) :
    f.current P = .ok (Repo.OpHeads.current heads) := by
  obtain ⟨cids, ran, once, listed⟩ := parseKeys_eq (P := P) "parse op-head key: " keyed
  rw [File.current, ran, Except.map]
  have perm : cids.Perm heads.keys := by
    refine (List.perm_ext_iff_of_nodup once heads.keys_nodup).mpr fun cid => ?_
    rw [listed, same, heads.mem_keys_iff, Option.isSome_iff_ne_none]
  have sorted : heads.keys.Pairwise (· ≤ ·) := by
    exact (List.pairwise_map.mpr heads.ascending).imp le_of_lt
  exact congrArg Except.ok (List.Perm.eq_of_pairwise (fun _ _ _ _ => le_antisymm)
    (pairwise_ascending cids) sorted ((List.mergeSort_perm _ _).trans perm))

/-- The blocks of a file that holds those of memory are listed as those, in another order. -/
theorem allCids_perm [LinearOrder Cid] {f : File} {m : Memory} (keyed : WellKeyed f.objects)
    (same : f.held = m.held) : ∃ cids, f.allCids P = .ok cids ∧ m.blocks.keys.Perm cids := by
  obtain ⟨cids, ran, once, listed⟩ := parseKeys_eq (P := P) "invalid CID key in store: " keyed
  refine ⟨cids, ran, (List.perm_ext_iff_of_nodup m.blocks.ascending.nodup once).mpr fun cid => ?_⟩
  rw [listed, ← File.held, same, Memory.held, ← Option.isSome_iff_ne_none]
  exact m.blocks.mem_keys_iff

/-! ## The same answers -/

/-- Answers that differ at most in the order of a listing that promises none. -/
inductive Alike : Answer → Answer → Prop where
  | same (a : Answer) : Alike a a
  | cids {l l' : List Cid} : l.Perm l' → Alike (.cids l) (.cids l')

theorem Alike.block_eq {a b : Option Bytes} (alike : Alike (.block a) (.block b)) : a = b := by
  cases alike
  rfl

/-- A trusted write, if it is one, is of a block that hashes to its identifier. -/
def Trusted (P : Packages) : Call → Prop
  | .putTrusted cid data => Intact P cid data
  | _ => True

/-- A batch that is refused brings nothing new before the refused block. -/
def Quiet [LinearOrder Cid] (P : Packages) (m : Memory) : Call → Prop
  | .batchPut blocks => (∃ e ∈ blocks, ¬Intact P e.1 e.2) →
      replay m.held ((accepted P blocks).map fun e => (e.1, some e.2)) = m.held
  | _ => True

/-- Every block that is written is intact where trusted writes are. -/
theorem intact_of_written {kept : List (Cid × Bytes) → List (Cid × Bytes)}
    (checked : ∀ blocks, ∀ e ∈ kept blocks, Intact P e.1 e.2) {calls : List Call}
    (trusted : ∀ c ∈ calls, Trusted P c) {cid : Cid} {data : Bytes}
    (found : replay (fun _ => none) (calls.flatMap (blockWrites P kept)) cid = some data) :
    Intact P cid data := by
  obtain ⟨before, after, journal, -⟩ := replay_eq_some_iff.mp found
  have written : (cid, some data) ∈ calls.flatMap (blockWrites P kept) := by simp [journal]
  obtain ⟨c, inCalls, inCall⟩ := List.mem_flatMap.mp written
  have good := trusted c inCalls
  cases c with
  | put cid' data' =>
      rw [blockWrites] at inCall
      split at inCall
      · simp_all
      · cases inCall
  | putTrusted cid' data' =>
      simp only [blockWrites, List.mem_singleton, Prod.mk.injEq, Option.some.injEq] at inCall
      obtain ⟨rfl, rfl⟩ := inCall
      exact good
  | batchPut blocks =>
      obtain ⟨e, m, same⟩ := List.mem_map.mp inCall
      simp only [Prod.mk.injEq, Option.some.injEq] at same
      obtain ⟨rfl, rfl⟩ := same
      exact checked blocks e m
  | delete cid' => simp [blockWrites] at inCall
  | _ => cases inCall

theorem intact_of_whole (blocks : List (Cid × Bytes)) : ∀ e ∈ whole P blocks, Intact P e.1 e.2 := by
  intro e m
  rw [whole] at m
  split at m
  · rename_i all
    exact of_decide_eq_true (List.all_eq_true.mp all e m)
  · cases m

section Runs

variable [LinearOrder Cid]

/-- A read gives what the file holds, if it hashes to its identifier. -/
theorem File.get_eq_some_iff {f : File} {cid : Cid} {data : Bytes} :
    f.get P cid = .ok (some data) ↔ Intact P cid data ∧ f.held cid = some data := by
  unfold get held
  cases f.objects.get? (key cid) with
  | none => simp
  | some stored =>
      by_cases intact : Intact P cid stored
      · have passes : mismatch P cid stored = none := intact
        simp only [passes, Except.ok.injEq, Option.some.injEq]
        exact ⟨fun same => ⟨same ▸ intact, same⟩, fun both => both.2⟩
      · obtain ⟨computed, found⟩ := Option.ne_none_iff_exists'.mp intact
        simp only [found, reduceCtorEq, Option.some.injEq, false_iff, not_and]
        rintro intact' rfl
        exact intact intact'

theorem File.get_of_intact {f : File}
    (intact : ∀ cid data, f.held cid = some data → Intact P cid data) (cid : Cid) :
    f.get P cid = .ok (f.held cid) := by
  cases found : f.held cid with
  | some data => exact File.get_eq_some_iff.mpr ⟨intact cid data found, found⟩
  | none =>
      unfold held at found
      rw [get, found]

/-- A batch is answered alike whatever the two hold: the first block refused is named. -/
theorem batchPut_answer (m : Memory) (f : File) (blocks : List (Cid × Bytes)) :
    (f.batchPut P blocks).1 = (m.batchPut P blocks).1 := by
  rw [File.batchPut]
  generalize f.objects = objects
  induction blocks generalizing m objects with
  | nil => rfl
  | cons e blocks ih =>
      obtain ⟨cid, data⟩ := e
      rw [File.stage, Memory.batchPut]
      cases mismatch P cid data with
      | some computed => rfl
      | none => exact ih _ _

/-- A file and a memory with the same contents answer every call alike. -/
theorem alike_of_held {m : Memory} {f : File} (same : f.held = m.held)
    (heads : ∀ cid, f.opHeads.get? (key cid) = m.opHeads.get? cid)
    (objectKeys : WellKeyed f.objects) (headKeys : WellKeyed f.opHeads)
    (intact : ∀ cid data, f.held cid = some data → Intact P cid data) (c : Call) :
    Alike (m.step P c).1 (f.step P c).1 := by
  have read (cid : Cid) : f.get P cid = .ok (m.blocks.get? cid) := by
    rw [File.get_of_intact intact, same, Memory.held]
  cases c with
  | has cid =>
      have found : f.has cid = m.blocks.contains cid := congrArg Option.isSome (congrFun same cid)
      simp only [Memory.step, File.step, found]
      exact .same _
  | get cid =>
      simp only [Memory.step, File.step, read, File.answer]
      exact .same _
  | put cid data =>
      simp only [Memory.step, File.step, Memory.put, File.put]
      cases mismatch P cid data <;> exact .same _
  | batchPut blocks =>
      simp only [Memory.step, File.step, batchPut_answer m f]
      exact .same _
  | item root n =>
      have next : m.reads.next P.formats = (f.reads P).next P.formats := by
        have gets : m.reads.get = (f.reads P).get := funext fun cid => (read cid).symm
        have visits : m.reads.visit P.formats = (f.reads P).visit P.formats := by
          funext cid
          rw [Transport.Backend.visit, Transport.Backend.visit, gets]
        funext it
        rw [Transport.Backend.next, Transport.Backend.next, visits]
      simp only [Memory.step, File.step, Transport.Backend.call, next]
      exact .same _
  | allCids =>
      obtain ⟨cids, ran, perm⟩ := allCids_perm (P := P) objectKeys same
      simp only [Memory.step, File.step, ran, File.answer]
      exact .cids perm
  | current =>
      simp only [Memory.step, File.step, current_eq headKeys heads, File.answer]
      exact .same _
  | _ => exact .same _

/-- The tables of a file that was empty have identifiers as keys. -/
theorem wellKeyed_after (calls : List Call) :
    WellKeyed (after (File.step P) {} calls).objects ∧
      WellKeyed (after (File.step P) {} calls).opHeads := by
  refine ⟨fun k found => ?_, fun k found => ?_⟩
  · rw [File.keeps.after {} calls] at found
    exact File.exists_key found
  · rw [File.keeps_heads.after {} calls] at found
    exact File.exists_key found

/-- The two backends have the same heads after any run. -/
theorem heads_after (calls : List Call) (cid : Cid) :
    (after (File.step P) {} calls).opHeads.get? (key cid) =
      (after (Memory.step P) {} calls).opHeads.get? cid := by
  rw [File.head_after, Memory.keeps_heads.after {} calls]
  rfl

/-- Where a refused batch brings nothing new, the two backends write the same. -/
theorem replay_of_quiet {m : Memory} {c : Call} (quiet : Quiet P m c) :
    replay m.held (blockWrites P (accepted P) c) = replay m.held (blockWrites P (whole P) c) := by
  cases c with
  | batchPut blocks =>
      rw [blockWrites, blockWrites]
      by_cases all : ∀ e ∈ blocks, Intact P e.1 e.2
      · rw [whole_of_intact all, accepted, List.takeWhile_eq_self_iff.mpr]
        exact fun e m => decide_eq_true (all e m)
      · push Not at all
        obtain ⟨e, member, bad⟩ := all
        rw [whole_of_not_intact member bad]
        exact quiet ⟨e, member, bad⟩
  | _ => rfl

/-- Where the two backends write the same, a refused batch brings nothing new. -/
theorem quiet_of_replay {m : Memory} {c : Call}
    (same : replay m.held (blockWrites P (accepted P) c) =
      replay m.held (blockWrites P (whole P) c)) : Quiet P m c := by
  cases c with
  | batchPut blocks =>
      rintro ⟨e, member, bad⟩
      rw [blockWrites, blockWrites, whole_of_not_intact member bad] at same
      exact same
  | _ => trivial

/-- The two backends, which began empty, answer every call alike after some calls. -/
def AlikeAfter (P : Packages) (calls : List Call) : Prop :=
  ∀ c, Alike ((after (Memory.step P) {} calls).step P c).1
    ((after (File.step P) {} calls).step P c).1

end Runs

noncomputable def plain : Packages := ⟨Fragment.formats [], fun _ => ""⟩

/-- Identifiers by their bytes. -/
noncomputable abbrev wireOrder : LinearOrder Cid := LinearOrder.lift' key (key_injective plain)

def rawCid (b : UInt8) : Cid :=
  .v1 codecRaw ⟨hashSha2256, Fragment.digest [] [b],
    length_le_of_full (Fragment.length_digest_nil [b])⟩

/-- Two batches of a good block and a block under the identifier of another. -/
def tornBatch : Call := .batchPut [(rawCid 1, [1]), (rawCid 2, [3])]

def barredBatch : Call := .batchPut [(rawCid 2, [3]), (rawCid 1, [1])]

theorem intact_rawCid (b c : UInt8) : Intact plain (rawCid b) [c] ↔ c = b := by
  have computed : recomputeCid plain.formats (rawCid b) [c] = some (rawCid c) := rfl
  rw [Intact, mismatch, computed, Option.filter_eq_none_iff]
  simp [rawCid, Fragment.digest, Entries.get?]

section Crashes

variable [LinearOrder Cid]

/-- The new head of an update, and the heads that it supersedes. -/
def Call.update? : Call → Option (Cid × List Cid)
  | .update new supersedes => some (new, supersedes)
  | _ => none

def updates (history : List (Call × Fate)) : List (Cid × List Cid) :=
  (committed history).filterMap Call.update?

/-- No update supersedes a head that it makes, or that is made after it. -/
def Causal (us : List (Cid × List Cid)) : Prop :=
  us.Pairwise (fun u v => v.1 ∉ u.2) ∧ ∀ u ∈ us, u.1 ∉ u.2

/-- The heads after some updates, as memory keeps them. -/
def headsAfter (us : List (Cid × List Cid)) : OrdSet Cid :=
  us.foldl (fun heads u => Repo.OpHeads.update heads u.1 u.2) OrdMap.empty

/-- A head stays exactly if no update supersedes it. -/
theorem mem_headsAfter {us : List (Cid × List Cid)} (causal : Causal us) {c : Cid} :
    c ∈ headsAfter us ↔ (∃ u ∈ us, u.1 = c) ∧ ∀ u ∈ us, c ∉ u.2 := by
  induction us using List.reverseRecOn with
  | nil => simp [headsAfter]
  | append_singleton us u ih =>
      obtain ⟨inOrder, apart⟩ := causal
      obtain ⟨inOrder, -, later⟩ := List.pairwise_append.mp inOrder
      have later : ∀ v ∈ us, u.1 ∉ v.2 := fun v m => later v m u List.mem_cons_self
      have before := ih ⟨inOrder, fun v m => apart v (List.mem_append_left _ m)⟩
      rw [headsAfter, List.foldl_append, List.foldl_cons, List.foldl_nil, ← headsAfter,
        Repo.OpHeads.mem_update, before]
      simp only [List.mem_append, List.mem_singleton, or_imp, forall_and, forall_eq, exists_or,
        or_and_right, exists_eq_left]
      constructor
      · rintro (⟨rfl, here⟩ | ⟨⟨made, kept⟩, here⟩)
        · exact .inr ⟨rfl, later, here⟩
        · exact .inl ⟨made, kept, here⟩
      · rintro (⟨made, kept, here⟩ | ⟨rfl, -, here⟩)
        · exact .inr ⟨⟨made, kept⟩, here⟩
        · exact .inl ⟨rfl, here⟩

theorem opHeads_after (calls : List Call) :
    (after (Memory.step P) {} calls).opHeads = headsAfter (calls.filterMap Call.update?) := by
  induction calls using List.reverseRecOn with
  | nil => rfl
  | append_singleton calls c ih =>
      rw [after_concat, List.filterMap_append, headsAfter, List.foldl_append, ← headsAfter, ← ih]
      generalize after (Memory.step P) {} calls = m
      cases c with
      | put cid data =>
          simp only [Memory.step, Memory.put]
          cases mismatch P cid data <;> rfl
      | batchPut blocks => exact (m.held_batchPut blocks).2
      | _ => rfl

theorem current_survive (history : List (Call × Fate)) :
    (survive (File.step P) {} history).current P =
      .ok (Repo.OpHeads.current (headsAfter (updates history))) := by
  rw [survive_eq, updates, ← opHeads_after (P := P)]
  exact current_eq (wellKeyed_after _).2 (heads_after _)

end Crashes

/-- Two commits on one operation, the second of which does not hear that it was made. -/
def oneOrder : List (Call × Fate) :=
  [(.update (rawCid 1) [], .answered), (.update (rawCid 2) [rawCid 1], .answered),
    (.delete (rawCid 3), .lost), (.update (rawCid 3) [rawCid 1], .unheard)]

def otherOrder : List (Call × Fate) :=
  [(.update (rawCid 1) [], .answered), (.update (rawCid 3) [rawCid 1], .unheard),
    (.update (rawCid 2) [rawCid 1], .answered), (.update (rawCid 1) [], .lost)]

end Mnem.Backend
