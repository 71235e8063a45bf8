/-
# Transport.Reachable — the walk over any backend

A backend answers each read with a block, with nothing, or with a failure of its
own, and holds finitely many blocks.  `next` is one call of the iterator of
`iter_from_root`.  From any root the calls give distinct reachable blocks as they
are stored, the root first and each other block after one that links to it; then
nothing more if every reachable block can be read, and otherwise one failure and
nothing more (`calls_exact`).
-/
import Mnem.Transport.Export

namespace Mnem.Transport

open Theory

set_option autoImplicit false

/-! ## Backends -/

/-- What reads of a block store return; it holds finitely many blocks. -/
structure Backend where
  get : Cid → Except StoreError (Option Bytes)
  stored : List Cid
  finite : ∀ cid data, get cid = .ok (some data) → cid ∈ stored

namespace Backend

variable (F : Formats) (bs : Backend)

/-- One block and its links; only DAG-CBOR blocks have any. -/
def visit (cid : Cid) : Except StoreError (Bytes × List Cid) :=
  match bs.get cid with
  | .error e => .error e
  | .ok none => .error (.notFound cid)
  | .ok (some data) =>
      if cid.codec = codecDagCbor then
        match Codec.extractLinks F.cbor data with
        | .ok links => .ok (data, links)
        | .error e => .error (.links cid e)
      else .ok (data, [])

/-- `ReachableIter::new`. -/
def iterFromRoot (root : Cid) : Walk.Walker Cid := Walk.start root

/-- `ReachableIter::next`. -/
def next (it : Walk.Walker Cid) : Option (Except StoreError (Cid × Bytes)) × Walk.Walker Cid :=
  Walk.next (bs.visit F) it

/-- What the `n`-th call of an iterator gives. -/
def call (n : Nat) (it : Walk.Walker Cid) : Option (Except StoreError (Cid × Bytes)) :=
  (bs.next F ((fun it => (bs.next F it).2)^[n] it)).1

/-! ## Reachability -/

/-- The block at `a` is DAG-CBOR, and `b` is one of its links. -/
def LinksTo (a b : Cid) : Prop :=
  ∃ data links, bs.get a = .ok (some data) ∧ a.codec = codecDagCbor ∧
    Codec.extractLinks F.cbor data = .ok links ∧ b ∈ links

def Reaches : Cid → Cid → Prop := Relation.ReflTransGen (LinksTo F bs)

/-- The block is there, and its links can be extracted if it is DAG-CBOR. -/
def Readable (cid : Cid) : Prop :=
  ∃ data, bs.get cid = .ok (some data) ∧
    (cid.codec = codecDagCbor → ∃ links, Codec.extractLinks F.cbor data = .ok links)

variable {F bs}

theorem visit_ok_iff {cid : Cid} {data : Bytes} {links : List Cid} :
    bs.visit F cid = .ok (data, links) ↔ bs.get cid = .ok (some data) ∧
      if cid.codec = codecDagCbor then Codec.extractLinks F.cbor data = .ok links
      else links = [] := by
  unfold visit
  rcases bs.get cid with e | _ | stored
  · simp
  · simp
  · by_cases cbor : cid.codec = codecDagCbor
    · simp only [if_pos cbor, Except.ok.injEq, Option.some.injEq]
      cases found : Codec.extractLinks F.cbor stored with
      | ok links' =>
          simp only [Except.ok.injEq, Prod.mk.injEq]
          constructor
          · rintro ⟨rfl, rfl⟩
            exact ⟨rfl, found⟩
          · rintro ⟨rfl, again⟩
            exact ⟨rfl, Except.ok.inj (found.symm.trans again)⟩
      | error e =>
          simp only [reduceCtorEq, false_iff]
          rintro ⟨rfl, again⟩
          cases found.symm.trans again
    · simp only [if_neg cbor, Except.ok.injEq, Option.some.injEq, Prod.mk.injEq]
      exact and_congr_right' eq_comm

theorem links_iff {a b : Cid} : Walk.Links (bs.visit F) a b ↔ bs.LinksTo F a b := by
  constructor
  · rintro ⟨data, links, read, member⟩
    obtain ⟨present, found⟩ := visit_ok_iff.mp read
    split at found
    · exact ⟨data, links, present, ‹_›, found, member⟩
    · subst found
      cases member
  · rintro ⟨data, links, present, cbor, found, member⟩
    exact ⟨data, links, visit_ok_iff.mpr ⟨present, by rw [if_pos cbor]; exact found⟩, member⟩

theorem reaches_iff {root c : Cid} : Walk.Reaches (bs.visit F) root c ↔ bs.Reaches F root c := by
  have same : Walk.Links (bs.visit F) = bs.LinksTo F := funext₂ fun _ _ => propext links_iff
  rw [Walk.Reaches, same, Reaches]

theorem readable_iff {cid : Cid} : bs.Readable F cid ↔ ∃ out, bs.visit F cid = .ok out := by
  constructor
  · rintro ⟨data, present, extracts⟩
    by_cases cbor : cid.codec = codecDagCbor
    · obtain ⟨links, found⟩ := extracts cbor
      exact ⟨(data, links), visit_ok_iff.mpr ⟨present, by rw [if_pos cbor]; exact found⟩⟩
    · exact ⟨(data, []), visit_ok_iff.mpr ⟨present, by rw [if_neg cbor]⟩⟩
  · rintro ⟨⟨data, links⟩, read⟩
    obtain ⟨present, found⟩ := visit_ok_iff.mp read
    exact ⟨data, present, fun cbor => ⟨links, by rwa [if_pos cbor] at found⟩⟩

theorem answer_eq (n : Nat) (it : Walk.Walker Cid) :
    Walk.answer (bs.visit F) n it = bs.call F n it := by
  induction n generalizing it with
  | zero => rfl
  | succ n ih => exact ih _

/-! ## The walk -/

/-- **The walk is exact.**  The calls give some items and then nothing for ever, with one failure
between when something reachable cannot be read.  The items are distinct reachable blocks as they
are stored, the root first and every other after a block that links to it; when everything
reachable can be read they are all of it. -/
theorem calls_exact (F : Formats) (bs : Backend) (root : Cid) :
    ∃ items : List (Cid × Bytes), (items.map Prod.fst).Nodup ∧
      (∀ e ∈ items, bs.Reaches F root e.1 ∧ bs.get e.1 = .ok (some e.2)) ∧
      (∀ before e after, items = before ++ e :: after →
        (before = [] ∧ e.1 = root) ∨ ∃ earlier ∈ before, bs.LinksTo F earlier.1 e.1) ∧
      ((∀ c, bs.Reaches F root c → bs.Readable F c) →
        (∀ c, bs.Reaches F root c → c ∈ items.map Prod.fst) ∧
        ∀ n, bs.call F n (iterFromRoot root) = (items.map .ok)[n]?) ∧
      (¬ (∀ c, bs.Reaches F root c → bs.Readable F c) →
        ∃ c e, bs.Reaches F root c ∧ bs.visit F c = .error e ∧
          ∀ n, bs.call F n (iterFromRoot root) = (items.map .ok ++ [.error e])[n]?) := by
  have finite : ∀ k v links, bs.visit F k = .ok (v, links) → k ∈ bs.stored :=
    fun k v links read => bs.finite k v (visit_ok_iff.mp read).1
  obtain ⟨items, once, inOrder, sound, ends⟩ := Walk.exists_gives finite root
  rw [List.nil_append] at once inOrder
  refine ⟨items, once, fun e member => ?_, fun before e after split => ?_, fun all => ?_, fun bad => ?_⟩
  · obtain ⟨reached, links, read⟩ := sound e member
    exact ⟨reaches_iff.mp reached, (visit_ok_iff.mp read).1⟩
  · have keys : items.map Prod.fst = before.map Prod.fst ++ e.1 :: after.map Prod.fst := by
      rw [split, List.map_append, List.map_cons]
    rcases inOrder _ _ _ keys with ⟨first, same⟩ | ⟨j, member, link⟩
    · exact .inl ⟨List.map_eq_nil_iff.mp first, same⟩
    · obtain ⟨earlier, member', rfl⟩ := List.mem_map.mp member
      exact .inr ⟨earlier, member', links_iff.mp link⟩
  · rcases ends with ⟨answers, every⟩ | ⟨k, e, reached, fails, -⟩
    · refine ⟨fun c reached => every c (reaches_iff.mpr reached), fun n => ?_⟩
      exact (answer_eq n _).symm.trans (answers n)
    · obtain ⟨out, read⟩ := readable_iff.mp (all k (reaches_iff.mp reached))
      rw [read] at fails
      cases fails
  · rcases ends with ⟨-, every⟩ | ⟨k, e, reached, fails, answers⟩
    · refine absurd (fun c reached => ?_) bad
      obtain ⟨item, member, rfl⟩ := List.mem_map.mp (every c (reaches_iff.mpr reached))
      obtain ⟨-, links, read⟩ := sound item member
      exact readable_iff.mpr ⟨_, read⟩
    · refine ⟨k, e, reaches_iff.mp reached, fails, fun n => ?_⟩
      exact (answer_eq n _).symm.trans (answers n)

end Backend

/-! ## Stores that do not fail -/

/-- A block store in memory as a backend. -/
def Blockstore.backend (bs : Blockstore) : Backend where
  get cid := .ok (bs.get cid)
  stored := bs.blocks.map Prod.fst
  finite _ _ present :=
    List.mem_map_of_mem (f := Prod.fst) (Entries.mem_of_get? (Except.ok.inj present))

theorem Blockstore.visit_backend (F : Formats) (bs : Blockstore) :
    bs.backend.visit F = bs.visit F := by
  funext cid
  have here : bs.backend.get cid = .ok (bs.get cid) := rfl
  unfold Backend.visit Blockstore.visit
  rw [here]
  cases bs.get cid <;> rfl

/-- What an export drains is what the calls give. -/
theorem Blockstore.iterFromRoot_calls {F : Formats} {bs : Blockstore} {root : Cid}
    {items : List (Cid × Bytes)} (drained : bs.iterFromRoot F root = .ok items) (n : Nat) :
    bs.backend.call F n (Backend.iterFromRoot root) = (items.map .ok)[n]? := by
  rw [← Backend.answer_eq, visit_backend]
  exact Walk.answers_of_collect drained n

end Mnem.Transport
