/-
# Repo.OpHeads — the state that the processes of a repository share

A `World` is a block store and the set of operation heads.  `OpHeads.update`
inserts before it removes, and `publish` is how a commit advances the heads:
at once, or, to linearize, after it has seen the base operation as the only
head.
-/
import Mnem.Store

namespace Mnem.Repo

open Theory

set_option autoImplicit false
set_option linter.unusedSectionVars false

variable {Cid : Type} {H : Hashing Cid} [LinearOrder Cid]

namespace OpHeads

/-- The heads, sorted ascending. -/
def current (heads : OrdSet Cid) : List Cid := heads.keys

/-- Insert `new`, then remove each superseded head. -/
def update (heads : OrdSet Cid) (new : Cid) (supersedes : List Cid) : OrdSet Cid :=
  supersedes.foldl OrdSet.remove (heads.add new)

theorem mem_removeAll {heads : OrdSet Cid} {supersedes : List Cid} {c : Cid} :
    c ∈ supersedes.foldl OrdSet.remove heads ↔ c ∈ heads ∧ c ∉ supersedes := by
  induction supersedes generalizing heads with
  | nil => simp
  | cons x xs ih =>
      rw [List.foldl_cons, ih, OrdSet.mem_remove, List.mem_cons]
      tauto

@[simp] theorem mem_update {heads : OrdSet Cid} {new : Cid} {supersedes : List Cid} {c : Cid} :
    c ∈ update heads new supersedes ↔ (c = new ∨ c ∈ heads) ∧ c ∉ supersedes := by
  rw [update, mem_removeAll, OrdSet.mem_add]

theorem mem_current {heads : OrdSet Cid} {c : Cid} : c ∈ current heads ↔ c ∈ heads :=
  OrdSet.mem_keys

/-- A commit onto a head that it supersedes leaves the other heads in place. -/
theorem current_update_singleton {heads : OrdSet Cid} {base new : Cid}
    (alone : current heads = [base]) (distinct : new ≠ base) :
    current (update heads new [base]) = [new] := by
  apply OrdSet.keys_eq_singleton_iff.mpr
  intro c
  rw [mem_update, List.mem_singleton, OrdSet.keys_eq_singleton_iff.mp alone c]
  constructor
  · rintro ⟨rfl | rfl, other⟩
    · rfl
    · exact absurd rfl other
  · rintro rfl
    exact ⟨.inl rfl, distinct⟩

end OpHeads

/-- The block store and the operation heads. -/
structure World {Cid : Type} [LinearOrder Cid] (H : Hashing Cid) where
  store : Store H := {}
  opHeads : OrdSet Cid := OrdMap.empty

/-- Operations on the shared state. -/
abbrev WorldM (H : Hashing Cid) (α : Type) := Exec (World H) (Error Cid) α

/-- An operation that uses the block store only. -/
def onStore {α : Type} (p : StoreM H α) : WorldM H α :=
  p.zoom World.store fun s w => { w with store := s }

/-- Two worlds compare by their stores; heads come and go. -/
instance : Preorder (World H) where
  le w w' := w.store ≤ w'.store
  le_refl w := le_refl w.store
  le_trans _ _ _ first second := le_trans (α := Store H) first second

theorem onStore_grows {α : Type} {p : StoreM H α} (grows : Exec.Grows p) :
    Exec.Grows (onStore p) := fun w => grows w.store

@[simp] theorem returns_onStore {α : Type} {p : StoreM H α} {a : α} {w w' : World H} :
    (onStore p).Returns w a w' ↔ p.Returns w.store a w'.store ∧ w'.opHeads = w.opHeads := by
  rw [onStore, Exec.returns_zoom]
  constructor
  · rintro ⟨s, ran, rfl⟩
    exact ⟨ran, rfl⟩
  · rintro ⟨ran, same⟩
    refine ⟨w'.store, ran, ?_⟩
    cases w'
    cases same
    rfl

/-- `OpHeadsStore::current`. -/
def readHeads : WorldM H (List Cid) := Exec.read fun w => .ok (OpHeads.current w.opHeads)

/-- `OpHeadsStore::update`. -/
def updateHeads (new : Cid) (supersedes : List Cid) : WorldM H Unit :=
  Exec.update fun w => ((), { w with opHeads := OpHeads.update w.opHeads new supersedes })

@[simp] theorem returns_readHeads {heads : List Cid} {w w' : World H} :
    (readHeads : WorldM H (List Cid)).Returns w heads w' ↔
      OpHeads.current w.opHeads = heads ∧ w = w' := by
  rw [readHeads, Exec.returns_read, Except.ok.injEq]

@[simp] theorem returns_updateHeads {new : Cid} {supersedes : List Cid} {u : Unit}
    {w w' : World H} :
    (updateHeads new supersedes : WorldM H Unit).Returns w u w' ↔
      { w with opHeads := OpHeads.update w.opHeads new supersedes } = w' := by
  rw [updateHeads, Exec.returns_update]
  simp

/-- Whether the heads that were read are the base alone. -/
def isCurrent (base : Cid) (current : List Cid) : Bool :=
  !(current.length != 1 || current.head? != some base)

/-- How a commit advances the heads from its base to its new operation. -/
def publish (linearize : Bool) (base new : Cid) : WorldM H Unit := do
  if linearize then
    let current ← readHeads
    if isCurrent base current then updateHeads new [base] else throw .stale
  else updateHeads new [base]

theorem publish_returns {linearize : Bool} {base new : Cid} {u : Unit} {w w' : World H}
    (ran : (publish linearize base new : WorldM H Unit).Returns w u w') :
    w' = { w with opHeads := OpHeads.update w.opHeads new [base] } := by
  cases linearize with
  | false => exact (returns_updateHeads.mp ran).symm
  | true =>
      obtain ⟨current, w₁, read, rest⟩ := Exec.returns_bind.mp ran
      obtain ⟨-, rfl⟩ := returns_readHeads.mp read
      split at rest
      · exact (returns_updateHeads.mp rest).symm
      · exact absurd rest Exec.returns_throw

end Mnem.Repo
