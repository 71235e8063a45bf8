/-
# Cli.Fsck — what a clean check says of a repository

`mnem fsck` walks from the operation at the head along first parents.  It reads
each operation, its view and its head commits with their hashes, and every chunk
of their trees without.  A clean check says nothing of what is reached only
through a further parent, and of a chunk only that it decodes.

* `checks_tree`, `checks_commit`, `checks_view`: what each part of the check decides.
* `reports_ok_of_checked`, `checked_of_reports_ok`: a clean check is one of an
  unobjectionable chain of first parents.
* `fsck_trustworthy_iff`: when a clean check can be trusted.
-/
import Mnem.Theory.Checks
import Mnem.Codec.RoundTrip
import Mnem.Transport.Fragment

namespace Mnem.Cli.Fsck

open Theory Transport Relation

set_option autoImplicit false

variable {ε : Type}

/-! ## The command -/

/-- Why a block does not pass; `mismatch` has what its bytes hash to. -/
inductive Reason (ε : Type) where
  | store (e : ε)
  | missing
  | mismatch (computed : Cid)

/-- `kind` of an error: the block that is at fault, and what is wrong with it. -/
inductive Kind (ε : Type) where
  | op (reason : Reason ε)
  | opDecode (e : Codec.CodecError)
  | view (reason : Reason ε)
  | viewDecode (e : Codec.CodecError)
  | commit (reason : Reason ε)
  | commitDecode (e : Codec.CodecError)
  | missingInterior (tree : String)
  | root (label : String) (reason : Reason ε)

/-- A single integrity error discovered during the walk. -/
structure FsckError (ε : Type) where
  op : Cid
  kind : Kind ε
  cid : Cid

/-- What a walk has found so far. -/
structure Tally (ε : Type) where
  errors : List (FsckError ε) := []
  blocksVerified : Nat := 0

namespace Tally

def verify (t : Tally ε) : Tally ε := { t with blocksVerified := t.blocksVerified + 1 }

def fail (t : Tally ε) (op : Cid) (kind : Kind ε) (cid : Cid) : Tally ε :=
  { t with errors := t.errors ++ [⟨op, kind, cid⟩] }

@[simp] theorem errors_verify (t : Tally ε) : t.verify.errors = t.errors := rfl

theorem errors_fail_ne (t : Tally ε) (op : Cid) (kind : Kind ε) (cid : Cid) :
    (t.fail op kind cid).errors ≠ [] := by
  simp [fail]

end Tally

/-- A tree chunk. -/
inductive TreeChunk where
  | leaf (entries : List (ProllyKey × Cid)) (extra : Props Cid)
  | internal (boundaries : List ProllyKey) (children : List Cid) (extra : Props Cid)

def TreeChunk.children : TreeChunk → List Cid
  | leaf _ _ => []
  | internal _ children _ => children

/-- The checks on a wire record, with the texts of their errors. -/
def chunkOfWire (w : Objects.TreeWire Cid) : Except String TreeChunk :=
  if w.leaf then
    match w.entries with
    | none => .error "leaf chunk missing 'entries'"
    | some entries =>
        if w.boundaries.isSome ∨ w.children.isSome then
          .error "leaf chunk must not carry 'boundaries' or 'children'"
        else .ok (.leaf entries w.extra)
  else
    match w.boundaries, w.children with
    | none, _ => .error "internal chunk missing 'boundaries'"
    | some _, none => .error "internal chunk missing 'children'"
    | some boundaries, some children =>
        if w.entries.isSome then .error "internal chunk must not carry 'entries'"
        else if boundaries.length + 1 ≠ children.length then
          .error "internal chunk: boundaries.len() must equal children.len()-1"
        else .ok (.internal boundaries children w.extra)

def loadChunk (F : Formats) (bytes : Bytes) : Except Codec.CodecError TreeChunk := do
  let wire ← Format.fromCanonicalBytes F.cbor Format.treeWire bytes
  (chunkOfWire wire).mapError .decode

/-- `DEFAULT_LIMIT` -/
def defaultLimit : Nat := 50000

section Command

variable (F : Formats) (get : Cid → Except ε (Option Bytes))

inductive LoadError (ε : Type) where
  | store (e : ε)
  | notFound (cid : Cid)
  | codec (e : Codec.CodecError)

/-- `load_tree_chunk`: the chunk, which is not hashed here. -/
def loadTreeChunk (cid : Cid) : Except (LoadError ε) TreeChunk :=
  match get cid with
  | .error e => .error (.store e)
  | .ok none => .error (.notFound cid)
  | .ok (some bytes) => (loadChunk F bytes).mapError .codec

/-- The block is there and hashes to its identifier, if that can be told; the bytes are those that
the caller fetches once more. -/
def checkBlock (cid : Cid) : Except (Reason ε) Bytes :=
  match get cid with
  | .error e => .error (.store e)
  | .ok none => .error .missing
  | .ok (some bytes) =>
      match recomputeCid F cid bytes with
      | some computed => if computed ≠ cid then .error (.mismatch computed) else .ok bytes
      | none => .ok bytes

/-- Fetch every chunk below those on the stack. -/
def walkProllyTree (op : Cid) (tree : String) : Nat → List Cid → Tally ε → Option (Tally ε)
  | _, [], t => some t
  | 0, _ :: _, _ => none
  | fuel + 1, cid :: stack, t =>
      match loadTreeChunk F get cid with
      | .ok chunk => walkProllyTree op tree fuel (chunk.children.reverse ++ stack) t.verify
      | .error _ => walkProllyTree op tree fuel stack (t.fail op (.missingInterior tree) cid)

/-- The trees of a commit; the last two are optional. -/
def treesOf (c : Objects.Commit Cid) : List (String × Cid) :=
  [("nodes", c.nodes), ("edges", c.edges), ("schema", c.schema)] ++
    (c.embeddings.toList.map fun cid => ("embeddings", cid)) ++
    c.sparse.toList.map fun cid => ("sparse", cid)

/-- The other optional fields of a commit. -/
def rootsOf (c : Objects.Commit Cid) : List (String × Cid) :=
  (c.indexes.toList.map fun cid => ("indexes root", cid)) ++
    c.delta.toList.map fun cid => ("delta root", cid)

def checkRoot (op : Cid) (root : String × Cid) (t : Tally ε) : Tally ε :=
  match checkBlock F get root.2 with
  | .ok _ => t.verify
  | .error reason => t.fail op (.root root.1 reason) root.2

/-- Check a block, decode it and go on with the object; each of the first two may be at fault. -/
def checkObject {α : Type} (op cid : Cid) (kind : Reason ε → Kind ε)
    (decodeKind : Codec.CodecError → Kind ε) (decode : Bytes → Except Codec.CodecError α)
    (rest : α → Tally ε → Option (Tally ε)) (t : Tally ε) : Option (Tally ε) :=
  match checkBlock F get cid with
  | .error reason => some (t.fail op (kind reason) cid)
  | .ok bytes =>
      match decode bytes with
      | .error e => some (t.verify.fail op (decodeKind e) cid)
      | .ok a => rest a t.verify

def checkCommit (op head : Cid) (fuel : Nat) : Tally ε → Option (Tally ε) :=
  checkObject F get op head .commit .commitDecode
    (Format.fromCanonicalBytes F.cbor Format.commit) fun commit t =>
      ((treesOf commit).foldlM
        (fun t tree => walkProllyTree F get op tree.1 fuel [tree.2] t) t).bind fun t =>
        (rootsOf commit).foldlM (fun t root => some (checkRoot F get op root t)) t

def checkView (op view : Cid) (fuel : Nat) : Tally ε → Option (Tally ε) :=
  checkObject F get op view .view .viewDecode
    (Format.fromCanonicalBytes F.cbor Format.view) fun view t =>
      view.heads.foldlM (fun t head => checkCommit F get op head fuel t) t

/-- The walk from `cur` along first parents, with the steps that the limit leaves and the
operations that were visited; the count is of the operations that decoded. -/
def walkOperations (fuel : Nat) : Nat → Cid → List Cid → Nat → Tally ε → Option (Nat × Tally ε)
  | 0, _, _, checked, t => some (checked, t)
  | left + 1, cur, visited, checked, t =>
      if cur ∈ visited then some (checked, t)
      else
        match checkBlock F get cur with
        | .error reason => some (checked, t.fail cur (.op reason) cur)
        | .ok bytes =>
            match Format.fromCanonicalBytes F.cbor Format.operation bytes with
            | .error e => some (checked, t.verify.fail cur (.opDecode e) cur)
            | .ok op => do
                let t ← checkView F get cur op.view fuel t.verify
                match op.parents.head? with
                | some parent => walkOperations fuel left parent (cur :: visited) (checked + 1) t
                | none => return (checked + 1, t)

structure FsckReport (ε : Type) where
  opsChecked : Nat
  blocksVerified : Nat
  errors : List (FsckError ε)
  ok : Bool

def run (limit : Option Nat) (head : Cid) (fuel : Nat) : Option (FsckReport ε) :=
  (walkOperations F get fuel (limit.getD defaultLimit) head [] 0 {}).map fun (checked, t) =>
    ⟨checked, t.blocksVerified, t.errors, t.errors.isEmpty⟩

/-- The command ends with the report. -/
def Reports (limit : Option Nat) (head : Cid) (report : FsckReport ε) : Prop :=
  ∃ fuel, run F get limit head fuel = some report

end Command

/-! ## What it is for -/

section Purpose

variable (F : Formats) (get : Cid → Except ε (Option Bytes))

/-- Bytes that hash to their identifier, as far as its algorithm is known. -/
def Hashes (cid : Cid) (bytes : Bytes) : Prop :=
  ∀ computed, recomputeCid F cid bytes = some computed → computed = cid

/-- A block that is there and hashes to its identifier. -/
def Sound (cid : Cid) (bytes : Bytes) : Prop := get cid = .ok (some bytes) ∧ Hashes F cid bytes

/-- Every chunk of the tree is there, decodes, and has good bytes. -/
inductive WholeTree (good : Cid → Bytes → Prop) : Cid → Prop
  | intro {cid : Cid} {bytes : Bytes} {chunk : TreeChunk} : get cid = .ok (some bytes) →
      good cid bytes → loadChunk F bytes = .ok chunk →
      (∀ child ∈ chunk.children, WholeTree good child) → WholeTree good cid

/-- The head commit with all that it names. -/
def WholeCommit (good : Cid → Bytes → Prop) (head : Cid) : Prop :=
  ∃ bytes commit, Sound F get head bytes ∧
    Format.fromCanonicalBytes F.cbor Format.commit bytes = .ok commit ∧
    (∀ tree ∈ treesOf commit, WholeTree F get good tree.2) ∧
    ∀ root ∈ rootsOf commit, ∃ bytes, Sound F get root.2 bytes

def WholeView (good : Cid → Bytes → Prop) (cid : Cid) : Prop :=
  ∃ bytes view, Sound F get cid bytes ∧
    Format.fromCanonicalBytes F.cbor Format.view bytes = .ok view ∧
    ∀ head ∈ view.heads, WholeCommit F get good head

/-- The operation with its view and its head commits, and all that they name. -/
def WholeOperation (good : Cid → Bytes → Prop) (cid : Cid) : Prop :=
  ∃ bytes op, Sound F get cid bytes ∧
    Format.fromCanonicalBytes F.cbor Format.operation bytes = .ok op ∧
    WholeView F get good op.view

end Purpose

/-! ## What each check decides -/

section Checks

variable {F : Formats} {get : Cid → Except ε (Option Bytes)} {op : Cid}

/-- Only that a chunk is there. -/
def Unhashed (_ : Cid) (_ : Bytes) : Prop := True

theorem checkBlock_eq_ok {cid : Cid} {bytes : Bytes} :
    checkBlock F get cid = .ok bytes ↔ Sound F get cid bytes := by
  unfold checkBlock Sound Hashes
  cases get cid with
  | error e => simp
  | ok found =>
      cases found with
      | none => simp
      | some data =>
          dsimp only
          cases hash : recomputeCid F cid data with
          | none =>
              constructor
              · intro ran
                cases ran
                exact ⟨rfl, fun computed same => by rw [hash] at same; cases same⟩
              · rintro ⟨same, -⟩
                cases same
                rfl
          | some computed =>
              dsimp only
              constructor
              · intro ran
                split at ran
                · cases ran
                · rename_i agree
                  cases ran
                  refine ⟨rfl, fun computed' same => ?_⟩
                  obtain rfl := Option.some.inj (hash.symm.trans same)
                  exact not_not.mp agree
              · rintro ⟨same, hashes⟩
                cases same
                rw [if_neg (not_not.mpr (hashes computed hash))]

theorem Sound.unique {cid : Cid} {bytes bytes' : Bytes} (sound : Sound F get cid bytes)
    (sound' : Sound F get cid bytes') : bytes = bytes' :=
  Option.some.inj (Except.ok.inj (sound.1.symm.trans sound'.1))

theorem loadTreeChunk_eq_ok {cid : Cid} {chunk : TreeChunk} :
    loadTreeChunk F get cid = .ok chunk ↔
      ∃ bytes, get cid = .ok (some bytes) ∧ loadChunk F bytes = .ok chunk := by
  unfold loadTreeChunk
  cases get cid with
  | error e => simp
  | ok found =>
      cases found with
      | none => simp
      | some data =>
          dsimp only
          cases loaded : loadChunk F data <;> simp [Except.mapError, loaded]

/-- A walk over a stack where it can end without new errors. -/
def Clear (F : Formats) (get : Cid → Except ε (Option Bytes)) (op : Cid) (tree : String)
    (stack : List Cid) : Prop :=
  ∀ t, ∃ fuel t', walkProllyTree F get op tree fuel stack t = some t' ∧ t'.errors = t.errors

/-- Whole trees in front of a stack do not change that. -/
theorem Clear.append {tree : String} {stack cids : List Cid} (clear : Clear F get op tree stack)
    (each : ∀ cid ∈ cids, ∀ stack, Clear F get op tree stack →
      Clear F get op tree (cid :: stack)) : Clear F get op tree (cids ++ stack) := by
  induction cids with
  | nil => exact clear
  | cons cid cids ih =>
      apply each cid List.mem_cons_self
      exact ih fun c later => each c (List.mem_cons_of_mem cid later)

theorem WholeTree.clear {tree : String} {good : Cid → Bytes → Prop} {cid : Cid}
    (whole : WholeTree F get good cid) : ∀ {stack : List Cid}, Clear F get op tree stack →
      Clear F get op tree (cid :: stack) := by
  induction whole with
  | @intro cid bytes chunk found _ loads _ ih =>
      intro stack clear t
      have below : Clear F get op tree (chunk.children.reverse ++ stack) := by
        apply clear.append
        intro child member rest
        exact ih child (List.mem_reverse.mp member)
      obtain ⟨fuel, t', ran, same⟩ := below t.verify
      refine ⟨fuel + 1, t', ?_, same⟩
      rw [walkProllyTree, loadTreeChunk_eq_ok.mpr ⟨bytes, found, loads⟩]
      exact ran

theorem walkProllyTree_mono {tree : String} : ∀ {fuel fuel' : Nat} {stack : List Cid}
    {t t' : Tally ε}, fuel ≤ fuel' → walkProllyTree F get op tree fuel stack t = some t' →
      walkProllyTree F get op tree fuel' stack t = some t'
  | fuel, fuel', [], t, t', _, ran => by
      cases fuel <;> cases fuel' <;> exact ran
  | 0, _, _ :: _, _, _, _, ran => nomatch ran
  | fuel + 1, 0, _ :: _, _, _, le, _ => by omega
  | fuel + 1, fuel' + 1, cid :: stack, t, t', le, ran => by
      rw [walkProllyTree] at ran ⊢
      split
      · rename_i chunk loads
        rw [loads] at ran
        exact walkProllyTree_mono (by omega) ran
      · rename_i e refused
        rw [refused] at ran
        exact walkProllyTree_mono (by omega) ran

theorem walkProllyTree_sound {tree : String} : ∀ {fuel : Nat} {stack : List Cid}
    {t t' : Tally ε}, walkProllyTree F get op tree fuel stack t = some t' → t'.errors = [] →
      t.errors = [] ∧ ∀ cid ∈ stack, WholeTree F get Unhashed cid
  | fuel, [], t, t', ran, clean => by
      obtain rfl : t = t' := by
        cases fuel <;> exact Option.some.inj ran
      exact ⟨clean, nofun⟩
  | 0, _ :: _, _, _, ran, _ => nomatch ran
  | fuel + 1, cid :: stack, t, t', ran, clean => by
      rw [walkProllyTree] at ran
      split at ran
      · rename_i chunk loads
        obtain ⟨bytes, found, decoded⟩ := loadTreeChunk_eq_ok.mp loads
        obtain ⟨cleanBefore, below⟩ := walkProllyTree_sound ran clean
        have children : ∀ child ∈ chunk.children, WholeTree F get Unhashed child :=
          fun child member => below child (List.mem_append_left _ (List.mem_reverse.mpr member))
        refine ⟨cleanBefore, fun c member => ?_⟩
        rcases List.mem_cons.mp member with rfl | later
        · exact .intro found trivial decoded children
        · exact below c (List.mem_append_right _ later)
      · obtain ⟨cleanBefore, -⟩ := walkProllyTree_sound ran clean
        exact absurd cleanBefore (Tally.errors_fail_ne _ _ _ _)

/-- A walk decides whether every chunk is there. -/
theorem checks_tree (tree : String × Cid) :
    Decides Tally.errors (fun fuel => walkProllyTree F get op tree.1 fuel [tree.2])
      (WholeTree F get Unhashed tree.2) where
  mono := walkProllyTree_mono
  sound ran clean := by
    obtain ⟨cleanBefore, all⟩ := walkProllyTree_sound ran clean
    exact ⟨cleanBefore, all _ List.mem_cons_self⟩
  complete whole := whole.clear fun t => ⟨0, t, rfl, rfl⟩

theorem checks_root (root : String × Cid) :
    Decides Tally.errors (fun _ t => some (checkRoot F get op root t))
      (∃ bytes, Sound F get root.2 bytes) := by
  unfold checkRoot
  cases checked : checkBlock F get root.2 with
  | ok bytes =>
      have sound := checkBlock_eq_ok.mp checked
      have passes : Decides Tally.errors (fun _ t => some (Tally.verify (ε := ε) t)) True :=
        Decides.pass fun _ => rfl
      exact passes.congr ⟨fun _ => ⟨bytes, sound⟩, fun _ => trivial⟩
  | error reason =>
      refine (Decides.fault fun t => Tally.errors_fail_ne t _ _ _).congr ?_
      refine ⟨False.elim, ?_⟩
      rintro ⟨bytes, sound⟩
      rw [checkBlock_eq_ok.mpr sound] at checked
      cases checked

/-- The check of an object decides whether its block is sound and decodes, with what the rest of
the check decides. -/
theorem checks_object {α : Type} {cid : Cid} {kind : Reason ε → Kind ε}
    {decodeKind : Codec.CodecError → Kind ε} {decode : Bytes → Except Codec.CodecError α}
    {rest : Nat → α → Tally ε → Option (Tally ε)} {Q : α → Prop}
    (checks : ∀ a, Decides Tally.errors (fun fuel => rest fuel a) (Q a)) :
    Decides Tally.errors
      (fun fuel => checkObject F get op cid kind decodeKind decode (rest fuel))
      (∃ bytes a, Sound F get cid bytes ∧ decode bytes = .ok a ∧ Q a) := by
  unfold checkObject
  cases checked : checkBlock F get cid with
  | error reason =>
      refine (Decides.fault fun t => Tally.errors_fail_ne t _ _ _).congr ⟨False.elim, ?_⟩
      rintro ⟨bytes, _, sound, -⟩
      rw [checkBlock_eq_ok.mpr sound] at checked
      cases checked
  | ok bytes =>
      have here := checkBlock_eq_ok.mp checked
      dsimp only
      cases decoded : decode bytes with
      | error e =>
          have faulty : Decides Tally.errors
              (fun _ t => some (t.verify.fail op (decodeKind e) cid)) False :=
            Decides.fault fun t => Tally.errors_fail_ne t.verify _ _ _
          refine faulty.congr ⟨False.elim, ?_⟩
          rintro ⟨bytes', _, sound, read, -⟩
          obtain rfl := here.unique sound
          rw [decoded] at read
          cases read
      | ok a =>
          have verified : Decides Tally.errors (fun _ t => some (Tally.verify (ε := ε) t)) True :=
            Decides.pass fun _ => rfl
          refine (verified.andThen (checks a)).congr
            ⟨fun holds => ⟨bytes, a, here, decoded, holds.2⟩, ?_⟩
          rintro ⟨bytes', a', sound, read, holds⟩
          obtain rfl := here.unique sound
          obtain rfl := Except.ok.inj (decoded.symm.trans read)
          exact ⟨trivial, holds⟩

theorem checks_commit (head : Cid) :
    Decides Tally.errors (checkCommit F get op head) (WholeCommit F get Unhashed head) := by
  apply checks_object
  intro commit
  exact (Decides.each fun tree _ => checks_tree tree).andThen
    (Decides.each fun root _ => checks_root root)

theorem checks_view (view : Cid) :
    Decides Tally.errors (checkView F get op view) (WholeView F get Unhashed view) := by
  apply checks_object
  intro view
  exact Decides.each fun head _ => checks_commit head

end Checks

/-! ## The chain of first parents -/

section Chain

variable (F : Formats) (get : Cid → Except ε (Option Bytes))

/-- A parent of an operation that is there. -/
def Parent (a b : Cid) : Prop :=
  ∃ bytes op, get a = .ok (some bytes) ∧
    Format.fromCanonicalBytes F.cbor Format.operation bytes = .ok op ∧ b ∈ op.parents

def FirstParent (a b : Cid) : Prop :=
  ∃ bytes op, get a = .ok (some bytes) ∧
    Format.fromCanonicalBytes F.cbor Format.operation bytes = .ok op ∧ op.parents.head? = some b

/-- An operation of the history. -/
def Reaches : Cid → Cid → Prop := ReflTransGen (Parent F get)

/-- An operation of the history that is reached by first parents. -/
def Chain : Cid → Cid → Prop := ReflTransGen (FirstParent F get)

/-- A history within the limit. -/
def Small (head : Cid) : Prop :=
  ∃ ops : List Cid, ops.length ≤ defaultLimit ∧ ∀ o, Reaches F get head o → o ∈ ops

variable {F get} {head : Cid}

theorem Chain.reaches {o : Cid} (chain : Chain F get head o) : Reaches F get head o := by
  induction chain with
  | refl => exact .refl
  | tail _ link ih =>
      obtain ⟨bytes, op, found, decoded, first⟩ := link
      exact ih.tail ⟨bytes, op, found, decoded, List.mem_of_mem_head? first⟩

/-- The operations that a walk from the head has visited on its way to `cur`. -/
structure Walked (F : Formats) (get : Cid → Except ε (Option Bytes)) (head cur : Cid)
    (visited : List Cid) : Prop where
  nodup : visited.Nodup
  chain : Chain F get head cur
  whole : ∀ o ∈ visited, Chain F get head o ∧ WholeOperation F get Unhashed o
  front : head = cur ∨ head ∈ visited
  next : ∀ o ∈ visited, ∀ p, FirstParent F get o p → p = cur ∨ p ∈ visited

namespace Walked

variable {cur : Cid} {visited : List Cid}

theorem start (F : Formats) (get : Cid → Except ε (Option Bytes)) (head : Cid) :
    Walked F get head head [] where
  nodup := List.nodup_nil
  chain := .refl
  whole _ none := nomatch none
  front := .inl rfl
  next _ none := nomatch none

theorem step (walked : Walked F get head cur visited) (fresh : cur ∉ visited)
    (whole : WholeOperation F get Unhashed cur) {next : Cid} (link : FirstParent F get cur next) :
    Walked F get head next (cur :: visited) where
  nodup := List.nodup_cons.mpr ⟨fresh, walked.nodup⟩
  chain := walked.chain.tail link
  whole o member := by
    rcases List.mem_cons.mp member with rfl | old
    · exact ⟨walked.chain, whole⟩
    · exact walked.whole o old
  front := by
    rcases walked.front with rfl | old
    · exact .inr List.mem_cons_self
    · exact .inr (List.mem_cons_of_mem _ old)
  next o member p link' := by
    rcases List.mem_cons.mp member with rfl | old
    · obtain ⟨bytes, op, found, decoded, first⟩ := link
      obtain ⟨bytes', op', found', decoded', first'⟩ := link'
      obtain rfl := Option.some.inj (Except.ok.inj (found.symm.trans found'))
      obtain rfl := Except.ok.inj (decoded.symm.trans decoded')
      exact .inl (Option.some.inj (first'.symm.trans first))
    · rcases walked.next o old p link' with rfl | older
      · exact .inr List.mem_cons_self
      · exact .inr (List.mem_cons_of_mem _ older)

/-- A walk that comes back to where it was, or to an operation without a parent, has visited the
whole chain. -/
theorem all (walked : Walked F get head cur visited)
    (closed : cur ∈ visited ∨ WholeOperation F get Unhashed cur ∧ ∀ p, ¬ FirstParent F get cur p)
    {o : Cid} (chain : Chain F get head o) : WholeOperation F get Unhashed o := by
  have inside : o = cur ∨ o ∈ visited := by
    induction chain with
    | refl => exact walked.front
    | @tail a b _ link ih =>
        rcases ih with rfl | old
        · rcases closed with again | ⟨-, last⟩
          · exact walked.next _ again _ link
          · exact absurd link (last b)
        · exact walked.next a old b link
  rcases inside with rfl | old
  · rcases closed with again | ⟨whole, -⟩
    · exact (walked.whole _ again).2
    · exact whole
  · exact (walked.whole o old).2

end Walked

theorem walkOperations_mono : ∀ {left fuel fuel' : Nat} {cur : Cid} {visited : List Cid}
    {checked : Nat} {t : Tally ε} {result : Nat × Tally ε}, fuel ≤ fuel' →
    walkOperations F get fuel left cur visited checked t = some result →
      walkOperations F get fuel' left cur visited checked t = some result
  | 0, _, _, _, _, _, _, _, _, ran => ran
  | left + 1, fuel, fuel', cur, visited, checked, t, result, le, ran => by
      rw [walkOperations] at ran ⊢
      split
      · rename_i again
        rw [if_pos again] at ran
        exact ran
      · rename_i fresh
        rw [if_neg fresh] at ran
        split
        · rename_i reason found
          rw [found] at ran
          exact ran
        · rename_i bytes found
          rw [found] at ran
          dsimp only at ran
          split
          · rename_i e decoded
            rw [decoded] at ran
            exact ran
          · rename_i op decoded
            rw [decoded] at ran
            obtain ⟨t₁, viewed, ran⟩ := Option.bind_eq_some_iff.mp ran
            refine Option.bind_eq_some_iff.mpr ⟨t₁, (checks_view op.view).mono le viewed, ?_⟩
            split
            · rename_i parent first
              rw [first] at ran
              exact walkOperations_mono le ran
            · rename_i none
              rw [none] at ran
              exact ran

/-- What a walk of at least one step does. -/
theorem walkOperations_cases {left fuel : Nat} {cur : Cid} {visited : List Cid}
    {checked n : Nat} {t t' : Tally ε}
    (ran : walkOperations F get fuel (left + 1) cur visited checked t = some (n, t'))
    (clean : t'.errors = []) : (cur ∈ visited ∧ t' = t) ∨
      cur ∉ visited ∧ ∃ bytes op t₁, Sound F get cur bytes ∧
        Format.fromCanonicalBytes F.cbor Format.operation bytes = .ok op ∧
        checkView F get cur op.view fuel t.verify = some t₁ ∧
        (op.parents.head? = none ∧ t' = t₁ ∨ ∃ parent, op.parents.head? = some parent ∧
          walkOperations F get fuel left parent (cur :: visited) (checked + 1) t₁ =
            some (n, t')) := by
  rw [walkOperations] at ran
  split at ran
  · rename_i again
    cases ran
    exact .inl ⟨again, rfl⟩
  · rename_i fresh
    refine .inr ⟨fresh, ?_⟩
    split at ran
    · cases ran
      exact absurd clean (Tally.errors_fail_ne _ _ _ _)
    · rename_i bytes found
      split at ran
      · cases ran
        exact absurd clean (Tally.errors_fail_ne _ _ _ _)
      · rename_i op decoded
        obtain ⟨t₁, viewed, ran⟩ := Option.bind_eq_some_iff.mp ran
        refine ⟨bytes, op, t₁, checkBlock_eq_ok.mp found, decoded, viewed, ?_⟩
        split at ran
        · rename_i parent first
          exact .inr ⟨parent, first, ran⟩
        · rename_i none
          cases ran
          exact .inl ⟨none, rfl⟩

/-- Errors are not taken back. -/
theorem walkOperations_clean : ∀ {left fuel : Nat} {cur : Cid} {visited : List Cid}
    {checked n : Nat} {t t' : Tally ε},
    walkOperations F get fuel left cur visited checked t = some (n, t') → t'.errors = [] →
      t.errors = []
  | 0, _, _, _, _, _, _, _, ran, clean => by
      cases ran
      exact clean
  | left + 1, _, _, _, _, _, t, _, ran, clean => by
      rcases walkOperations_cases ran clean with
        ⟨-, rfl⟩ | ⟨-, _, op, t₁, -, -, viewed, ⟨-, rfl⟩ | ⟨parent, -, rest⟩⟩
      · exact clean
      · exact ((checks_view op.view).sound viewed clean).1
      · exact ((checks_view op.view).sound viewed (walkOperations_clean rest clean)).1

/-- A walk without errors has found the chain unobjectionable, or used up its limit on operations
that are. -/
theorem walkOperations_sound {limit : Nat} : ∀ {left fuel : Nat} {cur : Cid} {visited : List Cid}
    {checked n : Nat} {t t' : Tally ε}, Walked F get head cur visited →
    visited.length + left = limit →
    walkOperations F get fuel left cur visited checked t = some (n, t') → t'.errors = [] →
      (∀ o, Chain F get head o → WholeOperation F get Unhashed o) ∨
        ∃ visited' : List Cid, visited'.Nodup ∧ visited'.length = limit ∧
          ∀ o ∈ visited', Chain F get head o ∧ WholeOperation F get Unhashed o
  | 0, fuel, cur, visited, checked, n, t, t', walked, spent, ran, clean =>
      .inr ⟨visited, walked.nodup, spent, walked.whole⟩
  | left + 1, fuel, cur, visited, checked, n, t, t', walked, spent, ran, clean => by
      rcases walkOperations_cases ran clean with
        ⟨again, -⟩ | ⟨fresh, bytes, op, t₁, sound, decoded, viewed, last⟩
      · exact .inl fun o chain => walked.all (.inl again) chain
      · have clean₁ : t₁.errors = [] := by
          rcases last with ⟨-, rfl⟩ | ⟨_, -, rest⟩
          · exact clean
          · exact walkOperations_clean rest clean
        have whole : WholeOperation F get Unhashed cur :=
          ⟨bytes, op, sound, decoded, ((checks_view op.view).sound viewed clean₁).2⟩
        rcases last with ⟨none, -⟩ | ⟨parent, first, rest⟩
        · refine .inl fun o chain => walked.all (.inr ⟨whole, ?_⟩) chain
          rintro p ⟨bytes', op', found', decoded', first⟩
          obtain rfl := Option.some.inj (Except.ok.inj (sound.1.symm.trans found'))
          obtain rfl := Except.ok.inj (decoded.symm.trans decoded')
          rw [none] at first
          cases first
        · have walked' := walked.step fresh whole ⟨bytes, op, sound.1, decoded, first⟩
          refine walkOperations_sound walked' ?_ rest clean
          rw [List.length_cons]
          omega

/-- Over an unobjectionable chain the walk ends without an error. -/
theorem walkOperations_complete : ∀ (left : Nat) {cur : Cid} (visited : List Cid) (checked : Nat)
    (t : Tally ε), (∀ o, Chain F get cur o → WholeOperation F get Unhashed o) →
    ∃ fuel n t', walkOperations F get fuel left cur visited checked t = some (n, t') ∧
      t'.errors = t.errors
  | 0, _, _, checked, t, _ => ⟨0, checked, t, rfl, rfl⟩
  | left + 1, cur, visited, checked, t, whole => by
      by_cases again : cur ∈ visited
      · exact ⟨0, checked, t, by rw [walkOperations, if_pos again], rfl⟩
      · obtain ⟨bytes, op, sound, decoded, viewWhole⟩ := whole cur .refl
        obtain ⟨fuel₁, t₁, viewed, same₁⟩ := (checks_view op.view).complete viewWhole t.verify
        have found := checkBlock_eq_ok.mpr sound
        have stepped : ∀ {fuel : Nat}, fuel₁ ≤ fuel →
            walkOperations F get fuel (left + 1) cur visited checked t =
              match op.parents.head? with
              | some parent =>
                  walkOperations F get fuel left parent (cur :: visited) (checked + 1) t₁
              | none => some (checked + 1, t₁) := by
          intro fuel le
          rw [walkOperations, if_neg again, found]
          dsimp only
          rw [decoded]
          dsimp only
          rw [(checks_view op.view).mono le viewed]
          rfl
        cases first : op.parents.head? with
        | none =>
            refine ⟨fuel₁, checked + 1, t₁, ?_, same₁⟩
            rw [stepped (Nat.le_refl _), first]
        | some parent =>
            have link : FirstParent F get cur parent := ⟨bytes, op, sound.1, decoded, first⟩
            obtain ⟨fuel₂, n, t', ran, same₂⟩ := walkOperations_complete left (cur :: visited)
              (checked + 1) t₁ fun o chain => whole o (.head link chain)
            refine ⟨max fuel₁ fuel₂, n, t', ?_, same₂.trans same₁⟩
            rw [stepped (Nat.le_max_left _ _), first]
            exact walkOperations_mono (Nat.le_max_right _ _) ran

/-! ## What a clean check says -/

/-- The command ends with one report. -/
theorem Reports.unique {limit : Option Nat} {report report' : FsckReport ε}
    (ran : Reports F get limit head report) (ran' : Reports F get limit head report') :
    report = report' := by
  obtain ⟨fuel, ran⟩ := ran
  obtain ⟨fuel', ran'⟩ := ran'
  obtain ⟨result, walked, rfl⟩ := Option.map_eq_some_iff.mp ran
  obtain ⟨result', walked', rfl⟩ := Option.map_eq_some_iff.mp ran'
  have more := walkOperations_mono (Nat.le_max_left fuel fuel') walked
  have more' := walkOperations_mono (Nat.le_max_right fuel fuel') walked'
  obtain rfl := Option.some.inj (more.symm.trans more')
  rfl

/-- Without `--limit`, a clean check of a history within the default has found the chain
unobjectionable. -/
theorem checked_of_reports_ok {report : FsckReport ε} (ran : Reports F get none head report)
    (ok : report.ok = true) (small : Small F get head) {o : Cid} (chain : Chain F get head o) :
    WholeOperation F get Unhashed o := by
  obtain ⟨fuel, ran⟩ := ran
  obtain ⟨⟨n, t⟩, walked, rfl⟩ := Option.map_eq_some_iff.mp ran
  have spent : ([] : List Cid).length + defaultLimit = defaultLimit := by simp
  rcases walkOperations_sound (.start F get head) spent walked (List.isEmpty_iff.mp ok) with
    all | ⟨visited, nodup, full, all⟩
  · exact all o chain
  · -- The limit was used up on different operations, so on all of them.
    obtain ⟨ops, few, inside⟩ := small
    have subset : visited ⊆ ops := fun v member => inside v (all v member).1.reaches
    have covered : ops ⊆ visited := by
      have perm := (List.subperm_of_subset nodup subset).perm_of_length_le (by omega)
      exact fun v member => perm.mem_iff.mpr member
    exact (all o (covered (inside o chain.reaches))).2

theorem reports_ok_of_checked (limit : Option Nat)
    (whole : ∀ o, Chain F get head o → WholeOperation F get Unhashed o) :
    ∃ report, Reports F get limit head report ∧ report.ok = true := by
  obtain ⟨fuel, n, t, walked, same⟩ :=
    walkOperations_complete (limit.getD defaultLimit) [] 0 ({} : Tally ε) whole
  refine ⟨_, ⟨fuel, congrArg _ walked⟩, ?_⟩
  exact List.isEmpty_iff.mpr same

end Chain

/-! ## When it can be trusted -/

section Trust

variable (F : Formats) (get : Cid → Except ε (Option Bytes))

/-- A clean check is trustworthy: within the default limit all of the history is intact, and over
an intact history the check is clean. -/
structure Trustworthy (head : Cid) : Prop where
  sound : ∀ report, Reports F get none head report → report.ok = true → Small F get head →
    ∀ o, Reaches F get head o → WholeOperation F get (Hashes F) o
  complete : (∀ o, Reaches F get head o → WholeOperation F get (Hashes F) o) →
    ∃ report, Reports F get none head report ∧ report.ok = true

/-- A tree of a head commit of an operation. -/
def TreeOf (o root : Cid) : Prop :=
  ∃ opBytes op viewBytes view head commitBytes commit, get o = .ok (some opBytes) ∧
    Format.fromCanonicalBytes F.cbor Format.operation opBytes = .ok op ∧
    get op.view = .ok (some viewBytes) ∧
    Format.fromCanonicalBytes F.cbor Format.view viewBytes = .ok view ∧ head ∈ view.heads ∧
    get head = .ok (some commitBytes) ∧
    Format.fromCanonicalBytes F.cbor Format.commit commitBytes = .ok commit ∧
    ∃ tree ∈ treesOf commit, tree.2 = root

/-- A chunk of the tree at a root. -/
inductive ChunkOf (root : Cid) : Cid → Prop
  | root : ChunkOf root root
  | child {cid child : Cid} {bytes : Bytes} {chunk : TreeChunk} : ChunkOf root cid →
      get cid = .ok (some bytes) → loadChunk F bytes = .ok chunk → child ∈ chunk.children →
      ChunkOf root child

/-- The chunks of the trees of an operation hash to their identifiers. -/
def ChunksHash (o : Cid) : Prop :=
  ∀ root cid bytes, TreeOf F get o root → ChunkOf F get root cid →
    get cid = .ok (some bytes) → Hashes F cid bytes

variable {F get} {head o : Cid}

theorem WholeTree.mono {good good' : Cid → Bytes → Prop} (more : ∀ c b, good c b → good' c b)
    {cid : Cid} (whole : WholeTree F get good cid) : WholeTree F get good' cid := by
  induction whole with
  | intro found isGood loads _ ih => exact .intro found (more _ _ isGood) loads ih

theorem WholeTree.hashes {root cid : Cid} (whole : WholeTree F get (Hashes F) root)
    (chunk : ChunkOf F get root cid) : WholeTree F get (Hashes F) cid := by
  induction chunk with
  | root => exact whole
  | child _ found loads member ih =>
      cases ih with
      | intro found' _ loads' children =>
          obtain rfl := Option.some.inj (Except.ok.inj (found.symm.trans found'))
          obtain rfl := Except.ok.inj (loads.symm.trans loads')
          exact children _ member

theorem WholeTree.rehash {root cid : Cid} (whole : WholeTree F get Unhashed cid)
    (chunk : ChunkOf F get root cid)
    (hash : ∀ c bytes, ChunkOf F get root c → get c = .ok (some bytes) → Hashes F c bytes) :
    WholeTree F get (Hashes F) cid := by
  induction whole with
  | @intro cid bytes _ found _ loads _ ih =>
      refine .intro found (hash cid bytes chunk found) loads fun child member => ?_
      exact ih child member (chunk.child found loads member)

/-- What the check leaves open of an operation is whether its chunks hash. -/
theorem WholeOperation.hashes_iff (whole : WholeOperation F get Unhashed o) :
    WholeOperation F get (Hashes F) o ↔ ChunksHash F get o := by
  obtain ⟨opBytes, op, opSound, opDecoded, viewBytes, view, viewSound, viewDecoded, commits⟩ :=
    whole
  constructor
  · rintro ⟨opBytes', op', opSound', opDecoded', viewBytes', view', viewSound', viewDecoded', all⟩
    rintro root cid bytes ⟨b₁, op₁, b₂, view₁, head, b₃, commit, at₁, read₁, at₂, read₂, isHead, at₃,
      read₃, tree, member, rfl⟩ chunk found
    obtain rfl := Option.some.inj (Except.ok.inj (opSound'.1.symm.trans at₁))
    obtain rfl := Except.ok.inj (opDecoded'.symm.trans read₁)
    obtain rfl := Option.some.inj (Except.ok.inj (viewSound'.1.symm.trans at₂))
    obtain rfl := Except.ok.inj (viewDecoded'.symm.trans read₂)
    obtain ⟨commitBytes, commit', commitSound, commitDecoded, trees, -⟩ := all head isHead
    obtain rfl := Option.some.inj (Except.ok.inj (commitSound.1.symm.trans at₃))
    obtain rfl := Except.ok.inj (commitDecoded.symm.trans read₃)
    cases (trees tree member).hashes chunk with
    | intro found' hashed _ _ =>
        obtain rfl := Option.some.inj (Except.ok.inj (found.symm.trans found'))
        exact hashed
  · intro hash
    refine ⟨opBytes, op, opSound, opDecoded, viewBytes, view, viewSound, viewDecoded, ?_⟩
    intro head isHead
    obtain ⟨commitBytes, commit, commitSound, commitDecoded, trees, roots⟩ := commits head isHead
    refine ⟨commitBytes, commit, commitSound, commitDecoded, fun tree member => ?_, roots⟩
    refine (trees tree member).rehash .root fun c bytes chunk found => ?_
    exact hash tree.2 c bytes ⟨opBytes, op, viewBytes, view, head, commitBytes, commit, opSound.1,
      opDecoded, viewSound.1, viewDecoded, isHead, commitSound.1, commitDecoded, tree, member, rfl⟩
      chunk found

theorem WholeOperation.mono {good good' : Cid → Bytes → Prop} (more : ∀ c b, good c b → good' c b)
    (whole : WholeOperation F get good o) : WholeOperation F get good' o := by
  obtain ⟨opBytes, op, opSound, opDecoded, viewBytes, view, viewSound, viewDecoded, commits⟩ :=
    whole
  refine ⟨opBytes, op, opSound, opDecoded, viewBytes, view, viewSound, viewDecoded, ?_⟩
  intro head isHead
  obtain ⟨commitBytes, commit, commitSound, commitDecoded, trees, roots⟩ := commits head isHead
  exact ⟨commitBytes, commit, commitSound, commitDecoded,
    fun tree member => (trees tree member).mono more, roots⟩

/-- **When a clean check can be trusted.**  For a history within the default limit whose chain of
first parents is unobjectionable but for the hashes of its chunks: exactly if these chunks hash to
their identifiers, and every operation that is only reached through a further parent is intact. -/
theorem fsck_trustworthy_iff (F : Formats) (get : Cid → Except ε (Option Bytes)) (head : Cid) :
    Trustworthy F get head ↔
      (Small F get head → (∀ o, Chain F get head o → WholeOperation F get Unhashed o) →
        (∀ o, Chain F get head o → ChunksHash F get o) ∧
        ∀ o, Reaches F get head o → ¬ Chain F get head o →
          WholeOperation F get (Hashes F) o) := by
  constructor
  · intro trust small checked
    obtain ⟨report, ran, ok⟩ := reports_ok_of_checked none checked
    have intact := trust.sound report ran ok small
    refine ⟨fun o chain => ?_, fun o reached _ => intact o reached⟩
    exact (checked o chain).hashes_iff.mp (intact o chain.reaches)
  · intro condition
    constructor
    · intro report ran ok small o reached
      have checked : ∀ o, Chain F get head o → WholeOperation F get Unhashed o :=
        fun o chain => checked_of_reports_ok ran ok small chain
      obtain ⟨hash, others⟩ := condition small checked
      by_cases chain : Chain F get head o
      · exact (checked o chain).hashes_iff.mpr (hash o chain)
      · exact others o reached chain
    · intro intact
      apply reports_ok_of_checked
      intro o chain
      exact (intact o chain.reaches).mono fun _ _ _ => trivial

/-- A store that hashes what it reads, as the one on disk does, leaves no chunk unhashed. -/
theorem chunksHash_of_verifying
    (verifying : ∀ cid bytes, get cid = .ok (some bytes) → Hashes F cid bytes) (o : Cid) :
    ChunksHash F get o := fun _ cid bytes _ _ found => verifying cid bytes found

end Trust

/-! ### A merge whose second parent is lost -/

section Lost

open Fragment

def emptyViewBytes : Bytes :=
  mapBytes [("refs", head 5 0), ("_kind", textBytes "view"), ("heads", linksBytes [])]

def emptyViewCid : Cid :=
  sha256Cid
    [0x8d, 0x30, 0xc1, 0x5a, 0x1e, 0xc9, 0x75, 0x80, 0x06, 0xe8, 0x1d, 0xa4, 0x79, 0xcc, 0xa9,
      0x7e, 0x88, 0xf8, 0x93, 0x44, 0xba, 0xe9, 0x08, 0xba, 0xe5, 0xd5, 0xef, 0x81, 0x1e, 0x64,
      0x01, 0xfc]
    rfl

def operationBytes (parents : List Cid) (time : UInt8) (description : String) : Bytes :=
  mapBytes [("time", [time]), ("view", linkBytes emptyViewCid), ("_kind", textBytes "operation"),
    ("author", textBytes "ada"), ("parents", linksBytes parents),
    ("description", textBytes description)]

def rootBytes : Bytes := operationBytes [] 1 "init"

def rootCid : Cid :=
  sha256Cid
    [0x2c, 0xb6, 0x88, 0x98, 0x4a, 0xc1, 0x7e, 0xe7, 0xee, 0x40, 0xca, 0x69, 0x4c, 0x66, 0x45,
      0x52, 0x9f, 0xa7, 0x1e, 0xc6, 0xac, 0x78, 0x81, 0x01, 0xcb, 0xe0, 0xd2, 0xe2, 0x04, 0xf6,
      0xbd, 0x94]
    rfl

/-- The identifier of the operation that is not in the store. -/
def lostCid : Cid :=
  sha256Cid
    [0x0c, 0xd3, 0xd3, 0x76, 0xb4, 0x0a, 0xbf, 0xaa, 0xb0, 0x20, 0x88, 0xc9, 0x34, 0x7e, 0x9b,
      0x31, 0xd2, 0xac, 0x13, 0x7a, 0x4a, 0xc3, 0xe6, 0x3f, 0x44, 0x1a, 0xe1, 0x5e, 0x0a, 0x71,
      0xd7, 0x28]
    rfl

def mergeBytes : Bytes := operationBytes [rootCid, lostCid] 3 "merge"

def mergeCid : Cid :=
  sha256Cid
    [0x04, 0x2f, 0xee, 0x2a, 0xa4, 0x2c, 0x86, 0xc0, 0x95, 0x69, 0xfc, 0x2b, 0xd9, 0x17, 0x6f,
      0x0d, 0x82, 0xe7, 0x5f, 0xec, 0x7b, 0x4a, 0x84, 0x48, 0x8e, 0x85, 0x42, 0xd6, 0x3a, 0xd7,
      0x78, 0x13]
    rfl

def emptyView : Objects.View Cid := ⟨[], OrdMap.empty, none, none, OrdMap.empty, OrdMap.empty⟩

def plainOperation (parents : List Cid) (time : UInt64) (description : String) :
    Objects.Operation Cid :=
  ⟨parents, emptyViewCid, none, "ada", none, none, none, time, description, none, OrdMap.empty⟩

def lostMaps : Maps where
  decodings := [(emptyViewBytes, .map (Format.view.serialize emptyView).entries),
    (rootBytes, .map (Format.operation.serialize (plainOperation [] 1 "init")).entries),
    (mergeBytes, .map
      (Format.operation.serialize (plainOperation [rootCid, lostCid] 3 "merge")).entries)]
  nodup := by decide
  outside := by decide

noncomputable def lostFormats : Formats := formatsWith
  [(emptyViewBytes, emptyViewCid.multihash.digest), (rootBytes, rootCid.multihash.digest),
    (mergeBytes, mergeCid.multihash.digest)] lostMaps

def lostBlocks : List (Cid × Bytes) :=
  [(emptyViewCid, emptyViewBytes), (rootCid, rootBytes), (mergeCid, mergeBytes)]

def lostGet (cid : Cid) : Except Empty (Option Bytes) := .ok (Entries.get? cid lostBlocks)

theorem lostGet_eq {cid : Cid} {bytes : Bytes} :
    lostGet cid = .ok (some bytes) ↔ Entries.get? cid lostBlocks = some bytes := by
  simp [lostGet]

theorem sound_lost {cid : Cid} {bytes : Bytes} (found : Entries.get? cid lostBlocks = some bytes)
    (hashed : recomputeCid lostFormats cid bytes = some cid) :
    Sound lostFormats lostGet cid bytes :=
  ⟨lostGet_eq.mpr found, fun _ known => Option.some.inj (known.symm.trans hashed)⟩

theorem decode_emptyView :
    Format.fromCanonicalBytes lostFormats.cbor Format.view emptyViewBytes = .ok emptyView := by
  have decoded : lostFormats.cbor.decode emptyViewBytes =
      .ok (.map (Format.view.serialize emptyView).entries) := decode_maps rfl
  refine Format.fromCanonicalBytes_eq_ok.mpr ⟨_, decoded, ?_⟩
  apply Format.deserialize_serialize
  · exact Format.fits_view _ fun _ _ none => by cases none
  · exact fun _ _ => OrdMap.get?_empty _

theorem decode_operation {bytes : Bytes} {parents : List Cid} {time : UInt64} {text : String}
    (found : Entries.get? bytes lostMaps.decodings =
      some (.map (Format.operation.serialize (plainOperation parents time text)).entries)) :
    Format.fromCanonicalBytes lostFormats.cbor Format.operation bytes =
      .ok (plainOperation parents time text) := by
  have decoded : lostFormats.cbor.decode bytes = _ := decode_maps found
  refine Format.fromCanonicalBytes_eq_ok.mpr ⟨_, decoded, ?_⟩
  apply Format.deserialize_serialize
  · exact Format.fits_operation _
  · exact fun _ _ => OrdMap.get?_empty _

theorem decode_root : Format.fromCanonicalBytes lostFormats.cbor Format.operation rootBytes =
    .ok (plainOperation [] 1 "init") := by
  apply decode_operation
  have apart : emptyViewBytes ≠ rootBytes := by decide
  show Entries.get? _ [_, _, _] = _
  rw [Entries.get?_cons, if_neg apart, Entries.get?_cons, if_pos rfl]

theorem decode_merge : Format.fromCanonicalBytes lostFormats.cbor Format.operation mergeBytes =
    .ok (plainOperation [rootCid, lostCid] 3 "merge") := by
  apply decode_operation
  have apart : emptyViewBytes ≠ mergeBytes := by decide
  have apart' : rootBytes ≠ mergeBytes := by decide
  show Entries.get? _ [_, _, _] = _
  rw [Entries.get?_cons, if_neg apart, Entries.get?_cons, if_neg apart', Entries.get?_cons,
    if_pos rfl]

theorem get_root : Entries.get? rootCid lostBlocks = some rootBytes := by decide

theorem get_merge : Entries.get? mergeCid lostBlocks = some mergeBytes := by decide +kernel

theorem get_lost : lostGet lostCid = .ok none :=
  congrArg Except.ok (show Entries.get? lostCid lostBlocks = none by decide)

/-- Both stored operations have the empty view. -/
theorem whole_of_decode {cid : Cid} {bytes : Bytes} {parents : List Cid} {time : UInt64}
    {text : String} (sound : Sound lostFormats lostGet cid bytes)
    (decoded : Format.fromCanonicalBytes lostFormats.cbor Format.operation bytes =
      .ok (plainOperation parents time text)) :
    WholeOperation lostFormats lostGet Unhashed cid := by
  have view : Sound lostFormats lostGet emptyViewCid emptyViewBytes :=
    sound_lost (by decide) (by decide)
  exact ⟨bytes, _, sound, decoded, emptyViewBytes, emptyView, view, decode_emptyView, nofun⟩

/-- The parents in this store. -/
theorem parent_lost {a b : Cid} (link : Parent lostFormats lostGet a b) (isOp : a = mergeCid ∨
    a = rootCid ∨ a = lostCid) : a = mergeCid ∧ (b = rootCid ∨ b = lostCid) := by
  obtain ⟨bytes, op, found, decoded, member⟩ := link
  rcases isOp with rfl | rfl | rfl
  · obtain rfl := Option.some.inj (get_merge.symm.trans (lostGet_eq.mp found))
    obtain rfl := Except.ok.inj (decode_merge.symm.trans decoded)
    exact ⟨rfl, by simpa [plainOperation] using member⟩
  · obtain rfl := Option.some.inj (get_root.symm.trans (lostGet_eq.mp found))
    obtain rfl := Except.ok.inj (decode_root.symm.trans decoded)
    cases member
  · rw [get_lost] at found
    cases found

/-- A merge operation whose second parent is lost passes the check. -/
theorem fsck_ok_of_lost : ∃ (F : Formats) (get : Cid → Except Empty (Option Bytes))
    (head o : Cid) (report : FsckReport Empty), Reports F get none head report ∧
      report.ok = true ∧ Small F get head ∧ Reaches F get head o ∧ get o = .ok none ∧
      ¬ Trustworthy F get head := by
  have reached : ∀ o, Reaches lostFormats lostGet mergeCid o →
      o = mergeCid ∨ o = rootCid ∨ o = lostCid := by
    intro o path
    induction path with
    | refl => exact .inl rfl
    | tail _ link ih => exact .inr (parent_lost link ih).2
  have small : Small lostFormats lostGet mergeCid :=
    ⟨[mergeCid, rootCid, lostCid], by decide, fun o path => by simpa using reached o path⟩
  have whole : ∀ o, Chain lostFormats lostGet mergeCid o →
      WholeOperation lostFormats lostGet Unhashed o := by
    intro o chain
    have named : o = mergeCid ∨ o = rootCid := by
      cases ReflTransGen.cases_tail chain with
      | inl same => exact .inl same
      | inr last =>
          obtain ⟨a, path, bytes, op, found, decoded, first⟩ := last
          have member := List.mem_of_mem_head? first
          obtain ⟨rfl, -⟩ := parent_lost ⟨bytes, op, found, decoded, member⟩
            (reached a (Chain.reaches path))
          obtain rfl := Option.some.inj (get_merge.symm.trans (lostGet_eq.mp found))
          obtain rfl := Except.ok.inj (decode_merge.symm.trans decoded)
          exact .inr (Option.some.inj first).symm
    rcases named with rfl | rfl
    · exact whole_of_decode (sound_lost get_merge (by decide +kernel)) decode_merge
    · exact whole_of_decode (sound_lost get_root (by decide)) decode_root
  have lost : Reaches lostFormats lostGet mergeCid lostCid := by
    refine .single ⟨mergeBytes, _, lostGet_eq.mpr get_merge, decode_merge, ?_⟩
    exact List.mem_cons_of_mem _ List.mem_cons_self
  obtain ⟨report, ran, ok⟩ := reports_ok_of_checked none whole
  refine ⟨lostFormats, lostGet, mergeCid, lostCid, report, ran, ok, small, lost, get_lost, ?_⟩
  intro trust
  obtain ⟨bytes, op, sound, -⟩ := trust.sound report ran ok small lostCid lost
  have nothing := sound.1.symm.trans get_lost
  cases nothing

end Lost

end Mnem.Cli.Fsck
