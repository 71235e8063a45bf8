/-
# Http.BlockExport — `GET /v1/export`, and importing what it answers

The handler walks from the operation at the head along first parents, and writes
each operation with all that its view reaches.  The import of that body into a
new server stores these blocks and makes the newest commit among them the head.

* `exportOps_spec`, `exportOps_succeeds`: what an export writes, and when it does.
* `accepted_body`: the import accepts every line of an export.
* `export_import_restores_iff`: when the new server has what the old one had.
-/
import Mnem.Http.BlockImport
import Mnem.Codec.RoundTrip
import Mnem.Theory.Orbit

namespace Mnem.Http

open Theory Theory.Utf8 Transport

set_option autoImplicit false

/-! ## The handler -/

inductive ExportFailure where
  | badRequest (message : String)
  | missing (op : Cid)
  | decode (op : Cid) (e : Codec.CodecError)
  | walk (e : StoreError)

/-- `MAX_EXPORT_OPS` -/
def maxExportOps : Nat := 10000

def clampOrReject (name : String) (value : Option Nat) (cap : Nat) : Except ExportFailure Unit :=
  match value with
  | some n =>
      if cap < n then .error (.badRequest (name ++ "=" ++ toString n ++ " exceeds max of " ++
        toString cap ++ "; lower the value or split the request"))
      else .ok ()
  | none => .ok ()

/-- The bytes and the record of an operation. -/
def loadOperation (F : Formats) (bs : Blockstore) (op : Cid) :
    Except ExportFailure (Bytes × Objects.Operation Cid) :=
  match bs.get op with
  | none => .error (.missing op)
  | some bytes => do
      let record ← (Format.fromCanonicalBytes F.cbor Format.operation bytes).mapError (.decode op)
      return (bytes, record)

/-- One block: `seen` are the identifiers of the blocks before it. -/
def pushBlock (blocks : List (Cid × Bytes)) (block : Cid × Bytes) : List (Cid × Bytes) :=
  if block.1 ∈ blocks.map Prod.fst then blocks else blocks ++ [block]

/-- The loop, with the operations that the limit leaves. -/
def exportOps (F : Formats) (bs : Blockstore) :
    Nat → Cid → List (Cid × Bytes) → Except ExportFailure (List (Cid × Bytes))
  | 0, _, blocks => .ok blocks
  | left + 1, cur, blocks => do
      let (bytes, op) ← loadOperation F bs cur
      let payload ← (bs.iterFromRoot F op.view).mapError .walk
      let blocks := payload.foldl pushBlock (pushBlock blocks (cur, bytes))
      match op.parents.head? with
      | some parent => exportOps F bs left parent blocks
      | none => return blocks

def exportBody (P : Packages) (blocks : List (Cid × Bytes)) : Text :=
  blocks.flatMap fun e => exportLine (P.cidText e.1) e.2 ++ ['\n']

/-- `get_export` -/
def getExport (P : Packages) (server : Server) (limit : Option Nat) : Except ExportFailure Text := do
  clampOrReject "limit" limit maxExportOps
  let blocks ← exportOps P.formats server.blocks (limit.getD maxExportOps) server.held.opId []
  return exportBody P blocks

/-! ## What the history is -/

section History

variable (F : Formats) (bs : Blockstore)

/-- The operation at `a` has `b` among its parents. -/
def OperationParent (a b : Cid) : Prop :=
  ∃ bytes op, loadOperation F bs a = .ok (bytes, op) ∧ b ∈ op.parents

/-- The operations that the head descends from, through any parents. -/
def History (head o : Cid) : Prop := Relation.ReflTransGen (OperationParent F bs) head o

def firstParent (o : Cid) : Option Cid :=
  match loadOperation F bs o with
  | .ok (_, op) => op.parents.head?
  | .error _ => none

/-- The operation that many first parents back. -/
def mainlineAt (head : Cid) (k : Nat) : Option Cid := (fun o => o.bind (firstParent F bs))^[k] (some head)

/-- The operations along first parents. -/
def Mainline (head o : Cid) : Prop := ∃ k, mainlineAt F bs head k = some o

/-- The operation, or a block that its view reaches. -/
def Payload (o x : Cid) : Prop :=
  ∃ bytes op, loadOperation F bs o = .ok (bytes, op) ∧ (x = o ∨ bs.Reaches F op.view x)

/-- The payload of an operation along first parents. -/
def Exported (head x : Cid) : Prop := ∃ o, Mainline F bs head o ∧ Payload F bs o x

/-- The operation is there, and the links of every block that its view reaches are found. -/
def Walkable (o : Cid) : Prop :=
  ∃ bytes op, loadOperation F bs o = .ok (bytes, op) ∧
    ∀ x, bs.Reaches F op.view x → ∃ found, bs.visit F x = .ok found

end History

section Walks

variable {F : Formats} {bs : Blockstore} {head o x : Cid}

theorem mainlineAt_succ (head : Cid) (k : Nat) :
    mainlineAt F bs head (k + 1) = (mainlineAt F bs head k).bind (firstParent F bs) :=
  Function.iterate_succ_apply' _ k _

/-- From the first parent on there is one step less. -/
theorem mainlineAt_of_parent {parent : Cid} (first : firstParent F bs head = some parent) (k : Nat) :
    mainlineAt F bs head (k + 1) = mainlineAt F bs parent k := by
  rw [mainlineAt, Function.iterate_succ_apply, Option.bind_some, first]
  rfl

theorem mainlineAt_of_root (root : firstParent F bs head = none) (k : Nat) :
    mainlineAt F bs head (k + 1) = none := by
  induction k with
  | zero => exact root
  | succ k ih => rw [mainlineAt_succ, ih, Option.bind_none]

/-- A set with the head that first parents stay in holds all along them. -/
theorem Mainline.within {S : Cid → Prop} (line : Mainline F bs head o) (start : S head)
    (stays : ∀ a b, S a → firstParent F bs a = some b → S b) : S o := by
  obtain ⟨k, reached⟩ := line
  induction k generalizing o with
  | zero =>
      cases reached
      exact start
  | succ k ih =>
      rw [mainlineAt_succ] at reached
      obtain ⟨a, before, parent⟩ := Option.bind_eq_some_iff.mp reached
      exact stays a o (ih before) parent

theorem firstParent_of_load {bytes : Bytes} {op : Objects.Operation Cid}
    (loads : loadOperation F bs o = .ok (bytes, op)) : firstParent F bs o = op.parents.head? := by
  unfold firstParent
  rw [loads]

theorem loadOperation_eq_ok {bytes : Bytes} {op : Objects.Operation Cid}
    (loads : loadOperation F bs o = .ok (bytes, op)) :
    bs.get o = some bytes ∧
      Format.fromCanonicalBytes F.cbor Format.operation bytes = .ok op := by
  unfold loadOperation at loads
  split at loads
  · cases loads
  · rename_i data found
    obtain ⟨record, decoded, same⟩ := Exec.bind_eq_ok.mp loads
    cases same
    exact ⟨found, Exec.mapError_eq_ok.mp decoded⟩

theorem firstParent_eq {bytes : Bytes} {op : Objects.Operation Cid}
    (loads : loadOperation F bs o = .ok (bytes, op)) : firstParent F bs o = op.parents.head? := by
  rw [firstParent, loads]

theorem operationParent_of_first {parent : Cid} (first : firstParent F bs o = some parent) :
    OperationParent F bs o parent := by
  unfold firstParent at first
  split at first
  · rename_i bytes op loads
    exact ⟨bytes, op, loads, List.mem_of_mem_head? first⟩
  · cases first

theorem history_of_mainlineAt {k : Nat} (there : mainlineAt F bs head k = some o) :
    History F bs head o := by
  induction k generalizing o with
  | zero =>
      cases there
      exact .refl
  | succ k ih =>
      rw [mainlineAt_succ] at there
      obtain ⟨before, at_k, first⟩ := Option.bind_eq_some_iff.mp there
      exact (ih at_k).tail (operationParent_of_first first)

/-- Every operation before one along first parents is there. -/
theorem exists_mainlineAt {k j : Nat} (le : j ≤ k) (there : mainlineAt F bs head k = some o) :
    ∃ before, mainlineAt F bs head j = some before := by
  induction k generalizing o with
  | zero =>
      obtain rfl := Nat.le_zero.mp le
      exact ⟨o, there⟩
  | succ k ih =>
      rcases Nat.le_or_eq_of_le_succ le with lower | rfl
      · rw [mainlineAt_succ] at there
        obtain ⟨before, at_k, -⟩ := Option.bind_eq_some_iff.mp there
        exact ih lower at_k
      · exact ⟨o, there⟩

/-- A history of few operations is met within as many steps. -/
theorem mainline_within {ops : List Cid} {limit : Nat} (few : ops.length ≤ limit)
    (all : ∀ o, History F bs head o → o ∈ ops) (main : Mainline F bs head o) :
    ∃ k < limit, mainlineAt F bs head k = some o := by
  obtain ⟨k, there⟩ := main
  have inside : ∀ j ≤ k, mainlineAt F bs head j ∈ ops.map some := by
    intro j le
    obtain ⟨before, at_j⟩ := exists_mainlineAt le there
    rw [at_j]
    exact List.mem_map_of_mem (all before (history_of_mainlineAt at_j))
  obtain ⟨j, short, same⟩ := exists_iterate_lt _ _ (ops.map some) k inside
  rw [List.length_map] at short
  exact ⟨j, by omega, same.trans there⟩

/-- A walk that ends has yielded what its root reaches. -/
theorem iterFromRoot_exact {root : Cid} {items : List (Cid × Bytes)}
    (ran : bs.iterFromRoot F root = .ok items) :
    (items.map Prod.fst).Nodup ∧ (∀ c, c ∈ items.map Prod.fst ↔ bs.Reaches F root c) ∧
      ∀ e ∈ items, ∃ links, bs.visit F e.1 = .ok (e.2, links) := by
  obtain ⟨once, exact, values⟩ := Walk.collect_exact ran
  refine ⟨once, fun c => (exact c).trans ⟨Blockstore.reaches_of_walk, fun reached => ?_⟩, values⟩
  induction reached with
  | refl => exact .refl
  | @tail a b _ link ih =>
      obtain ⟨⟨key, data⟩, member, rfl⟩ := List.mem_map.mp ((exact a).mpr ih)
      obtain ⟨links, read⟩ := values _ member
      obtain ⟨data', v, present, cbor, decoded, inside⟩ := link
      have found := (Blockstore.visit_ok_iff.mp read).2
      rw [if_pos cbor] at found
      obtain ⟨v', decoded', rfl⟩ := Blockstore.links_of_extractLinks found
      obtain rfl := Option.some.inj ((Blockstore.visit_ok_iff.mp read).1.symm.trans present)
      obtain rfl := Except.ok.inj (decoded.symm.trans decoded')
      exact ih.tail ⟨_, _, read, inside⟩

/-- A walk ends exactly where every block that the root reaches can be read. -/
theorem iterFromRoot_ok_iff {root : Cid} : (∃ items, bs.iterFromRoot F root = .ok items) ↔
    ∀ x, bs.Reaches F root x → ∃ found, bs.visit F x = .ok found := by
  constructor
  · rintro ⟨items, ran⟩ x reached
    obtain ⟨-, exact, values⟩ := iterFromRoot_exact ran
    obtain ⟨e, member, rfl⟩ := List.mem_map.mp ((exact x).mpr reached)
    obtain ⟨links, read⟩ := values e member
    exact ⟨_, read⟩
  · intro all
    have finite : ∀ k v links, bs.visit F k = .ok (v, links) → k ∈ bs.blocks.map Prod.fst :=
      fun k v links read =>
        List.mem_map_of_mem (f := Prod.fst) (Entries.mem_of_get? (Blockstore.visit_ok_iff.mp read).1)
    have enough : (bs.blocks.map Prod.fst).length < bs.blocks.length + 1 := by simp
    rcases Walk.collect_cases finite enough root with ran | ⟨k, e, reached, fails, -⟩
    · exact ran
    · obtain ⟨found, read⟩ := all k (Blockstore.reaches_of_walk reached)
      rw [read] at fails
      cases fails

end Walks

/-! ## What an export writes -/

section Spec

variable {F : Formats} {bs : Blockstore}

/-- The blocks of a store, each once. -/
structure Copies (bs : Blockstore) (blocks : List (Cid × Bytes)) : Prop where
  nodup : (blocks.map Prod.fst).Nodup
  stored : ∀ e ∈ blocks, bs.get e.1 = some e.2

theorem mem_push {blocks : List (Cid × Bytes)} {block : Cid × Bytes} {x : Cid} :
    x ∈ (pushBlock blocks block).map Prod.fst ↔ x ∈ blocks.map Prod.fst ∨ x = block.1 := by
  unfold pushBlock
  split
  · rename_i old
    exact ⟨.inl, fun h => h.elim id fun same => same ▸ old⟩
  · simp

theorem copies_nil : Copies bs [] := ⟨List.nodup_nil, fun _ none => nomatch none⟩

theorem Copies.push {blocks : List (Cid × Bytes)} {block : Cid × Bytes} (copies : Copies bs blocks)
    (there : bs.get block.1 = some block.2) : Copies bs (pushBlock blocks block) := by
  unfold pushBlock
  split
  · exact copies
  · rename_i new
    constructor
    · rw [List.map_append, List.nodup_append]
      refine ⟨copies.nodup, by simp, fun a before b last same => ?_⟩
      obtain rfl := List.mem_singleton.mp last
      exact new (same ▸ before)
    · intro e member
      rcases List.mem_append.mp member with before | last
      · exact copies.stored e before
      · exact (List.mem_singleton.mp last) ▸ there

theorem Copies.pushAll {items : List (Cid × Bytes)} (each : ∀ e ∈ items, bs.get e.1 = some e.2) :
    ∀ {blocks : List (Cid × Bytes)}, Copies bs blocks →
      Copies bs (items.foldl pushBlock blocks) ∧ ∀ x, x ∈ (items.foldl pushBlock blocks).map Prod.fst ↔
        x ∈ blocks.map Prod.fst ∨ x ∈ items.map Prod.fst := by
  induction items with
  | nil => exact fun copies => ⟨copies, by simp⟩
  | cons e items ih =>
      intro blocks copies
      obtain ⟨first, rest⟩ := List.forall_mem_cons.mp each
      obtain ⟨all, members⟩ := ih rest (copies.push first)
      refine ⟨all, fun x => (members x).trans ?_⟩
      rw [mem_push, List.map_cons, List.mem_cons, or_assoc]

/-- One round of the loop adds the payload of its operation. -/
theorem exportOps_step {left : Nat} {cur : Cid} {blocks out : List (Cid × Bytes)}
    (copies : Copies bs blocks) (ran : exportOps F bs (left + 1) cur blocks = .ok out) :
    ∃ added, Copies bs added ∧
      (∀ x, x ∈ added.map Prod.fst ↔ x ∈ blocks.map Prod.fst ∨ Payload F bs cur x) ∧
      Walkable F bs cur ∧
      match firstParent F bs cur with
      | some parent => exportOps F bs left parent added = .ok out
      | none => out = added := by
  obtain ⟨⟨bytes, op⟩, loads, ran⟩ := Exec.bind_eq_ok.mp ran
  obtain ⟨payload, walked, ran⟩ := Exec.bind_eq_ok.mp ran
  have walked : bs.iterFromRoot F op.view = .ok payload := Exec.mapError_eq_ok.mp walked
  have there : bs.get cur = some bytes := (loadOperation_eq_ok loads).1
  obtain ⟨-, exact, values⟩ := iterFromRoot_exact walked
  have each : ∀ e ∈ payload, bs.get e.1 = some e.2 := by
    intro e member
    obtain ⟨links, read⟩ := values e member
    exact (Blockstore.visit_ok_iff.mp read).1
  obtain ⟨all, members⟩ := Copies.pushAll each (@Copies.push bs blocks (cur, bytes) copies there)
  refine ⟨_, all, fun x => (members x).trans ?_, ⟨bytes, op, loads, iterFromRoot_ok_iff.mp ⟨_, walked⟩⟩, ?_⟩
  · rw [mem_push, or_assoc, exact]
    refine or_congr_right ⟨fun inside => ⟨bytes, op, loads, inside⟩, ?_⟩
    rintro ⟨bytes', op', loads', inside⟩
    cases loads.symm.trans loads'
    exact inside
  · rw [firstParent_eq loads]
    dsimp only at ran
    cases first : op.parents.head? with
    | none =>
        rw [first] at ran
        exact (Except.ok.inj ran).symm
    | some parent =>
        rw [first] at ran
        exact ran

/-- What the loop writes: what was there, and the payloads along first parents as far as the limit
leaves. -/
theorem exportOps_spec {left : Nat} {cur : Cid} {blocks out : List (Cid × Bytes)}
    (copies : Copies bs blocks) (ran : exportOps F bs left cur blocks = .ok out) :
    Copies bs out ∧
      (∀ x, x ∈ out.map Prod.fst ↔ x ∈ blocks.map Prod.fst ∨
        ∃ k < left, ∃ o, mainlineAt F bs cur k = some o ∧ Payload F bs o x) ∧
      ∀ k < left, ∀ o, mainlineAt F bs cur k = some o → Walkable F bs o := by
  induction left generalizing cur blocks with
  | zero =>
      cases ran
      exact ⟨copies, by simp, by simp⟩
  | succ left ih =>
      obtain ⟨added, copies', members, walkable, rest⟩ := exportOps_step copies ran
      cases first : firstParent F bs cur with
      | none =>
          rw [first] at rest
          subst rest
          have only : ∀ k o, mainlineAt F bs cur k = some o → o = cur := by
            intro k o at_k
            cases k with
            | zero => exact (Option.some.inj at_k).symm
            | succ k =>
                rw [mainlineAt_of_root first] at at_k
                cases at_k
          refine ⟨copies', fun x => (members x).trans (or_congr_right ⟨fun h => ?_, ?_⟩), ?_⟩
          · exact ⟨0, by omega, cur, rfl, h⟩
          · rintro ⟨k, -, o, at_k, payload⟩
            exact only k o at_k ▸ payload
          · intro k _ o at_k
            exact (only k o at_k) ▸ walkable
      | some parent =>
          rw [first] at rest
          obtain ⟨copies', members', walkables⟩ := ih copies' rest
          refine ⟨copies', fun x => ?_, ?_⟩
          · rw [members', members, or_assoc]
            refine or_congr_right ⟨?_, ?_⟩
            · rintro (here | ⟨k, short, o, at_k, payload⟩)
              · exact ⟨0, by omega, cur, rfl, here⟩
              · exact ⟨k + 1, by omega, o, (mainlineAt_of_parent first k).trans at_k, payload⟩
            · rintro ⟨k, short, o, at_k, payload⟩
              cases k with
              | zero => exact .inl (Option.some.inj at_k ▸ payload)
              | succ k =>
                  rw [mainlineAt_of_parent first] at at_k
                  exact .inr ⟨k, by omega, o, at_k, payload⟩
          · intro k short o at_k
            cases k with
            | zero => exact Option.some.inj at_k ▸ walkable
            | succ k =>
                rw [mainlineAt_of_parent first] at at_k
                exact walkables k (by omega) o at_k

/-- The loop succeeds where the operations along first parents are walkable. -/
theorem exportOps_succeeds {left : Nat} {cur : Cid} (blocks : List (Cid × Bytes))
    (walkable : ∀ k < left, ∀ o, mainlineAt F bs cur k = some o → Walkable F bs o) :
    ∃ out, exportOps F bs left cur blocks = .ok out := by
  induction left generalizing cur blocks with
  | zero => exact ⟨blocks, rfl⟩
  | succ left ih =>
      obtain ⟨bytes, op, loads, readable⟩ := walkable 0 (by omega) cur rfl
      obtain ⟨payload, walked⟩ := iterFromRoot_ok_iff.mpr readable
      rw [exportOps, loads]
      show ∃ out, (((bs.iterFromRoot F op.view).mapError ExportFailure.walk).bind _) = .ok out
      rw [walked]
      cases first : op.parents.head? with
      | none => exact ⟨_, rfl⟩
      | some parent =>
          have next : firstParent F bs cur = some parent := (firstParent_eq loads).trans first
          refine ih _ fun k short o at_k => walkable (k + 1) (by omega) o ?_
          rw [mainlineAt_of_parent next, at_k]

end Spec

/-! ## The import of an export -/

section Lines

/-- A line without a line break is read up to the break behind it. -/
theorem linesFrom_append {line : Text} (unbroken : '\n' ∉ line) (word t : Text) :
    linesFrom word (line ++ t) = linesFrom (line.reverse ++ word) t := by
  induction line generalizing word with
  | nil => rfl
  | cons c line ih =>
      have here : '\n' ≠ c := fun same => unbroken (same ▸ List.mem_cons_self)
      have later : '\n' ∉ line := fun member => unbroken (List.mem_cons_of_mem _ member)
      have step : linesFrom word (c :: (line ++ t)) = linesFrom (c :: word) (line ++ t) := by
        rw [linesFrom]
        exact fun same => here same.symm
      rw [List.cons_append, step, ih later, List.reverse_cons, List.append_assoc]
      rfl

/-- A text that starts and ends with other characters has no white space to trim. -/
theorem trim_of_ends {c d : Char} {middle : Text} (first : isWhitespace c = false)
    (last : isWhitespace d = false) : trim (c :: (middle ++ [d])) = c :: (middle ++ [d]) := by
  have front : (c :: (middle ++ [d])).dropWhile isWhitespace = c :: (middle ++ [d]) := by
    rw [List.dropWhile_cons_of_neg (by simp [first])]
  have back : (c :: (middle ++ [d])).reverse = d :: (middle.reverse ++ [c]) := by simp
  rw [trim, front, back, List.dropWhile_cons_of_neg (by simp [last])]
  simp

theorem exists_middle {a b c t u a' c' : Text} {first last : Char} (front : a = first :: a')
    (back : c = c' ++ [last]) :
    ∃ middle, a ++ (t ++ (b ++ (u ++ c))) = first :: (middle ++ [last]) := by
  subst front back
  exact ⟨a' ++ (t ++ (b ++ (u ++ c'))), by simp⟩

theorem exportLine_ends (cidText : String) (data : Bytes) :
    ∃ middle, exportLine cidText data = '\x7b' :: (middle ++ ['\x7d']) := by
  have front : "\x7b\"cid\":\"".toList = '\x7b' :: "\"cid\":\"".toList := by decide
  have back : "\"\x7d".toList = "\"".toList ++ ['\x7d'] := by decide
  exact exists_middle front back

theorem not_mem_pieces {a b c t u : Text} {d : Char} (fixed : d ∉ a ∧ d ∉ b ∧ d ∉ c) (first : d ∉ t)
    (second : d ∉ u) : d ∉ a ++ (t ++ (b ++ (u ++ c))) := by
  simp [fixed, first, second]

theorem unbroken_exportLine {cidText : String} (unbroken : '\n' ∉ cidText.toList) (data : Bytes) :
    '\n' ∉ exportLine cidText data := by
  have digits : ∀ n < 16, digit n ≠ '\n' := by decide
  have hex : '\n' ∉ hexText data := by
    intro member
    obtain ⟨b, -, inside⟩ := List.mem_flatMap.mp member
    have bound := b.toNat_lt
    rcases List.mem_cons.mp inside with same | same
    · exact digits _ (by omega) same.symm
    · exact digits _ (by omega) (List.mem_singleton.mp same).symm
  have fixed : '\n' ∉ "\x7b\"cid\":\"".toList ∧ '\n' ∉ "\",\"hex\":\"".toList ∧
      '\n' ∉ "\"\x7d".toList := by
    decide
  exact not_mem_pieces fixed unbroken hex

/-- The lines of an export are its blocks. -/
theorem lines_body {P : Packages} {blocks : List (Cid × Bytes)}
    (unbroken : ∀ e ∈ blocks, '\n' ∉ (P.cidText e.1).toList) :
    lines (exportBody P blocks) = blocks.map fun e => exportLine (P.cidText e.1) e.2 := by
  unfold lines exportBody
  induction blocks with
  | nil => rfl
  | cons e blocks ih =>
      obtain ⟨first, rest⟩ := List.forall_mem_cons.mp unbroken
      obtain ⟨middle, ends⟩ := exportLine_ends (P.cidText e.1) e.2
      rw [List.flatMap_cons, List.append_assoc,
        linesFrom_append (unbroken_exportLine first e.2), List.append_nil, List.map_cons, ← ih rest,
        ends]
      have back : ('\x7b' :: (middle ++ ['\x7d'])).reverse = '\x7d' :: (middle.reverse ++ ['\x7b']) := by
        simp
      rw [back]
      show ('\x7d' :: (middle.reverse ++ ['\x7b'])).reverse :: _ = _
      simp

/-- How the packages treat a block that is exported: its identifier is written on one line and read
back, and its line is JSON with these two fields. -/
structure Legible (P : Packages) (cid : Cid) (data : Bytes) : Prop where
  unbroken : '\n' ∉ (P.cidText cid).toList
  named : P.parseCid (P.cidText cid) = .ok cid
  parsed : P.parseJson (exportLine (P.cidText cid) data) = .ok (.object
    [("cid", .string (P.cidText cid)), ("hex", .string (String.ofList (hexText data)))])

theorem acceptedLine_exported {P : Packages} {e : Cid × Bytes} (legible : Legible P e.1 e.2)
    (hashed : ∀ c, recomputeCid P.formats e.1 e.2 = some c → c = e.1) (number : Nat) :
    acceptedLine P (exportLine (P.cidText e.1) e.2, number) = some e := by
  have trimmed : trim (exportLine (P.cidText e.1) e.2) = exportLine (P.cidText e.1) e.2 := by
    obtain ⟨middle, ends⟩ := exportLine_ends (P.cidText e.1) e.2
    rw [ends, trim_of_ends (by decide) (by decide)]
  have full : exportLine (P.cidText e.1) e.2 ≠ [] := by
    obtain ⟨middle, ends⟩ := exportLine_ends (P.cidText e.1) e.2
    rw [ends]
    nofun
  unfold acceptedLine
  dsimp only
  rw [trimmed, if_neg full, readLine_exported legible.parsed legible.named hashed]

theorem filterMap_zipIdx {blocks : List (Cid × Bytes)} {line : Cid × Bytes → Text}
    {accept : Text × Nat → Option (Cid × Bytes)}
    (each : ∀ e ∈ blocks, ∀ number, accept (line e, number) = some e) (start : Nat) :
    ((blocks.map line).zipIdx start).filterMap accept = blocks := by
  induction blocks generalizing start with
  | nil => rfl
  | cons e blocks ih =>
      obtain ⟨first, rest⟩ := List.forall_mem_cons.mp each
      rw [List.map_cons, List.zipIdx_cons, List.filterMap_cons_some (first start), ih rest]

/-- Every line of an export is accepted. -/
theorem accepted_body {P : Packages} {blocks : List (Cid × Bytes)}
    (legible : ∀ e ∈ blocks, Legible P e.1 e.2)
    (hashed : ∀ e ∈ blocks, ∀ c, recomputeCid P.formats e.1 e.2 = some c → c = e.1) :
    accepted P (exportBody P blocks) = blocks := by
  rw [accepted, lines_body fun e member => (legible e member).unbroken]
  exact filterMap_zipIdx (fun e member => acceptedLine_exported (legible e member) (hashed e member)) 1

/-- Where every line is accepted nothing is reported. -/
theorem importLines_clean {P : Packages} {bs : Blockstore} {text : Text}
    (all : ∀ entry ∈ (lines text).zipIdx 1, (acceptedLine P entry).isSome) :
    (importLines P bs text).errors = [] := by
  suffices loop : ∀ (entries : List (Text × Nat)) (acc : Progress),
      (∀ entry ∈ entries, (acceptedLine P entry).isSome) → acc.errors = [] →
        (entries.foldl (importLine P) acc).errors = [] from
    loop _ { blocks := bs } all rfl
  intro entries
  induction entries with
  | nil => exact fun acc _ clean => clean
  | cons entry entries ih =>
      intro acc taken clean
      obtain ⟨first, rest⟩ := List.forall_mem_cons.mp taken
      refine ih _ rest ?_
      rcases importLine_cases acc entry with ⟨refused, -⟩ | ⟨cid, data, -, -, step⟩
      · rw [refused] at first
        cases first
      · rw [step]
        exact clean

theorem importLines_body_clean {P : Packages} {bs : Blockstore} {blocks : List (Cid × Bytes)}
    (legible : ∀ e ∈ blocks, Legible P e.1 e.2)
    (hashed : ∀ e ∈ blocks, ∀ c, recomputeCid P.formats e.1 e.2 = some c → c = e.1) :
    (importLines P bs (exportBody P blocks)).errors = [] := by
  refine importLines_clean fun entry member => ?_
  rw [lines_body fun e m => (legible e m).unbroken] at member
  have text := List.fst_mem_of_mem_zipIdx member
  obtain ⟨e, inside, same⟩ := List.mem_map.mp text
  obtain ⟨line, number⟩ := entry
  dsimp only at same
  rw [← same, acceptedLine_exported (legible e inside) (hashed e inside)]
  rfl

end Lines

/-! ## The links of an operation -/

section Links

variable {F : Formats} {bs : Blockstore} {o : Cid} {bytes : Bytes} {op : Objects.Operation Cid}

/-- The view and the parents of an operation stand in its map. -/
theorem fields_of_operation {m : Props Cid} (read : Format.operation.deserialize m = .ok op) :
    m.get? "view" = some (.link op.view) ∧ m.get? "parents" = some (linkList op.parents) := by
  rw [Format.deserialize] at read
  cases record : Format.operation.wire.flatten.decode m with
  | none =>
      rw [record] at read
      cases read
  | some r =>
      obtain ⟨⟨kind, body⟩, extra⟩ := r
      rw [record] at read
      dsimp only at read
      split at read
      · cases read
      · cases read
        obtain ⟨_, read₀, same⟩ := Option.map_eq_some_iff.mp record
        cases same
        obtain ⟨_, -, read₁⟩ := Option.bind_eq_some_iff.mp read₀
        obtain ⟨_, read₂, same⟩ := Option.map_eq_some_iff.mp read₁
        cases same
        obtain ⟨_, atParents, read₃⟩ := Option.bind_eq_some_iff.mp read₂
        obtain ⟨_, read₄, same⟩ := Option.map_eq_some_iff.mp read₃
        cases same
        obtain ⟨_, atView, read₅⟩ := Option.bind_eq_some_iff.mp read₄
        obtain ⟨_, -, same⟩ := Option.map_eq_some_iff.mp read₅
        cases same
        obtain ⟨v, found, isLink⟩ := Option.bind_eq_some_iff.mp atView
        obtain ⟨w, found', areLinks⟩ := Option.bind_eq_some_iff.mp atParents
        rw [found, found', ← Format.link.encode_decode v _ trivial isLink,
          ← Format.links.encode_decode w _ Format.canonical_links areLinks]
        exact ⟨rfl, rfl⟩

/-- An operation links to its view and to its parents. -/
theorem linksTo_of_operation (cbor : o.codec = codecDagCbor)
    (loads : loadOperation F bs o = .ok (bytes, op)) :
    bs.LinksTo F o op.view ∧ ∀ p ∈ op.parents, bs.LinksTo F o p := by
  obtain ⟨found, decoded⟩ := loadOperation_eq_ok loads
  obtain ⟨m, read, record⟩ := Format.fromCanonicalBytes_eq_ok.mp decoded
  obtain ⟨view, parents⟩ := fields_of_operation record
  have viewIn := m.get?_eq_some_iff.mp view
  have parentsIn := m.get?_eq_some_iff.mp parents
  refine ⟨⟨bytes, .map m.entries, found, cbor, read, ?_⟩, fun p member =>
    ⟨bytes, .map m.entries, found, cbor, read, ?_⟩⟩
  · exact Ipld.mem_links_map.mpr ⟨_, viewIn, by simp⟩
  · exact Ipld.mem_links_map.mpr ⟨_, parentsIn, by simpa using member⟩

end Links

/-! ## When the new server has what the old one had -/

section Restore

/-- The request that carries an export. -/
def exportRequest (body : Text) : ImportRequest :=
  { contentType := some "application/x-ndjson".toList, body := .ok body }

/-- What the import answers, and the server after it. -/
def restored (P : Packages) (target : Server) (body : Text) (now : Nat) :
    Except ImportFailure ImportReport × Server :=
  postImport P target (exportRequest body) now

/-- The export of `source`, imported by `target`: no line is refused, every block of the history is
there with its bytes, and the head commit is the source's. -/
def Restores (P : Packages) (source target : Server) (limit : Option Nat) (now : Nat) : Prop :=
  ∃ body report, getExport P source limit = .ok body ∧
    (restored P target body now).1 = .ok report ∧ report.errors = [] ∧
    (∀ o x, History P.formats source.blocks source.held.opId o →
      source.blocks.Reaches P.formats o x →
        (restored P target body now).2.blocks.get x = source.blocks.get x) ∧
    (restored P target body now).2.held.view.heads.head? = source.held.view.heads.head?

/-- A repository behind a server: all that its operation reaches is there and hashes to its
identifier, its operations are operations, and its view and head commits are read. -/
structure Repository (P : Packages) (server : Server) : Prop where
  complete : ∀ x, server.blocks.Reaches P.formats server.held.opId x → (server.blocks.get x).isSome
  sound : server.blocks.Sound P.formats
  operations : ∀ o, History P.formats server.blocks server.held.opId o →
    o.codec = codecDagCbor ∧ ∃ loaded, loadOperation P.formats server.blocks o = .ok loaded
  held : ∃ bytes op data, loadOperation P.formats server.blocks server.held.opId = .ok (bytes, op) ∧
    server.blocks.get op.view = some data ∧
    Format.fromCanonicalBytes P.formats.cbor Format.view data = .ok server.held.view
  heads : ∀ c ∈ server.held.view.heads, ∃ commit,
    loadCommit P.formats server.blocks c = .ok commit

/-- At most that many operations. -/
def AtMost (P : Packages) (server : Server) (limit : Option Nat) : Prop :=
  limit.getD maxExportOps ≤ maxExportOps ∧ ∃ ops : List Cid,
    ops.length ≤ limit.getD maxExportOps ∧
      ∀ o, History P.formats server.blocks server.held.opId o → o ∈ ops

/-- The time of a stored commit. -/
def timeAt (P : Packages) (server : Server) (c : Cid) : Option Nat :=
  (server.blocks.get c).bind (commitTime P.formats)

/-- The view and the operation that move the head of a server there. -/
def moveBlocks (P : Packages) (target : Server) (now : Nat) : Option Cid → List (Cid × Bytes)
  | none => []
  | some c =>
      match viewBlock P.formats (moved target.held.view c) with
      | .error _ => []
      | .ok view =>
          match operationBlock P target view.1 c "mnem-http" now with
          | .error _ => [view]
          | .ok op => [op, view]

/-- What the packages do for this export and this import: the stored blocks are legible, and the view
and the operation of a move to a stored commit are encoded. -/
structure Works (P : Packages) (source target : Server) (now : Nat) : Prop where
  legible : ∀ c data, source.blocks.get c = some data → Legible P c data
  encodes : ∀ c t, timeAt P source c = some t → ∃ view op,
    viewBlock P.formats (moved target.held.view c) = .ok view ∧
      operationBlock P target view.1 c "mnem-http" now = .ok op

/-- Of two blocks the first stands before the second in the export. -/
def ExportedBefore (P : Packages) (source : Server) (limit : Option Nat) (d c : Cid) : Prop :=
  ∃ blocks before after, exportOps P.formats source.blocks (limit.getD maxExportOps)
    source.held.opId [] = .ok blocks ∧ blocks.map Prod.fst = before ++ c :: after ∧ d ∈ before

/-- The newest exported commit, the first in the export of several, if any is exported. -/
def Newest (P : Packages) (source : Server) (limit : Option Nat) : Option Cid → Prop
  | none => ∀ d, Exported P.formats source.blocks source.held.opId d → timeAt P source d = none
  | some c => Exported P.formats source.blocks source.held.opId c ∧ ∃ t, timeAt P source c = some t ∧
      ∀ d u, Exported P.formats source.blocks source.held.opId d → timeAt P source d = some u →
        u < t ∨ u = t ∧ ¬ ExportedBefore P source limit d c

/-- The links below the views along first parents are found, what is only reached through a further
parent is there already or written by the move, and the head commit is the newest. -/
structure Portable (P : Packages) (source target : Server) (limit : Option Nat) (now : Nat) : Prop where
  walkable : ∀ o, Mainline P.formats source.blocks source.held.opId o →
    Walkable P.formats source.blocks o
  covered : ∀ o x, History P.formats source.blocks source.held.opId o →
    source.blocks.Reaches P.formats o x →
      Exported P.formats source.blocks source.held.opId x ∨
        (Entries.get? x (moveBlocks P target now source.held.view.heads.head?)).or
          (target.blocks.get x) = source.blocks.get x
  newest : Newest P source limit source.held.view.heads.head?

variable {P : Packages} {source target : Server} {limit : Option Nat} {now : Nat}

theorem text_of_accepted {request : ImportRequest} {media text : Text}
    (named : request.contentType.map mediaType = some media) (accepted : accepts media = true)
    (valid : request.body = .ok text) : request.text = .ok text := by
  have kept : Option.filter (fun m => !accepts m) (some media) = none := by
    simp [Option.filter, accepted]
  unfold ImportRequest.text
  simp only [named, kept, valid]

theorem exportRequest_text (body : Text) : (exportRequest body).text = .ok body :=
  text_of_accepted rfl (by decide) rfl

/-- Without a commit the import leaves the head. -/
theorem restored_none {body : Text} (best : newest P body = none) :
    restored P target body now =
      (.ok ⟨(importLines P target.blocks body).imported.length,
        (importLines P target.blocks body).errors,
        (importLines P target.blocks body).errors.isEmpty, false, none⟩,
      { target with blocks := stored P target body [] }) := by
  unfold restored postImport
  simp only [exportRequest_text, bestCommit_eq_newest, best]
  rw [importLines_stored]

/-- With a commit it moves the head, if the commit can be loaded. -/
theorem restored_some {body : Text} {c : Cid} {view op : Cid × Bytes} (best : newest P body = some c)
    (viewed : viewBlock P.formats (moved target.held.view c) = .ok view)
    (wrote : operationBlock P target view.1 c "mnem-http" now = .ok op) :
    (restored P target body now).2.blocks = stored P target body [op, view] ∧
      match loadCommit P.formats (stored P target body [op, view]) c with
      | .error e => (restored P target body now).1 = .error (.internal e)
      | .ok _ => (∃ report, (restored P target body now).1 = .ok report ∧
            report.errors = (importLines P target.blocks body).errors) ∧
          (restored P target body now).2.held = ⟨op.1, moved target.held.view c⟩ := by
  have operation : operationBlock P { target with blocks := stored P target body [] } view.1 c
      "mnem-http" now = .ok op := wrote
  unfold restored postImport
  simp only [exportRequest_text, bestCommit_eq_newest, best]
  rw [importLines_stored]
  unfold updateHeads
  simp only [viewed, operation]
  have same : ((stored P target body []).putTrusted view.1 view.2).putTrusted op.1 op.2 =
      stored P target body [op, view] := rfl
  rw [same]
  cases loadCommit P.formats (stored P target body [op, view]) c with
  | error e => exact ⟨rfl, rfl⟩
  | ok commit => exact ⟨rfl, ⟨_, rfl, rfl⟩, rfl⟩

/-- An export that was written: the payloads along first parents, each block once. -/
structure Wrote (P : Packages) (source : Server) (limit : Option Nat) (body : Text)
    (blocks : List (Cid × Bytes)) : Prop where
  ran : exportOps P.formats source.blocks (limit.getD maxExportOps) source.held.opId [] = .ok blocks
  body_eq : body = exportBody P blocks
  copies : Copies source.blocks blocks
  members : ∀ x, x ∈ blocks.map Prod.fst ↔ Exported P.formats source.blocks source.held.opId x

theorem clampOrReject_ok (within : limit.getD maxExportOps ≤ maxExportOps) :
    clampOrReject "limit" limit maxExportOps = .ok () := by
  cases limit with
  | none => rfl
  | some n => exact if_neg (by simpa using within)

theorem wrote_of_getExport (few : AtMost P source limit) {body : Text}
    (ran : getExport P source limit = .ok body) : (∃ blocks, Wrote P source limit body blocks) ∧
      ∀ o, Mainline P.formats source.blocks source.held.opId o →
        Walkable P.formats source.blocks o := by
  obtain ⟨within, ops, short, all⟩ := few
  obtain ⟨_, -, ran⟩ := Exec.bind_eq_ok.mp ran
  obtain ⟨blocks, exported, same⟩ := Exec.bind_eq_ok.mp ran
  cases same
  obtain ⟨copies, members, walkable⟩ := exportOps_spec copies_nil exported
  refine ⟨⟨blocks, exported, rfl, copies, fun x => (members x).trans ?_⟩, fun o main => ?_⟩
  · constructor
    · rintro (none | ⟨k, -, o, at_k, payload⟩)
      · cases none
      · exact ⟨o, ⟨k, at_k⟩, payload⟩
    · rintro ⟨o, main, payload⟩
      obtain ⟨k, low, at_k⟩ := mainline_within short all main
      exact .inr ⟨k, low, o, at_k, payload⟩
  · obtain ⟨k, low, at_k⟩ := mainline_within short all main
    exact walkable k low o at_k

theorem getExport_succeeds (few : AtMost P source limit)
    (walkable : ∀ o, Mainline P.formats source.blocks source.held.opId o →
      Walkable P.formats source.blocks o) : ∃ body, getExport P source limit = .ok body := by
  obtain ⟨blocks, ran⟩ := exportOps_succeeds ([] : List (Cid × Bytes))
    fun k (_ : k < limit.getD maxExportOps) o at_k => walkable o ⟨k, at_k⟩
  refine ⟨exportBody P blocks, ?_⟩
  unfold getExport
  rw [clampOrReject_ok few.1, ran]
  rfl

namespace Wrote

variable {body : Text} {blocks : List (Cid × Bytes)}

/-- The import stores the blocks of the export. -/
theorem accepted_eq (wrote : Wrote P source limit body blocks) (repo : Repository P source)
    (works : Works P source target now) : accepted P body = blocks ∧
      (importLines P target.blocks body).errors = [] := by
  have legible : ∀ e ∈ blocks, Legible P e.1 e.2 :=
    fun e member => works.legible e.1 e.2 (wrote.copies.stored e member)
  have hashed : ∀ e ∈ blocks, ∀ c, recomputeCid P.formats e.1 e.2 = some c → c = e.1 :=
    fun e member c known => repo.sound e.1 e.2 c (wrote.copies.stored e member) known
  rw [wrote.body_eq]
  exact ⟨accepted_body legible hashed, importLines_body_clean legible hashed⟩

/-- An exported block is read as it is stored at the source. -/
theorem get?_blocks (wrote : Wrote P source limit body blocks) {x : Cid}
    (inside : x ∈ blocks.map Prod.fst) : Entries.get? x blocks.reverse = source.blocks.get x := by
  obtain ⟨⟨cid, data⟩, member, rfl⟩ := List.mem_map.mp inside
  have nodup : (blocks.reverse.map Prod.fst).Nodup := by
    rw [List.map_reverse]
    exact List.nodup_reverse.mpr wrote.copies.nodup
  rw [wrote.copies.stored _ member]
  exact (Entries.get?_eq_some_iff_of_nodup nodup).mpr (List.mem_reverse.mpr member)

theorem newest_eq (wrote : Wrote P source limit body blocks) (accepted_eq : accepted P body = blocks) :
    newest P body = latest (timeAt P source) (blocks.map Prod.fst) := by
  rw [newest, accepted_eq]
  refine latest_congr fun x inside => ?_
  rw [wrote.get?_blocks inside]
  rfl

theorem before_iff (wrote : Wrote P source limit body blocks) {before after : List Cid} {c d : Cid}
    (split : blocks.map Prod.fst = before ++ c :: after) :
    ExportedBefore P source limit d c ↔ d ∈ before := by
  refine ⟨?_, fun early => ⟨blocks, before, after, wrote.ran, split, early⟩⟩
  rintro ⟨blocks', before', after', ran, split', early⟩
  obtain rfl := Except.ok.inj (wrote.ran.symm.trans ran)
  -- a block stands at one place
  have nodup := wrote.copies.nodup
  rcases List.append_eq_append_iff.mp (split.symm.trans split') with ⟨t, longer, rest⟩ | ⟨t, longer, rest⟩
  · cases t with
    | nil => rwa [longer, List.append_nil] at early
    | cons e t =>
        obtain ⟨rfl, -⟩ := List.cons.inj rest
        rw [split', longer] at nodup
        have twice := (List.nodup_append.mp nodup).2.2 c (by simp) c List.mem_cons_self
        exact absurd rfl twice
  · cases t with
    | nil => rwa [longer, List.append_nil]
    | cons e t =>
        rw [longer]
        exact List.mem_append_left _ early

/-- The newest of the exported commits is the one the import finds. -/
theorem newest_iff (wrote : Wrote P source limit body blocks) {r : Option Cid} :
    latest (timeAt P source) (blocks.map Prod.fst) = r ↔ Newest P source limit r := by
  cases r with
  | none =>
      rw [latest_eq_none]
      exact ⟨fun h d exported => h d ((wrote.members d).mpr exported),
        fun h d inside => h d ((wrote.members d).mp inside)⟩
  | some c =>
      constructor
      · intro found
        obtain ⟨before, after, t, split, timed, lower, upper⟩ := latest_eq_some found
        have inside : c ∈ blocks.map Prod.fst := by rw [split]; simp
        refine ⟨(wrote.members c).mp inside, t, timed, fun d u exported at_d => ?_⟩
        have member := (wrote.members d).mpr exported
        rw [split] at member
        by_cases early : d ∈ before
        · exact .inl (lower d early u at_d)
        · have le : u ≤ t := by
            rcases List.mem_append.mp member with first | rest
            · exact absurd first early
            · rcases List.mem_cons.mp rest with rfl | last
              · rw [timed] at at_d
                exact Nat.le_of_eq (Option.some.inj at_d).symm
              · exact upper d last u at_d
          rcases Nat.lt_or_eq_of_le le with less | same
          · exact .inl less
          · exact .inr ⟨same, fun h => early ((wrote.before_iff split).mp h)⟩
      · rintro ⟨exported, t, timed, greatest⟩
        obtain ⟨before, after, split⟩ := List.append_of_mem ((wrote.members c).mpr exported)
        have listed : ∀ d ∈ before ++ c :: after,
            Exported P.formats source.blocks source.held.opId d :=
          fun d member => (wrote.members d).mp (split ▸ member)
        rw [split]
        refine latest_of_greatest timed (fun d early u at_d => ?_) fun d late u at_d => ?_
        · rcases greatest d u (listed d (List.mem_append_left _ early)) at_d with less | ⟨-, not⟩
          · exact less
          · exact absurd ((wrote.before_iff split).mpr early) not
        · rcases greatest d u (listed d (List.mem_append_right _ (List.mem_cons_of_mem _ late))) at_d
            with less | ⟨same, -⟩
          · exact Nat.le_of_lt less
          · exact Nat.le_of_eq same

end Wrote

/-- What an export writes is reached from the head. -/
theorem reaches_of_exported (repo : Repository P source) {x : Cid}
    (exported : Exported P.formats source.blocks source.held.opId x) :
    source.blocks.Reaches P.formats source.held.opId x := by
  obtain ⟨o, ⟨k, main⟩, bytes, op, loads, inside⟩ := exported
  have links : ∀ a, History P.formats source.blocks source.held.opId a →
      source.blocks.Reaches P.formats source.held.opId a := by
    intro a history
    induction history with
    | refl => exact .refl
    | @tail a b before parent ih =>
        obtain ⟨bytes, op, loads, member⟩ := parent
        obtain ⟨cbor, -⟩ := repo.operations a before
        exact ih.tail ((linksTo_of_operation cbor loads).2 b member)
  have history := history_of_mainlineAt main
  rcases inside with rfl | below
  · exact links x history
  · obtain ⟨cbor, -⟩ := repo.operations o history
    exact ((links o history).tail (linksTo_of_operation cbor loads).1).trans below

theorem moveBlocks_hashed {r : Option Cid} :
    ∀ e ∈ moveBlocks P target now r, recomputeCid P.formats e.1 e.2 = some e.1 := by
  intro e member
  unfold moveBlocks at member
  split at member
  · cases member
  · split at member
    · cases member
    · rename_i view viewed
      split at member
      · rw [List.mem_singleton.mp member]
        exact hashToCid_hashed viewed
      · rename_i op wrote
        rcases List.mem_cons.mp member with rfl | last
        · exact hashToCid_hashed wrote
        · rw [List.mem_singleton.mp last]
          exact hashToCid_hashed viewed

theorem loadCommit_congr {bs bs' : Blockstore} {c : Cid} (same : bs.get c = bs'.get c) :
    loadCommit P.formats bs c = loadCommit P.formats bs' c := by
  unfold loadCommit
  rw [same]

/-- What an import does whose newest commit is `r`. -/
theorem restored_spec {body : Text} {r : Option Cid} (best : newest P body = r)
    (fresh : target.held.view.heads = [])
    (encodes : ∀ c, r = some c → ∃ view op,
      viewBlock P.formats (moved target.held.view c) = .ok view ∧
        operationBlock P target view.1 c "mnem-http" now = .ok op) :
    (restored P target body now).2.blocks = stored P target body (moveBlocks P target now r) ∧
      (∀ report, (restored P target body now).1 = .ok report →
        report.errors = (importLines P target.blocks body).errors ∧
          (restored P target body now).2.held.view.heads.head? = r) ∧
      ((∀ c, r = some c → ∃ commit, loadCommit P.formats
          (stored P target body (moveBlocks P target now r)) c = .ok commit) →
        ∃ report, (restored P target body now).1 = .ok report) := by
  cases r with
  | none =>
      rw [restored_none best]
      refine ⟨rfl, fun report same => ?_, fun _ => ⟨_, rfl⟩⟩
      cases same
      exact ⟨rfl, by simp [fresh]⟩
  | some c =>
      obtain ⟨view, op, viewed, wrote⟩ := encodes c rfl
      have blocks : moveBlocks P target now (some c) = [op, view] := by
        simp only [moveBlocks, viewed, wrote]
      obtain ⟨after, answer⟩ := restored_some best viewed wrote
      rw [blocks]
      refine ⟨after, ?_⟩
      cases loads : loadCommit P.formats (stored P target body [op, view]) c with
      | error e =>
          rw [loads] at answer
          constructor
          · intro report same
            rw [answer] at same
            cases same
          · intro all
            obtain ⟨commit, same⟩ := all c rfl
            cases loads.symm.trans same
      | ok commit =>
          rw [loads] at answer
          obtain ⟨⟨report, same, errors⟩, held⟩ := answer
          refine ⟨fun report' same' => ?_, fun _ => ⟨report, same⟩⟩
          obtain rfl := Except.ok.inj (same.symm.trans same')
          rw [held]
          exact ⟨errors, rfl⟩

/-- An exported block is there after the import as it was at the source. -/
theorem Wrote.restored_get {body : Text} {blocks : List (Cid × Bytes)}
    (wrote : Wrote P source limit body blocks) (repo : Repository P source)
    (accepted_eq : accepted P body = blocks) {added : List (Cid × Bytes)}
    (hashed : ∀ e ∈ added, recomputeCid P.formats e.1 e.2 = some e.1)
    (apart : ∀ cid old new, source.blocks.get cid = some old → (cid, new) ∈ added →
      Apart P.formats old new) {x : Cid} (inside : x ∈ blocks.map Prod.fst) :
    (stored P target body added).get x = source.blocks.get x := by
  have stands := wrote.get?_blocks inside
  obtain ⟨e, member, rfl⟩ := List.mem_map.mp inside
  have there := wrote.copies.stored e member
  rw [get_stored, accepted_eq, stands, there]
  cases extra : Entries.get? e.1 added with
  | none => rfl
  | some new =>
      have written := Entries.mem_of_get? extra
      have fresh := hashed _ written
      obtain ⟨c, computed⟩ := recomputeCid_known fresh e.2
      have before : recomputeCid P.formats e.1 e.2 = some e.1 := by
        rw [computed, repo.sound e.1 e.2 c there computed]
      rw [eq_of_recomputed (apart _ _ _ there written) before fresh]
      rfl

theorem stored_get_other {body : Text} {blocks : List (Cid × Bytes)}
    (accepted_eq : accepted P body = blocks) {added : List (Cid × Bytes)} {x : Cid}
    (outside : x ∉ blocks.map Prod.fst) :
    (stored P target body added).get x = (Entries.get? x added).or (target.blocks.get x) := by
  have absent : Entries.get? x blocks.reverse = none :=
    Entries.get?_eq_none_iff.mpr fun e member same =>
      outside (same ▸ List.mem_map_of_mem (List.mem_reverse.mp member))
  rw [get_stored, accepted_eq, absent]
  rfl

/-- An import that finds `r` newest has what it needs to encode the move there. -/
theorem Works.encodes_newest {blocks : List (Cid × Bytes)} {r : Option Cid}
    (works : Works P source target now)
    (best : latest (timeAt P source) (blocks.map Prod.fst) = r) (c : Cid) (is : r = some c) :
    ∃ view op, viewBlock P.formats (moved target.held.view c) = .ok view ∧
      operationBlock P target view.1 c "mnem-http" now = .ok op := by
  subst is
  obtain ⟨-, -, t, -, timed, -⟩ := latest_eq_some best
  exact works.encodes c t timed

/-- What a restored repository was. -/
theorem portable_of_restores (repo : Repository P source) (few : AtMost P source limit)
    (fresh : target.held.view.heads = []) (works : Works P source target now)
    (restores : Restores P source target limit now) : Portable P source target limit now := by
  obtain ⟨body, report, exported, answered, -, present, head⟩ := restores
  obtain ⟨⟨blocks, wrote⟩, walkable⟩ := wrote_of_getExport few exported
  obtain ⟨accepted_eq, -⟩ := wrote.accepted_eq repo works
  have best := wrote.newest_eq accepted_eq
  obtain ⟨after, answers, -⟩ := restored_spec best fresh (works.encodes_newest rfl)
  have isHead := (answers report answered).2.symm.trans head
  refine ⟨walkable, fun o x history reached => ?_, wrote.newest_iff.mp isHead⟩
  by_cases inside : x ∈ blocks.map Prod.fst
  · exact .inl ((wrote.members x).mp inside)
  · right
    rw [← isHead, ← present o x history reached, after, stored_get_other accepted_eq inside]

/-- A portable repository is restored. -/
theorem restores_of_portable (repo : Repository P source) (few : AtMost P source limit)
    (fresh : target.held.view.heads = []) (works : Works P source target now)
    (apart : ∀ cid old new, source.blocks.get cid = some old →
      (cid, new) ∈ moveBlocks P target now source.held.view.heads.head? → Apart P.formats old new)
    (portable : Portable P source target limit now) : Restores P source target limit now := by
  obtain ⟨walkable, covered, newest⟩ := portable
  obtain ⟨body, exported⟩ := getExport_succeeds few walkable
  obtain ⟨⟨blocks, wrote⟩, -⟩ := wrote_of_getExport few exported
  obtain ⟨accepted_eq, clean⟩ := wrote.accepted_eq repo works
  have isHead := wrote.newest_iff.mpr newest
  have best := (wrote.newest_eq accepted_eq).trans isHead
  obtain ⟨after, answers, succeeds⟩ := restored_spec best fresh (works.encodes_newest isHead)
  have kept : ∀ x ∈ blocks.map Prod.fst, (stored P target body
      (moveBlocks P target now source.held.view.heads.head?)).get x = source.blocks.get x :=
    fun x inside => wrote.restored_get repo accepted_eq moveBlocks_hashed apart inside
  have loads : ∀ c, source.held.view.heads.head? = some c → ∃ commit, loadCommit P.formats
      (stored P target body (moveBlocks P target now source.held.view.heads.head?)) c =
        .ok commit := by
    intro c is
    rw [is] at newest
    rw [loadCommit_congr (kept c ((wrote.members c).mpr newest.1))]
    exact repo.heads c (List.mem_of_mem_head? is)
  obtain ⟨report, answered⟩ := succeeds loads
  obtain ⟨errors, head⟩ := answers report answered
  refine ⟨body, report, exported, answered, errors.trans clean, fun o x history reached => ?_, head⟩
  rw [after]
  by_cases inside : x ∈ blocks.map Prod.fst
  · exact kept x inside
  · rw [stored_get_other accepted_eq inside]
    exact (covered o x history reached).resolve_left
      fun exported => inside ((wrote.members x).mpr exported)

/-- No block stands before itself in an export. -/
theorem not_exportedBefore_self (c : Cid) : ¬ ExportedBefore P source limit c c := by
  rintro ⟨blocks, before, after, ran, split, earlier⟩
  obtain ⟨copies, -, -⟩ := exportOps_spec copies_nil ran
  have nodup := copies.nodup
  rw [split] at nodup
  exact (List.nodup_append.mp nodup).2.2 c earlier c List.mem_cons_self rfl

/-- An export imported into a new server restores the repository exactly where it is portable. -/
theorem export_import_restores_iff (P : Packages) (source target : Server) (limit : Option Nat)
    (now : Nat) (repo : Repository P source) (few : AtMost P source limit)
    (fresh : target.held.view.heads = []) (works : Works P source target now)
    (apart : ∀ cid old new, source.blocks.get cid = some old →
      (cid, new) ∈ moveBlocks P target now source.held.view.heads.head? → Apart P.formats old new) :
    Restores P source target limit now ↔ Portable P source target limit now :=
  ⟨portable_of_restores repo few fresh works, restores_of_portable repo few fresh works apart⟩

end Restore

/-! ## A merge -/

section Merge

open Fragment

def rootBytes : Bytes := operationBytes 2 movedViewCid "ada" [] "root"

def rootCid : Cid :=
  sha256Cid
    [0xac, 0xdc, 0x60, 0x13, 0xb6, 0xa4, 0x43, 0xde, 0xcd, 0xc1, 0x2a, 0xd4, 0xe7, 0xaa, 0xd8,
      0xa6, 0x8c, 0x0f, 0xdb, 0x4c, 0xda, 0x0c, 0x93, 0x5b, 0x79, 0x9e, 0x79, 0x8c, 0xd6, 0x17,
      0x94, 0x34]
    rfl

def sideBytes : Bytes := operationBytes 3 movedViewCid "ada" [rootCid] "side"

def sideCid : Cid :=
  sha256Cid
    [0x81, 0xb3, 0x6d, 0x90, 0x18, 0x79, 0x70, 0x25, 0x0b, 0xf1, 0xee, 0xa0, 0x38, 0x76, 0x54,
      0x98, 0xf2, 0x40, 0x81, 0xb0, 0x2b, 0x17, 0x26, 0x36, 0x1e, 0xd5, 0x28, 0xba, 0x52, 0x72,
      0x05, 0x10]
    rfl

def mergeBytes : Bytes := operationBytes 5 movedViewCid "ada" [rootCid, sideCid] "merge"

def mergeCid : Cid :=
  sha256Cid
    [0xad, 0xf4, 0x64, 0x4b, 0xe2, 0x8b, 0x03, 0x00, 0xf5, 0x5e, 0x5e, 0xcb, 0x1a, 0xdc, 0xbc,
      0xde, 0x4d, 0x74, 0xbc, 0x27, 0x9f, 0xf1, 0xf6, 0xbf, 0xc9, 0xad, 0x02, 0xa2, 0xa6, 0xeb,
      0x21, 0x55]
    rfl

/-- An operation whose view has the first commit as its head. -/
def onFirst (parents : List Cid) (time : UInt64) (description : String) : Objects.Operation Cid :=
  ⟨parents, movedViewCid, none, "ada", none, none, none, time, description, none, OrdMap.empty⟩

/-- A stored block, the text of its identifier, and its value. -/
structure MergeEntry where
  cid : Cid
  text : String
  data : Bytes
  value : Ipld Cid

def mergeEntries : List MergeEntry :=
  [⟨movedViewCid, "bafyreihv4fgweitbt2g532k4q632oqyxjtmba3y7vjvkigglpryjpa2ajq", movedViewBytes,
      .map (Format.view.serialize (moved heldView firstCid)).entries⟩,
    ⟨firstCid, firstText, firstBytes, .map (Format.commit.serialize firstCommit).entries⟩,
    ⟨leafCid, "bafyreibhjorrhzcdkujn5kucrxljwti43bmh5ept7ha56ooytebbasplya", leafBytes,
      .map [("_kind", .string "tree"), ("entries", .list []), ("leaf", .bool true)]⟩,
    ⟨rootCid, "bafyreifm3rqbhnveippm3qjk2tt2vwfgrqh5wtg2bsjvw6m6pggnmf4ugq", rootBytes,
      .map (Format.operation.serialize (onFirst [] 2 "root")).entries⟩,
    ⟨sideCid, "bafyreiebwnwzagdzoasqx4poua4hmvey6jaidmblc4tdmhwvfc5fe4qfca", sideBytes,
      .map (Format.operation.serialize (onFirst [rootCid] 3 "side")).entries⟩,
    ⟨mergeCid, "bafyreifn6rsexyulamapkxs6zmnnzpg6jv2lyj476h3l7snnakrkn2zbku", mergeBytes,
      .map (Format.operation.serialize (onFirst [rootCid, sideCid] 5 "merge")).entries⟩]

def mergeMaps : Maps where
  decodings := (movedOperationBytes, movedOperation.wire) :: mergeEntries.map fun e => (e.data, e.value)
  nodup := by decide
  outside := by decide

/-- The JSON of an exported line. -/
def lineJson (e : MergeEntry) : Codec.Json :=
  .object [("cid", .string e.text), ("hex", .string (String.ofList (hexText e.data)))]

/-- A reader that knows the entries of a table. -/
def readFrom {K V : Type} [DecidableEq K] (table : List (K × V)) (refusal : String) (k : K) :
    Except String V :=
  match Entries.get? k table with
  | some v => .ok v
  | none => .error refusal

theorem readFrom_map {K V A : Type} [DecidableEq K] {entries : List A} {key : A → K} {value : A → V}
    (nodup : ((entries.map fun e => (key e, value e)).map Prod.fst).Nodup) {e : A}
    (member : e ∈ entries) (refusal : String) :
    readFrom (entries.map fun e => (key e, value e)) refusal (key e) = .ok (value e) := by
  have found : Entries.get? (key e) (entries.map fun e => (key e, value e)) = some (value e) :=
    (Entries.get?_eq_some_iff_of_nodup nodup).mpr
      (List.mem_map_of_mem (f := fun e => (key e, value e)) member)
  unfold readFrom
  rw [found]

noncomputable def mergePackages : Packages where
  formats := formatsWith ((movedOperationBytes, movedOperationCid.multihash.digest) ::
    mergeEntries.map fun e => (e.data, e.cid.multihash.digest)) mergeMaps
  parseJson := readFrom (mergeEntries.map fun e => (exportLine e.text e.data, lineJson e))
    "expected value at line 1 column 1"
  parseCid := readFrom (mergeEntries.map fun e => (e.text, e.cid)) "Failed to parse multihash"
  cidText c := (Entries.get? c (mergeEntries.map fun e => (e.cid, e.text))).getD ""

def mergeStore : Blockstore := { blocks := mergeEntries.map fun e => (e.cid, e.data) }

/-- The repository at an operation. -/
def serverAt (op : Cid) : Server :=
  { blocks := mergeStore, opHeads := [op], held := ⟨op, moved heldView firstCid⟩ }

/-- A server without a commit. -/
def newServer : Server :=
  { blocks := {}, opHeads := [heldOperationCid], held := ⟨heldOperationCid, { heldView with heads := [] }⟩ }

theorem mem_of_get {c : Cid} {data : Bytes} (found : mergeStore.get c = some data) :
    ∃ e ∈ mergeEntries, e.cid = c ∧ e.data = data := by
  obtain ⟨e, member, same⟩ := List.mem_map.mp (Entries.mem_of_get? found)
  cases same
  exact ⟨e, member, rfl, rfl⟩

theorem get_of_mem {e : MergeEntry} (member : e ∈ mergeEntries) : mergeStore.get e.cid = some e.data := by
  have nodup : (mergeStore.blocks.map Prod.fst).Nodup := by decide
  exact (Entries.get?_eq_some_iff_of_nodup nodup).mpr (List.mem_map_of_mem member)

theorem decode_of_mem {e : MergeEntry} (member : e ∈ mergeEntries) :
    mergePackages.formats.cbor.decode e.data = .ok e.value :=
  decode_maps ((Entries.get?_eq_some_iff_of_nodup mergeMaps.nodup).mpr
    (List.mem_cons_of_mem _ (List.mem_map_of_mem member)))

theorem hashed_of_mem : ∀ e ∈ mergeEntries,
    recomputeCid mergePackages.formats e.cid e.data = some e.cid := by
  have hashed : ∀ e ∈ mergeEntries, recomputeCid (formatsWith ((movedOperationBytes,
      movedOperationCid.multihash.digest) :: mergeEntries.map fun e =>
        (e.data, e.cid.multihash.digest)) mergeMaps) e.cid e.data = some e.cid := by
    decide +kernel
  exact hashed

/-- What is reached from a set of blocks that is closed under links. -/
theorem mem_of_reaches {closed : List Cid}
    (links : ∀ e ∈ mergeEntries, e.cid ∈ closed → ∀ c ∈ e.value.links, c ∈ closed) {a x : Cid}
    (start : a ∈ closed) (reached : mergeStore.Reaches mergePackages.formats a x) : x ∈ closed := by
  induction reached with
  | refl => exact start
  | tail _ link ih =>
      obtain ⟨data, v, found, -, decoded, member⟩ := link
      obtain ⟨e, inside, rfl, rfl⟩ := mem_of_get found
      obtain rfl := Except.ok.inj ((decode_of_mem inside).symm.trans decoded)
      exact links e inside ih _ member

theorem visit_of_mem {e : MergeEntry} (member : e ∈ mergeEntries) :
    ∃ found, mergeStore.visit mergePackages.formats e.cid = .ok found := by
  have low : ∀ e ∈ mergeEntries, e.value.height < 64 := by decide
  have cbor : ∀ e ∈ mergeEntries, e.cid.codec = codecDagCbor := by decide
  have linked : Codec.extractLinks mergePackages.formats.cbor e.data = .ok e.value.links := by
    unfold Codec.extractLinks
    rw [decode_of_mem member]
    dsimp only
    rw [Codec.walkIpld_eq, if_pos (by simpa [Codec.walkIpldMaxDepth] using low e member)]
  refine ⟨(e.data, e.value.links), Blockstore.visit_ok_iff.mpr ⟨get_of_mem member, ?_⟩⟩
  rw [if_pos (cbor e member)]
  exact linked

/-- An operation of the store is loaded. -/
theorem load_of_mem {e : MergeEntry} (member : e ∈ mergeEntries) {parents : List Cid} {time : UInt64}
    {text : String}
    (value : e.value = .map (Format.operation.serialize (onFirst parents time text)).entries) :
    loadOperation mergePackages.formats mergeStore e.cid =
      .ok (e.data, onFirst parents time text) := by
  have decoded : Format.fromCanonicalBytes mergePackages.formats.cbor Format.operation e.data =
      .ok (onFirst parents time text) := by
    refine Format.fromCanonicalBytes_eq_ok.mpr ⟨_, (decode_of_mem member).trans (by rw [value]; rfl), ?_⟩
    apply Format.deserialize_serialize
    · exact Format.fits_operation _
    · exact fun _ _ => OrdMap.get?_empty _
  unfold loadOperation
  rw [get_of_mem member]
  dsimp only
  rw [decoded]
  rfl

def viewEntry : MergeEntry := mergeEntries[0]

def firstEntry : MergeEntry := mergeEntries[1]

def rootEntry : MergeEntry := mergeEntries[3]

def sideEntry : MergeEntry := mergeEntries[4]

def mergeEntry : MergeEntry := mergeEntries[5]

theorem load_root : loadOperation mergePackages.formats mergeStore rootCid =
    .ok (rootBytes, onFirst [] 2 "root") :=
  @load_of_mem rootEntry (List.getElem_mem _) _ _ _ rfl

theorem load_side : loadOperation mergePackages.formats mergeStore sideCid =
    .ok (sideBytes, onFirst [rootCid] 3 "side") :=
  @load_of_mem sideEntry (List.getElem_mem _) _ _ _ rfl

theorem load_merge : loadOperation mergePackages.formats mergeStore mergeCid =
    .ok (mergeBytes, onFirst [rootCid, sideCid] 5 "merge") :=
  @load_of_mem mergeEntry (List.getElem_mem _) _ _ _ rfl

/-- The history of each operation of the store. -/
theorem history_cases {head o : Cid} (history : History mergePackages.formats mergeStore head o)
    (start : head ∈ [mergeCid, sideCid, rootCid]) :
    o ∈ [mergeCid, sideCid, rootCid] ∧ (head = rootCid → o = rootCid) := by
  induction history with
  | refl => exact ⟨start, id⟩
  | @tail a b _ parent ih =>
      obtain ⟨bytes, op, loads, member⟩ := parent
      have first : a = rootCid → False := by
        rintro rfl
        cases loads.symm.trans load_root
        cases member
      refine ⟨?_, fun same => absurd (ih.2 same) first⟩
      rcases List.mem_cons.mp ih.1 with rfl | rest
      · cases loads.symm.trans load_merge
        rcases List.mem_cons.mp member with rfl | last
        · simp
        · simp [List.mem_singleton.mp last]
      · rcases List.mem_cons.mp rest with rfl | last
        · cases loads.symm.trans load_side
          simp [List.mem_singleton.mp member]
        · exact absurd (List.mem_singleton.mp last) first

/-- The time a value gives, if it is a commit. -/
def valueTime : Ipld Cid → Option Nat
  | .map kvs =>
      match Entries.get? "_kind" kvs with
      | some (.string kind) =>
          if kind ≠ "commit" then none
          else
            match Entries.get? "time" kvs with
            | some (.integer n) => some (if 0 ≤ n ∧ n < 2 ^ 64 then n.toNat else 0)
            | _ => some 0
      | _ => none
  | _ => none

theorem commitTime_of_value {F : Formats} {data : Bytes} {v : Ipld Cid}
    (decoded : F.cbor.decode data = .ok v) : commitTime F data = valueTime v := by
  unfold commitTime
  rw [decoded]
  cases v <;> rfl

theorem commitTime_of_mem {e : MergeEntry} (member : e ∈ mergeEntries) :
    commitTime mergePackages.formats e.data = if e.cid = firstCid then some 1 else none := by
  have times : ∀ e ∈ mergeEntries,
      valueTime e.value = if e.cid = firstCid then some 1 else none := by
    decide
  rw [commitTime_of_value (decode_of_mem member)]
  exact times e member

/-- The first commit is the only one. -/
theorem timeAt_eq_some {op c : Cid} {t : Nat}
    (timed : timeAt mergePackages (serverAt op) c = some t) : c = firstCid ∧ t = 1 := by
  obtain ⟨data, found, at_data⟩ := Option.bind_eq_some_iff.mp timed
  obtain ⟨e, member, rfl, rfl⟩ := mem_of_get found
  rw [commitTime_of_mem member] at at_data
  split at at_data
  · exact ⟨‹_›, (Option.some.inj at_data).symm⟩
  · cases at_data

theorem timeAt_first (op : Cid) : timeAt mergePackages (serverAt op) firstCid = some 1 := by
  have found : mergeStore.get firstCid = some firstBytes := @get_of_mem firstEntry (List.getElem_mem _)
  have timed : commitTime mergePackages.formats firstBytes = some 1 :=
    (@commitTime_of_mem firstEntry (List.getElem_mem _)).trans (if_pos rfl)
  show (mergeStore.get firstCid).bind (commitTime mergePackages.formats) = some 1
  rw [found, Option.bind_some, timed]

theorem viewBlock_new : viewBlock mergePackages.formats (moved newServer.held.view firstCid) =
    .ok (movedViewCid, movedViewBytes) := by
  have other : movedOperation.wire ≠
      Ipld.map (Format.view.serialize (moved heldView firstCid)).entries := by
    intro same
    have kinds := congrArg (fun v => match v with
      | Ipld.map kvs => Entries.get? "_kind" kvs
      | _ => none) same
    have apart : (some (Ipld.string "operation") : Option (Ipld Cid)) ≠ some (.string "view") := by
      simp
    exact apart kinds
  have encoded : mergePackages.formats.cbor.encode
      (.map (Format.view.serialize (moved heldView firstCid)).entries) = .ok movedViewBytes :=
    @encode_maps mergeMaps [_] _ _ _ rfl (by simpa using other) ⟨_, rfl⟩
  have hashed : sha256Cid (mergePackages.formats.sha2_256 movedViewBytes)
      (mergePackages.formats.length_sha2_256 _) = movedViewCid := by decide
  unfold viewBlock hashToCid
  show (do
    let bytes ← mergePackages.formats.cbor.encode
      (.map (Format.view.serialize (moved heldView firstCid)).entries)
    _) = _
  rw [encoded]
  exact congrArg (fun c => Except.ok (c, movedViewBytes)) hashed

theorem operationBlock_new : operationBlock mergePackages newServer movedViewCid firstCid
    "mnem-http" 4 = .ok (movedOperationCid, movedOperationBytes) := by
  have encoded : mergePackages.formats.cbor.encode movedOperation.wire = .ok movedOperationBytes :=
    @encode_maps mergeMaps [] _ _ _ rfl nofun ⟨_, rfl⟩
  have hashed : sha256Cid (mergePackages.formats.sha2_256 movedOperationBytes)
      (mergePackages.formats.length_sha2_256 _) = movedOperationCid := by decide +kernel
  have text : mergePackages.cidText firstCid = firstText := by decide
  unfold operationBlock hashToCid
  rw [text]
  show (do
    let bytes ← mergePackages.formats.cbor.encode movedOperation.wire
    _) = _
  rw [encoded]
  exact congrArg (fun c => Except.ok (c, movedOperationBytes)) hashed

theorem legible_of_mem {e : MergeEntry} (member : e ∈ mergeEntries) :
    Legible mergePackages e.cid e.data := by
  have cids : ((mergeEntries.map fun e => (e.cid, e.text)).map Prod.fst).Nodup := by decide
  have texts : ((mergeEntries.map fun e => (e.text, e.cid)).map Prod.fst).Nodup := by decide
  have lines : ((mergeEntries.map fun e => (exportLine e.text e.data, lineJson e)).map
      Prod.fst).Nodup := by
    decide
  have unbroken : ∀ e ∈ mergeEntries, '\n' ∉ e.text.toList := by decide
  have text : mergePackages.cidText e.cid = e.text := by
    show (Entries.get? e.cid _).getD "" = _
    rw [(Entries.get?_eq_some_iff_of_nodup cids).mpr
      (List.mem_map_of_mem (f := fun e => (e.cid, e.text)) member)]
    rfl
  have named : mergePackages.parseCid e.text = .ok e.cid := readFrom_map texts member _
  have parsed : mergePackages.parseJson (exportLine e.text e.data) = .ok (lineJson e) :=
    readFrom_map lines member _
  constructor
  · rw [text]
    exact unbroken e member
  · rw [text, named]
  · rw [text, parsed]
    rfl

theorem works_new (op : Cid) : Works mergePackages (serverAt op) newServer 4 where
  legible c data found := by
    obtain ⟨e, member, rfl, rfl⟩ := mem_of_get found
    exact legible_of_mem member
  encodes c t timed := by
    obtain ⟨rfl, rfl⟩ := timeAt_eq_some timed
    exact ⟨_, _, viewBlock_new, operationBlock_new⟩

theorem load_first : loadCommit mergePackages.formats mergeStore firstCid = .ok firstCommit := by
  have found : mergeStore.get firstCid = some firstBytes := @get_of_mem firstEntry (List.getElem_mem _)
  have data : firstEntry.data = firstBytes := rfl
  have value : firstEntry.value = .map (Format.commit.serialize firstCommit).entries := rfl
  have decoded : mergePackages.formats.cbor.decode firstBytes =
      .ok (.map (Format.commit.serialize firstCommit).entries) := by
    rw [← data, ← value]
    exact decode_of_mem (List.getElem_mem _)
  have read : Format.commit.deserialize (Format.commit.serialize firstCommit) = .ok firstCommit := by
    apply Format.deserialize_serialize
    · exact Format.fits_commit _
    · exact fun _ _ => OrdMap.get?_empty _
  unfold loadCommit
  rw [found]
  dsimp only
  rw [decoded]
  dsimp only
  rw [OrdMap.ofList_entries, read]

/-- Every operation of the store is the head of a repository. -/
theorem repository_at {op : Cid} (isOp : op ∈ [mergeCid, sideCid, rootCid]) :
    Repository mergePackages (serverAt op) where
  complete x reached := by
    have closed : ∀ e ∈ mergeEntries, e.cid ∈ mergeEntries.map MergeEntry.cid →
        ∀ c ∈ e.value.links, c ∈ mergeEntries.map MergeEntry.cid := by
      decide
    have start : op ∈ mergeEntries.map MergeEntry.cid := by
      have all : ∀ c ∈ [mergeCid, sideCid, rootCid], c ∈ mergeEntries.map MergeEntry.cid := by
        decide
      exact all op isOp
    obtain ⟨e, member, rfl⟩ := List.mem_map.mp (mem_of_reaches closed start reached)
    show (mergeStore.get e.cid).isSome
    rw [get_of_mem member]
    rfl
  sound cid data c found known := by
    obtain ⟨e, member, rfl, rfl⟩ := mem_of_get found
    exact Option.some.inj (known.symm.trans (hashed_of_mem e member))
  operations o history := by
    have cbor : ∀ c ∈ [mergeCid, sideCid, rootCid], c.codec = codecDagCbor := by decide
    obtain ⟨inside, -⟩ := history_cases history isOp
    refine ⟨cbor o inside, ?_⟩
    simp only [List.mem_cons, List.not_mem_nil, or_false] at inside
    rcases inside with rfl | rfl | rfl
    · exact ⟨_, load_merge⟩
    · exact ⟨_, load_side⟩
    · exact ⟨_, load_root⟩
  held := by
    have read : Format.fromCanonicalBytes mergePackages.formats.cbor Format.view movedViewBytes =
        .ok (moved heldView firstCid) := by
      refine Format.fromCanonicalBytes_eq_ok.mpr
        ⟨_, @decode_of_mem viewEntry (List.getElem_mem _), ?_⟩
      apply Format.deserialize_serialize
      · exact Format.fits_view _ fun _ _ none => by cases none
      · exact fun _ _ => OrdMap.get?_empty _
    have found : mergeStore.get movedViewCid = some movedViewBytes :=
      @get_of_mem viewEntry (List.getElem_mem _)
    simp only [List.mem_cons, List.not_mem_nil, or_false] at isOp
    rcases isOp with rfl | rfl | rfl
    · exact ⟨_, _, _, load_merge, found, read⟩
    · exact ⟨_, _, _, load_side, found, read⟩
    · exact ⟨_, _, _, load_root, found, read⟩
  heads c isHead := by
    obtain rfl := List.mem_singleton.mp isHead
    exact ⟨firstCommit, load_first⟩

theorem atMost_at {op : Cid} (isOp : op ∈ [mergeCid, sideCid, rootCid]) :
    AtMost mergePackages (serverAt op) none :=
  ⟨le_refl _, [mergeCid, sideCid, rootCid], by decide, fun _ history => (history_cases history isOp).1⟩

theorem moveBlocks_new : moveBlocks mergePackages newServer 4 (some firstCid) =
    [(movedOperationCid, movedOperationBytes), (movedViewCid, movedViewBytes)] := by
  unfold moveBlocks
  simp only [viewBlock_new, operationBlock_new]

/-- What a view of the store reaches. -/
theorem reached_of_view {x : Cid} (reached : mergeStore.Reaches mergePackages.formats movedViewCid x) :
    x ∈ [movedViewCid, firstCid, leafCid] := by
  have closed : ∀ e ∈ mergeEntries, e.cid ∈ [movedViewCid, firstCid, leafCid] →
      ∀ c ∈ e.value.links, c ∈ [movedViewCid, firstCid, leafCid] := by
    decide
  exact mem_of_reaches closed List.mem_cons_self reached

theorem visit_of_reached {x : Cid} (reached : mergeStore.Reaches mergePackages.formats movedViewCid x) :
    ∃ found, mergeStore.visit mergePackages.formats x = .ok found := by
  have stored : ∀ c ∈ [movedViewCid, firstCid, leafCid], c ∈ mergeEntries.map MergeEntry.cid := by
    decide
  obtain ⟨e, member, rfl⟩ := List.mem_map.mp (stored x (reached_of_view reached))
  exact visit_of_mem member

theorem mainline_root {o : Cid} (line : Mainline mergePackages.formats mergeStore rootCid o) :
    o = rootCid := by
  apply @Mainline.within _ _ _ _ (· = rootCid) line rfl
  rintro a b rfl parent
  rw [firstParent_of_load load_root] at parent
  cases parent

theorem mainline_merge {o : Cid} (line : Mainline mergePackages.formats mergeStore mergeCid o) :
    o = mergeCid ∨ o = rootCid := by
  apply @Mainline.within _ _ _ _ (fun o => o = mergeCid ∨ o = rootCid) line (.inl rfl)
  rintro a b (rfl | rfl) parent
  · rw [firstParent_of_load load_merge] at parent
    exact .inr (Option.some.inj parent).symm
  · rw [firstParent_of_load load_root] at parent
    cases parent

/-- All that the root operation reaches is exported from it. -/
theorem exported_root {x : Cid} (reached : mergeStore.Reaches mergePackages.formats rootCid x) :
    Exported mergePackages.formats mergeStore rootCid x := by
  refine ⟨rootCid, ⟨0, rfl⟩, rootBytes, _, load_root, ?_⟩
  rcases Relation.ReflTransGen.cases_head reached with same | ⟨y, link, rest⟩
  · exact .inl same.symm
  · right
    have links : rootEntry.value.links = [movedViewCid] := by decide
    obtain ⟨data, v, found, -, decoded, member⟩ := link
    have stored : mergeStore.get rootCid = some rootBytes := @get_of_mem rootEntry (List.getElem_mem _)
    obtain rfl := Option.some.inj (stored.symm.trans found)
    have value : rootEntry.value = v :=
      Except.ok.inj ((@decode_of_mem rootEntry (List.getElem_mem _)).symm.trans decoded)
    rw [← value, links] at member
    rwa [List.mem_singleton.mp member] at rest

/-- The first commit is exported from the root operation. -/
theorem exported_first : Exported mergePackages.formats mergeStore rootCid firstCid := by
  have links : firstCid ∈ viewEntry.value.links := by decide
  have data : viewEntry.data = movedViewBytes := rfl
  have decoded : mergePackages.formats.cbor.decode movedViewBytes = .ok viewEntry.value := by
    rw [← data]
    exact decode_of_mem (List.getElem_mem _)
  have found : mergeStore.get movedViewCid = some movedViewBytes :=
    @get_of_mem viewEntry (List.getElem_mem _)
  exact ⟨rootCid, ⟨0, rfl⟩, rootBytes, _, load_root,
    .inr (.single ⟨movedViewBytes, _, found, by decide, decoded, links⟩)⟩

theorem portable_root : Portable mergePackages (serverAt rootCid) newServer none 4 where
  walkable o line := by
    obtain rfl := mainline_root line
    exact ⟨_, _, load_root, fun x reached => visit_of_reached reached⟩
  covered o x history reached := by
    have start : rootCid ∈ [mergeCid, sideCid, rootCid] := by simp
    obtain rfl := (history_cases history start).2 rfl
    exact .inl (exported_root reached)
  newest := by
    refine ⟨exported_first, 1, timeAt_first _, fun d u _ timed => ?_⟩
    obtain ⟨rfl, rfl⟩ := timeAt_eq_some timed
    exact .inr ⟨rfl, not_exportedBefore_self _⟩

theorem apart_new (cid : Cid) (old new : Bytes) (found : mergeStore.get cid = some old)
    (member : (cid, new) ∈ moveBlocks mergePackages newServer 4 (some firstCid)) :
    Apart mergePackages.formats old new := by
  have apart : ∀ e ∈ mergeEntries, ∀ new ∈ [movedOperationBytes, movedViewBytes],
      Apart mergePackages.formats e.data new := by
    have sha : ∀ e ∈ mergeEntries, ∀ new ∈ [movedOperationBytes, movedViewBytes],
        digest ((movedOperationBytes, movedOperationCid.multihash.digest) ::
            mergeEntries.map fun e => (e.data, e.cid.multihash.digest)) e.data =
          digest ((movedOperationBytes, movedOperationCid.multihash.digest) ::
            mergeEntries.map fun e => (e.data, e.cid.multihash.digest)) new → e.data = new := by
      decide +kernel
    have blake3 : ∀ e ∈ mergeEntries, ∀ new ∈ [movedOperationBytes, movedViewBytes],
        digest [] e.data = digest [] new → e.data = new := by
      decide
    exact fun e inside new written => ⟨sha e inside new written, blake3 e inside new written⟩
  obtain ⟨e, inside, -, rfl⟩ := mem_of_get found
  rw [moveBlocks_new] at member
  refine apart e inside new ?_
  rcases List.mem_cons.mp member with same | rest
  · cases same
    simp
  · cases List.mem_singleton.mp rest
    simp

theorem export_import_restores_iff_root :
    Restores mergePackages (serverAt rootCid) newServer none 4 :=
  (export_import_restores_iff mergePackages (serverAt rootCid) newServer none 4
    (repository_at (by simp)) (atMost_at (by simp)) rfl (works_new _)
    apart_new).mpr portable_root

/-- The second parent of a merge is not exported. -/
theorem export_import_loses_side :
    Repository mergePackages (serverAt mergeCid) ∧ AtMost mergePackages (serverAt mergeCid) none ∧
      newServer.held.view.heads = [] ∧ Works mergePackages (serverAt mergeCid) newServer 4 ∧
      (∀ cid old new, (serverAt mergeCid).blocks.get cid = some old →
        (cid, new) ∈ moveBlocks mergePackages newServer 4 (some firstCid) →
          Apart mergePackages.formats old new) ∧
      ¬ Restores mergePackages (serverAt mergeCid) newServer none 4 := by
  have repo : Repository mergePackages (serverAt mergeCid) := repository_at (by simp)
  have few : AtMost mergePackages (serverAt mergeCid) none := atMost_at (by simp)
  refine ⟨repo, few, rfl, works_new _, apart_new, fun restores => ?_⟩
  have portable := portable_of_restores repo few rfl (works_new _) restores
  have history : History mergePackages.formats mergeStore mergeCid sideCid :=
    .single ⟨_, _, load_merge, by simp [onFirst]⟩
  rcases portable.covered sideCid sideCid history .refl with
    ⟨o, line, bytes, op, loads, carried⟩ | same
  · have apart : sideCid ≠ mergeCid ∧ sideCid ≠ rootCid ∧
        sideCid ∉ [movedViewCid, firstCid, leafCid] := by
      decide
    have view : op.view = movedViewCid := by
      rcases mainline_merge line with rfl | rfl
      · cases loads.symm.trans load_merge
        rfl
      · cases loads.symm.trans load_root
        rfl
    rcases carried with same | reached
    · rcases mainline_merge line with rfl | rfl
      · exact apart.1 same
      · exact apart.2.1 same
    · rw [view] at reached
      exact apart.2.2 (reached_of_view reached)
  · have stored : mergeStore.get sideCid = some sideBytes := @get_of_mem sideEntry (List.getElem_mem _)
    have other : movedOperationCid ≠ sideCid ∧ movedViewCid ≠ sideCid := by decide
    have absent : Entries.get? sideCid (moveBlocks mergePackages newServer 4 (some firstCid)) =
        none := by
      rw [moveBlocks_new, Entries.get?_cons, if_neg other.1, Entries.get?_cons, if_neg other.2]
      rfl
    have nothing : (Entries.get? sideCid (moveBlocks mergePackages newServer 4 (some firstCid))).or
        (newServer.blocks.get sideCid) = some sideBytes := same.trans stored
    rw [absent] at nothing
    cases nothing

end Merge

end Mnem.Http
