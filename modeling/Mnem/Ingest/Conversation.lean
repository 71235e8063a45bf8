/-
# Ingest.Conversation — the messages of a ChatGPT export in time order

The messages of all conversations are collected in the order they are met and
then sorted by their times.  A message without a time compares equal to every
other, so the comparison is a total preorder on the messages only when each has
a time or those that have one have the same (`totalPreorder_iff`).  There the
sort is bound by its contract (`SliceSort`), and the messages come out in time
order, ties as they were met (`chatgpt_order_iff`); elsewhere the library
promises no order, and may panic.

Pole (fixed input): `untimed_between`, a message without a time between a later
and an earlier one.
-/
import Mnem.Codec.Json
import Mnem.Theory.Utf8
import Mathlib.Data.List.Sort
import Mathlib.Order.Nat

namespace Mnem

set_option autoImplicit false

/-! ## Reading a value -/

namespace Codec.Json

/-- The value at a key of an object. -/
def get (v : Json) (key : String) : Option Json :=
  match v with
  | .object kvs => (kvs.find? fun kv => kv.1 == key).map Prod.snd
  | _ => none

def asObject : Json → Option (List (String × Json))
  | .object kvs => some kvs
  | _ => none

def asArray : Json → Option (List Json)
  | .array xs => some xs
  | _ => none

def asStr : Json → Option String
  | .string s => some s
  | _ => none

def asNumber : Json → Option JsonNumber
  | .number n => some n
  | _ => none

def isNull : Json → Bool
  | .null => true
  | _ => false

end Codec.Json

namespace Ingest

open Codec Theory.Utf8

/-! ## The messages of an export -/

structure Message where
  role : String
  content : Text
  timestamp : Option Nat
  deriving DecidableEq

structure ParseFailed where
  what : String
  detail : String
  deriving DecidableEq

/-- The string parts of a message, blank lines between them. -/
def joinParts : Text → Nat → List Json → Text
  | out, _, [] => out
  | out, idx, part :: parts =>
      match part.asStr with
      | some s =>
          joinParts ((if 0 < idx && !out.isEmpty then out ++ ['\n', '\n'] else out) ++ s.toList)
            (idx + 1) parts
      | none => joinParts out (idx + 1) parts

def extractChatgptParts (message : Json) : Text :=
  match message.get "content" with
  | none => []
  | some content =>
      match content.asStr with
      | some s => s.toList
      | none =>
          match (content.get "parts").bind Json.asArray with
          | none => []
          | some parts => joinParts [] 0 parts

section Collect

variable {T : Type} (asF64 : JsonNumber → T) (seconds : T → Nat)

/-- The message of a node with its time, if there is one and it is not blank.  `asF64` is the
value of a number, and `seconds` its cast to whole seconds. -/
def nodeMessage (node : Json) : Option (Option T × Message) := do
  let msg ← node.get "message"
  if msg.isNull then none
  else
    let role := (((msg.get "author").bind fun a => a.get "role").bind Json.asStr).getD "unknown"
    let content := extractChatgptParts msg
    if trim content = [] then none
    else
      let timestamp := ((msg.get "create_time").bind Json.asNumber).map asF64
      some (timestamp, ⟨role, content, timestamp.map seconds⟩)

/-- The messages of all conversations, in the order they are met. -/
def chatgptMessages (outer : List Json) : List (Option T × Message) :=
  outer.flatMap fun convo =>
    match (convo.get "mapping").bind Json.asObject with
    | none => []
    | some mapping => (mapping.map Prod.snd).filterMap (nodeMessage asF64 seconds)

end Collect

/-! ## The sort -/

/-- A comparison that is consistent on a list: what the library's sort asks for. -/
structure TotalPreorder {α : Type} (cmp : α → α → Ordering) (xs : List α) : Prop where
  swap : ∀ a ∈ xs, ∀ b ∈ xs, cmp b a = (cmp a b).swap
  trans : ∀ a ∈ xs, ∀ b ∈ xs, ∀ c ∈ xs, cmp a b ≠ .gt → cmp b c ≠ .gt → cmp a c ≠ .gt

/-- `slice::sort_by`: a stable sort where the comparison is consistent; elsewhere it orders the
elements somehow or panics (`none`). -/
structure SliceSort (α : Type) where
  sortBy : (α → α → Ordering) → List α → Option (List α)
  perm : ∀ {cmp xs ys}, sortBy cmp xs = some ys → ys.Perm xs
  stable : ∀ {cmp xs}, TotalPreorder cmp xs → ∃ ys, sortBy cmp xs = some ys ∧
    ys.Pairwise (fun a b => cmp a b ≠ .gt) ∧
    ∀ a ∈ xs, (ys.filter fun b => cmp a b == .eq) = xs.filter fun b => cmp a b == .eq

/-- Insertion sort, which the library's sort is on short slices. -/
def SliceSort.insertion (α : Type) : SliceSort α where
  sortBy cmp xs := some (xs.insertionSort fun a b => cmp a b ≠ .gt)
  perm sorted := by
    cases sorted
    exact List.perm_insertionSort _ _
  stable {cmp xs} preorder := by
    have perm := List.perm_insertionSort (fun a b => cmp a b ≠ .gt) xs
    refine ⟨_, rfl, ?_, fun a inA => ?_⟩
    · -- on the elements of the list the comparison is total and transitive
      let le : {a // a ∈ xs} → {a // a ∈ xs} → Prop := fun a b => cmp a.1 b.1 ≠ .gt
      have total : Std.Total le := ⟨fun a b => by
        have swapped := preorder.swap a.1 a.2 b.1 b.2
        show cmp a.1 b.1 ≠ .gt ∨ cmp b.1 a.1 ≠ .gt
        rw [swapped]
        cases cmp a.1 b.1 <;> decide⟩
      have trans : IsTrans _ le := ⟨fun a b c first second =>
        preorder.trans a.1 a.2 b.1 b.2 c.1 c.2 first second⟩
      have sorted := List.pairwise_insertionSort le xs.attach
      have mapped : (xs.attach.insertionSort le).map Subtype.val =
          xs.insertionSort fun a b => cmp a b ≠ .gt := by
        rw [List.map_insertionSort le (fun a b => cmp a b ≠ .gt) Subtype.val xs.attach
          fun _ _ _ _ => Iff.rfl, List.attach_map_subtype_val]
      rw [← mapped]
      exact List.pairwise_map.mpr sorted
    · have alike : (xs.filter fun b => cmp a b == .eq).Pairwise fun b c => cmp b c ≠ .gt := by
        refine List.pairwise_of_forall_mem_list fun b inB c inC => ?_
        obtain ⟨bIn, bAlike⟩ := List.mem_filter.mp inB
        obtain ⟨cIn, cAlike⟩ := List.mem_filter.mp inC
        refine preorder.trans b bIn a inA c cIn ?_ ?_
        · rw [preorder.swap a inA b bIn, beq_iff_eq.mp bAlike]
          decide
        · rw [beq_iff_eq.mp cAlike]
          decide
      have kept := (List.sublist_insertionSort alike List.filter_sublist).filter
        fun b => cmp a b == .eq
      rw [List.filter_filter] at kept
      simp only [Bool.and_self] at kept
      exact (kept.eq_of_length (perm.filter _).length_eq.symm).symm

section Order

variable {T : Type} [LinearOrder T]

/-- The comparison of the sort: by time when both have one, and equal otherwise. -/
def byCreateTime (a b : Option T × Message) : Ordering :=
  match a.1, b.1 with
  | some x, some y => compare x y
  | _, _ => .eq

variable (sort : SliceSort (Option T × Message)) (asF64 : JsonNumber → T) (seconds : T → Nat)

/-- Decode a ChatGPT export; `none` is a panic of the sort. -/
def parseChatgpt (value : Json) : Except ParseFailed (Option (List Message)) :=
  match value.asArray with
  | none => .error ⟨"conversation", "ChatGPT export must be a top-level array"⟩
  | some outer =>
      .ok ((sort.sortBy byCreateTime (chatgptMessages asF64 seconds outer)).map
        (List.map Prod.snd))

/-! ## The comparison -/

/-- Every message has a time, or those that have one have the same. -/
def Uniform (messages : List (Option T × Message)) : Prop :=
  (∀ m ∈ messages, m.1 ≠ none) ∨
    ∀ a ∈ messages, ∀ b ∈ messages, ∀ x y, a.1 = some x → b.1 = some y → x = y

omit [LinearOrder T] in
theorem exists_time {m : Option T × Message} (timed : m.1 ≠ none) : ∃ x, m.1 = some x :=
  Option.ne_none_iff_exists'.mp timed

theorem byCreateTime_timed {a b : Option T × Message} {x y : T} (first : a.1 = some x)
    (second : b.1 = some y) : byCreateTime a b = compare x y := by
  rw [byCreateTime, first, second]

theorem byCreateTime_untimed {a b : Option T × Message} (untimed : a.1 = none ∨ b.1 = none) :
    byCreateTime a b = .eq := by
  rw [byCreateTime]
  rcases untimed with first | second
  · rw [first]
  · rw [second]
    cases a.1 <;> rfl

theorem byCreateTime_swap (a b : Option T × Message) :
    byCreateTime b a = (byCreateTime a b).swap := by
  cases first : a.1 with
  | none => rw [byCreateTime_untimed (.inl first), byCreateTime_untimed (.inr first)]; rfl
  | some x =>
      cases second : b.1 with
      | none => rw [byCreateTime_untimed (.inl second), byCreateTime_untimed (.inr second)]; rfl
      | some y =>
          rw [byCreateTime_timed second first, byCreateTime_timed first second]
          exact Std.OrientedCmp.eq_swap

theorem byCreateTime_of_same {messages : List (Option T × Message)}
    (same : ∀ a ∈ messages, ∀ b ∈ messages, ∀ x y, a.1 = some x → b.1 = some y → x = y)
    {a b : Option T × Message} (inA : a ∈ messages) (inB : b ∈ messages) :
    byCreateTime a b = .eq := by
  cases first : a.1 with
  | none => exact byCreateTime_untimed (.inl first)
  | some x =>
      cases second : b.1 with
      | none => exact byCreateTime_untimed (.inr second)
      | some y =>
          rw [byCreateTime_timed first second]
          exact compare_eq_iff_eq.mpr (same a inA b inB x y first second)

/-- **The comparison is a total preorder on the messages exactly when they are uniform.** -/
theorem totalPreorder_iff (messages : List (Option T × Message)) :
    TotalPreorder byCreateTime messages ↔ Uniform messages := by
  constructor
  · rintro ⟨-, trans⟩
    by_cases timed : ∀ m ∈ messages, m.1 ≠ none
    · exact Or.inl timed
    · -- a message without a time is equal to both, so they must be equal
      push Not at timed
      obtain ⟨u, inMessages, untimed⟩ := timed
      refine Or.inr fun a inA b inB x y first second => ?_
      have left := trans a inA u inMessages b inB
        (by rw [byCreateTime_untimed (.inr untimed)]; decide)
        (by rw [byCreateTime_untimed (.inl untimed)]; decide)
      have right := trans b inB u inMessages a inA
        (by rw [byCreateTime_untimed (.inr untimed)]; decide)
        (by rw [byCreateTime_untimed (.inl untimed)]; decide)
      rw [byCreateTime_timed first second, compare_le_iff_le] at left
      rw [byCreateTime_timed second first, compare_le_iff_le] at right
      exact le_antisymm left right
  · rintro (timed | same)
    · refine ⟨fun a _ b _ => byCreateTime_swap a b, fun a inA b inB c inC first second => ?_⟩
      obtain ⟨x, hasX⟩ := exists_time (timed a inA)
      obtain ⟨y, hasY⟩ := exists_time (timed b inB)
      obtain ⟨z, hasZ⟩ := exists_time (timed c inC)
      rw [byCreateTime_timed hasX hasY, compare_le_iff_le] at first
      rw [byCreateTime_timed hasY hasZ, compare_le_iff_le] at second
      rw [byCreateTime_timed hasX hasZ, compare_le_iff_le]
      exact first.trans second
    · refine ⟨fun a _ b _ => byCreateTime_swap a b, fun a inA b _ c inC _ _ => ?_⟩
      rw [byCreateTime_of_same same inA inC]
      decide

/-! ## The order of the messages -/

/-- What is asked of a decoded export: nothing lost, times in order, ties as they were met, and a
comparison that the sort can work with. -/
def InTimeOrder (value : Json) : Prop :=
  ∃ outer, ∃ ordered : List (Option T × Message), value = .array outer ∧
    parseChatgpt sort asF64 seconds value = .ok (some (ordered.map Prod.snd)) ∧
    ordered.Perm (chatgptMessages asF64 seconds outer) ∧
    ordered.Pairwise (fun a b => ∀ x y, a.1 = some x → b.1 = some y → x ≤ y) ∧
    (∀ t, (ordered.filter fun m => decide (m.1 = t)) =
      (chatgptMessages asF64 seconds outer).filter fun m => decide (m.1 = t)) ∧
    TotalPreorder byCreateTime (chatgptMessages asF64 seconds outer)

/-- A stable sort by the comparison keeps the messages of each time as they were. -/
theorem filter_time {messages ordered : List (Option T × Message)} (uniform : Uniform messages)
    (perm : ordered.Perm messages)
    (stable : ∀ a ∈ messages, (ordered.filter fun b => byCreateTime a b == .eq) =
      messages.filter fun b => byCreateTime a b == .eq) (t : Option T) :
    (ordered.filter fun m => decide (m.1 = t)) = messages.filter fun m => decide (m.1 = t) := by
  by_cases found : ∃ a ∈ messages, a.1 = t
  · obtain ⟨a, inA, rfl⟩ := found
    rcases uniform with timed | same
    · obtain ⟨x, hasX⟩ := exists_time (timed a inA)
      -- among messages with times, equal to `a` means of the time of `a`
      have alike : ∀ b ∈ messages, (byCreateTime a b == .eq) = decide (b.1 = a.1) := by
        intro b inB
        obtain ⟨y, hasY⟩ := exists_time (timed b inB)
        rw [byCreateTime_timed hasX hasY, hasX, hasY, beq_eq_decide]
        exact decide_eq_decide.mpr (by rw [compare_eq_iff_eq, Option.some_inj, eq_comm])
      rw [← List.filter_congr fun b inB => alike b (perm.mem_iff.mp inB),
        ← List.filter_congr alike]
      exact stable a inA
    · -- all compare equal: the sort has changed nothing
      have all : ∀ b ∈ messages, (byCreateTime a b == .eq) = true := fun b inB => by
        rw [byCreateTime_of_same same inA inB]
        rfl
      have kept := stable a inA
      rw [List.filter_eq_self.mpr all,
        List.filter_eq_self.mpr fun b inB => all b (perm.mem_iff.mp inB)] at kept
      rw [kept]
  · push Not at found
    have none_here : (messages.filter fun m => decide (m.1 = t)) = [] :=
      List.filter_eq_nil_iff.mpr fun m inM => by simpa using found m inM
    have none_there : (ordered.filter fun m => decide (m.1 = t)) = [] :=
      List.filter_eq_nil_iff.mpr fun m inM => by simpa using found m (perm.mem_iff.mp inM)
    rw [none_here, none_there]

/-- **A ChatGPT export comes out in time order exactly when every message it keeps has a time, or
those that have one have the same.** -/
theorem chatgpt_order_iff (outer : List Json) :
    InTimeOrder sort asF64 seconds (.array outer) ↔
      Uniform (chatgptMessages asF64 seconds outer) := by
  constructor
  · rintro ⟨outer', ordered, eq, -, -, -, -, preorder⟩
    cases eq
    exact (totalPreorder_iff _).mp preorder
  · intro uniform
    have preorder := (totalPreorder_iff _).mpr uniform
    obtain ⟨ordered, sorted, ascending, stable⟩ := sort.stable preorder
    have perm := sort.perm sorted
    refine ⟨outer, ordered, rfl, ?_, perm, ?_, filter_time uniform perm stable, preorder⟩
    · rw [parseChatgpt, Json.asArray]
      dsimp only
      rw [sorted]
      rfl
    · refine ascending.imp_of_mem fun {a b} inA inB notAfter x y first second => ?_
      rwa [byCreateTime_timed first second, compare_le_iff_le] at notAfter

end Order

/-- A number as whole seconds. -/
def wholeSeconds : JsonNumber → Nat
  | .posInt n => n.toNat
  | _ => 0

/-- A node of an export. -/
def exportNode (content : String) (time : Option Nat) : Json :=
  .object [("message", .object (("content", .string content) ::
    (time.map fun t => ("create_time", Json.number (.posInt (UInt64.ofNat t)))).toList))]

/-- Three messages at the times 2, none and 1. -/
def untimedExport : Json :=
  .array [.object [("mapping", .object [("a", exportNode "late" (some 2)),
    ("b", exportNode "untimed" none), ("c", exportNode "early" (some 1))])]]

/-- A message without a time between a later and an earlier one: the comparison is inconsistent,
and insertion sort leaves the three as they are. -/
theorem untimed_between :
    (∀ sort : SliceSort (Option Nat × Message),
      ¬ InTimeOrder sort wholeSeconds id untimedExport) ∧
    parseChatgpt (SliceSort.insertion _) wholeSeconds id untimedExport =
      .ok (some [⟨"unknown", "late".toList, some 2⟩, ⟨"unknown", "untimed".toList, none⟩,
        ⟨"unknown", "early".toList, some 1⟩]) := by
  refine ⟨fun sort inOrder => ?_, rfl⟩
  obtain ⟨outer, ordered, eq, -, -, -, -, preorder⟩ := inOrder
  cases eq
  rcases (totalPreorder_iff _).mp preorder with timed | same
  · exact timed (none, ⟨"unknown", "untimed".toList, none⟩) (by decide) rfl
  · have equal := same (some 2, ⟨"unknown", "late".toList, some 2⟩) (by decide)
      (some 1, ⟨"unknown", "early".toList, some 1⟩) (by decide) 2 1 rfl rfl
    exact absurd equal (by decide)

end Ingest

end Mnem
