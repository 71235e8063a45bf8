/-
# Codec.Json — `json_to_ipld`

The conversion of untrusted JSON.  It walks the value with a depth counter that
starts at the value itself and refuses to go `ipldMaxDepth` levels down; what
it accepts is a value of less than that height, whose maps are in key order
(`jsonToIpld_accepted`).
-/
import Mnem.Objects
import Mnem.Theory.Exec

namespace Mnem

open Theory

set_option autoImplicit false

/-! ## The shape of a value -/

namespace Ipld

variable {Cid : Type}

mutual

/-- The levels below a value; a scalar and an empty container have none. -/
def height : Ipld Cid → Nat
  | .list xs => heightList xs
  | .map kvs => heightMap kvs
  | _ => 0

def heightList : List (Ipld Cid) → Nat
  | [] => 0
  | x :: xs => max (height x + 1) (heightList xs)

def heightMap : List (String × Ipld Cid) → Nat
  | [] => 0
  | (_, x) :: kvs => max (height x + 1) (heightMap kvs)

end

mutual

/-- Every map is in key order, each key once, as a `BTreeMap` is. -/
def Ordered : Ipld Cid → Prop
  | .list xs => OrderedList xs
  | .map kvs => Entries.Ascending kvs ∧ OrderedMap kvs
  | _ => True

def OrderedList : List (Ipld Cid) → Prop
  | [] => True
  | x :: xs => Ordered x ∧ OrderedList xs

def OrderedMap : List (String × Ipld Cid) → Prop
  | [] => True
  | (_, x) :: kvs => Ordered x ∧ OrderedMap kvs

end

theorem heightList_le_iff {xs : List (Ipld Cid)} {n : Nat} :
    heightList xs ≤ n ↔ ∀ x ∈ xs, height x < n := by
  induction xs with
  | nil => simp [heightList]
  | cons x xs ih => simp [heightList, ih, Nat.succ_le_iff]

theorem heightMap_le_iff {kvs : List (String × Ipld Cid)} {n : Nat} :
    heightMap kvs ≤ n ↔ ∀ e ∈ kvs, height e.2 < n := by
  induction kvs with
  | nil => simp [heightMap]
  | cons e kvs ih => simp [heightMap, ih, Nat.succ_le_iff]

theorem orderedList_iff {xs : List (Ipld Cid)} : OrderedList xs ↔ ∀ x ∈ xs, Ordered x := by
  induction xs with
  | nil => simp [OrderedList]
  | cons x xs ih => simp [OrderedList, ih]

theorem orderedMap_iff {kvs : List (String × Ipld Cid)} :
    OrderedMap kvs ↔ ∀ e ∈ kvs, Ordered e.2 := by
  induction kvs with
  | nil => simp [OrderedMap]
  | cons e kvs ih => simp [OrderedMap, ih]

end Ipld

namespace Codec

variable {Cid : Type}

/-! ## JSON values -/

/-- `serde_json::Number`. -/
inductive JsonNumber where
  | posInt (n : UInt64)
  | negInt (i : Int64)
  | float (bits : UInt64)

/-- `serde_json::Value`. -/
inductive Json where
  | null
  | bool (b : Bool)
  | number (n : JsonNumber)
  | string (s : String)
  | array (xs : List Json)
  | object (kvs : List (String × Json))

/-- There is no `UnsupportedNumber`: a number is one of the three above. -/
inductive JsonIpldError where
  | depthExceeded (cap : Nat)
  | unsignedOverflow (value : UInt64)

/-! ## The conversion -/

def ipldMaxDepth : Nat := 64

/-- An integer stays one; what `as_i64` does not take is refused rather than rounded. -/
def numberToIpld : JsonNumber → Except JsonIpldError (Ipld Cid)
  | .posInt n => if n.toNat < 2 ^ 63 then .ok (.integer n.toNat) else .error (.unsignedOverflow n)
  | .negInt i => .ok (.integer i.toInt)
  | .float bits => .ok (.float bits)

mutual

def jsonToIpldAt : Json → Nat → Except JsonIpldError (Ipld Cid)
  | v, depth =>
      if ipldMaxDepth ≤ depth then .error (.depthExceeded ipldMaxDepth)
      else
        match v with
        | .null => .ok .null
        | .bool b => .ok (.bool b)
        | .number n => numberToIpld n
        | .string s => .ok (.string s)
        | .array xs => do
            let out ← arrayToIpld xs (depth + 1)
            return .list out
        | .object kvs => do
            let out ← objectToIpld kvs (depth + 1)
            return .map (OrdMap.ofList out).entries

def arrayToIpld : List Json → Nat → Except JsonIpldError (List (Ipld Cid))
  | [], _ => .ok []
  | x :: xs, depth => do
      let x ← jsonToIpldAt x depth
      let xs ← arrayToIpld xs depth
      return x :: xs

/-- The entries in the order they are inserted. -/
def objectToIpld : List (String × Json) → Nat → Except JsonIpldError (List (String × Ipld Cid))
  | [], _ => .ok []
  | (k, x) :: kvs, depth => do
      let x ← jsonToIpldAt x depth
      let kvs ← objectToIpld kvs depth
      return (k, x) :: kvs

end

def jsonToIpld (v : Json) : Except JsonIpldError (Ipld Cid) := jsonToIpldAt v 0

/-! ## What is accepted -/

/-- A value that may stand `depth` levels down. -/
def Accepted (depth : Nat) (v : Ipld Cid) : Prop := depth + v.height < ipldMaxDepth ∧ v.Ordered

theorem accepted_list {depth : Nat} {xs : List (Ipld Cid)} (deep : depth < ipldMaxDepth)
    (each : ∀ x ∈ xs, Accepted (depth + 1) x) : Accepted depth (.list xs) := by
  refine ⟨?_, Ipld.orderedList_iff.mpr fun x m => (each x m).2⟩
  have below : Ipld.heightList xs ≤ ipldMaxDepth - 1 - depth := by
    rw [Ipld.heightList_le_iff]
    intro x m
    have := (each x m).1
    omega
  change depth + Ipld.heightList xs < ipldMaxDepth
  omega

theorem accepted_map {depth : Nat} {m : OrdMap String (Ipld Cid)} (deep : depth < ipldMaxDepth)
    (each : ∀ e ∈ m.entries, Accepted (depth + 1) e.2) : Accepted depth (.map m.entries) := by
  refine ⟨?_, m.ascending, Ipld.orderedMap_iff.mpr fun e member => (each e member).2⟩
  have below : Ipld.heightMap m.entries ≤ ipldMaxDepth - 1 - depth := by
    rw [Ipld.heightMap_le_iff]
    intro e member
    have := (each e member).1
    omega
  change depth + Ipld.heightMap m.entries < ipldMaxDepth
  omega

theorem accepted_number {n : JsonNumber} {depth : Nat} {v : Ipld Cid} (deep : depth < ipldMaxDepth)
    (ran : numberToIpld n = .ok v) : Accepted depth v := by
  unfold numberToIpld at ran
  cases n with
  | posInt n =>
      dsimp only at ran
      split at ran
      · cases ran
        exact ⟨deep, trivial⟩
      · cases ran
  | negInt i =>
      cases ran
      exact ⟨deep, trivial⟩
  | float bits =>
      cases ran
      exact ⟨deep, trivial⟩

mutual

/-- The depth counter bounds the height of what is accepted. -/
theorem jsonToIpldAt_accepted : ∀ (j : Json) (depth : Nat) {v : Ipld Cid},
    jsonToIpldAt j depth = .ok v → Accepted depth v := by
  intro j depth v ran
  unfold jsonToIpldAt at ran
  split at ran
  · cases ran
  · rename_i deep
    have deep : depth < ipldMaxDepth := not_le.mp deep
    cases j with
    | null =>
        cases ran
        exact ⟨deep, trivial⟩
    | bool b =>
        cases ran
        exact ⟨deep, trivial⟩
    | number n => exact accepted_number deep ran
    | string s =>
        cases ran
        exact ⟨deep, trivial⟩
    | array xs =>
        obtain ⟨out, inner, done⟩ := Exec.bind_eq_ok.mp ran
        cases done
        exact accepted_list deep (arrayToIpld_accepted xs (depth + 1) inner)
    | object kvs =>
        obtain ⟨out, inner, done⟩ := Exec.bind_eq_ok.mp ran
        cases done
        refine accepted_map deep fun e member => ?_
        have found := (OrdMap.get?_eq_some_iff _).mpr member
        rw [OrdMap.get?_ofList] at found
        exact objectToIpld_accepted kvs (depth + 1) inner e
          (List.mem_reverse.mp (Entries.mem_of_get? found))

theorem arrayToIpld_accepted : ∀ (xs : List Json) (depth : Nat) {out : List (Ipld Cid)},
    arrayToIpld xs depth = .ok out → ∀ x ∈ out, Accepted depth x
  | [], _, _, ran => by
      cases ran
      simp
  | x :: xs, depth, out, ran => by
      obtain ⟨y, first, ran⟩ := Exec.bind_eq_ok.mp ran
      obtain ⟨ys, others, done⟩ := Exec.bind_eq_ok.mp ran
      cases done
      intro z m
      rcases List.mem_cons.mp m with rfl | later
      · exact jsonToIpldAt_accepted x depth first
      · exact arrayToIpld_accepted xs depth others z later

theorem objectToIpld_accepted : ∀ (kvs : List (String × Json)) (depth : Nat)
    {out : List (String × Ipld Cid)}, objectToIpld kvs depth = .ok out →
      ∀ e ∈ out, Accepted depth e.2
  | [], _, _, ran => by
      cases ran
      simp
  | (k, x) :: kvs, depth, out, ran => by
      obtain ⟨y, first, ran⟩ := Exec.bind_eq_ok.mp ran
      obtain ⟨ys, others, done⟩ := Exec.bind_eq_ok.mp ran
      cases done
      intro e m
      rcases List.mem_cons.mp m with rfl | later
      · exact jsonToIpldAt_accepted x depth first
      · exact objectToIpld_accepted kvs depth others e later

end

theorem jsonToIpld_accepted {j : Json} {v : Ipld Cid} (ran : jsonToIpld j = .ok v) :
    v.height < ipldMaxDepth ∧ v.Ordered := by
  have accepted := jsonToIpldAt_accepted j 0 ran
  rw [Accepted, Nat.zero_add] at accepted
  exact accepted

end Codec

end Mnem
