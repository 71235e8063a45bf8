/-
# Theory.OrdMap — ordered maps as strictly ascending entry lists

An ordered map is iterated in key order and two maps with the same bindings are
the same value.  Both facts are structural here: a map *is* its strictly
ascending entry list, the order is a field, and `OrdMap.ext` turns equal
lookups into equal maps.  Updates act on the list; the lookup equations
(`get?_insert`, `get?_filterKeys`, `get?_modify`, `get?_insertAll`) are what
proofs use.
-/
import Mathlib.Order.Defs.LinearOrder
import Mathlib.Order.Basic
import Mathlib.Order.Lattice
import Mathlib.Data.List.Pairwise

namespace Mnem.Theory

set_option autoImplicit false

universe u v w

/-! ## Entry lists -/

namespace Entries

variable {K : Type u} {V : Type v}

/-- The value of the first entry at `k`. -/
def get? [DecidableEq K] (k : K) : List (K × V) → Option V
  | [] => none
  | e :: es => if e.1 = k then some e.2 else get? k es

/-- Strictly ascending by key. -/
def Ascending [LT K] (es : List (K × V)) : Prop :=
  es.Pairwise fun a b => a.1 < b.1

section Lookup

variable [DecidableEq K]

@[simp] theorem get?_nil (k : K) : get? k ([] : List (K × V)) = none := rfl

theorem get?_cons (k : K) (e : K × V) (es : List (K × V)) :
    get? k (e :: es) = if e.1 = k then some e.2 else get? k es := rfl

theorem get?_append (k : K) (es fs : List (K × V)) :
    get? k (es ++ fs) = (get? k es).or (get? k fs) := by
  induction es with
  | nil => rfl
  | cons e es ih =>
      rw [List.cons_append, get?_cons, get?_cons, ih]
      split <;> rfl

/-- Lookup through an injective renaming of the keys. -/
theorem get?_map {J : Type*} {W : Type*} [DecidableEq J] {f : K → J} (inj : Function.Injective f)
    (g : K → V → W) (es : List (K × V)) (k : K) :
    get? (f k) (es.map fun e => (f e.1, g e.1 e.2)) = (get? k es).map (g k) := by
  induction es with
  | nil => rfl
  | cons e es ih =>
      simp only [List.map_cons, get?_cons, inj.eq_iff]
      split
      · rename_i at_k
        rw [at_k, Option.map_some]
      · exact ih

theorem mem_of_get? {k : K} {v : V} {es : List (K × V)} (found : get? k es = some v) :
    (k, v) ∈ es := by
  induction es with
  | nil => simp at found
  | cons e es ih =>
      rw [get?_cons] at found
      split at found
      · rename_i at_k
        cases found
        subst at_k
        exact List.mem_cons_self
      · exact List.mem_cons_of_mem _ (ih found)

theorem get?_eq_none_iff {k : K} {es : List (K × V)} :
    get? k es = none ↔ ∀ e ∈ es, e.1 ≠ k := by
  induction es with
  | nil => simp
  | cons e es ih =>
      rw [get?_cons]
      by_cases h : e.1 = k <;> simp [h, ih]

/-- Looking up from the end finds the last entry at a key. -/
theorem get?_reverse_eq_some_iff {k : K} {v : V} {es : List (K × V)} :
    get? k es.reverse = some v ↔
      ∃ before after, es = before ++ (k, v) :: after ∧ ∀ e ∈ after, e.1 ≠ k := by
  constructor
  · intro found
    induction es with
    | nil => cases found
    | cons e es ih =>
        rw [List.reverse_cons, get?_append, get?_cons, Option.or_eq_some_iff] at found
        rcases found with later | ⟨absent, here⟩
        · obtain ⟨before, after, rfl, last⟩ := ih later
          exact ⟨e :: before, after, rfl, last⟩
        · split at here
          · rename_i at_k
            obtain rfl := at_k
            cases here
            refine ⟨[], es, rfl, fun f m => ?_⟩
            exact get?_eq_none_iff.mp absent f (List.mem_reverse.mpr m)
          · cases here
  · rintro ⟨before, after, rfl, last⟩
    have absent : get? k after.reverse = none :=
      get?_eq_none_iff.mpr fun e m => last e (List.mem_reverse.mp m)
    rw [List.reverse_append, List.reverse_cons, get?_append, get?_append, absent, get?_cons,
      if_pos rfl]
    rfl

theorem get?_isSome_iff {k : K} {es : List (K × V)} :
    (get? k es).isSome ↔ k ∈ es.map Prod.fst := by
  rw [Option.isSome_iff_ne_none, Ne, get?_eq_none_iff]
  simp

/-- Where no key repeats, lookup is membership. -/
theorem get?_eq_some_iff_of_nodup {k : K} {v : V} {es : List (K × V)}
    (nodup : (es.map Prod.fst).Nodup) : get? k es = some v ↔ (k, v) ∈ es := by
  refine ⟨mem_of_get?, fun member => ?_⟩
  induction es with
  | nil => simp at member
  | cons e es ih =>
      obtain ⟨fresh, nodup'⟩ := List.nodup_cons.mp nodup
      rw [get?_cons]
      rcases List.mem_cons.mp member with rfl | later
      · simp
      · have inKeys : k ∈ es.map Prod.fst := List.mem_map_of_mem (f := Prod.fst) later
        have other : e.1 ≠ k := fun same => fresh (same ▸ inKeys)
        rw [if_neg other]
        exact ih nodup' later

end Lookup

section Order

variable [LinearOrder K]

instance (es : List (K × V)) : Decidable (Ascending es) :=
  inferInstanceAs (Decidable (es.Pairwise fun a b => a.1 < b.1))

theorem Ascending.tail {e : K × V} {es : List (K × V)} (asc : Ascending (e :: es)) :
    Ascending es := List.Pairwise.of_cons asc

theorem Ascending.head_lt {e : K × V} {es : List (K × V)} (asc : Ascending (e :: es)) :
    ∀ f ∈ es, e.1 < f.1 := (List.pairwise_cons.mp asc).1

theorem ascending_append_iff {es fs : List (K × V)} :
    Ascending (es ++ fs) ↔ Ascending es ∧ Ascending fs ∧ ∀ a ∈ es, ∀ b ∈ fs, a.1 < b.1 :=
  List.pairwise_append

theorem Ascending.nodup {es : List (K × V)} (asc : Ascending es) : (es.map Prod.fst).Nodup :=
  List.pairwise_map.mpr (asc.imp fun h => ne_of_lt h)

theorem get?_eq_some_iff {k : K} {v : V} {es : List (K × V)} (asc : Ascending es) :
    get? k es = some v ↔ (k, v) ∈ es := get?_eq_some_iff_of_nodup asc.nodup

/-- An ascending list is determined by its lookups. -/
theorem ext_get? : ∀ {es fs : List (K × V)}, Ascending es → Ascending fs →
    (∀ k, get? k es = get? k fs) → es = fs
  | [], [], _, _, _ => rfl
  | [], f :: fs, _, _, same => by simpa [get?_cons] using same f.1
  | e :: es, [], _, _, same => by simpa [get?_cons] using same e.1
  | e :: es, f :: fs, asc, asc', same => by
      have inBoth : ∀ {a : K × V} {as bs : List (K × V)}, Ascending (a :: as) →
          (∀ k, get? k (a :: as) = get? k bs) → a ∈ bs := by
        intro a as bs _ same
        have found := same a.1
        rw [get?_cons, if_pos rfl] at found
        exact mem_of_get? found.symm
      have e_mem := inBoth asc same
      have f_mem := inBoth asc' fun k => (same k).symm
      have heads : e = f := by
        rcases List.mem_cons.mp e_mem with h | h
        · exact h
        · rcases List.mem_cons.mp f_mem with h' | h'
          · exact h'.symm
          · exact absurd (asc.head_lt _ h') (not_lt_of_gt (asc'.head_lt _ h))
      subst heads
      have tails : ∀ k, get? k es = get? k fs := by
        intro k
        have at_k := same k
        rw [get?_cons, get?_cons] at at_k
        by_cases h : e.1 = k
        · subst h
          have absent : ∀ {as : List (K × V)}, Ascending (e :: as) → get? e.1 as = none :=
            fun asc => get?_eq_none_iff.mpr fun x hx => ne_of_gt (asc.head_lt x hx)
          rw [absent asc, absent asc']
        · simpa [h] using at_k
      rw [ext_get? asc.tail asc'.tail tails]

/-- Insert or overwrite, keeping the order. -/
def insert (k : K) (v : V) : List (K × V) → List (K × V)
  | [] => [(k, v)]
  | e :: es =>
      if k < e.1 then (k, v) :: e :: es
      else if k = e.1 then (k, v) :: es
      else e :: insert k v es

theorem mem_insert {k : K} {v : V} {es : List (K × V)} {a : K × V}
    (member : a ∈ insert k v es) : a = (k, v) ∨ a ∈ es := by
  induction es with
  | nil => simpa [insert] using member
  | cons e es ih =>
      simp only [insert] at member
      split at member
      · simpa using member
      · split at member
        · rcases List.mem_cons.mp member with h | h
          · exact Or.inl h
          · exact Or.inr (List.mem_cons_of_mem _ h)
        · rcases List.mem_cons.mp member with h | h
          · exact Or.inr (h ▸ List.mem_cons_self)
          · exact (ih h).imp_right (List.mem_cons_of_mem _)

theorem insert_ascending {es : List (K × V)} (asc : Ascending es) (k : K) (v : V) :
    Ascending (insert k v es) := by
  induction es with
  | nil => simp [insert, Ascending]
  | cons e es ih =>
      simp only [insert]
      split
      · rename_i below
        refine List.pairwise_cons.mpr ⟨fun x hx => ?_, asc⟩
        rcases List.mem_cons.mp hx with rfl | h
        · exact below
        · exact below.trans (asc.head_lt x h)
      · split
        · rename_i at_e
          subst at_e
          exact List.pairwise_cons.mpr ⟨asc.head_lt, asc.tail⟩
        · rename_i notBelow notAt
          have above : e.1 < k := lt_of_le_of_ne (not_lt.mp notBelow) (Ne.symm notAt)
          refine List.pairwise_cons.mpr ⟨fun x hx => ?_, ih asc.tail⟩
          rcases mem_insert hx with rfl | h
          · exact above
          · exact asc.head_lt x h

/-- A new key adds its entry, and nothing goes. -/
theorem insert_perm {k : K} (v : V) {es : List (K × V)} (absent : get? k es = none) :
    (insert k v es).Perm ((k, v) :: es) := by
  induction es with
  | nil => exact List.Perm.refl _
  | cons e es ih =>
      have other := get?_eq_none_iff.mp absent
      have apart : ¬ k = e.1 := fun same => other e List.mem_cons_self same.symm
      have later := ih (get?_eq_none_iff.mpr fun x m => other x (List.mem_cons_of_mem e m))
      simp only [insert]
      split
      · exact List.Perm.refl _
      · exact (later.cons e).trans (List.Perm.swap _ _ _)

theorem get?_insert {es : List (K × V)} (asc : Ascending es) (k : K) (v : V) (j : K) :
    get? j (insert k v es) = if k = j then some v else get? j es := by
  induction es with
  | nil => simp [insert, get?_cons]
  | cons e es ih =>
      simp only [insert]
      split
      · simp [get?_cons]
      · split
        · rename_i at_e
          subst at_e
          simp only [get?_cons]
          split <;> rfl
        · rename_i notBelow notAt
          rw [get?_cons, get?_cons, ih asc.tail]
          by_cases h : e.1 = j
          · subst h
            simp [notAt]
          · simp [h]

theorem get?_filter {es : List (K × V)} (p : K → Bool) (k : K) :
    get? k (es.filter fun e => p e.1) = if p k then get? k es else none := by
  induction es with
  | nil => simp
  | cons e es ih =>
      rw [List.filter_cons, get?_cons]
      by_cases h : e.1 = k
      · subst h
        by_cases keep : p e.1 <;> simp [keep, get?_cons, ih]
      · by_cases keep : p e.1 <;> simp [keep, get?_cons, h, ih]

theorem Ascending.filter {es : List (K × V)} (asc : Ascending es) (p : K × V → Bool) :
    Ascending (es.filter p) := List.Pairwise.filter p asc

end Order

end Entries

/-! ## Ordered maps -/

/-- An ordered map: its entries, in strictly ascending key order. -/
structure OrdMap (K : Type u) (V : Type v) [LT K] where
  entries : List (K × V)
  ascending : Entries.Ascending entries

namespace OrdMap

variable {K : Type u} {V : Type v} {W : Type w}

def empty [LT K] : OrdMap K V := ⟨[], List.Pairwise.nil⟩

instance [LT K] : Inhabited (OrdMap K V) := ⟨empty⟩

variable [LinearOrder K]

def get? (m : OrdMap K V) (k : K) : Option V := Entries.get? k m.entries

def contains (m : OrdMap K V) (k : K) : Bool := (m.get? k).isSome

def insert (m : OrdMap K V) (k : K) (v : V) : OrdMap K V :=
  ⟨Entries.insert k v m.entries, Entries.insert_ascending m.ascending k v⟩

/-- Keep the entries whose key satisfies `p`. -/
def filterKeys (m : OrdMap K V) (p : K → Bool) : OrdMap K V :=
  ⟨m.entries.filter fun e => p e.1, m.ascending.filter _⟩

def erase (m : OrdMap K V) (k : K) : OrdMap K V := m.filterKeys fun j => decide (j ≠ k)

/-- `entry(k).or_default()` followed by an update in place. -/
def modify (m : OrdMap K V) (k : K) (f : Option V → V) : OrdMap K V :=
  m.insert k (f (m.get? k))

/-- Insert a list of entries in order, later ones overwriting earlier ones. -/
def insertAll (m : OrdMap K V) (es : List (K × V)) : OrdMap K V :=
  es.foldl (fun m e => m.insert e.1 e.2) m

def ofList (es : List (K × V)) : OrdMap K V := empty.insertAll es

def mapValues (m : OrdMap K V) (f : V → W) : OrdMap K W :=
  ⟨m.entries.map fun e => (e.1, f e.2), by
    have := m.ascending
    unfold Entries.Ascending at this ⊢
    exact List.pairwise_map.mpr this⟩

/-- Keep the entries whose value `f` maps to something. -/
def filterMap (m : OrdMap K V) (f : V → Option W) : OrdMap K W :=
  ⟨m.entries.filterMap fun e => (f e.2).map fun w => (e.1, w), by
    refine List.Pairwise.filterMap _ (fun a b below c found d found' => ?_) m.ascending
    obtain ⟨w, -, rfl⟩ := Option.map_eq_some_iff.mp found
    obtain ⟨w', -, rfl⟩ := Option.map_eq_some_iff.mp found'
    exact below⟩

def keys (m : OrdMap K V) : List K := m.entries.map Prod.fst

def values (m : OrdMap K V) : List V := m.entries.map Prod.snd

theorem entries_injective {m n : OrdMap K V} (h : m.entries = n.entries) : m = n := by
  cases m; cases n; cases h; rfl

@[ext] theorem ext {m n : OrdMap K V} (same : ∀ k, m.get? k = n.get? k) : m = n :=
  entries_injective (Entries.ext_get? m.ascending n.ascending same)

@[simp] theorem get?_empty (k : K) : (empty : OrdMap K V).get? k = none := rfl

@[simp] theorem entries_empty : (empty : OrdMap K V).entries = [] := rfl

theorem get?_insert (m : OrdMap K V) (k : K) (v : V) (j : K) :
    (m.insert k v).get? j = if k = j then some v else m.get? j :=
  Entries.get?_insert m.ascending k v j

@[simp] theorem get?_insert_self (m : OrdMap K V) (k : K) (v : V) :
    (m.insert k v).get? k = some v := by simp [get?_insert]

theorem entries_insert_perm (m : OrdMap K V) {k : K} (v : V) (absent : m.get? k = none) :
    (m.insert k v).entries.Perm ((k, v) :: m.entries) := Entries.insert_perm v absent

theorem get?_filterKeys (m : OrdMap K V) (p : K → Bool) (k : K) :
    (m.filterKeys p).get? k = if p k then m.get? k else none :=
  Entries.get?_filter p k

theorem get?_erase (m : OrdMap K V) (k j : K) :
    (m.erase k).get? j = if j = k then none else m.get? j := by
  unfold erase
  rw [get?_filterKeys]
  by_cases h : j = k <;> simp [h]

theorem get?_modify (m : OrdMap K V) (k : K) (f : Option V → V) (j : K) :
    (m.modify k f).get? j = if k = j then some (f (m.get? k)) else m.get? j :=
  get?_insert m k _ j

theorem get?_mapValues (m : OrdMap K V) (f : V → W) (k : K) :
    (m.mapValues f).get? k = (m.get? k).map f :=
  Entries.get?_map Function.injective_id (fun _ v => f v) m.entries k

theorem get?_filterMap (m : OrdMap K V) (f : V → Option W) (k : K) :
    (m.filterMap f).get? k = (m.get? k).bind f := by
  obtain ⟨es, asc⟩ := m
  change Entries.get? k (es.filterMap _) = (Entries.get? k es).bind f
  induction es with
  | nil => rfl
  | cons e es ih =>
      have rest := ih asc.tail
      rw [List.filterMap_cons, Entries.get?_cons]
      cases image : f e.2 with
      | none =>
          simp only [Option.map_none]
          rw [rest]
          split
          · rename_i here
            have absent : Entries.get? k es = none := Entries.get?_eq_none_iff.mpr fun x m =>
              here ▸ ne_of_gt (asc.head_lt x m)
            rw [absent, Option.bind_some, image]
            rfl
          · rfl
      | some w =>
          simp only [Option.map_some]
          rw [Entries.get?_cons, rest]
          split
          · rw [Option.bind_some, image]
          · rfl

theorem get?_eq_some_iff (m : OrdMap K V) {k : K} {v : V} :
    m.get? k = some v ↔ (k, v) ∈ m.entries :=
  Entries.get?_eq_some_iff m.ascending

theorem mem_keys_iff (m : OrdMap K V) {k : K} : k ∈ m.keys ↔ (m.get? k).isSome :=
  Entries.get?_isSome_iff.symm

theorem entries_eq_nil {m : OrdMap K V} (absent : ∀ k, m.get? k = none) : m.entries = [] := by
  refine List.eq_nil_iff_forall_not_mem.mpr fun e member => ?_
  have here := absent e.1
  rw [m.get?_eq_some_iff.mpr member] at here
  cases here

theorem contains_iff (m : OrdMap K V) {k : K} : m.contains k ↔ ∃ v, m.get? k = some v := by
  rw [contains, Option.isSome_iff_exists]

/-- After a run of insertions the last entry at a key wins. -/
theorem get?_insertAll (m : OrdMap K V) (es : List (K × V)) (k : K) :
    (m.insertAll es).get? k = (Entries.get? k es.reverse).or (m.get? k) := by
  induction es generalizing m with
  | nil => rfl
  | cons e es ih =>
      have step : m.insertAll (e :: es) = (m.insert e.1 e.2).insertAll es := rfl
      rw [step, ih, get?_insert, List.reverse_cons, Entries.get?_append, Option.or_assoc]
      congr 1
      rw [Entries.get?_cons]
      split <;> rfl

theorem get?_ofList (es : List (K × V)) (k : K) :
    (ofList es).get? k = Entries.get? k es.reverse := by
  rw [ofList, get?_insertAll, get?_empty, Option.or_none]

/-- Reversing an ascending list does not change its lookups. -/
theorem get?_reverse_of_ascending {es : List (K × V)} (asc : Entries.Ascending es) (k : K) :
    Entries.get? k es.reverse = Entries.get? k es := by
  induction es with
  | nil => rfl
  | cons e es ih =>
      rw [List.reverse_cons, Entries.get?_append, ih asc.tail, Entries.get?_cons, Entries.get?_cons,
        Entries.get?_nil]
      split
      · rename_i at_k
        have absent : Entries.get? k es = none :=
          Entries.get?_eq_none_iff.mpr fun x hx => at_k ▸ ne_of_gt (asc.head_lt x hx)
        rw [absent]
        rfl
      · exact Option.or_none

/-- The last entry that a map's entries leave at a renamed key. -/
theorem get?_reverse_map {J : Type*} [DecidableEq J] {f : K → J} (inj : Function.Injective f)
    (m : OrdMap K V) (g : K → V → W) (k : K) :
    Entries.get? (f k) (m.entries.map fun e => (f e.1, g e.1 e.2)).reverse =
      (m.get? k).map (g k) := by
  rw [← List.map_reverse, Entries.get?_map inj, get?_reverse_of_ascending m.ascending]
  rfl

/-- Inserting a map's own entries overwrites with that map. -/
theorem get?_insertAll_entries (m n : OrdMap K V) (k : K) :
    (m.insertAll n.entries).get? k = (n.get? k).or (m.get? k) := by
  rw [get?_insertAll, get?_reverse_of_ascending n.ascending]
  rfl

/-- Inserting, key by key, what a function has for the key. -/
theorem get?_foldl_insert (f : K → Option V) (ks : List K) (m : OrdMap K V) (j : K) :
    (ks.foldl (fun m k => match f k with | some v => m.insert k v | none => m) m).get? j =
      if j ∈ ks then (f j).or (m.get? j) else m.get? j := by
  induction ks generalizing m with
  | nil => rfl
  | cons k ks ih =>
      rw [List.foldl_cons, ih]
      simp only [List.mem_cons]
      cases at_k : f k with
      | none =>
          by_cases here : j = k
          · simp [here, at_k]
          · simp [here]
      | some v =>
          simp only [get?_insert]
          by_cases here : j = k
          · subst here
            simp [at_k]
          · simp [here, Ne.symm here]

/-- Rebuilding a map from its own entries gives the map back. -/
@[simp] theorem ofList_entries (m : OrdMap K V) : ofList m.entries = m := by
  ext k : 1
  rw [ofList, get?_insertAll_entries, get?_empty, Option.or_none]

theorem ofList_of_ascending {es : List (K × V)} (asc : Entries.Ascending es) :
    ofList es = ⟨es, asc⟩ := ofList_entries ⟨es, asc⟩

theorem mem_of_mem_ofList {es : List (K × V)} {e : K × V} (inMap : e ∈ (ofList es).entries) :
    e ∈ es := by
  have found := (ofList es).get?_eq_some_iff.mpr inMap
  rw [get?_ofList] at found
  exact List.mem_reverse.mp (Entries.mem_of_get? found)

theorem ofList_cons_ne_empty (e : K × V) (es : List (K × V)) : ofList (e :: es) ≠ empty := by
  intro same
  have absent : (ofList (e :: es)).get? e.1 = none := by
    rw [same]
    rfl
  rw [get?_ofList, Entries.get?_eq_none_iff] at absent
  exact absent e (List.mem_reverse.mpr List.mem_cons_self) rfl

end OrdMap

/-! ## Sets -/

/-- A set of keys, listed in ascending order. -/
abbrev OrdSet (K : Type*) [LT K] := OrdMap K Unit

namespace OrdSet

variable {K : Type*} [LinearOrder K]

instance : Membership K (OrdSet K) := ⟨fun s k => s.contains k = true⟩

instance (s : OrdSet K) (k : K) : Decidable (k ∈ s) :=
  inferInstanceAs (Decidable (s.contains k = true))

def add (s : OrdSet K) (k : K) : OrdSet K := s.insert k ()

def remove (s : OrdSet K) (k : K) : OrdSet K := OrdMap.erase s k

theorem mem_iff_get? {s : OrdSet K} {k : K} : k ∈ s ↔ s.get? k = some () := by
  change (s.get? k).isSome = true ↔ _
  cases s.get? k <;> simp

/-- A set is determined by its members. -/
theorem ext_mem {s t : OrdSet K} (same : ∀ k, k ∈ s ↔ k ∈ t) : s = t := by
  ext k : 1
  have at_k := same k
  rw [mem_iff_get?, mem_iff_get?] at at_k
  cases inS : s.get? k with
  | none =>
      cases inT : t.get? k with
      | none => rfl
      | some _ => simp [inS, inT] at at_k
  | some _ => rw [at_k.mp inS]

@[simp] theorem not_contains_iff {s : OrdSet K} {k : K} : (!s.contains k) = true ↔ k ∉ s := by
  rw [Bool.not_eq_true', ← Bool.not_eq_true]
  rfl

@[simp] theorem not_mem_empty (k : K) : k ∉ (OrdMap.empty : OrdSet K) := by
  simp [mem_iff_get?]

@[simp] theorem mem_add {s : OrdSet K} {k j : K} : j ∈ s.add k ↔ j = k ∨ j ∈ s := by
  rw [mem_iff_get?, mem_iff_get?, add, OrdMap.get?_insert]
  by_cases h : k = j
  · simp [h]
  · simp [h, Ne.symm h]

@[simp] theorem mem_remove {s : OrdSet K} {k j : K} : j ∈ s.remove k ↔ j ∈ s ∧ j ≠ k := by
  rw [mem_iff_get?, mem_iff_get?, remove, OrdMap.get?_erase]
  by_cases h : j = k <;> simp [h]

@[simp] theorem mem_filterKeys {s : OrdSet K} {p : K → Bool} {k : K} :
    k ∈ (s.filterKeys p : OrdSet K) ↔ k ∈ s ∧ p k = true := by
  rw [mem_iff_get?, mem_iff_get?, OrdMap.get?_filterKeys]
  by_cases h : p k = true <;> simp [h]

@[simp] theorem mem_addAll {s : OrdSet K} {ks : List K} {k : K} :
    k ∈ ks.foldl add s ↔ k ∈ ks ∨ k ∈ s := by
  induction ks generalizing s with
  | nil => simp
  | cons j ks ih =>
      rw [List.foldl_cons, ih, mem_add, List.mem_cons, or_left_comm, or_assoc]

theorem mem_keys {s : OrdSet K} {k : K} : k ∈ s.keys ↔ k ∈ s := s.mem_keys_iff

theorem keys_nodup (s : OrdSet K) : s.keys.Nodup := s.ascending.nodup

/-- A set with one element lists that element. -/
theorem keys_eq_singleton_iff {s : OrdSet K} {k : K} :
    s.keys = [k] ↔ ∀ j, j ∈ s ↔ j = k := by
  constructor
  · intro h j
    rw [← mem_keys, h, List.mem_singleton]
  · intro only
    have all : ∀ j ∈ s.keys, j = k := fun j m => (only j).mp (mem_keys.mp m)
    have there : k ∈ s.keys := mem_keys.mpr ((only k).mpr rfl)
    have apart := s.keys_nodup
    cases h : s.keys with
    | nil => simp [h] at there
    | cons a l =>
        rw [h] at all apart
        have tail : l = [] := by
          apply List.eq_nil_iff_forall_not_mem.mpr
          intro b m
          have same : b = a := (all b (List.mem_cons_of_mem _ m)).trans
            (all a List.mem_cons_self).symm
          exact (List.nodup_cons.mp apart).1 (same ▸ m)
        rw [tail, all a List.mem_cons_self]

end OrdSet

end Mnem.Theory
