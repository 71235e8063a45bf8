/-
# Theory.RecordCodec — codecs for records written as maps

A `Codec` writes values as other values and reads them back.  It says which
values it can write faithfully (`Valid`), and which of those it reads it would
write again the same (`Canonical`): `encode_decode` and `canonical_encode` make
that exact (`encode_decode_iff`).

A `Shape` is what a record has at the keys of a map.  Shapes of single fields
(`required`, `optional`, `skipEmpty`, `defaulted`) are put side by side with
`and`, and every law of the record follows from those of its fields.  A shape is
read from a map either with the other keys beside it (`flatten`) or without
(`strict`).
-/
import Mnem.Theory.OrdMap
import Mathlib.Logic.Equiv.Defs

namespace Mnem.Theory

set_option autoImplicit false

variable {K V W α β : Type}

/-- Write and read values: what is valid is read back, and what is canonical is written as it was
read. -/
structure Codec (V α : Type) where
  encode : α → V
  decode : V → Option α
  Valid : α → Prop := fun _ => True
  Canonical : V → Prop := fun _ => True
  decode_encode : ∀ a, Valid a → decode (encode a) = some a
  encode_decode : ∀ v a, Canonical v → decode v = some a → encode a = v
  canonical_encode : ∀ a, Valid a → Canonical (encode a)
  valid_decode : ∀ v a, decode v = some a → Valid a

namespace Codec

/-- Every value is read back, and everything that is read was written so. -/
def exact (encode : α → V) (decode : V → Option α) (decode_encode : ∀ a, decode (encode a) = some a)
    (encode_decode : ∀ v a, decode v = some a → encode a = v) : Codec V α where
  encode := encode
  decode := decode
  decode_encode a _ := decode_encode a
  encode_decode v a _ := encode_decode v a
  canonical_encode _ _ := trivial
  valid_decode _ _ _ := trivial

/-- What is read is written again as it was exactly when it is canonical. -/
theorem encode_decode_iff (c : Codec V α) {v : V} {a : α} (read : c.decode v = some a) :
    c.encode a = v ↔ c.Canonical v := by
  constructor
  · rintro rfl
    exact c.canonical_encode a (c.valid_decode _ a read)
  · intro canonical
    exact c.encode_decode v a canonical read

/-- One codec after the other. -/
def comp (outer : Codec V W) (inner : Codec W α)
    (h : ∀ w, outer.Valid w := by exact fun _ => trivial) : Codec V α where
  encode a := outer.encode (inner.encode a)
  decode v := (outer.decode v).bind inner.decode
  Valid := inner.Valid
  Canonical v := outer.Canonical v ∧ ∀ w, outer.decode v = some w → inner.Canonical w
  decode_encode a valid := by
    rw [outer.decode_encode _ (h _)]
    exact inner.decode_encode a valid
  encode_decode v a canonical read := by
    obtain ⟨w, first, second⟩ := Option.bind_eq_some_iff.mp read
    rw [inner.encode_decode w a (canonical.2 w first) second]
    exact outer.encode_decode v w canonical.1 first
  canonical_encode a valid := by
    refine ⟨outer.canonical_encode _ (h _), fun w first => ?_⟩
    rw [outer.decode_encode _ (h _)] at first
    cases first
    exact inner.canonical_encode a valid
  valid_decode v a read := by
    obtain ⟨w, -, second⟩ := Option.bind_eq_some_iff.mp read
    exact inner.valid_decode w a second

/-- The same values under another type. -/
def as (c : Codec V α) (e : α ≃ β) : Codec V β where
  encode b := c.encode (e.symm b)
  decode v := (c.decode v).map e
  Valid b := c.Valid (e.symm b)
  Canonical := c.Canonical
  decode_encode b valid := by rw [c.decode_encode _ valid, Option.map_some, e.apply_symm_apply]
  encode_decode v b canonical read := by
    obtain ⟨a, read', rfl⟩ := Option.map_eq_some_iff.mp read
    rw [e.symm_apply_apply]
    exact c.encode_decode v a canonical read'
  canonical_encode b valid := c.canonical_encode _ valid
  valid_decode v b read := by
    obtain ⟨a, read', rfl⟩ := Option.map_eq_some_iff.mp read
    rw [e.symm_apply_apply]
    exact c.valid_decode v a read'

/-- Read as one kind, or else as the other; what the second writes is none of the first. -/
def either (c : Codec V α) (d : Codec V β)
    (apart : ∀ b, d.Valid b → c.decode (d.encode b) = none) : Codec V (α ⊕ β) where
  encode := Sum.elim c.encode d.encode
  decode v := ((c.decode v).map Sum.inl).or ((d.decode v).map Sum.inr)
  Valid := Sum.elim c.Valid d.Valid
  Canonical v := (c.decode v).isSome = true ∧ c.Canonical v ∨
    c.decode v = none ∧ d.Canonical v
  decode_encode s valid := by
    cases s with
    | inl a =>
        show ((c.decode (c.encode a)).map Sum.inl).or _ = _
        rw [c.decode_encode a valid]
        rfl
    | inr b =>
        show ((c.decode (d.encode b)).map Sum.inl).or ((d.decode (d.encode b)).map Sum.inr) = _
        rw [apart b valid, d.decode_encode b valid]
        rfl
  encode_decode v s canonical read := by
    cases first : c.decode v with
    | some a =>
        rw [first] at read canonical
        cases read
        rcases canonical with ⟨-, here⟩ | ⟨none, -⟩
        · exact c.encode_decode v a here first
        · cases none
    | none =>
        rw [first] at read canonical
        obtain ⟨b, second, rfl⟩ := Option.map_eq_some_iff.mp read
        rcases canonical with ⟨some, -⟩ | ⟨-, there⟩
        · cases some
        · exact d.encode_decode v b there second
  canonical_encode s valid := by
    cases s with
    | inl a =>
        refine Or.inl ⟨?_, c.canonical_encode a valid⟩
        show (c.decode (c.encode a)).isSome = true
        rw [c.decode_encode a valid]
        rfl
    | inr b => exact Or.inr ⟨apart b valid, d.canonical_encode b valid⟩
  valid_decode v s read := by
    cases first : c.decode v with
    | some a =>
        rw [first] at read
        cases read
        exact c.valid_decode v a first
    | none =>
        rw [first] at read
        obtain ⟨b, second, rfl⟩ := Option.map_eq_some_iff.mp read
        exact d.valid_decode v b second

/-! ## Lists and maps of values -/

/-- Each element of a list. -/
def each (c : Codec V α) : Codec (List V) (List α) where
  encode as := as.map c.encode
  decode vs := vs.mapM c.decode
  Valid as := ∀ a ∈ as, c.Valid a
  Canonical vs := ∀ v ∈ vs, c.Canonical v
  decode_encode as valid := by
    induction as with
    | nil => rfl
    | cons a as ih =>
        rw [List.map_cons, List.mapM_cons, c.decode_encode a (valid a List.mem_cons_self),
          ih fun b m => valid b (List.mem_cons_of_mem _ m)]
        rfl
  encode_decode vs as canonical read := by
    induction vs generalizing as with
    | nil =>
        cases read
        rfl
    | cons v vs ih =>
        rw [List.mapM_cons] at read
        obtain ⟨a, first, read⟩ := Option.bind_eq_some_iff.mp read
        obtain ⟨rest, later, last⟩ := Option.bind_eq_some_iff.mp read
        cases last
        rw [List.map_cons, c.encode_decode v a (canonical v List.mem_cons_self) first,
          ih rest (fun w m => canonical w (List.mem_cons_of_mem _ m)) later]
  canonical_encode as valid v m := by
    obtain ⟨a, inList, rfl⟩ := List.mem_map.mp m
    exact c.canonical_encode a (valid a inList)
  valid_decode vs as read a m := by
    induction vs generalizing as with
    | nil =>
        cases read
        cases m
    | cons v vs ih =>
        rw [List.mapM_cons] at read
        obtain ⟨b, first, read⟩ := Option.bind_eq_some_iff.mp read
        obtain ⟨rest, later, last⟩ := Option.bind_eq_some_iff.mp read
        cases last
        rcases List.mem_cons.mp m with rfl | inRest
        · exact c.valid_decode v a first
        · exact ih rest later inRest

variable [LinearOrder K]

/-- Each value of a map. -/
def values (c : Codec V α) : Codec (OrdMap K V) (OrdMap K α) where
  encode m := m.mapValues c.encode
  decode m :=
    if ∀ v ∈ m.values, (c.decode v).isSome = true then some (m.filterMap c.decode) else none
  Valid m := ∀ k a, m.get? k = some a → c.Valid a
  Canonical m := ∀ k v, m.get? k = some v → c.Canonical v
  decode_encode m valid := by
    have each : ∀ k a, m.get? k = some a → c.decode (c.encode a) = some a :=
      fun k a found => c.decode_encode a (valid k a found)
    rw [if_pos]
    · congr 1
      ext k : 1
      rw [OrdMap.get?_filterMap, OrdMap.get?_mapValues]
      cases found : m.get? k with
      | none => rfl
      | some a => exact each k a found
    · intro v inValues
      obtain ⟨⟨k, w⟩, member, rfl⟩ := List.mem_map.mp inValues
      have found := (m.mapValues c.encode).get?_eq_some_iff.mpr member
      rw [OrdMap.get?_mapValues] at found
      obtain ⟨a, at_k, rfl⟩ := Option.map_eq_some_iff.mp found
      rw [each k a at_k]
      rfl
  encode_decode m n canonical read := by
    split at read
    · rename_i all
      cases read
      ext k : 1
      rw [OrdMap.get?_mapValues, OrdMap.get?_filterMap]
      cases found : m.get? k with
      | none => rfl
      | some v =>
          obtain ⟨a, decoded⟩ := Option.isSome_iff_exists.mp
            (all v (List.mem_map.mpr ⟨(k, v), m.get?_eq_some_iff.mp found, rfl⟩))
          rw [Option.bind_some, decoded, Option.map_some,
            c.encode_decode v a (canonical k v found) decoded]
    · cases read
  canonical_encode m valid k v found := by
    rw [OrdMap.get?_mapValues] at found
    obtain ⟨a, at_k, rfl⟩ := Option.map_eq_some_iff.mp found
    exact c.canonical_encode a (valid k a at_k)
  valid_decode m n read k a found := by
    split at read
    · cases read
      rw [OrdMap.get?_filterMap] at found
      obtain ⟨v, -, decoded⟩ := Option.bind_eq_some_iff.mp found
      exact c.valid_decode v a decoded
    · cases read

/-- The elements of a list as the bindings of a map; of two at one key the later is kept. -/
def keyed (c : Codec V (K × α)) : Codec (List V) (OrdMap K α) where
  encode m := m.entries.map c.encode
  decode vs := (vs.mapM c.decode).map OrdMap.ofList
  Valid m := ∀ e ∈ m.entries, c.Valid e
  Canonical vs := (∀ v ∈ vs, c.Canonical v) ∧
    ∀ es, vs.mapM c.decode = some es → Entries.Ascending es
  decode_encode m valid := by
    have listed := c.each.decode_encode m.entries valid
    show ((m.entries.map c.encode).mapM c.decode).map OrdMap.ofList = some m
    rw [show (m.entries.map c.encode).mapM c.decode = some m.entries from listed, Option.map_some,
      OrdMap.ofList_entries]
  encode_decode vs m canonical read := by
    obtain ⟨es, listed, rfl⟩ := Option.map_eq_some_iff.mp read
    rw [OrdMap.ofList_of_ascending (canonical.2 es listed)]
    exact c.each.encode_decode vs es canonical.1 listed
  canonical_encode m valid := by
    refine ⟨c.each.canonical_encode m.entries valid, fun es listed => ?_⟩
    have same : some es = some m.entries :=
      listed.symm.trans (c.each.decode_encode m.entries valid)
    cases same
    exact m.ascending
  valid_decode vs m read e inMap := by
    obtain ⟨es, listed, rfl⟩ := Option.map_eq_some_iff.mp read
    exact c.each.valid_decode vs es listed e (OrdMap.mem_of_mem_ofList inMap)

/-! ## What is empty when it is read -/

theorem values_decode_empty (c : Codec V α) {m : OrdMap K V} :
    (c.values (K := K)).decode m = some OrdMap.empty ↔ m = OrdMap.empty := by
  constructor
  · intro read
    change (if ∀ v ∈ m.values, (c.decode v).isSome = true then _ else _) = _ at read
    split at read
    · rename_i all
      ext k : 1
      rw [OrdMap.get?_empty]
      cases found : m.get? k with
      | none => rfl
      | some v =>
          have nothing : (m.filterMap c.decode).get? k = none := by
            rw [Option.some.inj read]
            rfl
          have decoded := all v (List.mem_map.mpr ⟨(k, v), m.get?_eq_some_iff.mp found, rfl⟩)
          rw [OrdMap.get?_filterMap, found, Option.bind_some] at nothing
          rw [nothing] at decoded
          cases decoded
    · cases read
  · rintro rfl
    rfl

theorem keyed_decode_empty (c : Codec V (K × α)) {vs : List V} :
    c.keyed.decode vs = some OrdMap.empty ↔ vs = [] := by
  constructor
  · intro read
    obtain ⟨es, listed, nothing⟩ := Option.map_eq_some_iff.mp read
    cases vs with
    | nil => rfl
    | cons v vs =>
        rw [List.mapM_cons] at listed
        obtain ⟨e, -, listed⟩ := Option.bind_eq_some_iff.mp listed
        obtain ⟨rest, -, last⟩ := Option.bind_eq_some_iff.mp listed
        cases last
        exact absurd nothing (OrdMap.ofList_cons_ne_empty e rest)
  · rintro rfl
    rfl

end Codec

/-! ## Shapes -/

/-- What a record has at each of some keys, and how it is read from a map. -/
structure Shape (K V α : Type) where
  keys : List K
  put : α → K → Option V
  get : (K → Option V) → Option α
  Valid : α → Prop
  Canonical : (K → Option V) → Prop
  put_outside : ∀ a k, k ∉ keys → put a k = none
  get_congr : ∀ f g, (∀ k ∈ keys, f k = g k) → get f = get g
  canonical_congr : ∀ f g, (∀ k ∈ keys, f k = g k) → Canonical f → Canonical g
  get_put : ∀ a, Valid a → get (put a) = some a
  put_get : ∀ f a, Canonical f → get f = some a → ∀ k ∈ keys, put a k = f k
  canonical_put : ∀ a, Valid a → Canonical (put a)
  valid_get : ∀ f a, get f = some a → Valid a

namespace Shape

section Fields

variable [DecidableEq K]

/-- One key, from what is there if anything is. -/
def field (key : K) (put : α → Option V) (get : Option V → Option α) (Valid : α → Prop)
    (Canonical : Option V → Prop) (get_put : ∀ a, Valid a → get (put a) = some a)
    (put_get : ∀ o a, Canonical o → get o = some a → put a = o)
    (canonical_put : ∀ a, Valid a → Canonical (put a))
    (valid_get : ∀ o a, get o = some a → Valid a) : Shape K V α where
  keys := [key]
  put a k := if k = key then put a else none
  get f := get (f key)
  Valid := Valid
  Canonical f := Canonical (f key)
  put_outside a k outside := if_neg fun same => outside (List.mem_singleton.mpr same)
  get_congr f g same := by rw [same key (List.mem_singleton_self key)]
  canonical_congr f g same canonical := by
    rw [← same key (List.mem_singleton_self key)]
    exact canonical
  get_put a valid := by
    show get (if key = key then put a else none) = some a
    rw [if_pos rfl]
    exact get_put a valid
  put_get f a canonical read k m := by
    rw [List.mem_singleton.mp m, if_pos rfl]
    exact put_get _ a canonical read
  canonical_put a valid := by
    show Canonical (if key = key then put a else none)
    rw [if_pos rfl]
    exact canonical_put a valid
  valid_get f a := valid_get (f key) a

/-- A field that has to be there. -/
def required (key : K) (c : Codec V α) : Shape K V α :=
  field key (fun a => some (c.encode a)) (fun o => o.bind c.decode) c.Valid
    (fun o => ∀ v, o = some v → c.Canonical v) (fun a valid => c.decode_encode a valid)
    (fun o a canonical read => by
      obtain ⟨v, rfl, decoded⟩ := Option.bind_eq_some_iff.mp read
      rw [c.encode_decode v a (canonical v rfl) decoded])
    (fun a valid v same => by
      cases same
      exact c.canonical_encode a valid)
    (fun o a read => by
      obtain ⟨v, -, decoded⟩ := Option.bind_eq_some_iff.mp read
      exact c.valid_decode v a decoded)

/-- A field that may be missing; `isNull` stands for a missing one. -/
def optional (key : K) (c : Codec V α) (isNull : V → Bool)
    (never : ∀ a, isNull (c.encode a) = false) : Shape K V (Option α) :=
  field key (fun a => a.map c.encode)
    (fun o => match o with
      | none => some none
      | some v => if isNull v then some none else (c.decode v).map some)
    (fun a => ∀ b, a = some b → c.Valid b)
    (fun o => ∀ v, o = some v → isNull v = false ∧ c.Canonical v)
    (fun a valid => by
      cases a with
      | none => rfl
      | some b =>
          show (if isNull (c.encode b) = true then _ else _) = _
          rw [never b, if_neg Bool.false_ne_true, c.decode_encode b (valid b rfl)]
          rfl)
    (fun o a canonical read => by
      cases o with
      | none =>
          cases read
          rfl
      | some v =>
          obtain ⟨notNull, here⟩ := canonical v rfl
          dsimp only at read
          rw [notNull, if_neg Bool.false_ne_true] at read
          obtain ⟨b, decoded, rfl⟩ := Option.map_eq_some_iff.mp read
          rw [Option.map_some, c.encode_decode v b here decoded])
    (fun a valid v same => by
      obtain ⟨b, rfl, rfl⟩ := Option.map_eq_some_iff.mp same
      exact ⟨never b, c.canonical_encode b (valid b rfl)⟩)
    (fun o a read b same => by
      subst same
      cases o with
      | none => cases read
      | some v =>
          dsimp only at read
          split at read
          · cases read
          · obtain ⟨b', decoded, same⟩ := Option.map_eq_some_iff.mp read
            cases same
            exact c.valid_decode v b decoded)

/-- A field that is skipped when it is empty, and empty when it is missing. -/
def skipEmpty (key : K) (c : Codec V α) (empty : α) (isEmpty : α → Bool)
    (empty_iff : ∀ a, isEmpty a = true ↔ a = empty) (empty_valid : c.Valid empty) : Shape K V α :=
  field key (fun a => if isEmpty a then none else some (c.encode a))
    (fun o => match o with
      | none => some empty
      | some v => c.decode v)
    c.Valid
    (fun o => ∀ v, o = some v → c.Canonical v ∧ c.decode v ≠ some empty)
    (fun a valid => by
      by_cases nothing : isEmpty a = true
      · rw [if_pos nothing, (empty_iff a).mp nothing]
      · rw [if_neg nothing]
        exact c.decode_encode a valid)
    (fun o a canonical read => by
      cases o with
      | none =>
          cases read
          exact if_pos ((empty_iff empty).mpr rfl)
      | some v =>
          obtain ⟨here, some_entry⟩ := canonical v rfl
          dsimp only at read
          rw [if_neg, c.encode_decode v a here read]
          intro nothing
          rw [(empty_iff a).mp nothing] at read
          exact some_entry read)
    (fun a valid v same => by
      split at same
      · cases same
      · rename_i some_entry
        cases same
        refine ⟨c.canonical_encode a valid, fun decoded => ?_⟩
        rw [c.decode_encode a valid] at decoded
        exact some_entry ((empty_iff a).mpr (Option.some.inj decoded)))
    (fun o a read => by
      cases o with
      | none =>
          cases read
          exact empty_valid
      | some v => exact c.valid_decode v a read)

/-- A field that is always written, and has a default when it is missing. -/
def defaulted (key : K) (c : Codec V α) (default : α) (default_valid : c.Valid default) :
    Shape K V α :=
  field key (fun a => some (c.encode a))
    (fun o => match o with
      | none => some default
      | some v => c.decode v)
    c.Valid
    (fun o => o.isSome = true ∧ ∀ v, o = some v → c.Canonical v)
    (fun a valid => c.decode_encode a valid)
    (fun o a canonical read => by
      obtain ⟨v, rfl⟩ := Option.isSome_iff_exists.mp canonical.1
      rw [c.encode_decode v a (canonical.2 v rfl) read])
    (fun a valid => by
      refine ⟨rfl, fun v same => ?_⟩
      cases same
      exact c.canonical_encode a valid)
    (fun o a read => by
      cases o with
      | none =>
          cases read
          exact default_valid
      | some v => exact c.valid_decode v a read)

/-- A second name of a field, which is read where the first is missing and never written. -/
def aliased (s : Shape K V α) (key alt : K) (only : s.keys = [key]) (apart : alt ≠ key) :
    Shape K V α where
  keys := [key, alt]
  put := s.put
  get f :=
    match f alt with
    | none => s.get f
    | some v => if (f key).isSome then none else s.get fun _ => some v
  Valid := s.Valid
  Canonical f := f alt = none ∧ s.Canonical f
  put_outside a k outside := by
    apply s.put_outside
    rw [only]
    exact fun m => outside (List.mem_cons.mpr (Or.inl (List.mem_singleton.mp m)))
  get_congr f g same := by
    have at_key := same key List.mem_cons_self
    have at_alt := same alt (List.mem_cons_of_mem _ (List.mem_singleton_self alt))
    have both : s.get f = s.get g := by
      apply s.get_congr
      rw [only]
      exact fun k m => (List.mem_singleton.mp m) ▸ at_key
    rw [at_key, at_alt, both]
  canonical_congr f g same canonical := by
    have at_key := same key List.mem_cons_self
    have at_alt := same alt (List.mem_cons_of_mem _ (List.mem_singleton_self alt))
    refine ⟨at_alt ▸ canonical.1, s.canonical_congr f g ?_ canonical.2⟩
    rw [only]
    exact fun k m => (List.mem_singleton.mp m) ▸ at_key
  get_put a valid := by
    have absent : s.put a alt = none := by
      apply s.put_outside
      rw [only]
      exact fun m => apart (List.mem_singleton.mp m)
    rw [absent]
    exact s.get_put a valid
  put_get f a canonical read k m := by
    rw [canonical.1] at read
    rcases List.mem_cons.mp m with rfl | second
    · exact s.put_get f a canonical.2 read k (by rw [only]; exact List.mem_singleton_self k)
    · rw [List.mem_singleton.mp second, canonical.1]
      apply s.put_outside
      rw [only]
      exact fun m => apart (List.mem_singleton.mp m)
  canonical_put a valid := by
    refine ⟨?_, s.canonical_put a valid⟩
    apply s.put_outside
    rw [only]
    exact fun m => apart (List.mem_singleton.mp m)
  valid_get f a read := by
    split at read
    · exact s.valid_get f a read
    · split at read
      · cases read
      · exact s.valid_get _ a read

end Fields

/-! ## Records -/

/-- Two records side by side. -/
def and (s : Shape K V α) (t : Shape K V β) (h : ∀ k ∈ s.keys, k ∉ t.keys := by simp) :
    Shape K V (α × β) where
  keys := s.keys ++ t.keys
  put p k := (s.put p.1 k).or (t.put p.2 k)
  get f := (s.get f).bind fun a => (t.get f).map fun b => (a, b)
  Valid p := s.Valid p.1 ∧ t.Valid p.2
  Canonical f := s.Canonical f ∧ t.Canonical f
  put_outside p k outside := by
    rw [s.put_outside _ k fun m => outside (List.mem_append_left _ m),
      t.put_outside _ k fun m => outside (List.mem_append_right _ m)]
    rfl
  get_congr f g same := by
    rw [s.get_congr f g fun k m => same k (List.mem_append_left _ m),
      t.get_congr f g fun k m => same k (List.mem_append_right _ m)]
  canonical_congr f g same canonical :=
    ⟨s.canonical_congr f g (fun k m => same k (List.mem_append_left _ m)) canonical.1,
      t.canonical_congr f g (fun k m => same k (List.mem_append_right _ m)) canonical.2⟩
  get_put p valid := by
    rw [s.get_congr _ (s.put p.1) fun k m => by
        rw [t.put_outside _ k (h k m), Option.or_none],
      t.get_congr _ (t.put p.2) fun k m => by
        rw [s.put_outside _ k fun m' => h k m' m, Option.none_or],
      s.get_put _ valid.1, t.get_put _ valid.2]
    rfl
  put_get f p canonical read k m := by
    obtain ⟨a, first, read⟩ := Option.bind_eq_some_iff.mp read
    obtain ⟨b, second, rfl⟩ := Option.map_eq_some_iff.mp read
    rcases List.mem_append.mp m with left | right
    · rw [t.put_outside _ k (h k left), Option.or_none]
      exact s.put_get f a canonical.1 first k left
    · rw [s.put_outside _ k fun m' => h k m' right, Option.none_or]
      exact t.put_get f b canonical.2 second k right
  canonical_put p valid := by
    constructor
    · refine s.canonical_congr (s.put p.1) _ (fun k m => ?_) (s.canonical_put _ valid.1)
      rw [t.put_outside _ k (h k m), Option.or_none]
    · refine t.canonical_congr (t.put p.2) _ (fun k m => ?_) (t.canonical_put _ valid.2)
      rw [s.put_outside _ k fun m' => h k m' m, Option.none_or]
  valid_get f p read := by
    obtain ⟨a, first, read⟩ := Option.bind_eq_some_iff.mp read
    obtain ⟨b, second, rfl⟩ := Option.map_eq_some_iff.mp read
    exact ⟨s.valid_get f a first, t.valid_get f b second⟩

/-- The same record under another type. -/
def as (s : Shape K V α) (e : α ≃ β) : Shape K V β where
  keys := s.keys
  put b := s.put (e.symm b)
  get f := (s.get f).map e
  Valid b := s.Valid (e.symm b)
  Canonical := s.Canonical
  put_outside b := s.put_outside (e.symm b)
  get_congr f g same := by rw [s.get_congr f g same]
  canonical_congr := s.canonical_congr
  get_put b valid := by rw [s.get_put _ valid, Option.map_some, e.apply_symm_apply]
  put_get f b canonical read := by
    obtain ⟨a, read', rfl⟩ := Option.map_eq_some_iff.mp read
    rw [e.symm_apply_apply]
    exact s.put_get f a canonical read'
  canonical_put b valid := s.canonical_put _ valid
  valid_get f b read := by
    obtain ⟨a, read', rfl⟩ := Option.map_eq_some_iff.mp read
    rw [e.symm_apply_apply]
    exact s.valid_get f a read'

/-- The records of one kind, where the kind is the first part. -/
def tagged {τ : Type} [DecidableEq τ] (s : Shape K V (τ × α)) (tag : τ) : Shape K V α where
  keys := s.keys
  put a := s.put (tag, a)
  get f := (s.get f).bind fun p => if p.1 = tag then some p.2 else none
  Valid a := s.Valid (tag, a)
  Canonical := s.Canonical
  put_outside a := s.put_outside (tag, a)
  get_congr f g same := by rw [s.get_congr f g same]
  canonical_congr := s.canonical_congr
  get_put a valid := by
    rw [s.get_put _ valid, Option.bind_some, if_pos rfl]
  put_get f a canonical read := by
    obtain ⟨⟨t, b⟩, found, ofKind⟩ := Option.bind_eq_some_iff.mp read
    dsimp only at ofKind
    split at ofKind
    · rename_i same
      cases ofKind
      rw [← same]
      exact s.put_get f _ canonical found
    · cases ofKind
  canonical_put a valid := s.canonical_put _ valid
  valid_get f a read := by
    obtain ⟨⟨t, b⟩, found, ofKind⟩ := Option.bind_eq_some_iff.mp read
    dsimp only at ofKind
    split at ofKind
    · rename_i same
      cases ofKind
      rw [← same]
      exact s.valid_get f _ found
    · cases ofKind

section Maps

variable [LinearOrder K]

/-- The map with a record's fields over other keys. -/
def write (s : Shape K V α) (a : α) (others : OrdMap K V) : OrdMap K V :=
  s.keys.foldl (fun m k => match s.put a k with | some v => m.insert k v | none => m) others

theorem get?_write (s : Shape K V α) (a : α) (others : OrdMap K V) (k : K) :
    (s.write a others).get? k =
      if k ∈ s.keys then (s.put a k).or (others.get? k) else others.get? k :=
  OrdMap.get?_foldl_insert (s.put a) s.keys others k

/-- A record alone is at each key what it puts there. -/
theorem get?_write_empty (s : Shape K V α) (a : α) :
    (s.write a OrdMap.empty).get? = s.put a := by
  funext k
  rw [get?_write, OrdMap.get?_empty, Option.or_none]
  split
  · rfl
  · rename_i outside
    exact (s.put_outside a k outside).symm

local instance lawfulBEq_keys : LawfulBEq K := inferInstance

/-- A record with all other keys beside it. -/
def flatten (s : Shape K V α) : Codec (OrdMap K V) (α × OrdMap K V) where
  encode p := s.write p.1 p.2
  decode m := (s.get m.get?).map fun a => (a, m.filterKeys fun k => decide (k ∉ s.keys))
  Valid p := s.Valid p.1 ∧ ∀ k ∈ s.keys, p.2.get? k = none
  Canonical m := s.Canonical m.get?
  decode_encode p valid := by
    obtain ⟨a, others⟩ := p
    have fields : ∀ k ∈ s.keys, (s.write a others).get? k = s.put a k := fun k m => by
      rw [get?_write, if_pos m, valid.2 k m, Option.or_none]
    rw [s.get_congr _ _ fields, s.get_put a valid.1, Option.map_some]
    congr 2
    ext k : 1
    rw [OrdMap.get?_filterKeys, get?_write]
    by_cases m : k ∈ s.keys
    · simp [m, valid.2 k m]
    · simp [m]
  encode_decode m p canonical read := by
    obtain ⟨a, found, rfl⟩ := Option.map_eq_some_iff.mp read
    ext k : 1
    rw [get?_write, OrdMap.get?_filterKeys]
    by_cases inKeys : k ∈ s.keys
    · simp [inKeys, s.put_get _ a canonical found k inKeys]
    · simp [inKeys]
  canonical_encode p valid := by
    refine s.canonical_congr (s.put p.1) _ (fun k m => ?_) (s.canonical_put _ valid.1)
    rw [get?_write, if_pos m, valid.2 k m, Option.or_none]
  valid_decode m p read := by
    obtain ⟨a, found, rfl⟩ := Option.map_eq_some_iff.mp read
    refine ⟨s.valid_get _ a found, fun k inKeys => ?_⟩
    rw [OrdMap.get?_filterKeys]
    simp [inKeys]

/-- A record alone: other keys are not kept. -/
def strict (s : Shape K V α) : Codec (OrdMap K V) α where
  encode a := s.write a OrdMap.empty
  decode m := s.get m.get?
  Valid := s.Valid
  Canonical m := s.Canonical m.get? ∧ ∀ k, (m.get? k).isSome = true → k ∈ s.keys
  decode_encode a valid := by
    rw [s.get_congr _ (s.put a) fun k m => by
      rw [get?_write, if_pos m, OrdMap.get?_empty, Option.or_none]]
    exact s.get_put a valid
  encode_decode m a canonical found := by
    ext k : 1
    rw [get?_write, OrdMap.get?_empty]
    by_cases inKeys : k ∈ s.keys
    · rw [if_pos inKeys, Option.or_none]
      exact s.put_get _ a canonical.1 found k inKeys
    · rw [if_neg inKeys]
      cases at_k : m.get? k with
      | none => rfl
      | some v => exact absurd (canonical.2 k (by rw [at_k]; rfl)) inKeys
  canonical_encode a valid := by
    refine ⟨s.canonical_congr (s.put a) _ (fun k m => ?_) (s.canonical_put a valid),
      fun k there => ?_⟩
    · rw [get?_write, if_pos m, OrdMap.get?_empty, Option.or_none]
    · rw [get?_write, OrdMap.get?_empty] at there
      by_contra outside
      rw [if_neg outside] at there
      cases there
  valid_decode m a := s.valid_get m.get? a

end Maps

/-! ## The keys of a shape, and when what it reads is canonical -/

section Lemmas

variable {key alt : K} {c : Codec V α} {f : K → Option V}

section Keys

variable [DecidableEq K]

@[simp] theorem keys_required : (required key c).keys = [key] := by
  simp only [required, field]

@[simp] theorem keys_optional {isNull : V → Bool} (never : ∀ a, isNull (c.encode a) = false) :
    (optional key c isNull never).keys = [key] := by
  simp only [optional, field]

@[simp] theorem keys_skipEmpty {empty : α} {isEmpty : α → Bool}
    (empty_iff : ∀ a, isEmpty a = true ↔ a = empty) (valid : c.Valid empty) :
    (skipEmpty key c empty isEmpty empty_iff valid).keys = [key] := by
  simp only [skipEmpty, field]

@[simp] theorem keys_defaulted {default : α} (valid : c.Valid default) :
    (defaulted key c default valid).keys = [key] := by
  simp only [defaulted, field]

@[simp] theorem canonical_required :
    (required key c).Canonical f ↔ ∀ v, f key = some v → c.Canonical v := Iff.rfl

@[simp] theorem canonical_optional {isNull : V → Bool} (never : ∀ a, isNull (c.encode a) = false) :
    (optional key c isNull never).Canonical f ↔
      ∀ v, f key = some v → isNull v = false ∧ c.Canonical v := Iff.rfl

@[simp] theorem canonical_skipEmpty {empty : α} {isEmpty : α → Bool}
    (empty_iff : ∀ a, isEmpty a = true ↔ a = empty) (valid : c.Valid empty) :
    (skipEmpty key c empty isEmpty empty_iff valid).Canonical f ↔
      ∀ v, f key = some v → c.Canonical v ∧ c.decode v ≠ some empty := Iff.rfl

@[simp] theorem canonical_defaulted {default : α} (valid : c.Valid default) :
    (defaulted key c default valid).Canonical f ↔
      (f key).isSome = true ∧ ∀ v, f key = some v → c.Canonical v := Iff.rfl

end Keys

variable {s : Shape K V α} {t : Shape K V β}

@[simp] theorem keys_aliased (only : s.keys = [key]) (apart : alt ≠ key) :
    (s.aliased key alt only apart).keys = [key, alt] := by
  simp only [aliased]

@[simp] theorem canonical_aliased (only : s.keys = [key]) (apart : alt ≠ key) :
    (s.aliased key alt only apart).Canonical f ↔ f alt = none ∧ s.Canonical f := Iff.rfl

@[simp] theorem keys_and (apart : ∀ k ∈ s.keys, k ∉ t.keys) :
    (s.and t apart).keys = s.keys ++ t.keys := by
  simp only [Shape.and]

@[simp] theorem keys_as (e : α ≃ β) : (s.as e).keys = s.keys := by
  simp only [Shape.as]

@[simp] theorem keys_tagged {τ : Type} [DecidableEq τ] {s : Shape K V (τ × α)} {tag : τ} :
    (s.tagged tag).keys = s.keys := by
  simp only [tagged]

@[simp] theorem canonical_and (apart : ∀ k ∈ s.keys, k ∉ t.keys) :
    (s.and t apart).Canonical f ↔ s.Canonical f ∧ t.Canonical f := Iff.rfl

@[simp] theorem canonical_as (e : α ≃ β) : (s.as e).Canonical f ↔ s.Canonical f := Iff.rfl

@[simp] theorem canonical_tagged {τ : Type} [DecidableEq τ] {s : Shape K V (τ × α)} {tag : τ} :
    (s.tagged tag).Canonical f ↔ s.Canonical f := Iff.rfl

end Lemmas

/-! ## What is written -/

section Writes

variable {P : V → Prop}

/-- Everything that a record puts satisfies `P`. -/
def Writes (s : Shape K V α) (P : V → Prop) : Prop := ∀ a k v, s.put a k = some v → P v

theorem writes_required [DecidableEq K] {key : K} {c : Codec V α} (each : ∀ a, P (c.encode a)) :
    (required key c).Writes P := by
  intro a k v put
  change (if k = key then some (c.encode a) else none) = some v at put
  split at put
  · cases put
    exact each a
  · cases put

theorem writes_optional [DecidableEq K] {key : K} {c : Codec V α} {isNull : V → Bool}
    (never : ∀ a, isNull (c.encode a) = false) (each : ∀ a, P (c.encode a)) :
    (optional key c isNull never).Writes P := by
  intro a k v put
  change (if k = key then a.map c.encode else none) = some v at put
  split at put
  · obtain ⟨b, rfl, rfl⟩ := Option.map_eq_some_iff.mp put
    exact each b
  · cases put

theorem writes_and {s : Shape K V α} {t : Shape K V β} (left : s.Writes P) (right : t.Writes P)
    (h : ∀ k ∈ s.keys, k ∉ t.keys := by simp) : (s.and t h).Writes P := by
  intro p k v put
  rcases Option.or_eq_some_iff.mp put with first | ⟨-, second⟩
  · exact left p.1 k v first
  · exact right p.2 k v second

theorem writes_as {s : Shape K V α} (e : α ≃ β) (all : s.Writes P) : (s.as e).Writes P :=
  fun b => all (e.symm b)

/-- So does everything in the map, if the keys beside the record do. -/
theorem Writes.write [LinearOrder K] {s : Shape K V α} (all : s.Writes P) {a : α}
    {others : OrdMap K V} (rest : ∀ k v, others.get? k = some v → P v) {k : K} {v : V}
    (found : (s.write a others).get? k = some v) : P v := by
  rw [get?_write] at found
  split at found
  · rcases Option.or_eq_some_iff.mp found with put | ⟨-, beside⟩
    · exact all a k v put
    · exact rest k v beside
  · exact rest k v found

end Writes

end Shape

end Mnem.Theory
