/-
# Graphrag.Assignment — the communities that are returned

The labels of the partition are numbered in the order in which they are first
seen (`canonicalise_numbering`).  The numbers are 32 bits wide, and start again
at 0 when they run out.  The map from nodes to numbers and its inverse are well
formed in any case (`wellFormed_assign`).
-/
import Mnem.Graphrag.Communities

namespace Mnem.Graphrag

open Http Theory Index

set_option autoImplicit false

/-! ## Numbering -/

/-- Labels by the order in which they are first seen; the number is 32 bits wide. -/
def canonicaliseFrom (map : OrdMap Nat Nat) (next : Nat) : List Nat → List Nat
  | [] => []
  | c :: cs =>
      match map.get? c with
      | some id => id :: canonicaliseFrom map next cs
      | none => next :: canonicaliseFrom (map.insert c next) ((next + 1) % 2 ^ 32) cs

def canonicaliseCommunities (part : List Nat) : List Nat := canonicaliseFrom OrdMap.empty 0 part

/-- The labels seen so far have the numbers below `next`. -/
structure NumberedBelow (seen : OrdMap Nat Nat) (next : Nat) : Prop where
  below : ∀ c id, seen.get? c = some id → id < next
  distinct : ∀ c d id, seen.get? c = some id → seen.get? d = some id → c = d

/-- Distinct labels have distinct numbers, and each number is first seen after all below it. -/
structure Numbering (f : Nat → Nat) (seen : OrdMap Nat Nat) (next : Nat) (cs : List Nat) : Prop where
  extends_seen : ∀ c id, seen.get? c = some id → f c = id
  distinct : ∀ c d, (c ∈ cs ∨ (seen.get? c).isSome) → (d ∈ cs ∨ (seen.get? d).isSome) → f c = f d →
    c = d
  first : ∀ i c : Nat, cs[i]? = some c → ∀ id < f c,
    id < next ∨ ∃ j < i, ∃ d : Nat, cs[j]? = some d ∧ f d = id
  few : ∀ c ∈ cs, f c < next + cs.length

theorem NumberedBelow.insert {seen : OrdMap Nat Nat} {next : Nat} (numbered : NumberedBelow seen next)
    (c : Nat) : NumberedBelow (seen.insert c next) (next + 1) where
  below d id found := by
    rw [OrdMap.get?_insert] at found
    split at found
    · cases found
      exact Nat.lt_succ_self next
    · exact Nat.lt_succ_of_lt (numbered.below d id found)
  distinct d d' id found found' := by
    rw [OrdMap.get?_insert] at found found'
    by_cases here : c = d <;> by_cases here' : c = d'
    · exact here.symm.trans here'
    · rw [if_pos here] at found
      rw [if_neg here'] at found'
      cases found
      exact absurd (numbered.below d' _ found') (lt_irrefl _)
    · rw [if_neg here] at found
      rw [if_pos here'] at found'
      cases found'
      exact absurd (numbered.below d _ found) (lt_irrefl _)
    · rw [if_neg here] at found
      rw [if_neg here'] at found'
      exact numbered.distinct d d' id found found'

theorem numberedBelow_empty : NumberedBelow OrdMap.empty 0 where
  below c id found := by cases found
  distinct c d id found := by cases found

/-- The numbers that are given out are some numbers without a bound, up to their width. -/
theorem canonicaliseFrom_numbering (cs : List Nat) {map seen : OrdMap Nat Nat} {next : Nat}
    (holds : ∀ c, map.get? c = (seen.get? c).map (· % 2 ^ 32)) (numbered : NumberedBelow seen next) :
    ∃ f : Nat → Nat, canonicaliseFrom map (next % 2 ^ 32) cs = cs.map (fun c => f c % 2 ^ 32) ∧
      Numbering f seen next cs := by
  induction cs generalizing map seen next with
  | nil =>
      refine ⟨fun c => (seen.get? c).getD 0, rfl, fun c id found => ?_, ?_, fun i c none => ?_,
        fun c m => ?_⟩
      · rw [found, Option.getD_some]
      · intro c d known known' same
        obtain ⟨id, found⟩ := Option.isSome_iff_exists.mp (known.resolve_left List.not_mem_nil)
        obtain ⟨id', found'⟩ := Option.isSome_iff_exists.mp (known'.resolve_left List.not_mem_nil)
        rw [found, found'] at same
        cases same
        exact numbered.distinct c d _ found found'
      · cases none
      · cases m
  | cons c cs ih =>
      rw [canonicaliseFrom, holds c]
      cases found : seen.get? c with
      | some id =>
          obtain ⟨f, out, numbering⟩ := ih holds numbered
          have at_c := numbering.extends_seen c id found
          have below := numbered.below c id found
          have known : ∀ d, (d ∈ c :: cs ∨ (seen.get? d).isSome) →
              d ∈ cs ∨ (seen.get? d).isSome := by
            rintro d (inside | inMap)
            · rcases List.mem_cons.mp inside with rfl | later
              · exact Or.inr (by rw [found]; rfl)
              · exact Or.inl later
            · exact Or.inr inMap
          refine ⟨f, by rw [List.map_cons, at_c]; exact congrArg _ out, numbering.extends_seen,
            fun d d' k k' => numbering.distinct d d' (known d k) (known d' k'), ?_, ?_⟩
          · intro i d at_i id' less
            cases i with
            | zero =>
                cases at_i
                rw [at_c] at less
                exact Or.inl (less.trans below)
            | succ i =>
                rcases numbering.first i d at_i id' less with low | ⟨j, before, d', at_j, same⟩
                · exact Or.inl low
                · exact Or.inr ⟨j + 1, Nat.succ_lt_succ before, d', at_j, same⟩
          · intro d m
            rw [List.length_cons]
            rcases List.mem_cons.mp m with rfl | later
            · omega
            · have few := numbering.few d later
              omega
      | none =>
          have holds' : ∀ d, (map.insert c (next % 2 ^ 32)).get? d =
              ((seen.insert c next).get? d).map (· % 2 ^ 32) := by
            intro d
            rw [OrdMap.get?_insert, OrdMap.get?_insert]
            split
            · rfl
            · exact holds d
          obtain ⟨f, out, numbering⟩ := ih holds' (numbered.insert c)
          have at_c := numbering.extends_seen c next (by simp)
          have known : ∀ d, (d ∈ c :: cs ∨ (seen.get? d).isSome) →
              d ∈ cs ∨ ((seen.insert c next).get? d).isSome := by
            rintro d (inside | inMap)
            · rcases List.mem_cons.mp inside with rfl | later
              · exact Or.inr (by simp)
              · exact Or.inl later
            · right
              rw [OrdMap.get?_insert]
              split
              · rfl
              · exact inMap
          refine ⟨f, ?_, ?_, fun d d' k k' => numbering.distinct d d' (known d k) (known d' k'), ?_, ?_⟩
          · rw [List.map_cons, at_c, ← out, Nat.add_mod next 1]
            rfl
          · intro d id inMap
            refine numbering.extends_seen d id ?_
            rw [OrdMap.get?_insert, if_neg ?_]
            · exact inMap
            · rintro rfl
              rw [found] at inMap
              cases inMap
          · intro i d at_i id' less
            cases i with
            | zero =>
                cases at_i
                rw [at_c] at less
                exact Or.inl less
            | succ i =>
                rcases numbering.first i d at_i id' less with low | ⟨j, before, d', at_j, same⟩
                · rcases Nat.lt_succ_iff_lt_or_eq.mp low with lower | rfl
                  · exact Or.inl lower
                  · exact Or.inr ⟨0, Nat.succ_pos i, c, rfl, at_c⟩
                · exact Or.inr ⟨j + 1, Nat.succ_lt_succ before, d', at_j, same⟩
          · intro d m
            rw [List.length_cons]
            rcases List.mem_cons.mp m with rfl | later
            · omega
            · have few := numbering.few d later
              omega

/-- **The labels are numbered in the order in which they are first seen.** -/
theorem canonicalise_numbering (part : List Nat) :
    ∃ f : Nat → Nat, canonicaliseCommunities part = part.map (fun c => f c % 2 ^ 32) ∧
      Numbering f OrdMap.empty 0 part :=
  have empty : ∀ c : Nat, (OrdMap.empty : OrdMap Nat Nat).get? c =
      ((OrdMap.empty : OrdMap Nat Nat).get? c).map (· % 2 ^ 32) := fun _ => rfl
  canonicaliseFrom_numbering part empty numberedBelow_empty

theorem length_canonicalise {part : List Nat} {n : Nat} (long : part.length = n) :
    (canonicaliseCommunities part).length = n := by
  obtain ⟨f, out, -⟩ := canonicalise_numbering part
  rw [out, List.length_map, long]

/-! ## The assignment -/

structure CommunityAssignment (K : Type) where
  map : OrdMap NodeId Nat
  members : OrdMap Nat (List NodeId)
  modularity : K
  seed : Nat

/-- The nodes of each community, in the order of the map. -/
def inverse (map : OrdMap NodeId Nat) : OrdMap Nat (List NodeId) :=
  Groups.pushAll OrdMap.empty (map.entries.map fun e => (e.2, e.1))

section Model

variable {K : Type} [Field K] [LinearOrder K]

/-- The assignment of a partition. -/
def assign (nodes : List NodeId) (part : List Nat) (q : K) (seed : Nat) : CommunityAssignment K :=
  let map := OrdMap.ofList (nodes.zip (canonicaliseCommunities part))
  ⟨map, inverse map, q, seed⟩

def computeCommunities (fuel : Nat) (edges : List (AdjEdge K)) (seed : Nat) :
    Option (CommunityAssignment K) :=
  let g := buildUndirectedGraph edges
  if g.nodes.isEmpty then some ⟨OrdMap.empty, OrdMap.empty, 0, seed⟩
  else do
    let part ← rounds g fuel 8 (List.range g.nodes.length) none
    some (assign g.nodes part (modularity g part) seed)

/-- The endpoints of the edges are assigned, the numbers start at 0, a smaller number has a smaller
member, and the members are those that are assigned, in order. -/
structure WellFormed (edges : List (AdjEdge K)) (a : CommunityAssignment K) : Prop where
  assigned : a.map.keys = endpoints edges
  ids : ∃ k, ∀ c, (∃ x, a.map.get? x = some c) ↔ c < k
  smallest : ∀ c d x, c < d → a.map.get? x = some d → ∃ y < x, a.map.get? y = some c
  inverse : ∀ c x, (∃ ns, a.members.get? c = some ns ∧ x ∈ ns) ↔ a.map.get? x = some c
  ascending : ∀ c ns, a.members.get? c = some ns → ns ≠ [] ∧ ns.Pairwise (· < ·)

/-! ## The numbers of the nodes -/

omit [Field K] [LinearOrder K] in
theorem endpoints_ascending (edges : List (AdjEdge K)) : (endpoints edges).Pairwise (· < ·) :=
  List.pairwise_map.mpr (OrdMap.ofList _).ascending

theorem entries_zip {nodes : List NodeId} (ascending : nodes.Pairwise (· < ·)) {ids : List Nat}
    (long : ids.length = nodes.length) :
    (OrdMap.ofList (nodes.zip ids)).entries = nodes.zip ids := by
  have keys : ((nodes.zip ids).map Prod.fst).Pairwise (· < ·) := by
    rw [List.map_fst_zip (by omega)]
    exact ascending
  exact congrArg OrdMap.entries (OrdMap.ofList_of_ascending (List.pairwise_map.mp keys))

theorem get?_zip {nodes : List NodeId} (ascending : nodes.Pairwise (· < ·)) {ids : List Nat}
    (long : ids.length = nodes.length) (x : NodeId) (c : Nat) :
    (OrdMap.ofList (nodes.zip ids)).get? x = some c ↔
      ∃ i : Nat, nodes[i]? = some x ∧ ids[i]? = some c := by
  rw [OrdMap.get?_eq_some_iff, entries_zip ascending long, List.mem_iff_getElem?]
  refine exists_congr fun i => ?_
  rw [List.getElem?_zip_eq_some]

theorem get?_inverse (map : OrdMap NodeId Nat) {c : Nat} {ns : List NodeId}
    (found : (inverse map).get? c = some ns) :
    ns = (map.entries.filter fun e => decide (e.2 = c)).map Prod.fst ∧ ns ≠ [] := by
  rw [inverse, Groups.get?_pushAll_empty] at found
  split at found
  · cases found
  · rename_i occupied
    cases found
    refine ⟨?_, occupied⟩
    rw [Groups.rowsAt, List.filter_map, List.map_map]
    rfl

theorem mem_inverse (map : OrdMap NodeId Nat) (c : Nat) (x : NodeId) :
    (∃ ns, (inverse map).get? c = some ns ∧ x ∈ ns) ↔ map.get? x = some c := by
  have row : x ∈ Groups.rowsAt (map.entries.map fun e => (e.2, e.1)) c ↔ map.get? x = some c := by
    rw [Groups.mem_rowsAt, OrdMap.get?_eq_some_iff]
    constructor
    · intro m
      obtain ⟨e, inMap, same⟩ := List.mem_map.mp m
      cases same
      exact inMap
    · exact fun m => List.mem_map.mpr ⟨(x, c), m, rfl⟩
  rw [← row, inverse, Groups.get?_pushAll_empty]
  constructor
  · rintro ⟨ns, found, m⟩
    split at found
    · cases found
    · cases found
      exact m
  · intro m
    rw [if_neg (List.ne_nil_of_mem m)]
    exact ⟨_, rfl, m⟩

omit [Field K] [LinearOrder K] in
/-- **The assignment is well formed**, whatever the partition. -/
theorem wellFormed_assign (edges : List (AdjEdge K)) {part : List Nat}
    (long : part.length = (endpoints edges).length) (q : K) (seed : Nat) :
    WellFormed edges (assign (endpoints edges) part q seed) := by
  obtain ⟨f, out, numbering⟩ := canonicalise_numbering part
  have ascending := endpoints_ascending edges
  have ids_long := length_canonicalise long
  have smallest : ∀ c d x, c < d →
      (OrdMap.ofList ((endpoints edges).zip (canonicaliseCommunities part))).get? x = some d →
      ∃ y < x, (OrdMap.ofList ((endpoints edges).zip (canonicaliseCommunities part))).get? y =
        some c := by
    intro c d x less found
    obtain ⟨i, at_i, id_i⟩ := (get?_zip ascending ids_long x d).mp found
    rw [out, List.getElem?_map, Option.map_eq_some_iff] at id_i
    obtain ⟨p, part_i, rfl⟩ := id_i
    have bound : f p % 2 ^ 32 < 2 ^ 32 := Nat.mod_lt _ (by norm_num)
    have low : c < f p := lt_of_lt_of_le less (Nat.mod_le _ _)
    rcases numbering.first i p part_i c low with none | ⟨j, before, q, part_j, same⟩
    · exact absurd none (Nat.not_lt_zero c)
    · obtain ⟨inside, rfl⟩ := List.getElem?_eq_some_iff.mp at_i
      refine ⟨(endpoints edges)[j], List.pairwise_iff_getElem.mp ascending j i _ inside before, ?_⟩
      refine (get?_zip ascending ids_long _ c).mpr ⟨j, List.getElem?_eq_getElem (by omega), ?_⟩
      rw [out, List.getElem?_map, part_j, Option.map_some, same, Nat.mod_eq_of_lt (less.trans bound)]
  refine ⟨?_, ?_, smallest, mem_inverse _, ?_⟩
  · show List.map Prod.fst (OrdMap.ofList _).entries = _
    rw [entries_zip ascending ids_long, List.map_fst_zip (by omega)]
  · -- the first number that is not used
    have unused : ∃ c, ¬ ∃ x,
        (OrdMap.ofList ((endpoints edges).zip (canonicaliseCommunities part))).get? x = some c := by
      refine ⟨2 ^ 32, ?_⟩
      rintro ⟨x, found⟩
      obtain ⟨i, -, id_i⟩ := (get?_zip ascending ids_long x _).mp found
      rw [out, List.getElem?_map, Option.map_eq_some_iff] at id_i
      obtain ⟨p, -, wide⟩ := id_i
      have bound : f p % 2 ^ 32 < 2 ^ 32 := Nat.mod_lt _ (by norm_num)
      omega
    classical
    refine ⟨Nat.find unused, fun c => ⟨?_, fun low => not_not.mp (Nat.find_min unused low)⟩⟩
    rintro ⟨x, found⟩
    by_contra high
    rcases Nat.lt_or_eq_of_le (not_lt.mp high) with less | same
    · obtain ⟨y, -, found'⟩ := smallest _ c x less found
      exact Nat.find_spec unused ⟨y, found'⟩
    · refine Nat.find_spec unused ⟨x, ?_⟩
      rw [same]
      exact found
  · intro c ns found
    obtain ⟨rfl, occupied⟩ := get?_inverse _ found
    exact ⟨occupied, List.pairwise_map.mpr (Entries.Ascending.filter (OrdMap.ofList _).ascending _)⟩

end Model

end Mnem.Graphrag
