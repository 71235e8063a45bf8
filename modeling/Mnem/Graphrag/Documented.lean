/-
# Graphrag.Documented — the modularity that is documented

The documented modularity is said over the nodes of the returned communities and
the links between them (`documentedModularity`).  The reported one leaves out the
communities without a link inside.  It is no less, and exceeds it by at most the
tolerance for each edge (`communities_law`), as long as there are numbers for all
communities: nodes that gain less than the tolerance by a move stay alone.
-/
import Mnem.Graphrag.Assignment
import Mnem.Graphrag.Connected

namespace Mnem.Graphrag

open Http Theory Index

set_option autoImplicit false

section Model

variable {K : Type} [Field K] [LinearOrder K]

/-! ## The documented modularity -/

def linkDegree (edges : List (AdjEdge K)) (x : NodeId) : K :=
  ((endpoints edges).map (link edges x)).sum

/-- Twice the weight of all links. -/
def doubledWeight (edges : List (AdjEdge K)) : K := ((endpoints edges).map (linkDegree edges)).sum

/-- What a community counts for: the links inside, both ways, and its degrees. -/
def communityTerm (edges : List (AdjEdge K)) (ns : List NodeId) : K :=
  (ns.map fun x => (ns.map (link edges x)).sum).sum / doubledWeight edges -
    ((ns.map (linkDegree edges)).sum / doubledWeight edges) ^ 2

/-- Some link is inside. -/
def linked (edges : List (AdjEdge K)) (ns : List NodeId) : Bool :=
  ns.any fun x => ns.any fun y => decide (0 < link edges x y)

/-- The sum over all communities. -/
def documentedModularity (edges : List (AdjEdge K)) (a : CommunityAssignment K) : K :=
  (a.members.values.map (communityTerm edges)).sum

/-- The sum over the communities with a link inside. -/
def linkedModularity (edges : List (AdjEdge K)) (a : CommunityAssignment K) : K :=
  ((a.members.values.filter (linked edges)).map (communityTerm edges)).sum

/-- Each node alone. -/
def singletonModularity (edges : List (AdjEdge K)) : K :=
  ((endpoints edges).map fun x => communityTerm edges [x]).sum

/-- The node at an index. -/
def nodeAt (edges : List (AdjEdge K)) (i : Nat) : NodeId := (endpoints edges).getD i 0

omit [Field K] [LinearOrder K] in
theorem map_nodeAt (edges : List (AdjEdge K)) :
    (List.range (endpoints edges).length).map (nodeAt edges) = endpoints edges := by
  refine List.ext_getElem (by simp) fun i _ inside => ?_
  rw [List.getElem_map, List.getElem_range, nodeAt, List.getD_eq_getElem?_getD,
    List.getElem?_eq_getElem inside]
  rfl

theorem link_nodeAt (edges : List (AdjEdge K)) {u v : Nat} (low : u < (endpoints edges).length)
    (low' : v < (endpoints edges).length) :
    link edges (nodeAt edges u) (nodeAt edges v) = (buildUndirectedGraph edges).weight u v := by
  have at_index : ∀ {i : Nat} (inside : i < (endpoints edges).length),
      nodeAt edges i ∈ endpoints edges ∧ (endpoints edges).idxOf (nodeAt edges i) = i := by
    intro i inside
    have here : nodeAt edges i = (endpoints edges)[i] := by
      rw [nodeAt, List.getD_eq_getElem?_getD, List.getElem?_eq_getElem inside]
      rfl
    rw [here]
    exact ⟨List.getElem_mem inside, (nodup_endpoints edges).idxOf_getElem i inside⟩
  have weight := weight_build (at_index low).1 (nodeAt edges v)
  rw [(at_index low).2, (at_index low').2] at weight
  exact weight.symm

/-- A sum over nodes is a sum over their indices. -/
theorem sum_nodes (edges : List (AdjEdge K)) (q : Nat → Bool) (F : NodeId → K) :
    ((((List.range (endpoints edges).length).filter q).map (nodeAt edges)).map F).sum =
      ∑ u ∈ (buildUndirectedGraph edges).indices with q u = true, F (nodeAt edges u) := by
  rw [List.map_map]
  exact sum_filter_range _ q _

theorem sum_endpoints (edges : List (AdjEdge K)) (F : NodeId → K) : ((endpoints edges).map F).sum =
    ∑ u ∈ (buildUndirectedGraph edges).indices, F (nodeAt edges u) := by
  conv_lhs => rw [← map_nodeAt edges, List.map_map]
  exact sum_map_range _ _

theorem linkDegree_nodeAt (edges : List (AdjEdge K)) {u : Nat}
    (inside : u ∈ (buildUndirectedGraph edges).indices) : linkDegree edges (nodeAt edges u) =
      degree (buildUndirectedGraph edges).indices (buildUndirectedGraph edges).weight u := by
  rw [linkDegree, sum_endpoints]
  exact Finset.sum_congr rfl fun v m =>
    link_nodeAt edges (Finset.mem_range.mp inside) (Finset.mem_range.mp m)

theorem doubledWeight_eq (edges : List (AdjEdge K)) :
    doubledWeight edges = (buildUndirectedGraph edges).m2 := by
  rw [(undirected_build edges).total, doubledWeight, sum_endpoints]
  exact Finset.sum_congr rfl fun u m => linkDegree_nodeAt edges m

/-- What a community counts for is the term of its label. -/
theorem communityTerm_label (edges : List (AdjEdge K)) (part : List Nat) (c : Nat) :
    communityTerm edges (((List.range (endpoints edges).length).filter fun u =>
      decide (label part u = c)).map (nodeAt edges)) =
        labelTerm (buildUndirectedGraph edges) part c := by
  unfold communityTerm labelTerm innerWeight volume
  rw [doubledWeight_eq, sum_nodes, sum_nodes]
  simp only [sum_nodes, decide_eq_true_eq]
  have inside : ∀ {u}, u ∈ (buildUndirectedGraph edges).indices.filter (fun u => label part u = c) →
      u ∈ (buildUndirectedGraph edges).indices := fun m => (Finset.mem_filter.mp m).1
  rw [Finset.sum_congr rfl fun u m => linkDegree_nodeAt edges (inside m),
    Finset.sum_congr rfl fun u m => Finset.sum_congr rfl fun v m' => link_nodeAt edges
      (Finset.mem_range.mp (inside m)) (Finset.mem_range.mp (inside m'))]

/-! ## The returned partition -/

section Members

variable (edges : List (AdjEdge K)) (ids : List Nat)

omit [Field K] [LinearOrder K] in
/-- The nodes with their numbers. -/
theorem zip_ids (long : ids.length = (endpoints edges).length) : (endpoints edges).zip ids =
    (List.range (endpoints edges).length).map fun u => (nodeAt edges u, label ids u) := by
  refine List.ext_getElem (by simp [long]) fun u _ inside => ?_
  have low : u < (endpoints edges).length := by simpa using inside
  rw [List.getElem_zip, List.getElem_map, List.getElem_range, nodeAt, label,
    List.getD_eq_getElem?_getD, List.getD_eq_getElem?_getD, List.getElem?_eq_getElem low,
    List.getElem?_eq_getElem (by omega)]
  rfl

omit [Field K] [LinearOrder K] in
/-- The nodes of a community are those with its number. -/
theorem members_eq (long : ids.length = (endpoints edges).length) {c : Nat} {ns : List NodeId}
    (found : (inverse (OrdMap.ofList ((endpoints edges).zip ids))).get? c = some ns) :
    ns = ((List.range (endpoints edges).length).filter fun u => decide (label ids u = c)).map
      (nodeAt edges) := by
  have eq := (get?_inverse _ found).1
  rw [entries_zip (endpoints_ascending edges) long, zip_ids edges ids long, List.filter_map,
    List.map_map] at eq
  exact eq

theorem keys_inverse (long : ids.length = (endpoints edges).length) :
    (inverse (OrdMap.ofList ((endpoints edges).zip ids))).keys.toFinset =
      (buildUndirectedGraph edges).indices.image (label ids) := by
  ext c
  rw [List.mem_toFinset, OrdMap.mem_keys_iff, Option.isSome_iff_exists, Finset.mem_image]
  constructor
  · rintro ⟨ns, found⟩
    obtain ⟨x, m⟩ := List.exists_mem_of_ne_nil ns (get?_inverse _ found).2
    rw [members_eq edges ids long found] at m
    obtain ⟨u, inRange, -⟩ := List.mem_map.mp m
    obtain ⟨low, here⟩ := List.mem_filter.mp inRange
    exact ⟨u, Finset.mem_range.mpr (List.mem_range.mp low), of_decide_eq_true here⟩
  · rintro ⟨u, inside, rfl⟩
    have low : u < (endpoints edges).length := Finset.mem_range.mp inside
    have found : (OrdMap.ofList ((endpoints edges).zip ids)).get? (nodeAt edges u) =
        some (label ids u) := by
      rw [OrdMap.get?_eq_some_iff, entries_zip (endpoints_ascending edges) long,
        zip_ids edges ids long]
      exact List.mem_map.mpr ⟨u, List.mem_range.mpr low, rfl⟩
    obtain ⟨ns, there, -⟩ := (mem_inverse _ _ _).mpr found
    exact ⟨ns, there⟩

/-- A sum over the communities is a sum over their numbers. -/
theorem sum_members (long : ids.length = (endpoints edges).length) {F : List NodeId → K}
    {G : Nat → K} (agree : ∀ c, F (((List.range (endpoints edges).length).filter fun u =>
      decide (label ids u = c)).map (nodeAt edges)) = G c) :
    ((inverse (OrdMap.ofList ((endpoints edges).zip ids))).values.map F).sum =
      ∑ c ∈ (buildUndirectedGraph edges).indices.image (label ids), G c := by
  rw [← keys_inverse edges ids long, OrdMap.keys, List.sum_toFinset _ (OrdMap.ascending _).nodup,
    OrdMap.values, List.map_map, List.map_map]
  refine congrArg List.sum (List.map_congr_left fun e m => ?_)
  have found := (OrdMap.get?_eq_some_iff _).mpr m
  change F e.2 = G e.1
  rw [members_eq edges ids long found, agree]

theorem linked_label (c : Nat) : linked edges (((List.range (endpoints edges).length).filter fun u =>
    decide (label ids u = c)).map (nodeAt edges)) = true ↔ Owns (buildUndirectedGraph edges) ids c := by
  simp only [linked, Owns, List.any_eq_true, List.mem_map, List.mem_filter, List.mem_range,
    decide_eq_true_eq]
  constructor
  · rintro ⟨x, ⟨u, ⟨low, at_u⟩, rfl⟩, y, ⟨v, ⟨low', at_v⟩, rfl⟩, pos⟩
    rw [link_symm, link_nodeAt edges low' low] at pos
    exact ⟨u, Finset.mem_range.mpr low, v, Finset.mem_range.mpr low', at_u, at_v, pos⟩
  · rintro ⟨u, inU, v, inV, at_u, at_v, pos⟩
    have low := Finset.mem_range.mp inU
    have low' := Finset.mem_range.mp inV
    refine ⟨_, ⟨u, ⟨low, at_u⟩, rfl⟩, _, ⟨v, ⟨low', at_v⟩, rfl⟩, ?_⟩
    rw [link_symm, link_nodeAt edges low' low]
    exact pos

end Members

section Relabel

variable (edges : List (AdjEdge K))

/-- New labels for the old, one for each. -/
structure Relabelled (part ids : List Nat) (f : Nat → Nat) : Prop where
  labels : ∀ u ∈ (buildUndirectedGraph edges).indices, label ids u = f (label part u)
  injective : Set.InjOn f ((buildUndirectedGraph edges).indices.image (label part))

variable {edges} {part ids : List Nat} {f : Nat → Nat}

theorem Relabelled.same_iff (relabelled : Relabelled edges part ids f) {u : Nat}
    (inside : u ∈ (buildUndirectedGraph edges).indices) {c : Nat}
    (known : c ∈ (buildUndirectedGraph edges).indices.image (label part)) :
    label ids u = f c ↔ label part u = c := by
  rw [relabelled.labels u inside]
  constructor
  · exact relabelled.injective (Finset.mem_coe.mpr (Finset.mem_image_of_mem _ inside))
      (Finset.mem_coe.mpr known)
  · exact congrArg f

theorem Relabelled.image (relabelled : Relabelled edges part ids f) :
    (buildUndirectedGraph edges).indices.image (label ids) =
      ((buildUndirectedGraph edges).indices.image (label part)).image f := by
  rw [Finset.image_image]
  exact Finset.image_congr relabelled.labels

theorem Relabelled.score (relabelled : Relabelled edges part ids f) :
    score (buildUndirectedGraph edges) ids = score (buildUndirectedGraph edges) part := by
  refine together_congr _ fun u m v m' => ?_
  rw [relabelled.labels v m', relabelled.same_iff m (Finset.mem_image_of_mem _ m')]

theorem Relabelled.labelTerm (relabelled : Relabelled edges part ids f) {c : Nat}
    (known : c ∈ (buildUndirectedGraph edges).indices.image (label part)) :
    labelTerm (buildUndirectedGraph edges) ids (f c) =
      labelTerm (buildUndirectedGraph edges) part c := by
  have same : (buildUndirectedGraph edges).indices.filter (fun u => label ids u = f c) =
      (buildUndirectedGraph edges).indices.filter fun u => label part u = c :=
    Finset.filter_congr fun u m => relabelled.same_iff m known
  unfold Graphrag.labelTerm innerWeight volume
  rw [same]

theorem Relabelled.owns_iff (relabelled : Relabelled edges part ids f) {c : Nat}
    (known : c ∈ (buildUndirectedGraph edges).indices.image (label part)) :
    Owns (buildUndirectedGraph edges) ids (f c) ↔ Owns (buildUndirectedGraph edges) part c := by
  unfold Owns
  constructor
  · rintro ⟨u, inU, v, inV, at_u, at_v, pos⟩
    exact ⟨u, inU, v, inV, (relabelled.same_iff inU known).mp at_u,
      (relabelled.same_iff inV known).mp at_v, pos⟩
  · rintro ⟨u, inU, v, inV, at_u, at_v, pos⟩
    exact ⟨u, inU, v, inV, (relabelled.same_iff inU known).mpr at_u,
      (relabelled.same_iff inV known).mpr at_v, pos⟩

end Relabel

theorem score_singletons (edges : List (AdjEdge K)) :
    score (buildUndirectedGraph edges) (List.range (endpoints edges).length) =
      singletonModularity edges := by
  have own : ∀ u ∈ (buildUndirectedGraph edges).indices,
      label (List.range (endpoints edges).length) u = u := by
    intro u m
    have low : u < (endpoints edges).length := Finset.mem_range.mp m
    rw [label, List.getD_eq_getElem?_getD, List.getElem?_range low]
    rfl
  rw [singletonModularity, sum_endpoints, score, together]
  refine Finset.sum_congr rfl fun u m => ?_
  have alone : ∀ v ∈ (buildUndirectedGraph edges).indices,
      (if label (List.range (endpoints edges).length) u =
          label (List.range (endpoints edges).length) v then
        excess (buildUndirectedGraph edges).indices (buildUndirectedGraph edges).weight u v else 0) =
      if u = v then excess (buildUndirectedGraph edges).indices (buildUndirectedGraph edges).weight u v
        else 0 := by
    intro v m'
    rw [own u m, own v m']
  rw [Finset.sum_congr rfl alone, Finset.sum_ite_eq, if_pos m, excess, communityTerm,
    doubledWeight_eq, ← (undirected_build edges).total]
  simp only [List.map_cons, List.map_nil, List.sum_cons, List.sum_nil, add_zero]
  rw [linkDegree_nodeAt edges m,
    link_nodeAt edges (Finset.mem_range.mp m) (Finset.mem_range.mp m), div_pow, pow_two (degree _ _ u)]

variable [IsStrictOrderedRing K]

/-- What is returned comes from a settled partition that is connected, and no worse than single
nodes. -/
theorem computeCommunities_eq (edges : List (AdjEdge K)) (seed : Nat) :
    ∃ part, Improved (buildUndirectedGraph edges) (List.range (endpoints edges).length) part ∧
      Joined (buildUndirectedGraph edges) part ∧
      ∀ fuel, 2 * 10 ^ 12 < fuel → computeCommunities fuel edges seed =
        some (assign (endpoints edges) part (modularity (buildUndirectedGraph edges) part) seed) := by
  have nodes : (buildUndirectedGraph edges).nodes = endpoints edges := rfl
  obtain ⟨part, found, improved⟩ := rounds_improves (undirected_build edges) 8 none
    (by rw [List.length_range]) (le_refl _) fun none => by cases none
  have joined := rounds_joined (undirected_build edges) (joined_singletons _)
    (found (2 * 10 ^ 12 + 1) (Nat.lt_succ_self _))
  refine ⟨part, improved, joined, fun fuel enough => ?_⟩
  unfold computeCommunities
  dsimp only
  rw [nodes]
  split
  · rename_i empty
    have none : endpoints edges = [] := List.isEmpty_iff.mp empty
    have weightless : (buildUndirectedGraph edges).m2 = 0 := by
      rw [← doubledWeight_eq, doubledWeight, none]
      rfl
    have zero : modularity (buildUndirectedGraph edges) part = 0 := if_pos weightless.le
    rw [zero, none]
    rfl
  · have result := found fuel enough
    rw [nodes] at result
    rw [result]
    rfl

omit [IsStrictOrderedRing K] in
/-- With numbers for all nodes, the labels are numbered one by one. -/
theorem relabelled_canonical (edges : List (AdjEdge K)) {part : List Nat}
    (long : part.length = (endpoints edges).length) (fits : (endpoints edges).length ≤ 2 ^ 32) :
    ∃ f, Relabelled edges part (canonicaliseCommunities part) f := by
  obtain ⟨f, out, numbering⟩ := canonicalise_numbering part
  have at_label : ∀ u ∈ (buildUndirectedGraph edges).indices, ∃ c ∈ part, part[u]? = some c ∧
      label part u = c := by
    intro u m
    have inside : u < part.length := long ▸ Finset.mem_range.mp m
    refine ⟨part[u], List.getElem_mem inside, List.getElem?_eq_getElem inside, ?_⟩
    rw [label, List.getD_eq_getElem?_getD, List.getElem?_eq_getElem inside]
    rfl
  refine ⟨fun c => f c % 2 ^ 32, fun u m => ?_, ?_⟩
  · obtain ⟨c, -, found, here⟩ := at_label u m
    rw [here, out, label, List.getD_eq_getElem?_getD, List.getElem?_map, found]
    rfl
  · have narrow : ∀ c ∈ part, f c % 2 ^ 32 = f c := fun c m =>
      Nat.mod_eq_of_lt (by have few := numbering.few c m; omega)
    have known : ∀ c ∈ (buildUndirectedGraph edges).indices.image (label part), c ∈ part := by
      intro c m
      obtain ⟨u, inside, rfl⟩ := Finset.mem_image.mp m
      obtain ⟨c, inPart, -, here⟩ := at_label u inside
      rw [here]
      exact inPart
    intro c m d m' same
    have inC := known c (Finset.mem_coe.mp m)
    have inD := known d (Finset.mem_coe.mp m')
    dsimp only at same
    rw [narrow c inC, narrow d inD] at same
    exact numbering.distinct c d (Or.inl inC) (Or.inl inD) same

section Sums

variable {edges : List (AdjEdge K)} {part : List Nat}
  (long : part.length = (endpoints edges).length) (fits : (endpoints edges).length ≤ 2 ^ 32)

include long

omit [IsStrictOrderedRing K] in
/-- The sum over the communities is a sum over the labels. -/
theorem documented_assign (q : K) (seed : Nat) :
    documentedModularity edges (assign (endpoints edges) part q seed) =
      score (buildUndirectedGraph edges) (canonicaliseCommunities part) := by
  rw [documentedModularity]
  refine (sum_members edges _ (length_canonicalise long)
    (communityTerm_label edges (canonicaliseCommunities part))).trans ?_
  rw [score, modularity_eq, ← (undirected_build edges).total]
  rfl

include fits

/-- What is reported is the sum over the communities with a link inside. -/
theorem linked_assign (q : K) (seed : Nat) :
    linkedModularity edges (assign (endpoints edges) part q seed) =
      modularity (buildUndirectedGraph edges) part := by
  classical
  obtain ⟨f, relabelled⟩ := relabelled_canonical edges long fits
  have terms : linkedModularity edges (assign (endpoints edges) part q seed) =
      ∑ c ∈ (buildUndirectedGraph edges).indices.image (label (canonicaliseCommunities part)),
        if Owns (buildUndirectedGraph edges) (canonicaliseCommunities part) c then
          labelTerm (buildUndirectedGraph edges) (canonicaliseCommunities part) c else 0 := by
    have filtered : ∀ nss : List (List NodeId),
        ((nss.filter (linked edges)).map (communityTerm edges)).sum =
          (nss.map fun ns => if linked edges ns = true then communityTerm edges ns else 0).sum := by
      intro nss
      rw [List.sum_map_ite, List.map_const', List.sum_replicate, nsmul_zero, add_zero]
      simp
    rw [linkedModularity, filtered]
    exact sum_members edges _ (length_canonicalise long) fun c =>
      if_congr (linked_label edges _ c) (communityTerm_label edges _ c) rfl
  rw [terms, relabelled.image, Finset.sum_image relabelled.injective]
  rw [Finset.sum_congr rfl fun c known =>
    if_congr (relabelled.owns_iff known) (relabelled.labelTerm known) rfl]
  by_cases none : (buildUndirectedGraph edges).m2 ≤ 0
  · have weightless : (buildUndirectedGraph edges).m2 = 0 := by
      refine le_antisymm none ?_
      rw [(undirected_build edges).total]
      exact Finset.sum_nonneg fun u _ => Finset.sum_nonneg fun v _ =>
        (undirected_build edges).weight_nonneg u v
    rw [modularity, if_pos none]
    refine Finset.sum_eq_zero fun c _ => ?_
    rw [labelTerm, weightless, div_zero, div_zero, pow_two, zero_mul, sub_zero, ite_self]
  · obtain ⟨S, owns, sum⟩ := modularity_eq_sum (undirected_build edges) (not_le.mp none) part
    rw [sum, ← Finset.sum_filter]
    refine Finset.sum_congr (Finset.ext fun c => ?_) fun _ _ => rfl
    rw [Finset.mem_filter, owns]
    constructor
    · exact And.right
    · intro own
      obtain ⟨u, inside, v, low, at_c, joined⟩ := own
      exact ⟨Finset.mem_image.mpr ⟨u, inside, at_c⟩, u, inside, v, low, at_c, joined⟩

end Sums

end Model

section Spread

/-- Two linked pairs, with `n - 1` nodes alone between them. -/
def spread (n : Nat) : List (AdjEdge ℚ) :=
  ⟨Fin.ofNat _ 0, Fin.ofNat _ 1, 1, .authored⟩ ::
    ⟨Fin.ofNat _ (n + 1), Fin.ofNat _ (n + 2), 1, .authored⟩ ::
      (List.range (n + 3)).map fun i => ⟨Fin.ofNat _ i, Fin.ofNat _ i, 1, .authored⟩

/-- The indices of a pair. -/
def Bond (n i j : Nat) : Prop :=
  i = 0 ∧ j = 1 ∨ i = 1 ∧ j = 0 ∨ i = n + 1 ∧ j = n + 2 ∨ i = n + 2 ∧ j = n + 1

instance (n i j : Nat) : Decidable (Bond n i j) := by unfold Bond; infer_instance

/-- An index of a pair. -/
def InPair (n i : Nat) : Prop := i = 0 ∨ i = 1 ∨ i = n + 1 ∨ i = n + 2

instance (n i : Nat) : Decidable (InPair n i) := by unfold InPair; infer_instance

variable {n : Nat} (wide : n + 3 ≤ 2 ^ 128)

include wide

theorem ofNat_inj {i j : Nat} (low : i < n + 3) (low' : j < n + 3) :
    (Fin.ofNat (2 ^ 128) i = Fin.ofNat (2 ^ 128) j) ↔ i = j := by
  rw [Fin.ext_iff, Fin.val_ofNat, Fin.val_ofNat, Nat.mod_eq_of_lt (by omega),
    Nat.mod_eq_of_lt (by omega)]

theorem endpoints_spread :
    endpoints (spread n) = (List.range (n + 3)).map (Fin.ofNat (2 ^ 128)) := by
  have ascending : ((List.range (n + 3)).map (Fin.ofNat (2 ^ 128))).Pairwise (· < ·) := by
    rw [List.pairwise_map]
    refine List.pairwise_lt_range.imp_of_mem fun {i j} m m' less => ?_
    have low := List.mem_range.mp m
    have low' := List.mem_range.mp m'
    rw [Fin.lt_def, Fin.val_ofNat, Fin.val_ofNat, Nat.mod_eq_of_lt (by omega),
      Nat.mod_eq_of_lt (by omega)]
    exact less
  refine (endpoints_ascending _).eq_of_mem_iff ascending fun {x} => ?_
  rw [mem_endpoints_iff, List.mem_map]
  constructor
  · rintro ⟨e, m, at_x⟩
    rcases List.mem_cons.mp m with rfl | m
    · rcases at_x with rfl | rfl
      · exact ⟨0, List.mem_range.mpr (by omega), rfl⟩
      · exact ⟨1, List.mem_range.mpr (by omega), rfl⟩
    · rcases List.mem_cons.mp m with rfl | m
      · rcases at_x with rfl | rfl
        · exact ⟨n + 1, List.mem_range.mpr (by omega), rfl⟩
        · exact ⟨n + 2, List.mem_range.mpr (by omega), rfl⟩
      · obtain ⟨i, inRange, rfl⟩ := List.mem_map.mp m
        rcases at_x with rfl | rfl
        · exact ⟨i, inRange, rfl⟩
        · exact ⟨i, inRange, rfl⟩
  · rintro ⟨i, inRange, rfl⟩
    exact ⟨_, List.mem_cons_of_mem _ (List.mem_cons_of_mem _ (List.mem_map.mpr ⟨i, inRange, rfl⟩)),
      Or.inl rfl⟩

theorem nodeAt_spread {i : Nat} (low : i < n + 3) : nodeAt (spread n) i = Fin.ofNat (2 ^ 128) i := by
  rw [nodeAt, endpoints_spread wide, List.getD_eq_getElem?_getD, List.getElem?_map,
    List.getElem?_range low]
  rfl

theorem weight_spread {i j : Nat} (low : i < n + 3) (low' : j < n + 3) :
    (buildUndirectedGraph (spread n)).weight i j = if Bond n i j then 1 else 0 := by
  have count : (endpoints (spread n)).length = n + 3 := by
    rw [endpoints_spread wide, List.length_map, List.length_range]
  rw [← link_nodeAt (spread n) (by omega) (by omega), nodeAt_spread wide low, nodeAt_spread wide low']
  by_cases same : i = j
  · rw [same, link, if_pos rfl, if_neg (by unfold Bond; omega)]
  · have loops : ((List.range (n + 3)).map fun i => (⟨Fin.ofNat _ i, Fin.ofNat _ i, 1, .authored⟩ :
        AdjEdge ℚ)).filter (joins (Fin.ofNat _ i) (Fin.ofNat _ j)) = [] := by
      rw [List.filter_eq_nil_iff]
      intro e m both
      obtain ⟨k, inRange, rfl⟩ := List.mem_map.mp m
      have inside := List.mem_range.mp inRange
      simp only [joins, Bool.or_eq_true, Bool.and_eq_true, decide_eq_true_eq] at both
      rw [ofNat_inj wide inside low, ofNat_inj wide inside low'] at both
      omega
    have first : joins (Fin.ofNat (2 ^ 128) i) (Fin.ofNat (2 ^ 128) j)
        (⟨Fin.ofNat _ 0, Fin.ofNat _ 1, 1, .authored⟩ : AdjEdge ℚ) = true ↔
        i = 0 ∧ j = 1 ∨ i = 1 ∧ j = 0 := by
      simp only [joins, Bool.or_eq_true, Bool.and_eq_true, decide_eq_true_eq]
      rw [ofNat_inj wide (by omega) low, ofNat_inj wide (by omega) low', ofNat_inj wide (by omega) low',
        ofNat_inj wide (by omega) low]
      omega
    have second : joins (Fin.ofNat (2 ^ 128) i) (Fin.ofNat (2 ^ 128) j)
        (⟨Fin.ofNat _ (n + 1), Fin.ofNat _ (n + 2), 1, .authored⟩ : AdjEdge ℚ) = true ↔
        i = n + 1 ∧ j = n + 2 ∨ i = n + 2 ∧ j = n + 1 := by
      simp only [joins, Bool.or_eq_true, Bool.and_eq_true, decide_eq_true_eq]
      rw [ofNat_inj wide (by omega) low, ofNat_inj wide (by omega) low', ofNat_inj wide (by omega) low',
        ofNat_inj wide (by omega) low]
      omega
    rw [link, if_neg fun eq => same ((ofNat_inj wide low low').mp eq), spread, List.filter_cons,
      List.filter_cons, loops]
    by_cases one : i = 0 ∧ j = 1 ∨ i = 1 ∧ j = 0
    · rw [if_pos (first.mpr one), if_neg (fun two => by have both := second.mp two; omega),
        if_pos (by unfold Bond; omega)]
      rfl
    · rw [if_neg fun yes => one (first.mp yes)]
      by_cases two : i = n + 1 ∧ j = n + 2 ∨ i = n + 2 ∧ j = n + 1
      · rw [if_pos (second.mpr two), if_pos (by unfold Bond; omega)]
        rfl
      · rw [if_neg fun yes => two (second.mp yes), if_neg (by unfold Bond; omega)]
        rfl

theorem indices_spread : (buildUndirectedGraph (spread n)).indices = Finset.range (n + 3) := by
  show Finset.range (endpoints (spread n)).length = _
  rw [endpoints_spread wide, List.length_map, List.length_range]

variable (pos : 0 < n)

include pos

omit wide in
/-- A sum over the nodes of the pairs. -/
theorem sum_ends {f : Nat → ℚ} (zero : ∀ i, ¬ InPair n i → f i = 0) :
    ∑ i ∈ Finset.range (n + 3), f i = f 0 + f 1 + f (n + 1) + f (n + 2) := by
  rw [Finset.sum_range_succ, Finset.sum_range_succ, Finset.sum_range_succ']
  have inner : ∑ i ∈ Finset.range n, f (i + 1) = f 1 := by
    refine (Finset.sum_eq_single 0 (fun i m nonzero => ?_) fun absent => ?_).trans rfl
    · have low := Finset.mem_range.mp m
      exact zero (i + 1) (by unfold InPair; omega)
    · exact absurd (Finset.mem_range.mpr pos) absent
  rw [inner, add_comm (f 1)]

theorem degree_spread {i : Nat} (low : i < n + 3) :
    degree (Finset.range (n + 3)) (buildUndirectedGraph (spread n)).weight i =
      if InPair n i then 1 else 0 := by
  unfold degree
  rw [Finset.sum_congr rfl fun j m => weight_spread wide low (Finset.mem_range.mp m)]
  rw [sum_ends pos fun j outside => if_neg (by unfold InPair at outside; unfold Bond; omega)]
  by_cases pair : InPair n i
  · rw [if_pos pair]
    rcases pair with rfl | rfl | rfl | rfl <;> simp [Bond, pos.ne']
  · rw [if_neg pair]
    unfold InPair at pair
    rw [if_neg (by unfold Bond; omega), if_neg (by unfold Bond; omega),
      if_neg (by unfold Bond; omega), if_neg (by unfold Bond; omega)]
    norm_num

theorem total_spread :
    total (Finset.range (n + 3)) (buildUndirectedGraph (spread n)).weight = 4 := by
  unfold total
  rw [Finset.sum_congr rfl fun i m => degree_spread wide pos (Finset.mem_range.mp m)]
  rw [sum_ends pos fun i outside => if_neg outside]
  simp only [InPair, true_or, or_true, if_true]
  norm_num

/-- What two indices are worth to each other. -/
def worth (n i j : Nat) : ℚ :=
  if InPair n i ∧ InPair n j then if Bond n i j then 3 / 16 else -1 / 16 else 0

theorem excess_spread {i j : Nat} (low : i < n + 3) (low' : j < n + 3) :
    excess (Finset.range (n + 3)) (buildUndirectedGraph (spread n)).weight i j = worth n i j := by
  rw [excess, total_spread wide pos, weight_spread wide low low', degree_spread wide pos low,
    degree_spread wide pos low', worth]
  have inside : Bond n i j → InPair n i ∧ InPair n j := by
    unfold Bond InPair
    omega
  by_cases bond : Bond n i j
  · rw [if_pos bond, if_pos (inside bond).1, if_pos (inside bond).2, if_pos (inside bond), if_pos bond]
    norm_num
  · rw [if_neg bond, if_neg bond]
    by_cases first : InPair n i <;> by_cases second : InPair n j <;> simp [first, second]
    norm_num

/-- The score of a partition of the two pairs. -/
theorem score_spread (part : List Nat) : score (buildUndirectedGraph (spread n)) part =
    -1 / 4 + (if label part 0 = label part 1 then 3 / 8 else 0) +
      (if label part (n + 1) = label part (n + 2) then 3 / 8 else 0) -
      ((if label part 0 = label part (n + 1) then 1 / 8 else 0) +
        (if label part 0 = label part (n + 2) then 1 / 8 else 0) +
        (if label part 1 = label part (n + 1) then 1 / 8 else 0) +
        if label part 1 = label part (n + 2) then 1 / 8 else 0) := by
  have row : ∀ i < n + 3, ∑ j ∈ Finset.range (n + 3), (if label part i = label part j then
      excess (Finset.range (n + 3)) (buildUndirectedGraph (spread n)).weight i j else 0) =
      (if label part i = label part 0 then worth n i 0 else 0) +
        (if label part i = label part 1 then worth n i 1 else 0) +
        (if label part i = label part (n + 1) then worth n i (n + 1) else 0) +
        if label part i = label part (n + 2) then worth n i (n + 2) else 0 := by
    intro i low
    rw [Finset.sum_congr rfl fun j m => by rw [excess_spread wide pos low (Finset.mem_range.mp m)]]
    refine sum_ends pos fun j outside => ?_
    have zero : worth n i j = 0 := if_neg fun both => outside both.2
    rw [zero, ite_self]
  rw [score, together, indices_spread wide,
    Finset.sum_congr rfl fun i m => row i (Finset.mem_range.mp m)]
  have outer : ∀ i, ¬ InPair n i → ∀ j, worth n i j = 0 := fun i outside j =>
    if_neg fun both => outside both.1
  rw [sum_ends pos fun i outside => by simp only [outer i outside, ite_self, add_zero]]
  simp only [worth, InPair, Bond, true_or, or_true, true_and, and_true, if_true]
  simp only [zero_ne_one, Nat.right_eq_add, Nat.add_eq_zero_iff, pos.ne', one_ne_zero, and_self,
    OfNat.ofNat_ne_zero, or_self, if_false, Nat.add_eq_right, Nat.add_left_cancel_iff,
    OfNat.one_ne_ofNat, Nat.reduceEqDiff, OfNat.ofNat_ne_one]
  generalize label part 0 = a
  generalize label part 1 = b
  generalize label part (n + 1) = c
  generalize label part (n + 2) = d
  have twice : ∀ (x y : Nat) (w : ℚ), (if x = y then w else 0) = if y = x then w else 0 :=
    fun x y w => if_congr eq_comm rfl rfl
  rw [twice b a, twice c a, twice c b, twice d a, twice d b, twice d c]
  have joined : (3 / 8 : ℚ) = 2 * (3 / 16) := by norm_num
  have apart : (1 / 8 : ℚ) = -2 * (-1 / 16) := by norm_num
  rw [joined, apart]
  simp only [← mul_ite_zero]
  ring

/-- A path stays in its pair. -/
theorem reaches_spread {i j : Nat} (reaches : Reaches (buildUndirectedGraph (spread n)) i j) :
    i = j ∨ Bond n i j := by
  induction reaches with
  | refl => exact Or.inl rfl
  | tail _ near ih =>
      rename_i j k _
      have bond : Bond n j k := by
        obtain ⟨e, m, rfl⟩ := List.mem_map.mp
          (((undirected_build (spread n)).weight_pos_iff _ _).mp near)
        have inside := (undirected_build (spread n)).inside _ e m
        have count : (buildUndirectedGraph (spread n)).nodes.length = n + 3 := by
          show (endpoints (spread n)).length = _
          rw [endpoints_spread wide, List.length_map, List.length_range]
        rw [count] at inside
        by_contra none
        rw [weight_spread wide inside.1 inside.2.1, if_neg none] at near
        exact lt_irrefl _ near
      rcases ih with rfl | first
      · exact Or.inr bond
      · left
        unfold Bond at first bond
        omega

/-- In a settled partition the pairs are together. -/
theorem together_spread {part : List Nat} (joined : Joined (buildUndirectedGraph (spread n)) part)
    (settled : ∀ v < n + 3, Settled (buildUndirectedGraph (spread n)) part v) :
    label part 0 = label part 1 ∧ label part (n + 1) = label part (n + 2) := by
  have long : part.length = n + 3 := by
    rw [joined.long]
    show (endpoints (spread n)).length = _
    rw [endpoints_spread wide, List.length_map, List.length_range]
  have side : ∀ i < n + 3, i = label part i ∨ Bond n i (label part i) := fun i low =>
    reaches_spread wide pos (joined.reaches i (by rw [← joined.long, long]; exact low))
  have zero := side 0 (by omega)
  have one := side 1 (by omega)
  have two := side (n + 1) (by omega)
  have three := side (n + 2) (by omega)
  unfold Bond at zero one two three
  -- a node that is not with its mate gains by moving there
  have moves : ∀ i j, i < n + 3 → j < n + 3 → Bond n i j → label part i ≠ label part j →
      score (buildUndirectedGraph (spread n)) (part.set i (label part j)) ≤
        score (buildUndirectedGraph (spread n)) part + tolerance ℚ := by
    intro i j low low' bond apart
    have near : j ∈ neighbours (buildUndirectedGraph (spread n)).indices
        (buildUndirectedGraph (spread n)).weight i := by
      refine Finset.mem_filter.mpr ⟨?_, ?_⟩
      · rw [indices_spread wide]
        exact Finset.mem_range.mpr low'
      · rw [weight_spread wide low low', if_pos bond]
        exact zero_lt_one
    rw [score_set (undirected_build _) joined.long (by rw [← joined.long, long]; exact low)]
    exact add_le_add_right (settled i low j near (Ne.symm apart)) _
  have labels : ∀ i c : Nat, i < n + 3 →
      label (part.set i c) = Function.update (label part) i c := fun i c low =>
    label_set (by omega) c
  have apart : label part 0 ≠ label part (n + 1) ∧ label part 0 ≠ label part (n + 2) ∧
      label part 1 ≠ label part (n + 1) ∧ label part 1 ≠ label part (n + 2) := by omega
  obtain ⟨a, b, c, d⟩ := apart
  have small : tolerance ℚ < 3 / 8 := by norm_num [tolerance]
  constructor
  · by_contra off
    have move := moves 0 1 (by omega) (by omega) (by unfold Bond; omega) off
    rw [score_spread wide pos, score_spread wide pos, labels 0 _ (by omega), Function.update_self,
      Function.update_of_ne (by omega), Function.update_of_ne (by omega),
      Function.update_of_ne (by omega), if_pos rfl, if_neg off, if_neg a, if_neg b, if_neg c,
      if_neg d] at move
    linarith
  · by_contra off
    have move := moves (n + 1) (n + 2) (by omega) (by omega) (by unfold Bond; omega) off
    rw [score_spread wide pos, score_spread wide pos, labels (n + 1) _ (by omega),
      Function.update_self, Function.update_of_ne (by omega), Function.update_of_ne (by omega),
      Function.update_of_ne (by omega), if_pos rfl, if_neg off, if_neg a, if_neg b, if_neg c,
      if_neg d] at move
    linarith

/-- The labels are numbered up to the last pair. -/
theorem numbers_spread {part : List Nat} (joined : Joined (buildUndirectedGraph (spread n)) part)
    (together : label part 0 = label part 1) {f : Nat → Nat}
    (numbering : Numbering f OrdMap.empty 0 part) {i : Nat} (low : i ≤ n + 1) :
    f (label part i) = i - 1 := by
  have long : part.length = n + 3 := by
    rw [joined.long]
    show (endpoints (spread n)).length = _
    rw [endpoints_spread wide, List.length_map, List.length_range]
  have side : ∀ i < n + 3, i = label part i ∨ Bond n i (label part i) := fun i low =>
    reaches_spread wide pos (joined.reaches i (by rw [← joined.long, long]; exact low))
  have found : ∀ i < n + 3, part[i]? = some (label part i) := by
    intro i low
    rw [label, List.getD_eq_getElem?_getD, List.getElem?_eq_getElem (by omega)]
    rfl
  induction i using Nat.strong_induction_on with
  | _ i ih =>
      apply le_antisymm
      · by_contra more
        rcases numbering.first i _ (found i (by omega)) (i - 1) (not_le.mp more) with
          none | ⟨j, before, d, at_j, same⟩
        · exact absurd none (Nat.not_lt_zero _)
        · rw [found j (by omega)] at at_j
          cases at_j
          rw [ih j before (by omega)] at same
          -- only the second node has the number of the first
          obtain rfl : i = 1 := by omega
          rw [← together, ih 0 (by omega) (by omega)] at more
          exact more (le_refl _)
      · by_contra less
        have earlier := ih (f (label part i) + 1) (by omega) (by omega)
        rw [Nat.add_sub_cancel] at earlier
        have inPart : ∀ j < n + 3, label part j ∈ part := fun j low =>
          List.mem_of_getElem? (found j low)
        have same := numbering.distinct _ _ (Or.inl (inPart _ (by omega))) (Or.inl (inPart i (by omega)))
          earlier
        have one := side (f (label part i) + 1) (by omega)
        have two := side i (by omega)
        rw [same] at one
        unfold Bond at one two
        omega

/-- The numbers run out for the last pair, which joins the first. -/
theorem drift_spread (wraps : n % 2 ^ 32 = 0) (few : n ≤ 2 ^ 32) :
    ∃ a, computeCommunities (2 * 10 ^ 12 + 1) (spread n) 0 = some a ∧
      documentedModularity (spread n) a + (spread n).length * tolerance ℚ < a.modularity := by
  obtain ⟨part, improved, joined, found⟩ := computeCommunities_eq (spread n) 0
  have count : (endpoints (spread n)).length = n + 3 := by
    rw [endpoints_spread wide, List.length_map, List.length_range]
  have long : part.length = (endpoints (spread n)).length := joined.long
  refine ⟨_, found _ (Nat.lt_succ_self _), ?_⟩
  have near := modularity_near_score (undirected_build (spread n)) improved.settled
    (sum_lengths (spread n))
  obtain ⟨first, last⟩ := together_spread wide pos joined fun v low =>
    improved.settled v (by rw [← joined.long, long, count]; exact low)
  have side : ∀ i < n + 3, i = label part i ∨ Bond n i (label part i) := fun i low =>
    reaches_spread wide pos (joined.reaches i (by rw [← joined.long, long, count]; exact low))
  have zero := side 0 (by omega)
  have one := side 1 (by omega)
  have two := side (n + 1) (by omega)
  have three := side (n + 2) (by omega)
  unfold Bond at zero one two three
  obtain ⟨f, out, numbering⟩ := canonicalise_numbering part
  have number : ∀ i < n + 3, label (canonicaliseCommunities part) i = f (label part i) % 2 ^ 32 := by
    intro i low
    have inside : i < part.length := by omega
    rw [out, label, label, List.getD_eq_getElem?_getD, List.getD_eq_getElem?_getD, List.getElem?_map,
      List.getElem?_eq_getElem inside]
    rfl
  have id_zero : label (canonicaliseCommunities part) 0 = 0 := by
    rw [number 0 (by omega), numbers_spread wide pos joined first numbering (by omega)]
    rfl
  have id_one : label (canonicaliseCommunities part) 1 = 0 := by
    rw [number 1 (by omega), numbers_spread wide pos joined first numbering (by omega)]
    rfl
  have id_two : label (canonicaliseCommunities part) (n + 1) = 0 := by
    rw [number (n + 1) (by omega), numbers_spread wide pos joined first numbering (by omega)]
    exact wraps
  have id_three : label (canonicaliseCommunities part) (n + 2) = 0 := by
    rw [number (n + 2) (by omega), ← last,
      numbers_spread wide pos joined first numbering (by omega)]
    exact wraps
  have documented : documentedModularity (spread n) (assign (endpoints (spread n)) part
      (modularity (buildUndirectedGraph (spread n)) part) 0) = 0 := by
    rw [documented_assign long, score_spread wide pos, id_zero, id_one, id_two, id_three]
    norm_num
  have half : score (buildUndirectedGraph (spread n)) part = 1 / 2 := by
    rw [score_spread wide pos, if_pos first, if_pos last, if_neg (by omega), if_neg (by omega),
      if_neg (by omega), if_neg (by omega)]
    norm_num
  have length : (spread n).length = n + 5 := by
    rw [spread, List.length_cons, List.length_cons, List.length_map, List.length_range]
  have cast : ((n : ℚ)) ≤ 2 ^ 32 := by exact_mod_cast few
  rw [documented, length, tolerance]
  have reported := half ▸ near.1
  refine lt_of_lt_of_le ?_ reported
  push_cast
  linarith

end Spread

end Mnem.Graphrag
