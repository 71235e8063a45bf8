/-
# Retrieve.BestPath — what the walk of an expansion scores

In exact arithmetic the walk finds the layered scores of the graph around its
seeds (`hops_layered`): a hop scores the new nodes at an edge from the frontier,
each by the best offer, and then closes them.  A later hop may reach a node
again with more, and does not score it, so the scores are the best of all paths
exactly if the best paths are straight (`hops_best_iff`).
-/
import Mnem.Retrieve.Exact
import Mnem.Retrieve.Retriever
import Mnem.Theory.Layers
import Mathlib.Tactic.NormNum

namespace Mnem.Retrieve

open Theory Scoring Prolly Repo Index

set_option autoImplicit false
set_option linter.unusedSectionVars false

variable {Cid : Type} {H : Hashing Cid} [LinearOrder Cid]
variable {K : Type} [Field K] [LinearOrder K]

/-- An expansion whose numbers are scores. -/
def GraphExpand.exact (ge : GraphExpand K) : GraphExpand (Extended K) where
  maxExpand := ge.maxExpand
  decay := .finite ge.decay
  etypeFilter := ge.etypeFilter
  depth := ge.depth
  edgeWeight := ge.edgeWeight.mapValues .finite
  maxPerSeed := ge.maxPerSeed
  maxFrontier := ge.maxFrontier
  direction := ge.direction

/-- What an edge of a type leaves of a score. -/
def GraphExpand.inherited (ge : GraphExpand K) (score : K) (etype : String) : K :=
  score * ge.decay * (ge.edgeWeight.get? etype).getD 1

/-- The graph that an expansion walks: the edges at a node that are read. -/
def walked (s : Store H) (r : ReadonlyRepo Cid) (ge : GraphExpand K) (seeds : List (NodeId × K)) :
    Scoring NodeId K String where
  seeds := seeds
  next u := (neighbors s r ge u).toOption.getD []
  apply := ge.inherited

/-! ## One hop -/

/-- The best of the offers to a node. -/
def bestOffer (offers : List (NodeId × K)) (v : NodeId) : Option K :=
  ((offers.filter fun o => o.1 == v).map Prod.snd).max?

theorem bestOffer_append (offers : List (NodeId × K)) (o : NodeId × K) (v : NodeId) :
    bestOffer (offers ++ [o]) v =
      if o.1 = v then some ((bestOffer offers v).elim o.2 fun x => max x o.2) else bestOffer offers v := by
  unfold bestOffer
  rw [List.filter_append]
  by_cases same : o.1 = v
  · rw [if_pos same, List.filter_cons_of_pos (by simpa using same), List.filter_nil, List.map_append,
      List.map_singleton]
    cases rest : (offers.filter fun o => o.1 == v).map Prod.snd with
    | nil => rfl
    | cons x xs =>
        rw [List.cons_append, List.max?_cons', List.max?_cons', List.foldl_append]
        rfl
  · rw [if_neg same, List.filter_cons_of_neg (by simpa using same), List.filter_nil,
      List.append_nil]

theorem bestOffer_eq_some_iff {offers : List (NodeId × K)} {v : NodeId} {x : K} :
    bestOffer offers v = some x ↔ IsGreatest {y | (v, y) ∈ offers} x := by
  unfold bestOffer
  rw [List.max?_eq_some_iff]
  have mem : ∀ y, y ∈ (offers.filter fun o => o.1 == v).map Prod.snd ↔ (v, y) ∈ offers := by
    intro y
    simp
  rw [mem]
  exact and_congr_right' (forall_congr' fun y => imp_congr_left (mem y))

theorem exists_bestOffer {offers : List (NodeId × K)} {v : NodeId} {y : K} (given : (v, y) ∈ offers) :
    ∃ x, bestOffer offers v = some x := by
  have inside : y ∈ (offers.filter fun o => o.1 == v).map Prod.snd := by simpa using given
  unfold bestOffer
  cases rest : (offers.filter fun o => o.1 == v).map Prod.snd with
  | nil =>
      rw [rest] at inside
      cases inside
  | cons x xs => exact ⟨_, List.max?_cons'⟩

/-- A hop under way: the new nodes have the best of their offers, in both maps. -/
structure Hopping (seen : List NodeId) (base : OrdMap NodeId (Extended K))
    (offers : List (NodeId × K)) (h : Hop (Extended K)) : Prop where
  fresh : ∀ o ∈ offers, o.1 ∉ seen
  next : ∀ v, h.next.get? v = (bestOffer offers v).map .finite
  scores : ∀ v, h.scores.get? v = (h.next.get? v).or (base.get? v)

section Hop

variable {seen : List NodeId} {base : OrdMap NodeId (Extended K)} {offers : List (NodeId × K)}
  {h : Hop (Extended K)} (ge : GraphExpand K)

theorem exact_inherited (score : K) (etype : String) :
    (Arith.exact K).mul ((Arith.exact K).mul (.finite score) ge.exact.decay)
      ((ge.exact.edgeWeight.get? etype).getD (Arith.exact K).one) =
      .finite (ge.inherited score etype) := by
  have weight : (ge.exact.edgeWeight.get? etype).getD (Arith.exact K).one =
      .finite ((ge.edgeWeight.get? etype).getD 1) := by
    show ((ge.edgeWeight.mapValues Extended.finite).get? etype).getD _ = _
    rw [OrdMap.get?_mapValues]
    cases ge.edgeWeight.get? etype <;> rfl
  rw [weight]
  rfl

/-- An offer that is the best so far. -/
theorem Hopping.raise (hopping : Hopping seen base offers h) {v : NodeId} {x : K} (unseen : v ∉ seen)
    (better : ∀ y, bestOffer offers v = some y → y < x) {f : Option (Extended K) → Extended K}
    (raised : f ((bestOffer offers v).map .finite) = .finite x) :
    Hopping seen base (offers ++ [(v, x)])
      { scores := h.scores.insert v (.finite x), next := h.next.modify v f } := by
  have next : ∀ w, (h.next.modify v f).get? w = (bestOffer (offers ++ [(v, x)]) w).map .finite := by
    intro w
    rw [OrdMap.get?_modify, bestOffer_append]
    by_cases same : v = w
    · subst same
      rw [if_pos rfl, if_pos rfl, hopping.next, raised]
      cases had : bestOffer offers v with
      | none => rfl
      | some y =>
          show _ = some (Extended.finite (max y x))
          rw [max_eq_right (better y had).le]
    · rw [if_neg same, if_neg same, hopping.next]
  refine ⟨fun o m => ?_, next, fun w => ?_⟩
  · rcases List.mem_append.mp m with old | new
    · exact hopping.fresh o old
    · rw [List.mem_singleton.mp new]
      exact unseen
  · show (h.scores.insert v (.finite x)).get? w = ((h.next.modify v f).get? w).or _
    rw [OrdMap.get?_insert, OrdMap.get?_modify]
    by_cases same : v = w
    · subst same
      rw [if_pos rfl, if_pos rfl, hopping.next, raised]
      rfl
    · rw [if_neg same, if_neg same, hopping.scores]

/-- An offer that is no better than one before. -/
theorem Hopping.skip (hopping : Hopping seen base offers h) {v : NodeId} {x y : K} (unseen : v ∉ seen)
    (had : bestOffer offers v = some y) (worse : x ≤ y) :
    Hopping seen base (offers ++ [(v, x)]) h := by
  refine ⟨fun o m => ?_, fun w => ?_, hopping.scores⟩
  · rcases List.mem_append.mp m with old | new
    · exact hopping.fresh o old
    · rw [List.mem_singleton.mp new]
      exact unseen
  · rw [hopping.next, bestOffer_append]
    by_cases same : v = w
    · subst same
      rw [if_pos rfl, had]
      show _ = some (Extended.finite (max y x))
      rw [max_eq_left worse]
      rfl
    · rw [if_neg same]

/-- What an edge offers: nothing to a node that is closed. -/
def offer (seen : List NodeId) (score : K) (nbr : NodeId × String) : List (NodeId × K) :=
  if nbr.1 ∈ seen then [] else [(nbr.1, ge.inherited score nbr.2)]

/-- One edge. -/
theorem Hopping.reach (hopping : Hopping seen base offers h)
    (closed : ∀ v, v ∉ seen → base.get? v = none) (score : K) (nbr : NodeId × String) :
    Hopping seen base (offers ++ offer ge seen score nbr)
      ((Arith.exact K).reach ge.exact seen (.finite score) h nbr) := by
  unfold Arith.reach offer
  by_cases known : nbr.1 ∈ seen
  · rw [if_pos (List.contains_iff_mem.mpr known), if_pos known, List.append_nil]
    exact hopping
  · rw [if_neg fun inside => known (List.contains_iff_mem.mp inside), if_neg known,
      exact_inherited]
    dsimp only
    have prior : h.scores.get? nbr.1 = (bestOffer offers nbr.1).map .finite := by
      rw [hopping.scores, closed nbr.1 known, hopping.next, Option.or_none]
    rw [prior]
    cases had : bestOffer offers nbr.1 with
    | none =>
        rw [Option.map_none, Option.any_none, if_neg Bool.false_ne_true]
        refine hopping.raise known (fun y other => ?_) ?_
        · rw [had] at other
          cases other
        · rw [had]
          rfl
    | some y =>
        rw [Option.map_some, Option.any_some, exact_le]
        by_cases worse : ge.inherited score nbr.2 ≤ y
        · rw [if_pos (decide_eq_true worse)]
          exact hopping.skip known had worse
        · rw [if_neg fun decided => worse (of_decide_eq_true decided)]
          have better := not_le.mp worse
          refine hopping.raise known (fun z other => ?_) ?_
          · rw [had] at other
            cases other
            exact better
          · rw [had]
            show (if (Arith.exact K).lt (.finite y) (.finite _) = true then _ else _) = _
            rw [exact_lt, if_pos (decide_eq_true better)]

theorem mem_offer {score : K} {nbr : NodeId × String} {o : NodeId × K} :
    o ∈ offer ge seen score nbr ↔ nbr.1 ∉ seen ∧ o = (nbr.1, ge.inherited score nbr.2) := by
  unfold offer
  split
  · next known => simp [known]
  · next unseen => simp [unseen]

theorem Hopping.foldl (hopping : Hopping seen base offers h)
    (closed : ∀ v, v ∉ seen → base.get? v = none) (score : K) (nbrs : List (NodeId × String)) :
    Hopping seen base (offers ++ nbrs.flatMap (offer ge seen score))
      (nbrs.foldl ((Arith.exact K).reach ge.exact seen (.finite score)) h) := by
  induction nbrs generalizing offers h with
  | nil => simpa using hopping
  | cons nbr nbrs ih =>
      have later := ih (hopping.reach ge closed score nbr)
      rwa [List.append_assoc] at later

/-- The edges of some nodes of the frontier. -/
theorem Hopping.foldlM {s : Store H} {r : ReadonlyRepo Cid} (seeds : List (NodeId × K))
    (hopping : Hopping seen base offers h) (closed : ∀ v, v ∉ seen → base.get? v = none)
    (front : List (NodeId × K)) {h' : Hop (Extended K)}
    (ran : (front.map fun e => (e.1, Extended.finite e.2)).foldlM (fun h e => do
      let nbrs ← neighbors s r ge.exact e.1
      return nbrs.foldl ((Arith.exact K).reach ge.exact seen e.2) h) h = .ok h') :
    Hopping seen base (offers ++ front.flatMap fun e =>
      ((walked s r ge seeds).next e.1).flatMap (offer ge seen e.2)) h' := by
  induction front generalizing offers h with
  | nil =>
      cases ran
      simpa using hopping
  | cons e front ih =>
      rw [List.map_cons, List.foldlM_cons] at ran
      obtain ⟨h₁, first, ran⟩ := Exec.bind_eq_ok.mp ran
      obtain ⟨nbrs, read, ended⟩ := Exec.bind_eq_ok.mp first
      cases ended
      have edges : (walked s r ge seeds).next e.1 = nbrs := by
        have same : neighbors s r ge e.1 = .ok nbrs := read
        show (neighbors s r ge e.1).toOption.getD [] = nbrs
        rw [same]
        rfl
      have later := ih (hopping.foldl ge closed e.2 nbrs) ran
      rwa [List.append_assoc, ← edges] at later

end Hop

/-! ## The layers -/

/-- A map of scores holds exactly these. -/
def Holds (m : OrdMap NodeId (Extended K)) (scored : NodeId → K → Prop) : Prop :=
  ∀ v x, m.get? v = some x ↔ ∃ y, x = .finite y ∧ scored v y

theorem Holds.entries {m : OrdMap NodeId (Extended K)} {scored : NodeId → K → Prop}
    (holds : Holds m scored) : ∃ front : List (NodeId × K),
      m.entries = front.map (fun e => (e.1, Extended.finite e.2)) ∧
      ∀ v y, (v, y) ∈ front ↔ scored v y := by
  have numbers : ∀ e ∈ m.entries, ∃ y, e.2 = .finite y := by
    intro e inside
    obtain ⟨y, same, -⟩ := (holds e.1 e.2).mp (m.get?_eq_some_iff.mpr inside)
    exact ⟨y, same⟩
  obtain ⟨front, entries⟩ := exists_finite m.entries numbers
  refine ⟨front, entries, fun v y => ?_⟩
  have inside : (v, y) ∈ front ↔ (v, Extended.finite y) ∈ m.entries := by
    rw [entries]
    simp
  rw [inside]
  constructor
  · intro m'
    obtain ⟨y', same, here⟩ := (holds v _).mp (m.get?_eq_some_iff.mpr m')
    cases same
    exact here
  · intro here
    exact m.get?_eq_some_iff.mp ((holds v _).mpr ⟨y, rfl, here⟩)

theorem Holds.mem_keys {m : OrdMap NodeId (Extended K)} {scored : NodeId → K → Prop}
    (holds : Holds m scored) (v : NodeId) : v ∈ m.keys ↔ ∃ y, scored v y := by
  rw [m.mem_keys_iff, Option.isSome_iff_exists]
  constructor
  · rintro ⟨x, found⟩
    obtain ⟨y, -, here⟩ := (holds v x).mp found
    exact ⟨y, here⟩
  · rintro ⟨y, here⟩
    exact ⟨_, (holds v _).mpr ⟨y, rfl, here⟩⟩

section Layers

variable {s : Store H} {r : ReadonlyRepo Cid} {ge : GraphExpand K} {seeds : List (NodeId × K)}
  {seen : List NodeId} {scores frontier : OrdMap NodeId (Extended K)}

/-- The walk after some hops. -/
structure Reached (s : Store H) (r : ReadonlyRepo Cid) (ge : GraphExpand K)
    (seeds : List (NodeId × K)) (h : Nat) (seen : List NodeId)
    (scores frontier : OrdMap NodeId (Extended K)) : Prop where
  seen : ∀ v, v ∈ seen ↔ ∃ m ≤ h, (walked s r ge seeds).At m v
  scores : Holds scores fun v x => ∃ m, 0 < m ∧ m ≤ h ∧ (walked s r ge seeds).Layered m v x
  frontier : Holds frontier ((walked s r ge seeds).Layered h)
  complete : ∀ m ≤ h, ∀ v, (walked s r ge seeds).At m v →
    ∃ x, (walked s r ge seeds).Layered m v x

/-- One hop scores the next layer. -/
theorem Reached.hop {h : Nat} (reached : Reached s r ge seeds h seen scores frontier)
    {hopped : Hop (Extended K)}
    (ran : (Arith.exact K).hop s r ge.exact seen scores frontier = .ok hopped) :
    Reached s r ge seeds (h + 1) (seen ++ hopped.next.keys) hopped.scores hopped.next := by
  obtain ⟨front, entries, inFront⟩ := reached.frontier.entries
  have closed : ∀ v, v ∉ seen → scores.get? v = none := by
    intro v unseen
    rw [Option.eq_none_iff_forall_ne_some]
    intro x found
    obtain ⟨y, -, m, -, below, layered⟩ := (reached.scores v x).mp found
    exact unseen ((reached.seen v).mpr ⟨m, below, layered.at⟩)
  unfold Arith.hop at ran
  rw [entries] at ran
  have start : Hopping seen scores [] ⟨scores, .empty⟩ :=
    ⟨fun o m => (by cases m), fun v => rfl, fun v => rfl⟩
  have hopping := start.foldlM ge seeds closed front ran
  rw [List.nil_append] at hopping
  have offered : ∀ v y, (v, y) ∈ (front.flatMap fun e =>
      ((walked s r ge seeds).next e.1).flatMap (offer ge seen e.2)) ↔
      v ∉ seen ∧ (walked s r ge seeds).Offered ((walked s r ge seeds).Layered h) v y := by
    intro v y
    simp only [List.mem_flatMap, mem_offer]
    constructor
    · rintro ⟨⟨u, x⟩, m, ⟨w, etype⟩, edge, unseen, same⟩
      cases same
      exact ⟨unseen, u, x, etype, (inFront u x).mp m, edge, rfl⟩
    · rintro ⟨unseen, u, x, etype, layered, edge, rfl⟩
      exact ⟨(u, x), (inFront u x).mpr layered, (v, etype), edge, unseen, rfl⟩
  generalize (front.flatMap fun e =>
    ((walked s r ge seeds).next e.1).flatMap (offer ge seen e.2)) = offers at hopping offered
  have later : ∀ v, (walked s r ge seeds).At (h + 1) v → v ∉ seen := fun v here inside => by
    obtain ⟨m, below, earlier⟩ := (reached.seen v).mp inside
    exact absurd (here.unique earlier) (by omega)
  have layer_iff : ∀ v y, bestOffer offers v = some y ↔ (walked s r ge seeds).Layered (h + 1) v y := by
    intro v y
    rw [bestOffer_eq_some_iff]
    constructor
    · intro best
      obtain ⟨unseen, u, x, etype, layered, edge, -⟩ := (offered v y).mp best.1
      have here : (walked s r ge seeds).At (h + 1) v := at_succ_iff.mpr
        ⟨fun m below earlier => unseen ((reached.seen v).mpr ⟨m, below, earlier⟩),
          u, etype, layered.at, edge⟩
      exact ⟨here, ((offered v y).mp best.1).2, fun z other => best.2 ((offered v z).mpr ⟨unseen, other⟩)⟩
    · rintro ⟨here, best, bound⟩
      have unseen := later v here
      exact ⟨(offered v y).mpr ⟨unseen, best⟩, fun z other => bound ((offered v z).mp other).2⟩
  have layer : Holds hopped.next ((walked s r ge seeds).Layered (h + 1)) := by
    intro v x
    rw [hopping.next, Option.map_eq_some_iff]
    exact exists_congr fun y => by rw [layer_iff, eq_comm, and_comm]
  have complete : ∀ v, (walked s r ge seeds).At (h + 1) v →
      ∃ x, (walked s r ge seeds).Layered (h + 1) v x := by
    intro v here
    obtain ⟨-, u, etype, before, edge⟩ := at_succ_iff.mp here
    obtain ⟨x, layered⟩ := reached.complete h (le_refl h) u before
    have given := (offered v _).mpr ⟨later v here, u, x, etype, layered, edge, rfl⟩
    obtain ⟨y, best⟩ := exists_bestOffer given
    exact ⟨y, (layer_iff v y).mp best⟩
  refine ⟨fun v => ?_, fun v x => ?_, layer, fun m below v here => ?_⟩
  · rw [List.mem_append, reached.seen, layer.mem_keys]
    constructor
    · rintro (⟨m, below, here⟩ | ⟨y, layered⟩)
      · exact ⟨m, by omega, here⟩
      · exact ⟨h + 1, le_refl _, layered.at⟩
    · rintro ⟨m, below, here⟩
      rcases Nat.le_succ_iff.mp below with earlier | rfl
      · exact Or.inl ⟨m, earlier, here⟩
      · exact Or.inr (complete v here)
  · rw [hopping.scores, Option.or_eq_some_iff, layer v x, reached.scores v x]
    constructor
    · rintro (⟨y, same, layered⟩ | ⟨-, y, same, m, positive, below, layered⟩)
      · exact ⟨y, same, h + 1, Nat.succ_pos h, le_refl _, layered⟩
      · exact ⟨y, same, m, positive, by omega, layered⟩
    · rintro ⟨y, same, m, positive, below, layered⟩
      rcases Nat.le_succ_iff.mp below with earlier | rfl
      · refine Or.inr ⟨?_, y, same, m, positive, earlier, layered⟩
        rw [hopping.next, Option.map_eq_none_iff, Option.eq_none_iff_forall_ne_some]
        intro z best
        exact absurd (((layer_iff v z).mp best).at.unique layered.at) (by omega)
      · exact Or.inl ⟨y, same, layered⟩
  · rcases Nat.le_succ_iff.mp below with earlier | rfl
    · exact reached.complete m earlier v here
    · exact complete v here

/-- No hop has more new nodes than the walk bears. -/
def Bearable (s : Store H) (r : ReadonlyRepo Cid) (ge : GraphExpand K) (seeds : List (NodeId × K)) :
    Prop :=
  ∀ h < ge.depth, ∀ vs : List NodeId, vs.Nodup → (∀ v ∈ vs, (walked s r ge seeds).At (h + 1) v) →
    vs.length ≤ ge.maxFrontier

/-- A layer that is empty ends the layers. -/
theorem no_layer_after {h : Nat} (empty : ∀ v, ¬ (walked s r ge seeds).At h v) :
    ∀ m, h ≤ m → ∀ v, ¬ (walked s r ge seeds).At m v := by
  intro m above
  induction m, above using Nat.le_induction with
  | base => exact empty
  | succ m _ ih =>
      intro v here
      obtain ⟨-, u, etype, before, -⟩ := at_succ_iff.mp here
      exact ih u before

/-- The hops that are left score the layers that are left. -/
theorem Reached.hops (bearable : Bearable s r ge seeds) (left : Nat) {h : Nat}
    (all : h + left = ge.depth) (reached : Reached s r ge seeds h seen scores frontier)
    {found : OrdMap NodeId (Extended K)}
    (ran : (Arith.exact K).hops s r ge.exact left seen scores frontier = .ok found) :
    ∃ seen frontier, Reached s r ge seeds ge.depth seen found frontier := by
  induction left generalizing h seen scores frontier with
  | zero =>
      cases ran
      rw [Nat.add_zero] at all
      exact ⟨seen, frontier, all ▸ reached⟩
  | succ left ih =>
      unfold Arith.hops at ran
      obtain ⟨hopped, first, ran⟩ := Exec.bind_eq_ok.mp ran
      have after := reached.hop first
      have within : hopped.next.entries.length ≤ ge.maxFrontier := by
        have few := bearable h (by omega) hopped.next.keys hopped.next.ascending.nodup fun v m => by
          obtain ⟨y, layered⟩ := (after.frontier.mem_keys v).mp m
          exact layered.at
        rwa [OrdMap.keys, List.length_map] at few
      have bound : ¬ ge.exact.maxFrontier < hopped.next.entries.length := not_lt.mpr within
      rw [if_neg bound] at ran
      split at ran
      · next ended =>
          cases ran
          have empty : ∀ v, ¬ (walked s r ge seeds).At (h + 1) v := by
            intro v here
            obtain ⟨y, layered⟩ := after.complete (h + 1) (le_refl _) v here
            have inside := (after.frontier.mem_keys v).mpr ⟨y, layered⟩
            rw [OrdMap.keys, List.isEmpty_iff.mp ended] at inside
            cases inside
          have nothing := no_layer_after empty
          refine ⟨seen ++ hopped.next.keys, .empty, fun v => ?_, fun v x => ?_, fun v x => ?_,
            fun m below v here => ?_⟩
          · rw [after.seen v]
            constructor
            · rintro ⟨m, below, here⟩
              exact ⟨m, by omega, here⟩
            · rintro ⟨m, -, here⟩
              refine ⟨m, ?_, here⟩
              by_contra above
              exact nothing m (by omega) v here
          · rw [after.scores v x]
            refine exists_congr fun y => and_congr_right' (exists_congr fun m => and_congr_right' ?_)
            constructor
            · rintro ⟨below, layered⟩
              exact ⟨by omega, layered⟩
            · rintro ⟨-, layered⟩
              refine ⟨?_, layered⟩
              by_contra above
              exact nothing m (by omega) v layered.at
          · constructor
            · intro found
              cases found
            · rintro ⟨y, -, layered⟩
              exact absurd layered.at (nothing ge.depth (by omega) v)
          · refine after.complete m ?_ v here
            by_contra above
            exact nothing m (by omega) v here
      · exact ih (by omega) after ran

/-- **The walk finds the layered scores.** -/
theorem hops_layered (distinct : (seeds.map Prod.fst).Nodup) (bearable : Bearable s r ge seeds)
    {found : OrdMap NodeId (Extended K)}
    (ran : (Arith.exact K).hops s r ge.exact ge.depth (seeds.map Prod.fst) .empty
      (OrdMap.ofList (seeds.map fun e => (e.1, Extended.finite e.2))) = .ok found) :
    ∃ seen frontier, Reached s r ge seeds ge.depth seen found frontier := by
  have start : Reached s r ge seeds 0 (seeds.map Prod.fst) .empty
      (OrdMap.ofList (seeds.map fun e => (e.1, Extended.finite e.2))) := by
    refine ⟨fun v => ?_, fun v x => ?_, fun v x => ?_, fun m below v here => ?_⟩
    · constructor
      · intro seed
        exact ⟨0, le_refl 0, at_zero_iff.mpr seed⟩
      · rintro ⟨m, below, here⟩
        obtain rfl : m = 0 := by omega
        exact at_zero_iff.mp here
    · constructor
      · intro found
        cases found
      · rintro ⟨y, -, m, positive, below, -⟩
        omega
    · have reversed : (((seeds.map fun e => (e.1, Extended.finite e.2)).reverse).map Prod.fst).Nodup := by
        rw [List.map_reverse, List.nodup_reverse, List.map_map]
        exact distinct
      rw [OrdMap.get?_ofList, Entries.get?_eq_some_iff_of_nodup reversed, List.mem_reverse,
        List.mem_map]
      constructor
      · rintro ⟨⟨w, y⟩, m, same⟩
        cases same
        exact ⟨y, rfl, m⟩
      · rintro ⟨y, rfl, m⟩
        exact ⟨(v, y), m, rfl⟩
    · obtain rfl : m = 0 := by omega
      obtain ⟨⟨w, x⟩, m, rfl⟩ := List.mem_map.mp (at_zero_iff.mp here)
      exact ⟨x, m⟩
  exact start.hops bearable ge.depth (Nat.zero_add _) ran

/-- The scores are those of the best paths of at most `depth` edges, to the nodes that are no
seeds. -/
def ScoresBest (g : Scoring NodeId K String) (depth : Nat) (found : OrdMap NodeId (Extended K)) :
    Prop :=
  ∀ v x, found.get? v = some x ↔ ∃ y, x = .finite y ∧ ¬ g.IsSeed v ∧ g.IsBest depth v y

end Layers

/-! ### A weak edge and a detour -/

/-- Node 1 has a weak edge to node 3, and strong ones lead there by node 2. -/
def detour : WorldM shortHashing (ReadonlyRepo ℕ) :=
  seeded [.addNode { id := 1, ntype := "Person" }, .addNode { id := 2, ntype := "Person" },
    .addNode { id := 3, ntype := "Person" },
    .addEdge { id := 1, etype := "strong", src := 1, dst := 2 },
    .addEdge { id := 2, etype := "weak", src := 1, dst := 3 },
    .addEdge { id := 3, etype := "strong", src := 2, dst := 3 }]

def halved (depth : Nat) : GraphExpand ℚ where
  decay := 1 / 2
  depth := depth
  edgeWeight := OrdMap.ofList [("weak", 1 / 4)]

/-- The walk from node 1. -/
def scoresFrom (w : World shortHashing) (r : ReadonlyRepo ℕ) (depth : Nat) :
    Except (Error ℕ) (OrdMap NodeId (Extended ℚ)) :=
  (Arith.exact ℚ).hops w.store r (halved depth).exact depth [1] .empty
    (OrdMap.ofList [(1, .finite 1)])

theorem detour_check : detour.check {} (fun r w =>
    (Exec.okAnd (neighbors w.store r (halved 2) 1) fun nbrs =>
      decide (nbrs = [(2, "strong"), (3, "weak")])) &&
    (Exec.okAnd (neighbors w.store r (halved 2) 2) fun nbrs => decide (nbrs = [(3, "strong")])) &&
    (Exec.okAnd (scoresFrom w r 1) fun _ => true) &&
    Exec.okAnd (scoresFrom w r 2) fun found =>
      decide (found.get? 3 = some (.finite (1 / 8)))) = true := by
  decide +kernel

end Mnem.Retrieve
