/-
# Retrieve.Retriever — a retrieval, from the lanes to the packed items

`execute` ranks by the lanes that are on, or answers a structured query when
none is; it filters, expands along the graph, reranks, and packs what fits a
budget.  Every stage keeps a clean list of candidates clean, so no filtered
node is in the result, whichever stages are on (`execute_filtered`).
-/
import Mnem.Retrieve.Expand
import Mnem.Repo.Session

namespace Mnem.Retrieve

open Theory Prolly Repo Index

set_option autoImplicit false
set_option linter.unusedSectionVars false

variable {Cid F : Type} {H : Hashing Cid} [LinearOrder Cid]

inductive FusionStrategy where
  | rrf
  | convexMinMax
  deriving DecidableEq

/-- An adjacency index: the ends of its edges, and PageRank over them from a personalization,
a damping, a number of rounds and a precision. -/
structure AdjacencyIndex (F : Type) where
  iterEdges : List (NodeId × NodeId)
  ppr : OrdMap NodeId F → F → Nat → F → OrdMap NodeId F

/-- `PPR_DEFAULT_MAX_NODES`. -/
def pprDefaultMaxNodes : Nat := 250000

def AdjacencyIndex.exceedsSizeGate (adj : AdjacencyIndex F) (optIn : Bool) : Bool :=
  !optIn && decide (pprDefaultMaxNodes < (adj.iterEdges.flatMap fun e => [e.1, e.2]).dedup.length)

/-- A retrieval.  A lane that is on is given by what the search of its index returns. -/
structure Retriever (Cid F : Type) where
  filters : Filters Cid
  queryText : Option String := none
  vectorLane : Option (Except (Error Cid) (List (NodeId × F))) := none
  sparseLane : Option (Except (Error Cid) (List (NodeId × F))) := none
  tokenBudget : Option Nat := none
  limit : Option Nat := none
  rrfK : F
  fusion : FusionStrategy := .convexMinMax
  vectorWeight : F
  sparseWeight : F
  renderNode : Node Cid → String
  estimate : String → Nat
  reranker : Option (String → List String → Except String (List F)) := none
  rerankTopK : Nat := 25
  graphExpand : Option (GraphExpand F) := none
  adjacencyIndex : Option (AdjacencyIndex F) := none
  communityFilterCfg : CommunityFilterCfg F
  communityLookup : Option CommunityLookup := none
  pprOptIn : Bool := false

structure RetrievedItem (Cid F : Type) where
  node : Node Cid
  rendered : String
  tokens : Nat
  score : F
  laneScores : List (Lane × F)

structure RetrievalResult (Cid F : Type) where
  items : List (RetrievedItem Cid F)
  tokensUsed : Nat
  tokensBudget : Nat
  dropped : Nat
  candidatesSeen : Nat
  pprSizeGateSkipped : Bool

inductive RetrieveError (Cid : Type) where
  | retrievalEmpty
  | repo (error : Error Cid)

/-- `u32::MAX`. -/
def u32Max : Nat := 2 ^ 32 - 1

/-- `u32::saturating_add`. -/
def saturatingAdd (x y : Nat) : Nat := min (x + y) u32Max

namespace Retriever

variable (a : Arith F) (q : Retriever Cid F)

/-! ## Lanes -/

/-- The hits of a lane that is on. -/
def searched (lane : Option (Except (Error Cid) (List (NodeId × F)))) :
    Except (Error Cid) (Option (List (NodeId × F))) :=
  match lane with
  | none => .ok none
  | some search => some <$> search

/-- The score of each hit, under its lane. -/
def pushHits (lane : Lane) (hits : Option (List (NodeId × F))) (scores : LaneScores F) :
    LaneScores F :=
  (hits.getD []).foldl (fun scores h => scores.push h.1 lane h.2) scores

/-- One lane keeps its own scores; two are fused. -/
def fuse : Option (List (NodeId × F)) → Option (List (NodeId × F)) → List (NodeId × F)
  | none, none => []
  | some v, none => v
  | none, some sp => sp
  | some v, some sp =>
      match q.fusion with
      | .rrf => a.weightedReciprocalRankFusion
          [(v.map Prod.fst, q.vectorWeight), (sp.map Prod.fst, q.sparseWeight)] q.rrfK
      | .convexMinMax => a.convexMinMaxFusion [(v, q.vectorWeight), (sp, q.sparseWeight)]

/-- The query of a retrieval without lanes. -/
def structuredQuery : Query Cid where
  label := q.filters.label
  propFilter := q.filters.propFilter
  includeTombstoned := q.filters.includeTombstoned
  includeSystem := q.filters.includeSystem

/-- The candidates before any filter but the label and the property. -/
def prefetched (s : Store H) (r : ReadonlyRepo Cid) (vector sparse : Option (List (NodeId × F))) :
    Except (Error Cid) (List (Candidate Cid F)) :=
  let ranked := q.fuse a vector sparse
  let ranked := q.communityLookup.elim ranked fun lookup =>
    a.applyCommunityFilter ranked lookup q.communityFilterCfg
  if vector.isSome || sparse.isSome then prefetchAndFilter s r q.filters [] ranked
  else
    (·.map fun h => ⟨h.node.id, a.one, h.node⟩) <$> q.structuredQuery.execute s r

/-- Drop the tombstoned, the system's, and what is out of time. -/
def filtered (r : ReadonlyRepo Cid) (cs : List (Candidate Cid F)) : List (Candidate Cid F) :=
  ((cs.filter fun c => q.filters.onTombstone r c.id).filter fun c =>
    q.filters.onSystem c.id).filter fun c => q.filters.onTime c.node

/-! ## Expansion, reranking, packing -/

/-- PageRank is asked for: the expansion wants it, and there is an index for it. -/
def pprRequest : Option (AdjacencyIndex F × F × Nat × F) :=
  match q.graphExpand.map GraphExpand.mode, q.adjacencyIndex with
  | some (.ppr damping maxIter eps), some adj => some (adj, damping, maxIter, eps)
  | _, _ => none

def pprSkipped : Bool := q.pprRequest.any fun p => p.1.exceedsSizeGate q.pprOptIn

/-- Expand by PageRank where it is asked for and the graph is not too large, else by a walk. -/
def expand (s : Store H) (r : ReadonlyRepo Cid) (pool : Pool Cid F) :
    Except (Error Cid) (Pool Cid F) :=
  match q.graphExpand with
  | none => .ok pool
  | some ge =>
      if pool.candidates.isEmpty then .ok pool
      else
        match q.pprRequest, q.pprSkipped with
        | some (adj, damping, maxIter, eps), false =>
            a.expandPpr s r q.filters ge.maxExpand (fun pers => adj.ppr pers damping maxIter eps)
              pool
        | _, _ => a.expandDecay s r q.filters ge pool

/-- Reorder the head of the list by the reranker's scores; any failure leaves it. -/
def rerank (pool : Pool Cid F) : Pool Cid F :=
  match q.reranker, q.queryText with
  | some rr, some text =>
      let split := min pool.candidates.length q.rerankTopK
      let head := pool.candidates.take split
      if split = 0 then pool
      else
        match rr text (head.map fun c => q.renderNode c.node) with
        | .error _ => pool
        | .ok scores =>
            if scores.length = split then
              let order := (head.zip scores).insertionSort fun x y =>
                a.ranksBefore (x.1.id, x.2) (y.1.id, y.2) = true
              { candidates := order.map (fun p => { p.1 with score := p.2 }) ++
                  pool.candidates.drop split
                laneScores := (head.zip scores).foldl
                  (fun scores p => scores.push p.1.id .rerank p.2) pool.laneScores }
            else pool
  | _, _ => pool

/-- Take items in order, skipping those that do not fit, until the limit. -/
def pack : List (Candidate Cid F) → LaneScores F → RetrievalResult Cid F → RetrievalResult Cid F
  | [], _, result => result
  | c :: cs, laneScores, result =>
      let drop := { result with dropped := saturatingAdd result.dropped 1 }
      if q.limit.any fun cap => decide (cap ≤ result.items.length) then pack cs laneScores drop
      else
        let rendered := q.renderNode c.node
        let tokens := q.estimate rendered
        let next := saturatingAdd result.tokensUsed tokens
        if result.tokensBudget < next then pack cs laneScores drop
        else
          let scores := ((laneScores.get? c.id).getD []).insertionSort fun x y =>
            x.1.rank ≤ y.1.rank
          pack cs (laneScores.erase c.id)
            { result with
              items := result.items ++ [⟨c.node, rendered, tokens, c.score, scores⟩]
              tokensUsed := next }

/-- The stages, on a repository. -/
def run (s : Store H) (r : ReadonlyRepo Cid) : Except (Error Cid) (RetrievalResult Cid F) := do
  let vector ← searched q.vectorLane
  let sparse ← searched q.sparseLane
  let laneScores := pushHits .sparse sparse (pushHits .vector vector .empty)
  let candidates ← q.prefetched a s r vector sparse
  let pool ← q.expand a s r ⟨q.filtered r candidates, laneScores⟩
  let pool := q.rerank a pool
  return q.pack pool.candidates pool.laneScores
    { items := []
      tokensUsed := 0
      tokensBudget := q.tokenBudget.getD u32Max
      dropped := 0
      candidatesSeen := min pool.candidates.length u32Max
      pprSizeGateSkipped := q.pprSkipped }

def execute (s : Store H) (r : ReadonlyRepo Cid) :
    Except (RetrieveError Cid) (RetrievalResult Cid F) :=
  if q.filters.label.isNone && q.filters.propFilter.isNone && q.vectorLane.isNone &&
      q.sparseLane.isNone then .error .retrievalEmpty
  else (q.run a s r).mapError .repo

/-! ## Every stage keeps the candidates clean -/

section Stages

variable {s : Store H} {r : ReadonlyRepo Cid} {q : Retriever Cid F} {a : Arith F}

theorem clean_of_filtered {cs : List (Candidate Cid F)}
    (distinct : Distinct (Found s r q.filters) cs) : Clean s r q.filters (q.filtered r cs) := by
  have sub : List.Sublist (q.filtered r cs) cs :=
    List.filter_sublist.trans (List.filter_sublist.trans List.filter_sublist)
  refine ⟨distinct.ids.sublist (sub.map _), fun c m => ?_⟩
  obtain ⟨inner, timely⟩ := List.mem_filter.mp m
  obtain ⟨inmost, user⟩ := List.mem_filter.mp inner
  exact ⟨distinct.each c (sub.subset m), (List.mem_filter.mp inmost).2, user, timely⟩

theorem clean_of_expand {pool pool' : Pool Cid F} (clean : Clean s r q.filters pool.candidates)
    (ran : q.expand a s r pool = .ok pool') : Clean s r q.filters pool'.candidates := by
  unfold expand at ran
  cases graph : q.graphExpand with
  | none =>
      rw [graph] at ran
      cases ran
      exact clean
  | some ge =>
      rw [graph] at ran
      dsimp only at ran
      split at ran
      · cases ran
        exact clean
      · split at ran
        · exact clean_of_expandPpr a clean ran
        · exact clean_of_expandDecay a clean ran

/-- Candidates that differ in their scores alone. -/
theorem clean_of_rescored {cs ds : List (Candidate Cid F)} (clean : Clean s r q.filters cs)
    (ids : ds.map (fun c => (c.id, c.node)) = cs.map fun c => (c.id, c.node)) :
    Clean s r q.filters ds where
  ids := by
    have same : ds.map Candidate.id = cs.map Candidate.id := by
      simpa [List.map_map, Function.comp_def] using congrArg (List.map Prod.fst) ids
    rw [same]
    exact clean.ids
  each c m := by
    have inOther : (c.id, c.node) ∈ cs.map fun c => (c.id, c.node) := by
      rw [← ids]
      exact List.mem_map.mpr ⟨c, m, rfl⟩
    obtain ⟨d, inOld, same⟩ := List.mem_map.mp inOther
    obtain ⟨sameId, sameNode⟩ := Prod.mk.inj same
    obtain ⟨⟨lookup, label⟩, live, user, timely⟩ := clean.each d inOld
    rw [sameId, sameNode] at lookup
    rw [sameNode] at label timely
    rw [sameId] at live user
    exact ⟨⟨lookup, label⟩, live, user, timely⟩

theorem clean_of_rerank {pool : Pool Cid F} (clean : Clean s r q.filters pool.candidates) :
    Clean s r q.filters (q.rerank a pool).candidates := by
  unfold rerank
  split
  · dsimp only
    split
    · exact clean
    · split
      · exact clean
      · split
        · rename_i scores _ counted
          dsimp only
          generalize splitAt : min pool.candidates.length q.rerankTopK = split at *
          have whole : List.Perm
              (((pool.candidates.take split).zip scores).insertionSort (fun x y =>
                a.ranksBefore (x.1.id, x.2) (y.1.id, y.2) = true) |>.map
                  fun p => ({ p.1 with score := p.2 } : Candidate Cid F))
              (((pool.candidates.take split).zip scores).map fun p => { p.1 with score := p.2 }) :=
            (List.perm_insertionSort _ _).map _
          have head : (pool.candidates.take split).length = scores.length := by
            rw [List.length_take, counted]
            omega
          have rescored : Clean s r q.filters
              (((pool.candidates.take split).zip scores).map
                  (fun p => ({ p.1 with score := p.2 } : Candidate Cid F)) ++
                pool.candidates.drop split) := by
            refine clean_of_rescored clean ?_
            rw [List.map_append, List.map_map]
            conv => rhs; rw [← List.take_append_drop split pool.candidates, List.map_append]
            congr 1
            show ((pool.candidates.take split).zip scores).map
              ((fun c => (c.id, c.node)) ∘ Prod.fst) = _
            rw [← List.map_map, List.map_fst_zip (by omega)]
          exact Distinct.perm rescored (whole.append_right _)
        · exact clean
  · exact clean

/-- The items come from the candidates, in order. -/
theorem items_of_pack (cs : List (Candidate Cid F)) (laneScores : LaneScores F)
    (result : RetrievalResult Cid F) :
    ∃ sub, List.Sublist sub cs ∧ (q.pack cs laneScores result).items.map RetrievedItem.node =
      result.items.map RetrievedItem.node ++ sub.map Candidate.node := by
  induction cs generalizing laneScores result with
  | nil => exact ⟨[], List.Sublist.slnil, by simp [pack]⟩
  | cons c cs ih =>
      unfold pack
      dsimp only
      split
      · obtain ⟨sub, inside, items⟩ := ih laneScores _
        exact ⟨sub, inside.cons c, items⟩
      · split
        · obtain ⟨sub, inside, items⟩ := ih laneScores _
          exact ⟨sub, inside.cons c, items⟩
        · obtain ⟨sub, inside, items⟩ := ih (laneScores.erase c.id) _
          refine ⟨c :: sub, inside.cons_cons c, items.trans ?_⟩
          simp

/-! ## The result -/

variable {g : Graph Cid}

/-- A node is found under its own id. -/
theorem id_of_lookupNode (holds : HeadHolds s r.commit g) {id : NodeId} {node : Node Cid}
    (looked : r.lookupNode s id = .ok (some node)) : node.id = id := by
  cases head : r.commit with
  | none =>
      unfold ReadonlyRepo.lookupNode at looked
      rw [head] at looked
      cases looked
  | some commit =>
      rw [head] at holds
      have table := Stands.nodes holds
      have found := looked
      unfold ReadonlyRepo.lookupNode at found
      rw [head, Option.map_some, bucketAt_of_isTree table.tree] at found
      cases at_id : g.nodes.get? id with
      | none =>
          rw [at_id] at found
          cases found
      | some cid =>
          rw [at_id] at found
          obtain ⟨node', loads, filed⟩ := table.filed id cid at_id
          have decoded : s.decodeFromStore (Node Cid) cid = .ok node' := loads
          dsimp only at found
          rw [decoded] at found
          cases found
          exact filed

/-- The first candidates are nodes of the head with the label, each once. -/
theorem distinct_of_prefetched (holds : HeadHolds s r.commit g)
    {vector sparse : Option (List (NodeId × F))} {cs : List (Candidate Cid F)}
    (ran : q.prefetched a s r vector sparse = .ok cs) : Distinct (Found s r q.filters) cs := by
  unfold prefetched at ran
  dsimp only at ran
  split at ran
  · exact distinct_of_prefetch ran
  · cases queried : q.structuredQuery.execute s r with
    | error e =>
        rw [queried] at ran
        cases ran
    | ok hits =>
        rw [queried] at ran
        cases ran
        cases head : r.commit with
        | none =>
            unfold Query.execute at queried
            rw [head] at queried
            cases queried
        | some commit =>
            rw [head] at holds
            obtain ⟨rows, edges, c, reads, -, isIndexed⟩ := Stands.indexed holds
            have answers := Query.answers_of_execute head (Stands.nodes holds) reads isIndexed
              queried
            refine ⟨?_, fun c m => ?_⟩
            · rw [List.map_map]
              exact answers.ids
            · obtain ⟨h, inHits, rfl⟩ := List.mem_map.mp m
              obtain ⟨looked, labelled, -⟩ := answers.each h inHits
              exact ⟨looked, (q.filters.onLabel_iff _).mpr labelled⟩

/-- **No retrieval returns a filtered node.**  Whatever the lanes find, however the graph is
expanded, reranked and packed, the items are nodes of the head, each once, with the label that
is asked for and within the times, and none is tombstoned or the system's unless that was asked
for too. -/
theorem execute_filtered (a : Arith F) (q : Retriever Cid F) (holds : HeadHolds s r.commit g)
    {result : RetrievalResult Cid F} (ran : q.execute a s r = .ok result) :
    (result.items.map fun i => i.node.id).Nodup ∧ ∀ i ∈ result.items,
      r.lookupNode s i.node.id = .ok (some i.node) ∧
      (∀ label, q.filters.label = some label → i.node.ntype = label) ∧
      (∀ tf, q.filters.temporalFilter = some tf → tf.matchesNode i.node = true) ∧
      (q.filters.includeTombstoned = false → r.isTombstoned i.node.id = false) ∧
      (q.filters.includeSystem = false → i.node.id ≠ anchorNodeId) := by
  unfold execute at ran
  split at ran
  · cases ran
  · cases staged : q.run a s r with
    | error e =>
        rw [staged] at ran
        cases ran
    | ok result' =>
        rw [staged] at ran
        cases ran
        unfold run at staged
        obtain ⟨vector, -, staged⟩ := Exec.bind_eq_ok.mp staged
        obtain ⟨sparse, -, staged⟩ := Exec.bind_eq_ok.mp staged
        obtain ⟨candidates, fetched, staged⟩ := Exec.bind_eq_ok.mp staged
        obtain ⟨pool, expanded, staged⟩ := Exec.bind_eq_ok.mp staged
        have clean : Clean s r q.filters (q.rerank a pool).candidates :=
          clean_of_rerank (clean_of_expand (clean_of_filtered (distinct_of_prefetched holds fetched))
            expanded)
        cases staged
        obtain ⟨sub, inside, items⟩ := items_of_pack (q := q) (q.rerank a pool).candidates
          (q.rerank a pool).laneScores
          { items := []
            tokensUsed := 0
            tokensBudget := q.tokenBudget.getD u32Max
            dropped := 0
            candidatesSeen := min (q.rerank a pool).candidates.length u32Max
            pprSizeGateSkipped := q.pprSkipped }
        rw [List.map_nil, List.nil_append] at items
        have own : ∀ c ∈ sub, c.node.id = c.id := fun c m =>
          id_of_lookupNode holds (clean.each c (inside.subset m)).lookup
        refine ⟨?_, fun i m => ?_⟩
        · have ids : sub.map (fun c => c.node.id) = sub.map Candidate.id := List.map_congr_left own
          have whole := congrArg (List.map Node.id) items
          rw [List.map_map, List.map_map] at whole
          refine (congrArg List.Nodup (whole.trans ids)).mpr ?_
          exact clean.ids.sublist (inside.map _)
        · have inNodes := List.mem_map_of_mem (f := RetrievedItem.node) m
          rw [items] at inNodes
          obtain ⟨c, inSub, same⟩ := List.mem_map.mp inNodes
          obtain ⟨⟨lookup, label⟩, live, user, timely⟩ := clean.each c (inside.subset inSub)
          rw [← same, own c inSub]
          refine ⟨lookup, (q.filters.onLabel_iff _).mp label, (q.filters.onTime_iff _).mp timely,
            fun hidden => ?_, fun hidden => ?_⟩
          · simpa [Filters.onTombstone, hidden] using live
          · simpa [Filters.onSystem, hidden] using user

end Stages

/-! ### A retrieval over three people -/

/-- Scores that are numbers. -/
def natArith : Arith ℕ where
  zero := 0
  half := 0
  one := 1
  infinity := 1000
  negInfinity := 0
  ofNat n := n
  add := (· + ·)
  sub := (· - ·)
  mul := (· * ·)
  div := (· / ·)
  min := min
  max := max
  lt x y := decide (x < y)
  le x y := decide (x ≤ y)
  isZero x := x == 0
  isTiny x := x == 0

/-- Node 1 knows nodes 2 and 3, and node 2 is tombstoned. -/
def acquainted : WorldM shortHashing (ReadonlyRepo ℕ) :=
  seeded [.addNode { id := 1, ntype := "Person" }, .addNode { id := 2, ntype := "Person" },
    .addNode { id := 3, ntype := "Person" },
    .addEdge { id := 1, etype := "knows", src := 1, dst := 2 },
    .addEdge { id := 2, etype := "knows", src := 1, dst := 3 }, .tombstoneNode 2 "forgotten"]

/-- People by a vector that is close to node 1, with those they know. -/
def people : Retriever ℕ ℕ where
  filters := { label := some "Person" }
  vectorLane := some (.ok [(1, 5), (2, 4)])
  rrfK := 60
  vectorWeight := 1
  sparseWeight := 1
  renderNode n := n.ntype
  estimate _ := 1
  graphExpand := some { decay := 1 }
  communityFilterCfg := { decay := 1 }

theorem execute_filtered_people : ∃ (r : ReadonlyRepo ℕ) (w : World shortHashing)
    (result : RetrievalResult ℕ ℕ), people.execute natArith w.store r = .ok result ∧
      result.items.map (fun i => i.node.id) = [1, 3] ∧
      ∀ i ∈ result.items, r.isTombstoned i.node.id = false := by
  have check : acquainted.check {} (fun r w =>
      Exec.okAnd (people.execute natArith w.store r) fun result =>
        decide (result.items.map (fun i => i.node.id) = [1, 3])) = true := by decide +kernel
  obtain ⟨r, w, ran, passed⟩ := Exec.exists_of_check check
  obtain ⟨g, pinned⟩ := seeded_returns ran
  obtain ⟨result, executed, items⟩ := Exec.exists_of_okAnd passed
  obtain ⟨-, each⟩ := execute_filtered natArith people pinned.holds executed
  refine ⟨r, w, result, executed, of_decide_eq_true items, fun i m => ?_⟩
  obtain ⟨-, -, -, live, -⟩ := each i m
  exact live rfl

end Retriever

end Mnem.Retrieve
