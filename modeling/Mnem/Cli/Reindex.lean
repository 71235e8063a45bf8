/-
# Cli.Reindex — lifting legacy vectors into the sidecars

Early repositories kept the vectors of a node in its `extra`.  The two lifts of
`mnem reindex` walk the head nodes, decode what the filters let through, and
stage it for the sidecar; the sparse one leaves out what the sidecar has under
the same vocabulary.  A staged vector takes the place of the node's whole
bucket, so a lift keeps the vectors there are, and has nothing to do the second
time, exactly when it lifts nothing (dense) or lifts into empty buckets only
(sparse): `lifts_iff`.
-/
import Mnem.Repo.CommitReturns
import Mnem.Repo.StagedVectors
import Mnem.Index.Query
import Mnem.Index.Vector

namespace Mnem.Cli.Reindex

open Theory Prolly Index Repo Transaction

set_option autoImplicit false
set_option linter.unusedSectionVars false

variable {Cid : Type} {H : Hashing Cid} [LinearOrder Cid] {V : Type}

/-! ## The walk -/

/-- What the lifts read of the command line. -/
structure Args where
  label : Option String := none
  dryRun : Bool := false
  message : Option String := none

/-- The author that the configuration gives, and what a commit reads from the clock and the
generator. -/
structure Stamp where
  author : String
  now : Nat := 0
  fresh : ChangeId := 0

/-- `SparseEmbed::validate`: aligned, and with strictly ascending indices. -/
def validateSparse (se : SparseEmbed) : Bool :=
  se.indices.length == se.values.length &&
    (se.indices.zip se.indices.tail).all fun w => decide (w.1 < w.2)

/-- `read` encodes the value and decodes the bytes as an `Embedding`. -/
def decodeEmbeddingFromIpld (read : Ipld Cid → Option Embedding) (value : Ipld Cid) :
    Option Embedding :=
  (read value).filter fun emb => (validate emb : Except (Error Cid) Unit).isOk

def decodeSparseEmbedFromIpld (read : Ipld Cid → Option SparseEmbed) (value : Ipld Cid) :
    Option SparseEmbed :=
  (read value).filter validateSparse

/-- What one of the two lifts looks for, and what it does with it. -/
structure LiftKind (H : Hashing Cid) (V : Type) where
  key : String
  decode : Ipld Cid → Option V
  carried : Store H → ReadonlyRepo Cid → Cid → V → Except (Error Cid) Bool
  call : Cid → V → Call Cid
  summary : Nat → String

namespace LiftKind

variable (k : LiftKind H V)

/-- The inline vector of a node that passes the filters and decodes. -/
def inline (sinceSet : Option (OrdSet Cid)) (args : Args) (nodeCid : Cid) (node : Node Cid) :
    Option V :=
  if sinceSet.any fun set => set.contains nodeCid then none
  else if args.label.any fun label => node.ntype != label then none
  else if isSystemNode node then none
  else (node.extra.get? k.key).bind k.decode

/-- The check of a vector against the sidecar. -/
def unlessCarried (s : Store H) (r : ReadonlyRepo Cid) (nodeCid : Cid) :
    Option V → Except (Error Cid) (Option (Cid × V))
  | none => .ok none
  | some vector =>
      (fun carried => if carried then none else some (nodeCid, vector)) <$> k.carried s r nodeCid vector

/-- One turn of the walk. -/
def candidate (s : Store H) (r : ReadonlyRepo Cid) (sinceSet : Option (OrdSet Cid)) (args : Args)
    (nodeCid : Cid) : Except (Error Cid) (Option (Cid × V)) := do
  let node ← s.decodeFromStore (Node Cid) nodeCid
  k.unlessCarried s r nodeCid (k.inline sinceSet args nodeCid node)

/-- What is to be lifted, in the order of the node tree. -/
def toLift (s : Store H) (r : ReadonlyRepo Cid) (head : Commit Cid)
    (sinceSet : Option (OrdSet Cid)) (args : Args) : Except (Error Cid) (List (Cid × V)) := do
  let es ← entries s head.nodes
  let found ← es.mapM fun e => k.candidate s r sinceSet args e.2
  return found.filterMap id

/-- The repository that the command leaves. -/
def lift (r : ReadonlyRepo Cid) (head : Commit Cid) (sinceSet : Option (OrdSet Cid)) (args : Args)
    (stamp : Stamp) : WorldM H (ReadonlyRepo Cid) := do
  let lifted ← onStore (Exec.read fun s => k.toLift s r head sinceSet args)
  if args.dryRun then return r
  else if lifted.isEmpty then return r
  else do
    let tx ← onStore (lifted.foldlM (fun tx e => tx.exec (k.call e.1 e.2)) (Transaction.new r))
    tx.commitOpts
      { author := stamp.author, message := args.message.getD (k.summary lifted.length),
        now := stamp.now, fresh := stamp.fresh }

end LiftKind

def legacyExtra (read : Ipld Cid → Option Embedding) : LiftKind H Embedding where
  key := "embed"
  decode := decodeEmbeddingFromIpld read
  carried _ _ _ _ := .ok false
  call nodeCid emb := .setEmbedding nodeCid emb.model emb
  summary total := "mnem reindex --lift-legacy-extra: " ++ toString total ++
    " embedding(s) promoted to sidecar"

def legacySparse (read : Ipld Cid → Option SparseEmbed) : LiftKind H SparseEmbed where
  key := "sparse_embed"
  decode := decodeSparseEmbedFromIpld read
  carried s r nodeCid se := Option.isSome <$> r.sparseFor s nodeCid se.vocabId
  call nodeCid se := .setSparseEmbedding nodeCid se.vocabId se
  summary total := "mnem reindex --lift-legacy-sparse: " ++ toString total ++
    " sparse embedding(s) promoted to sidecar"

def runLiftLegacyExtra (read : Ipld Cid → Option Embedding) (r : ReadonlyRepo Cid)
    (head : Commit Cid) (sinceSet : Option (OrdSet Cid)) (args : Args) (stamp : Stamp) :
    WorldM H (ReadonlyRepo Cid) :=
  (legacyExtra read).lift r head sinceSet args stamp

def runLiftLegacySparse (read : Ipld Cid → Option SparseEmbed) (r : ReadonlyRepo Cid)
    (head : Commit Cid) (sinceSet : Option (OrdSet Cid)) (args : Args) (stamp : Stamp) :
    WorldM H (ReadonlyRepo Cid) :=
  (legacySparse read).lift r head sinceSet args stamp

/-! ## What the walk finds -/

/-- The head commit has the node under this CID. -/
def HeadNode (s : Store H) (head : Commit Cid) (c : Cid) (node : Node Cid) : Prop :=
  ∃ id, lookup s head.nodes id = .ok (some c) ∧ s.Loads c node

/-- The list has the inline vectors of the head nodes that the check `carried` does not hold
back, each node once. -/
structure Collects (k : LiftKind H V) (s : Store H) (r : ReadonlyRepo Cid) (head : Commit Cid)
    (sinceSet : Option (OrdSet Cid)) (args : Args) (lifted : List (Cid × V)) : Prop where
  mem_iff : ∀ c v, (c, v) ∈ lifted ↔ ∃ node, HeadNode s head c node ∧
    k.inline sinceSet args c node = some v ∧ k.carried s r c v = .ok false
  once : (lifted.map Prod.fst).Nodup

section Walk

variable {k : LiftKind H V} {s : Store H} {r : ReadonlyRepo Cid} {head : Commit Cid}
  {sinceSet : Option (OrdSet Cid)} {args : Args} {nodes : OrdMap ProllyKey Cid}

theorem headNode_iff (table : NodeTable s head.nodes nodes) {c : Cid} {node : Node Cid} :
    HeadNode s head c node ↔ (∃ e ∈ nodes.entries, e.2 = c) ∧ s.Loads c node := by
  constructor
  · rintro ⟨id, found, loads⟩
    rw [lookup_of_isTree table.tree] at found
    exact ⟨⟨(id, c), (nodes.get?_eq_some_iff).mp (Except.ok.inj found), rfl⟩, loads⟩
  · rintro ⟨⟨e, m, rfl⟩, loads⟩
    refine ⟨e.1, ?_, loads⟩
    rw [lookup_of_isTree table.tree, nodes.get?_eq_some_iff.mpr m]

/-- What one turn gives. -/
def Turn (k : LiftKind H V) (s : Store H) (r : ReadonlyRepo Cid) (sinceSet : Option (OrdSet Cid))
    (args : Args) (c : Cid) (out : Option (Cid × V)) : Prop :=
  ∀ d v, out = some (d, v) ↔ d = c ∧ ∃ node, s.Loads c node ∧
    k.inline sinceSet args c node = some v ∧ k.carried s r c v = .ok false

theorem exists_turn (checks : ∀ c v, ∃ b, k.carried s r c v = .ok b) {c : Cid} {node : Node Cid}
    (loads : s.Loads c node) :
    ∃ out, k.candidate s r sinceSet args c = .ok out ∧ Turn k s r sinceSet args c out := by
  have decoded : s.decodeFromStore (Node Cid) c = .ok node := loads
  have only : ∀ {P : Node Cid → Prop}, (∃ n, s.Loads c n ∧ P n) ↔ P node := by
    intro P
    constructor
    · rintro ⟨n, loads', holds⟩
      exact loads'.unique loads ▸ holds
    · exact fun holds => ⟨node, loads, holds⟩
  unfold LiftKind.candidate Turn
  simp only [decoded, only]
  change ∃ out, k.unlessCarried s r c (k.inline sinceSet args c node) = .ok out ∧ _
  cases k.inline sinceSet args c node with
  | none => exact ⟨none, rfl, fun d v => by simp⟩
  | some vector =>
      obtain ⟨b, check⟩ := checks c vector
      change ∃ out, (_ <$> k.carried s r c vector) = .ok out ∧ _
      rw [check]
      cases b with
      | true =>
          refine ⟨none, rfl, fun d v => ?_⟩
          constructor
          · intro absent
            cases absent
          · rintro ⟨-, same, free⟩
            cases same
            cases check.symm.trans free
      | false =>
          refine ⟨some (c, vector), rfl, fun d v => ?_⟩
          constructor
          · rintro ⟨⟩
            exact ⟨rfl, rfl, check⟩
          · rintro ⟨rfl, same, -⟩
            cases same
            rfl

/-- Distinct entries of a node table have distinct CIDs. -/
theorem nodup_cids (table : NodeTable s head.nodes nodes) :
    (nodes.entries.map Prod.snd).Nodup := by
  rw [List.nodup_map_iff_inj_on nodes.ascending.nodup.of_map]
  intro e m f m' same
  obtain ⟨a, loadsA, rfl'⟩ := table.filed e.1 e.2 (nodes.get?_eq_some_iff.mpr m)
  obtain ⟨b, loadsB, rfl''⟩ := table.filed f.1 f.2 (nodes.get?_eq_some_iff.mpr m')
  rw [same] at loadsA
  obtain rfl := loadsA.unique loadsB
  exact Prod.ext (rfl'.symm.trans rfl'') same

theorem exists_collects (sinceSet : Option (OrdSet Cid)) (args : Args)
    (table : NodeTable s head.nodes nodes)
    (checks : ∀ c v, ∃ b, k.carried s r c v = .ok b) :
    ∃ lifted, k.toLift s r head sinceSet args = .ok lifted ∧
      Collects k s r head sinceSet args lifted := by
  have turn : ∀ e ∈ nodes.entries, ∃ out, k.candidate s r sinceSet args e.2 = .ok out ∧
      Turn k s r sinceSet args e.2 out := fun e m => by
    obtain ⟨node, loads, -⟩ := table.filed e.1 e.2 (nodes.get?_eq_some_iff.mpr m)
    exact exists_turn checks loads
  obtain ⟨found, ran, turns⟩ := Exec.exists_mapM turn
  refine ⟨found.filterMap id, ?_, ⟨fun c v => ?_, ?_⟩⟩
  · unfold LiftKind.toLift
    refine Exec.bind_eq_ok.mpr ⟨_, entries_of_isTree table.tree, ?_⟩
    exact Exec.bind_eq_ok.mpr ⟨_, ran, rfl⟩
  · rw [List.mem_filterMap]
    constructor
    · rintro ⟨_, m, rfl⟩
      obtain ⟨e, inTree, turn⟩ := Exec.exists_left_of_forall₂ turns m
      obtain ⟨rfl, node, loads, rest⟩ := (turn c v).mp rfl
      exact ⟨node, (headNode_iff table).mpr ⟨⟨e, inTree, rfl⟩, loads⟩, rest⟩
    · rintro ⟨node, headNode, rest⟩
      obtain ⟨⟨e, inTree, rfl⟩, loads⟩ := (headNode_iff table).mp headNode
      obtain ⟨out, m, turn⟩ := Exec.exists_right_of_forall₂ turns inTree
      exact ⟨out, m, (turn e.2 v).mpr ⟨rfl, node, loads, rest⟩⟩
  · have sub : ∀ {es : List (ProllyKey × Cid)} {outs : List (Option (Cid × V))},
        List.Forall₂ (fun e out => Turn k s r sinceSet args e.2 out) es outs →
          ((outs.filterMap id).map Prod.fst).Sublist (es.map Prod.snd) := by
      intro es outs all
      induction all with
      | nil => exact List.Sublist.refl _
      | @cons e out es outs turn _ ih =>
          cases out with
          | none =>
              exact ih.cons _
          | some lifted =>
              obtain ⟨d, v⟩ := lifted
              obtain ⟨rfl, -⟩ := (turn d v).mp rfl
              exact ih.cons_cons _
    exact (sub turns).nodup (nodup_cids table)

end Walk

/-! ## What the lift stages -/

variable [Object Cid (Bucket V)]

/-- The buckets after one more vector. -/
def stageOne (name : V → String) (pending : OrdMap Cid (Bucket V)) (e : Cid × V) :
    OrdMap Cid (Bucket V) :=
  pending.modify e.1 fun b => (b.getD {}).upsert (name e.2) e.2

/-- The buckets of a lift. -/
def promoted (name : V → String) (lifted : List (Cid × V)) : OrdMap Cid (Bucket V) :=
  lifted.foldl (stageOne name) OrdMap.empty

/-- How a lift stages: a call for a named vector puts it in the buckets `side.pending` of the
transaction, and changes nothing else of it. -/
structure Stages (k : LiftKind H V) (side : StagingKind Cid V) (name : V → String)
    (put : Transaction Cid → OrdMap Cid (Bucket V) → Transaction Cid) : Prop where
  exec_iff : ∀ (s s' : Store H) (tx tx' : Transaction Cid) (c : Cid) (v : V),
    (tx.exec (k.call c v) : StoreM H _).Returns s tx' s' ↔
      name v ≠ "" ∧ tx' = put tx (stageOne name (side.pending tx) (c, v)) ∧ s' = s
  put_pending : ∀ tx, put tx (side.pending tx) = tx
  put_put : ∀ tx p q, put (put tx p) q = put tx q
  pending_put : ∀ tx p, side.pending (put tx p) = p
  base_put : ∀ tx p, (put tx p).base = tx.base
  newNodes_put : ∀ tx p, (put tx p).newNodes = tx.newNodes
  removedNodes_put : ∀ tx p, (put tx p).removedNodes = tx.removedNodes
  newEdges_put : ∀ tx p, (put tx p).newEdges = tx.newEdges
  removedEdges_put : ∀ tx p, (put tx p).removedEdges = tx.removedEdges

theorem stages_legacyExtra (read : Ipld Cid → Option Embedding) :
    Stages (legacyExtra read : LiftKind H Embedding) embeddingStaging Embedding.model
      fun tx p => { tx with pendingEmbeddings := p } where
  exec_iff s s' tx tx' c v := by
    change (Exec.read fun _ => tx.setEmbedding c v.model v).Returns s tx' s' ↔ _
    rw [Exec.returns_read, setEmbedding, Exec.map_eq_ok]
    constructor
    · rintro ⟨⟨pending, staged, rfl⟩, rfl⟩
      obtain ⟨named, rfl⟩ := stageVector_ok staged
      exact ⟨named, rfl, rfl⟩
    · rintro ⟨named, rfl, rfl⟩
      exact ⟨⟨_, stageVector_of_named _ _ _ named _, rfl⟩, rfl⟩
  put_pending _ := rfl
  put_put _ _ _ := rfl
  pending_put _ _ := rfl
  base_put _ _ := rfl
  newNodes_put _ _ := rfl
  removedNodes_put _ _ := rfl
  newEdges_put _ _ := rfl
  removedEdges_put _ _ := rfl

theorem stages_legacySparse (read : Ipld Cid → Option SparseEmbed) :
    Stages (legacySparse read : LiftKind H SparseEmbed) sparseStaging SparseEmbed.vocabId
      fun tx p => { tx with pendingSparse := p } where
  exec_iff s s' tx tx' c v := by
    change (Exec.read fun _ => tx.setSparseEmbedding c v.vocabId v).Returns s tx' s' ↔ _
    rw [Exec.returns_read, setSparseEmbedding, Exec.map_eq_ok]
    constructor
    · rintro ⟨⟨pending, staged, rfl⟩, rfl⟩
      obtain ⟨named, rfl⟩ := stageVector_ok staged
      exact ⟨named, rfl, rfl⟩
    · rintro ⟨named, rfl, rfl⟩
      exact ⟨⟨_, stageVector_of_named _ _ _ named _, rfl⟩, rfl⟩
  put_pending _ := rfl
  put_put _ _ _ := rfl
  pending_put _ _ := rfl
  base_put _ _ := rfl
  newNodes_put _ _ := rfl
  removedNodes_put _ _ := rfl
  newEdges_put _ _ := rfl
  removedEdges_put _ _ := rfl

section Staging

variable {k : LiftKind H V} {side : StagingKind Cid V} {name : V → String}
  {put : Transaction Cid → OrdMap Cid (Bucket V) → Transaction Cid}

/-- The loop of staging calls. -/
theorem staged_iff (stages : Stages k side name put) (lifted : List (Cid × V))
    {tx tx' : Transaction Cid} {s s' : Store H} :
    (lifted.foldlM (fun tx e => tx.exec (k.call e.1 e.2)) tx : StoreM H _).Returns s tx' s' ↔
      (∀ e ∈ lifted, name e.2 ≠ "") ∧
        tx' = put tx (lifted.foldl (stageOne name) (side.pending tx)) ∧ s' = s := by
  induction lifted generalizing tx s with
  | nil =>
      rw [List.foldlM_nil, Exec.returns_pure, List.foldl_nil, stages.put_pending]
      constructor
      · rintro ⟨rfl, rfl⟩
        exact ⟨List.forall_mem_nil _, rfl, rfl⟩
      · rintro ⟨-, rfl, rfl⟩
        exact ⟨rfl, rfl⟩
  | cons e lifted ih =>
      rw [Exec.returns_foldlM_cons, List.forall_mem_cons, List.foldl_cons]
      constructor
      · rintro ⟨tx₁, s₁, one, rest⟩
        obtain ⟨named, rfl, rfl⟩ := (stages.exec_iff _ _ _ _ _ _).mp one
        obtain ⟨others, rfl, rfl⟩ := ih.mp rest
        rw [stages.put_put, stages.pending_put]
        exact ⟨⟨named, others⟩, rfl, rfl⟩
      · rintro ⟨⟨named, others⟩, rfl, rfl⟩
        refine ⟨_, s', (stages.exec_iff _ _ _ _ _ _).mpr ⟨named, rfl, rfl⟩, ih.mpr ⟨others, ?_, rfl⟩⟩
        rw [stages.put_put, stages.pending_put]

/-- A node that is lifted once gets a bucket of one vector. -/
theorem get?_stageOne (lifted : List (Cid × V)) (once : (lifted.map Prod.fst).Nodup) (c : Cid) :
    ∀ pending : OrdMap Cid (Bucket V), (∀ e ∈ lifted, pending.get? e.1 = none) →
      (lifted.foldl (stageOne name) pending).get? c =
        ((Entries.get? c lifted).map fun v => ({} : Bucket V).upsert (name v) v).or
          (pending.get? c) := by
  induction lifted with
  | nil => intro pending _; rfl
  | cons e lifted ih =>
      intro pending free
      obtain ⟨fresh, once⟩ := List.nodup_cons.mp once
      have elsewhere : ∀ f ∈ lifted, ¬ e.1 = f.1 := fun f m same =>
        fresh (List.mem_map.mpr ⟨f, m, same.symm⟩)
      rw [List.foldl_cons, ih once, stageOne, OrdMap.get?_modify, Entries.get?_cons,
        free e List.mem_cons_self]
      · by_cases here : e.1 = c
        · have later : Entries.get? c lifted = none :=
            Entries.get?_eq_none_iff.mpr fun f m same => elsewhere f m (here.trans same.symm)
          rw [later, if_pos here, if_pos here]
          rfl
        · rw [if_neg here, if_neg here]
      · intro f m
        rw [stageOne, OrdMap.get?_modify, if_neg (elsewhere f m)]
        exact free f (List.mem_cons_of_mem _ m)

/-- The bucket filed under a key is that of some staged node with the key, if there is one. -/
theorem get?_stagedBuckets_cases (pending : OrdMap Cid (Bucket V)) (key : ProllyKey) :
    (∃ c b, pending.get? c = some b ∧ H.cidHash c = key ∧
      (stagedBuckets H pending).get? key = some b.canonical) ∨
    ((∀ c b, pending.get? c = some b → H.cidHash c ≠ key) ∧
      (stagedBuckets H pending).get? key = none) := by
  have loop : ∀ (es : List (Cid × Bucket V)) (m : OrdMap ProllyKey (Bucket V)),
      (∃ e ∈ es, H.cidHash e.1 = key ∧
        (es.foldl (fun m e => m.insert (H.cidHash e.1) e.2.canonical) m).get? key =
          some e.2.canonical) ∨
      ((∀ e ∈ es, H.cidHash e.1 ≠ key) ∧
        (es.foldl (fun m e => m.insert (H.cidHash e.1) e.2.canonical) m).get? key = m.get? key) := by
    intro es
    induction es with
    | nil => exact fun m => .inr ⟨nofun, rfl⟩
    | cons e es ih =>
        intro m
        rw [List.foldl_cons]
        rcases ih (m.insert (H.cidHash e.1) e.2.canonical) with ⟨f, inTail, rest⟩ | ⟨none, same⟩
        · exact .inl ⟨f, List.mem_cons_of_mem _ inTail, rest⟩
        · rw [same, OrdMap.get?_insert]
          by_cases here : H.cidHash e.1 = key
          · exact .inl ⟨e, List.mem_cons_self, here, if_pos here⟩
          · exact .inr ⟨List.forall_mem_cons.mpr ⟨here, none⟩, if_neg here⟩
  rcases loop pending.entries OrdMap.empty with ⟨e, m, at_key, found⟩ | ⟨none, absent⟩
  · exact .inl ⟨e.1, e.2, pending.get?_eq_some_iff.mpr m, at_key, found⟩
  · exact .inr ⟨fun c b found => none (c, b) (pending.get?_eq_some_iff.mp found), absent⟩

end Staging

/-! ## What the lift commits -/

section Commit

variable {k : LiftKind H V} {side : StagingKind Cid V} {name : V → String}
  {put : Transaction Cid → OrdMap Cid (Bucket V) → Transaction Cid} {w w' : World H}
  {r r' : ReadonlyRepo Cid} {g : Graph Cid} {head : Commit Cid} {sinceSet : Option (OrdSet Cid)}
  {args : Args} {stamp : Stamp} {lifted : List (Cid × V)}

theorem staged_put (stages : Stages k side name put) (s : Store H) (r : ReadonlyRepo Cid)
    (p : OrdMap Cid (Bucket V)) : Staged s (put (Transaction.new r) p) :=
  (staged_new s r).congr (stages.newNodes_put _ p) (stages.removedNodes_put _ p)
    (stages.newEdges_put _ p) (stages.removedEdges_put _ p)

/-- What a lift that returns has done. -/
theorem lift_returns (stages : Stages k side name put)
    (pinned : Pinned (fun _ => True) w.store r g) (wet : args.dryRun = false)
    (found : k.toLift w.store r head sinceSet args = .ok lifted)
    (ran : (k.lift r head sinceSet args stamp : WorldM H _).Returns w r' w') :
    lifted = [] ∧ r' = r ∧ w' = w ∨
      lifted ≠ [] ∧ (∀ e ∈ lifted, name e.2 ≠ "") ∧
        Committed (fun _ => True) w (put (Transaction.new r) (promoted name lifted)) g r' w' := by
  obtain ⟨lifted', w₁, walk, rest⟩ := Exec.returns_bind.mp ran
  obtain ⟨read, sameHeads⟩ := returns_onStore.mp walk
  obtain ⟨found', sameStore⟩ := Exec.returns_read.mp read
  obtain rfl := Except.ok.inj (found'.symm.trans found)
  obtain rfl : w₁ = w := by
    cases w₁
    cases w
    cases sameStore
    cases sameHeads
    rfl
  rw [wet, if_neg Bool.false_ne_true] at rest
  cases lifted' with
  | nil =>
      obtain ⟨rfl, rfl⟩ := Exec.returns_pure.mp rest
      exact .inl ⟨rfl, rfl, rfl⟩
  | cons e lifted =>
      obtain ⟨tx, w₂, staging, commit⟩ := Exec.returns_bind.mp rest
      obtain ⟨loop, sameHeads'⟩ := returns_onStore.mp staging
      obtain ⟨named, rfl, sameStore'⟩ := (staged_iff stages _).mp loop
      rw [side.new] at commit
      obtain rfl : w₂ = w₁ := by
        cases w₂
        cases w₁
        cases sameStore'
        cases sameHeads'
        rfl
      refine .inr ⟨List.cons_ne_nil _ _, named, ?_⟩
      refine commitOpts_returns ?_ (staged_put stages _ _ _) (fun _ => trivial) commit
      rw [stages.base_put]
      exact pinned

/-- With nothing to lift the repository stays. -/
theorem lift_nil (wet : args.dryRun = false)
    (found : k.toLift w.store r head sinceSet args = .ok []) :
    (k.lift r head sinceSet args stamp : WorldM H _).Returns w r w := by
  refine Exec.returns_bind.mpr ⟨[], w, ?_, ?_⟩
  · exact returns_onStore.mpr ⟨Exec.returns_read.mpr ⟨found, rfl⟩, rfl⟩
  · rw [wet]
    exact Exec.returns_pure.mpr ⟨rfl, rfl⟩

/-- With something to lift, all of it named and with an encoding, the lift goes through. -/
theorem lift_succeeds (stamp : Stamp) (stages : Stages k side name put)
    (pinned : Pinned (fun _ => True) w.store r g) (wet : args.dryRun = false)
    (found : k.toLift w.store r head sinceSet args = .ok lifted) (some : lifted ≠ [])
    (named : ∀ e ∈ lifted, name e.2 ≠ "")
    (encodes : (put (Transaction.new r) (promoted name lifted)).Encodes H) :
    ∃ r' w', (k.lift r head sinceSet args stamp : WorldM H _).Returns w r' w' := by
  have base : Pinned (fun _ => True) w.store (put (Transaction.new r) (promoted name lifted)).base g := by
    rw [stages.base_put]
    exact pinned
  have checked : (put (Transaction.new r) (promoted name lifted)).checkEdges w.store = .ok () := by
    unfold checkEdges
    rw [stages.newEdges_put]
    rfl
  let opts : CommitOptions :=
    { author := stamp.author, message := args.message.getD (k.summary lifted.length),
      now := stamp.now, fresh := stamp.fresh }
  have default : opts.linearize = false := rfl
  obtain ⟨r', w', commit, -⟩ :=
    commitOpts_succeeds default base (staged_put stages _ _ _) encodes checked trivial
  refine ⟨r', w', Exec.returns_bind.mpr ⟨lifted, w, ?_, ?_⟩⟩
  · exact returns_onStore.mpr ⟨Exec.returns_read.mpr ⟨found, rfl⟩, rfl⟩
  rw [wet, if_neg Bool.false_ne_true, if_neg (by rwa [List.isEmpty_iff])]
  refine Exec.returns_bind.mpr ⟨_, w, returns_onStore.mpr ⟨?_, rfl⟩, commit⟩
  refine (staged_iff stages lifted).mpr ⟨named, ?_, rfl⟩
  rw [side.new, promoted]

/-- A commit of vectors keeps the node tree. -/
theorem nodes_committed (stages : Stages k side name put) (p : OrdMap Cid (Bucket V)) :
    ((put (Transaction.new r) p).committed H g).nodes = g.nodes := by
  refine (committed_of_onlyAdds ?_ ?_ ?_ g).1.trans ?_
  · rw [stages.removedNodes_put]
    rfl
  · rw [stages.removedEdges_put]
    rfl
  · rw [stages.newEdges_put]
    rfl
  · rw [stages.newNodes_put]
    rfl

/-- What the sidecar answers after a commit of vectors. -/
theorem get?_committed (stages : Stages k side name put) (p : OrdMap Cid (Bucket V))
    (key : ProllyKey) :
    (side.buckets ((put (Transaction.new r) p).committed H g)).get? key =
      ((stagedBuckets H p).get? key).or ((side.buckets g).get? key) := by
  rw [side.committed, get?_rebuiltBuckets, stages.pending_put]
  have kept : key ∉ (put (Transaction.new r) p).removedKeys H g.nodes := by
    rw [mem_removedKeys, stages.removedNodes_put]
    rintro ⟨id, removed, -⟩
    cases removed
  rw [if_neg kept]

end Commit

/-! ## Vectors at a key -/

section Keys

variable {k : LiftKind H V} {name : V → String} {s : Store H} {r : ReadonlyRepo Cid}
  {head : Commit Cid} {sinceSet : Option (OrdSet Cid)} {args : Args} {lifted : List (Cid × V)}

/-- What a map of buckets answers. -/
def answer (buckets : OrdMap ProllyKey (Bucket V)) (key : ProllyKey) (m : String) : Option V :=
  (buckets.get? key).bind fun b => b.get m

/-- The answer once some buckets are staged over the others. -/
def answerOver (staged base : OrdMap ProllyKey (Bucket V)) (key : ProllyKey) (m : String) : Option V :=
  ((staged.get? key).or (base.get? key)).bind fun b => b.get m

/-- A key that is staged answers with one lifted vector; at the others nothing changes. -/
theorem answerOver_cases (H : Hashing Cid) (name : V → String)
    (once : (lifted.map Prod.fst).Nodup) (base : OrdMap ProllyKey (Bucket V))
    (key : ProllyKey) :
    (∃ c v, (c, v) ∈ lifted ∧ H.cidHash c = key ∧
      ∀ m, answerOver (stagedBuckets H (promoted name lifted)) base key m =
        if name v = m then some v else none) ∨
    ((∀ c v, (c, v) ∈ lifted → H.cidHash c ≠ key) ∧
      ∀ m, answerOver (stagedBuckets H (promoted name lifted)) base key m = answer base key m) := by
  have staged : ∀ c, (promoted name lifted).get? c =
      (Entries.get? c lifted).map fun v => ({} : Bucket V).upsert (name v) v := fun c =>
    (get?_stageOne lifted once c OrdMap.empty fun _ _ => rfl).trans (Option.or_none)
  unfold answerOver answer
  rcases get?_stagedBuckets_cases (H := H) (promoted name lifted) key with
    ⟨c, b, found, at_key, filed⟩ | ⟨elsewhere, absent⟩
  · rw [staged] at found
    obtain ⟨v, here, rfl⟩ := Option.map_eq_some_iff.mp found
    refine .inl ⟨c, v, (Entries.get?_eq_some_iff_of_nodup once).mp here, at_key, fun m => ?_⟩
    rw [filed, Option.some_or, Option.bind_some, Bucket.get_canonical, Bucket.get_upsert]
    rfl
  · refine .inr ⟨fun c v m => elsewhere c (({} : Bucket V).upsert (name v) v) ?_, fun m => ?_⟩
    · rw [staged, (Entries.get?_eq_some_iff_of_nodup once).mpr m]
      rfl
    · rw [absent, Option.none_or]

/-- An inline vector under whose name the node has none is that of a node without any, and other
head nodes with the same sidecar key have the same inline vector. -/
def IntoEmpty (inline : Cid → Node Cid → Option V) (name : V → String) (s : Store H)
    (head : Commit Cid) (free : Cid → String → Prop) : Prop :=
  ∀ c node v, HeadNode s head c node → inline c node = some v → free c (name v) →
    (∀ m, free c m) ∧
      ∀ c' node', HeadNode s head c' node' → H.cidHash c' = H.cidHash c → inline c' node' = some v

/-- The inline vector of a node, if it has this name. -/
def named (name : V → String) (inline : Option V) (m : String) : Option V :=
  inline.filter fun v => name v = m

theorem named_some (v : V) (m : String) :
    named name (some v) m = if name v = m then some v else none := by
  unfold named
  simp [Option.filter_some]

/-- Of a lift that leaves out what the sidecar has, the answers are those of the law exactly when
it lifts into empty buckets. -/
theorem answers_iff (base : OrdMap ProllyKey (Bucket V))
    (collects : Collects k s r head sinceSet args lifted)
    (checks : ∀ c v, k.carried s r c v = .ok (answer base (H.cidHash c) (name v)).isSome) :
    (∀ c node, HeadNode s head c node → ∀ m,
      answerOver (stagedBuckets H (promoted name lifted)) base (H.cidHash c) m =
        (answer base (H.cidHash c) m).or (named name (k.inline sinceSet args c node) m)) ↔
    IntoEmpty (k.inline sinceSet args) name s head fun c m => answer base (H.cidHash c) m = none := by
  have mem_iff : ∀ c v, (c, v) ∈ lifted ↔ ∃ node, HeadNode s head c node ∧
      k.inline sinceSet args c node = some v ∧ answer base (H.cidHash c) (name v) = none := by
    intro c v
    rw [collects.mem_iff]
    simp only [checks, Except.ok.injEq, Option.isSome_eq_false_iff, Option.isNone_iff_eq_none]
  constructor
  · intro law c node v headNode inline free
    dsimp only at free ⊢
    have here := (mem_iff c v).mpr ⟨node, headNode, inline, free⟩
    obtain ⟨c₀, v₀, inLifted, at_key, answers⟩ | ⟨elsewhere, -⟩ :=
      answerOver_cases H name collects.once base (H.cidHash c)
    · -- the bucket at the key is that of one vector, which the law says is `v`
      have same := law c node headNode (name v)
      rw [answers, free, Option.none_or, inline, named_some, if_pos rfl] at same
      obtain rfl : v₀ = v := by
        split at same
        · exact Option.some.inj same
        · cases same
      have others : ∀ m, name v₀ ≠ m → answer base (H.cidHash c) m = none := by
        intro m other
        have at_m := law c node headNode m
        rw [answers, if_neg other] at at_m
        exact (Option.or_eq_none_iff.mp at_m.symm).1
      refine ⟨fun m => ?_, fun c' node' headNode' sameKey => ?_⟩
      · by_cases this : name v₀ = m
        · exact this ▸ free
        · exact others m this
      · have at_c' := law c' node' headNode' (name v₀)
        rw [sameKey, answers, if_pos rfl, free, Option.none_or] at at_c'
        exact (Option.eq_some_of_filter_eq_some at_c'.symm)
    · exact absurd rfl (elsewhere c v here)
  · intro empty c node headNode m
    obtain ⟨c₀, v₀, inLifted, at_key, answers⟩ | ⟨elsewhere, answers⟩ :=
      answerOver_cases H name collects.once base (H.cidHash c)
    · obtain ⟨node₀, headNode₀, inline₀, free₀⟩ := (mem_iff c₀ v₀).mp inLifted
      obtain ⟨allFree, shared⟩ := empty c₀ node₀ v₀ headNode₀ inline₀ free₀
      have free := allFree m
      dsimp only at free
      rw [at_key] at free
      rw [answers, free, Option.none_or, shared c node headNode at_key.symm, named_some]
    · rw [answers]
      cases old : answer base (H.cidHash c) m with
      | some v => rfl
      | none =>
          rw [Option.none_or]
          cases inline : k.inline sinceSet args c node with
          | none => rfl
          | some v =>
              rw [named_some]
              split
              · rename_i this
                subst this
                exact absurd rfl (elsewhere c v ((mem_iff c v).mpr ⟨node, headNode, inline, old⟩))
              · rfl

end Keys

/-! ## The law -/

/-- What a lift should do: under each name a head node has the vector it had before, else the
inline one, if that has the name; and a second lift has nothing to do. -/
structure LiftLaw (inline : Cid → Node Cid → Option V) (name : V → String) (s : Store H)
    (head : Commit Cid) (before after : Cid → String → Except (Error Cid) (Option V))
    (settled : Prop) : Prop where
  vectors : ∀ c node, HeadNode s head c node → ∀ m, ∃ old, before c m = .ok old ∧
    after c m = .ok (old.or (named name (inline c node) m))
  settled : settled

/-- Running the lift again creates no new operation. -/
def Settled (again : Commit Cid → Stamp → WorldM H (ReadonlyRepo Cid)) (w : World H)
    (r : ReadonlyRepo Cid) : Prop :=
  ∀ head stamp r' w', r.commit = some head → (again head stamp).Returns w r' w' → r' = r ∧ w' = w

/-- What a lift leaves, whether or not it lifts anything. -/
structure Leaves (side : StagingKind Cid V) (name : V → String) (g : Graph Cid)
    (lifted : List (Cid × V)) (w w' : World H) (r' : ReadonlyRepo Cid) (g' : Graph Cid)
    (head' : Commit Cid) : Prop where
  grows : w ≤ w'
  pinned : Pinned (fun _ => True) w'.store r' g'
  head : r'.commit = some head'
  nodes : g'.nodes = g.nodes
  answers : ∀ key m, answer (side.buckets g') key m =
    answerOver (stagedBuckets H (promoted name lifted)) (side.buckets g) key m

section Law

variable {k : LiftKind H V} {side : StagingKind Cid V} {name : V → String}
  {put : Transaction Cid → OrdMap Cid (Bucket V) → Transaction Cid} {w w' : World H}
  {r r' : ReadonlyRepo Cid} {g g' : Graph Cid} {head head' : Commit Cid}
  {sinceSet : Option (OrdSet Cid)} {args : Args} {stamp : Stamp} {lifted : List (Cid × V)}

theorem stands_of_head (pinned : Pinned (fun _ => True) w.store r g) (headIs : r.commit = some head) :
    Stands w.store head g := by
  have holds := pinned.holds
  rw [headIs] at holds
  exact holds

theorem vectorFor_answer (side : StagingKind Cid V) (pinned : Pinned (fun _ => True) w.store r g)
    (c : Cid) (m : String) :
    vectorFor V w.store (r.commit.bind side.root) c m =
      .ok (answer (side.buckets g) (H.cidHash c) m) :=
  vectorFor_sidecar (sidecar_of_pinned side pinned) c m

theorem sparseFor_answer (pinned : Pinned (fun _ => True) w.store r g) (c : Cid) (m : String) :
    r.sparseFor w.store c m = .ok (answer g.sparse (H.cidHash c) m) :=
  vectorFor_answer sparseStaging pinned c m

theorem carried_legacySparse (read : Ipld Cid → Option SparseEmbed)
    (pinned : Pinned (fun _ => True) w.store r g) (c : Cid) (se : SparseEmbed) :
    (legacySparse read).carried w.store r c se =
      .ok (answer g.sparse (H.cidHash c) se.vocabId).isSome :=
  congrArg (Option.isSome <$> ·) (sparseFor_answer pinned c se.vocabId)

theorem lift_leaves (stages : Stages k side name put)
    (pinned : Pinned (fun _ => True) w.store r g) (headIs : r.commit = some head)
    (wet : args.dryRun = false) (found : k.toLift w.store r head sinceSet args = .ok lifted)
    (ran : (k.lift r head sinceSet args stamp : WorldM H _).Returns w r' w') :
    ∃ g' head', Leaves side name g lifted w w' r' g' head' := by
  rcases lift_returns stages pinned wet found ran with ⟨rfl, rfl, rfl⟩ | ⟨-, -, done⟩
  · exact ⟨g, head, le_refl _, pinned, headIs, rfl, fun _ _ => rfl⟩
  · obtain ⟨head', headIs', -⟩ := done.commit
    refine ⟨_, head', done.grows, done.pinned, headIs', nodes_committed stages _, fun key m => ?_⟩
    unfold answer answerOver
    rw [get?_committed stages]

/-- The head nodes stay. -/
theorem Leaves.headNode_iff (leaves : Leaves side name g lifted w w' r' g' head')
    (stands : Stands w.store head g) {c : Cid} {node : Node Cid} :
    HeadNode w'.store head' c node ↔ HeadNode w.store head c node := by
  have nodes' := (stands_of_head leaves.pinned leaves.head).nodes
  rw [leaves.nodes] at nodes'
  rw [Reindex.headNode_iff nodes', Reindex.headNode_iff stands.nodes]
  refine and_congr_right fun inTree => ⟨fun loads => ?_, fun loads => loads.mono leaves.grows⟩
  obtain ⟨e, m, rfl⟩ := inTree
  obtain ⟨node', loads', -⟩ := stands.nodes.filed e.1 e.2 (g.nodes.get?_eq_some_iff.mpr m)
  obtain rfl := loads.unique (loads'.mono leaves.grows)
  exact loads'

/-- The vectors of the law, as answers of buckets. -/
theorem Leaves.vectors_iff (leaves : Leaves side name g lifted w w' r' g' head')
    (pinned : Pinned (fun _ => True) w.store r g) (inline : Cid → Node Cid → Option V) :
    (∀ c node, HeadNode w.store head c node → ∀ m, ∃ old,
      vectorFor V w.store (r.commit.bind side.root) c m = .ok old ∧
        vectorFor V w'.store (r'.commit.bind side.root) c m =
          .ok (old.or (named name (inline c node) m))) ↔
    ∀ c node, HeadNode w.store head c node → ∀ m,
      answerOver (stagedBuckets H (promoted name lifted)) (side.buckets g) (H.cidHash c) m =
        (answer (side.buckets g) (H.cidHash c) m).or (named name (inline c node) m) := by
  simp only [vectorFor_answer side pinned, vectorFor_answer side leaves.pinned, leaves.answers,
    Except.ok.injEq, exists_eq_left']

/-- A lift that finds nothing the second time is settled. -/
theorem Leaves.settled (leaves : Leaves side name g lifted w w' r' g' head')
    (wet : args.dryRun = false) (found : k.toLift w'.store r' head' sinceSet args = .ok []) :
    Settled (fun head stamp => k.lift r' head sinceSet args stamp) w' r' := by
  intro head'' stamp' r'' w'' headIs again
  obtain rfl := Option.some.inj (leaves.head.symm.trans headIs)
  obtain ⟨rfl, rfl⟩ := (lift_nil wet found).unique again
  exact ⟨rfl, rfl⟩

/-- A second lift that finds something writes an operation. -/
theorem Leaves.not_settled (leaves : Leaves side name g lifted w w' r' g' head')
    (stages : Stages k side name put) (wet : args.dryRun = false) {more : List (Cid × V)}
    (found : k.toLift w'.store r' head' sinceSet args = .ok more) (some : more ≠ [])
    (allNamed : ∀ e ∈ more, name e.2 ≠ "")
    (encodes : (put (Transaction.new r') (promoted name more)).Encodes H) :
    ¬ Settled (fun head stamp => k.lift r' head sinceSet args stamp) w' r' := by
  intro settled
  obtain ⟨r'', w'', again⟩ := lift_succeeds ⟨"", 0, 0⟩ stages leaves.pinned wet found some
    allNamed encodes
  obtain ⟨rfl, rfl⟩ := settled _ _ _ _ leaves.head again
  rcases lift_returns stages leaves.pinned wet found again with ⟨nothing, -⟩ | ⟨-, -, done⟩
  · exact some nothing
  · refine not_mem_parents done.pinned.op ?_
    rw [done.parents, stages.base_put]
    exact List.mem_singleton_self _

/-- **The dense lift** keeps its law when it has nothing to lift. -/
theorem extra_iff (read : Ipld Cid → Option Embedding)
    (pinned : Pinned (fun _ => True) w.store r g) (headIs : r.commit = some head)
    (wet : args.dryRun = false)
    (ran : (runLiftLegacyExtra read r head sinceSet args stamp : WorldM H _).Returns w r' w') :
    LiftLaw ((legacyExtra read : LiftKind H Embedding).inline sinceSet args) Embedding.model w.store
        head (r.embeddingFor w.store) (r'.embeddingFor w'.store)
        (Settled (fun head stamp => (runLiftLegacyExtra read r' head sinceSet args stamp : WorldM H _))
          w' r') ↔
      ∀ c node, HeadNode w.store head c node →
        (legacyExtra read : LiftKind H Embedding).inline sinceSet args c node = none := by
  have stages := stages_legacyExtra (H := H) read
  have stands := stands_of_head pinned headIs
  have checks : ∀ (s : Store H) (r : ReadonlyRepo Cid) c v,
      ∃ b, (legacyExtra read).carried s r c v = .ok b := fun _ _ _ _ => ⟨false, rfl⟩
  obtain ⟨lifted, found, collects⟩ := exists_collects sinceSet args
    stands.nodes (checks w.store r)
  obtain ⟨g', head', leaves⟩ := lift_leaves stages pinned headIs wet found ran
  have stands' := (stands_of_head leaves.pinned leaves.head).nodes
  obtain ⟨more, found', collects'⟩ := exists_collects sinceSet args
    stands' (checks w'.store r')
  have same : ∀ c v, (c, v) ∈ more ↔ (c, v) ∈ lifted := fun c v => by
    rw [collects.mem_iff, collects'.mem_iff]
    exact exists_congr fun node => and_congr_left' (leaves.headNode_iff stands)
  constructor
  · intro law c node headNode
    by_contra offered
    obtain ⟨v, inline⟩ := Option.ne_none_iff_exists'.mp offered
    have here := (collects.mem_iff c v).mpr ⟨node, headNode, inline, rfl⟩
    rcases lift_returns stages pinned wet found ran with ⟨rfl, -⟩ | ⟨-, allNamed, -⟩
    · cases here
    · refine leaves.not_settled stages wet found' (List.ne_nil_of_mem ((same c v).mpr here))
        (fun e m => allNamed e ((same e.1 e.2).mp m)) ⟨fun e m => ?_⟩ law.settled
      cases m
  · intro nothing
    obtain rfl : lifted = [] := by
      refine List.eq_nil_iff_forall_not_mem.mpr fun e m => ?_
      obtain ⟨node, headNode, inline, -⟩ := (collects.mem_iff e.1 e.2).mp m
      cases (nothing _ node headNode).symm.trans inline
    obtain rfl : more = [] := List.eq_nil_iff_forall_not_mem.mpr fun e m =>
      List.not_mem_nil ((same e.1 e.2).mp m)
    refine ⟨(leaves.vectors_iff pinned _).mpr fun c node headNode m => ?_, leaves.settled wet found'⟩
    rw [nothing c node headNode]
    exact Option.or_none.symm

/-- **The sparse lift** keeps its law when it lifts into empty buckets. -/
theorem sparse_iff (read : Ipld Cid → Option SparseEmbed)
    (pinned : Pinned (fun _ => True) w.store r g) (headIs : r.commit = some head)
    (wet : args.dryRun = false)
    (ran : (runLiftLegacySparse read r head sinceSet args stamp : WorldM H _).Returns w r' w') :
    LiftLaw ((legacySparse read : LiftKind H SparseEmbed).inline sinceSet args) SparseEmbed.vocabId
        w.store head (r.sparseFor w.store) (r'.sparseFor w'.store)
        (Settled (fun head stamp => (runLiftLegacySparse read r' head sinceSet args stamp : WorldM H _))
          w' r') ↔
      IntoEmpty ((legacySparse read : LiftKind H SparseEmbed).inline sinceSet args) SparseEmbed.vocabId
        w.store head (fun c m => r.sparseFor w.store c m = .ok none) := by
  have stages := stages_legacySparse (H := H) read
  have stands := stands_of_head pinned headIs
  obtain ⟨lifted, found, collects⟩ := exists_collects sinceSet args
    stands.nodes fun c v => ⟨_, carried_legacySparse read pinned c v⟩
  obtain ⟨g', head', leaves⟩ := lift_leaves stages pinned headIs wet found ran
  have stands' := (stands_of_head leaves.pinned leaves.head).nodes
  obtain ⟨more, found', collects'⟩ := exists_collects sinceSet args
    stands' fun c v => ⟨_, carried_legacySparse read leaves.pinned c v⟩
  have free_iff : ∀ c m, r.sparseFor w.store c m = .ok none ↔
      answer g.sparse (H.cidHash c) m = none := fun c m => by
    rw [sparseFor_answer pinned, Except.ok.injEq]
  have vectors := (leaves.vectors_iff pinned ((legacySparse read).inline sinceSet args)).trans
    (answers_iff (H := H) g.sparse collects (carried_legacySparse read pinned))
  simp only [IntoEmpty, free_iff]
  constructor
  · exact fun law => vectors.mp law.vectors
  · intro empty
    have law := vectors.mpr empty
    obtain rfl : more = [] := by
      refine List.eq_nil_iff_forall_not_mem.mpr fun e m => ?_
      obtain ⟨node, headNode, inline, free⟩ := (collects'.mem_iff e.1 e.2).mp m
      obtain ⟨old, -, now⟩ := law e.1 node ((leaves.headNode_iff stands).mp headNode) e.2.vocabId
      rw [vectorFor_answer sparseStaging leaves.pinned, inline, named_some, if_pos rfl] at now
      rw [carried_legacySparse read leaves.pinned, show answer g'.sparse _ _ = _ from Except.ok.inj now] at free
      cases old <;> cases free
    exact ⟨law, leaves.settled wet found'⟩

end Law

/-- **Lifting legacy vectors.**  The dense lift adds what is inline to what the sidecar has, and
has nothing to do a second time, if and only if no head node that the filters let through has an
inline vector; the sparse lift, if and only if it lifts into empty buckets. -/
theorem lifts_iff (readEmbedding : Ipld Cid → Option Embedding)
    (readSparse : Ipld Cid → Option SparseEmbed) {w : World H} {r : ReadonlyRepo Cid}
    {g : Graph Cid} {head : Commit Cid} (pinned : Pinned (fun _ => True) w.store r g)
    (headIs : r.commit = some head) (sinceSet : Option (OrdSet Cid)) {args : Args}
    (wet : args.dryRun = false) (stamp : Stamp) :
    (∀ r' w', (runLiftLegacyExtra readEmbedding r head sinceSet args stamp :
        WorldM H _).Returns w r' w' →
      (LiftLaw ((legacyExtra readEmbedding : LiftKind H Embedding).inline sinceSet args)
          Embedding.model w.store head (r.embeddingFor w.store) (r'.embeddingFor w'.store)
          (Settled (fun head stamp =>
            (runLiftLegacyExtra readEmbedding r' head sinceSet args stamp : WorldM H _)) w' r') ↔
        ∀ c node, HeadNode w.store head c node →
          (legacyExtra readEmbedding : LiftKind H Embedding).inline sinceSet args c node = none)) ∧
    ∀ r' w', (runLiftLegacySparse readSparse r head sinceSet args stamp :
        WorldM H _).Returns w r' w' →
      (LiftLaw ((legacySparse readSparse : LiftKind H SparseEmbed).inline sinceSet args)
          SparseEmbed.vocabId w.store head (r.sparseFor w.store) (r'.sparseFor w'.store)
          (Settled (fun head stamp =>
            (runLiftLegacySparse readSparse r' head sinceSet args stamp : WorldM H _)) w' r') ↔
        IntoEmpty ((legacySparse readSparse : LiftKind H SparseEmbed).inline sinceSet args)
          SparseEmbed.vocabId w.store head fun c m => r.sparseFor w.store c m = .ok none) :=
  ⟨fun _ _ ran => extra_iff readEmbedding pinned headIs wet ran,
    fun _ _ ran => sparse_iff readSparse pinned headIs wet ran⟩

/-! ## A second model -/

/-- A commit, and a lift on top of it. -/
def liftRun (calls : List (Call ℕ))
    (lift : ReadonlyRepo ℕ → Commit ℕ → WorldM shortHashing (ReadonlyRepo ℕ)) :
    WorldM shortHashing (ReadonlyRepo ℕ × ReadonlyRepo ℕ) := do
  let base ← seeded calls
  let head ← onStore (Exec.read fun _ => base.commit.elim (.error .uninitialized) .ok)
  let next ← lift base head
  return (base, next)

theorem liftRun_returns {calls : List (Call ℕ)}
    {lift : ReadonlyRepo ℕ → Commit ℕ → WorldM shortHashing (ReadonlyRepo ℕ)}
    {base next : ReadonlyRepo ℕ} {w' : World shortHashing}
    (ran : (liftRun calls lift).Returns {} (base, next) w') :
    ∃ w g head, Pinned (fun _ => True) w.store base g ∧ base.commit = some head ∧
      (lift base head).Returns w next w' := by
  obtain ⟨base', w₁, start, ran⟩ := Exec.returns_bind.mp ran
  obtain ⟨head, w₂, read, ran⟩ := Exec.returns_bind.mp ran
  obtain ⟨next', w₃, lifting, done⟩ := Exec.returns_bind.mp ran
  obtain ⟨⟨⟩, rfl⟩ := Exec.returns_pure.mp done
  obtain ⟨g, pinned⟩ := seeded_returns start
  obtain ⟨reads, sameHeads⟩ := returns_onStore.mp read
  obtain ⟨headIs, sameStore⟩ := Exec.returns_read.mp reads
  obtain rfl : w₁ = w₂ := by
    cases w₁
    cases w₂
    cases sameStore
    cases sameHeads
    rfl
  cases at_head : base.commit with
  | none =>
      rw [at_head] at headIs
      cases headIs
  | some commit =>
      rw [at_head] at headIs
      cases headIs
      exact ⟨w₁, g, _, pinned, rfl, lifting⟩

/-- A legacy node, with its two vectors inline. -/
def grace : Node ℕ where
  id := 1
  ntype := "Person"
  extra := OrdMap.ofList
    [("embed", .map [("dim", .integer 1), ("model", .string "m"), ("vector", .bytes [0, 0, 0, 0])]),
      ("sparse_embed", .map [("indices", .list []), ("values", .list []), ("vocab_id", .string "m")])]

def graceCid : ℕ := shortHashing.cidOf (Object.toBlock grace)

def readGrace : Ipld ℕ → Option Embedding
  | .map [("dim", .integer 1), ("model", .string model), ("vector", .bytes vector)] =>
      some ⟨model, .f32, 1, vector⟩
  | _ => none

def readGraceSparse : Ipld ℕ → Option SparseEmbed
  | .map [("indices", .list []), ("values", .list []), ("vocab_id", .string vocabId)] =>
      some ⟨[], [], vocabId⟩
  | _ => none

/-- The node is committed with a vector of another model in each sidecar, then lifted. -/
def graceRun (lift : ReadonlyRepo ℕ → Commit ℕ → WorldM shortHashing (ReadonlyRepo ℕ)) :
    WorldM shortHashing (ReadonlyRepo ℕ × ReadonlyRepo ℕ) :=
  liftRun [.addNode grace, .setEmbedding graceCid "k" ⟨"k", .f32, 1, [0, 0, 0, 0]⟩,
    .setSparseEmbedding graceCid "k" ⟨[], [], "k"⟩] lift

/-- A vector that a lift takes away. -/
theorem not_liftLaw_of_lost {V : Type} [Object Cid (Bucket V)] (side : StagingKind Cid V)
    {w w' : World H} {r r' : ReadonlyRepo Cid} {g : Graph Cid} {head : Commit Cid}
    {inline : Cid → Node Cid → Option V} {name : V → String} {settled : Prop}
    (pinned : Pinned (fun _ => True) w.store r g) (headIs : r.commit = some head) (le : w ≤ w')
    {id : NodeId} {c : Cid} {m : String} {v : V}
    (held : lookup w'.store head.nodes id = .ok (some c))
    (found : vectorFor V w'.store (r.commit.bind side.root) c m = .ok (some v))
    (lost : vectorFor V w'.store (r'.commit.bind side.root) c m = .ok none) :
    ¬ LiftLaw inline name w.store head (vectorFor V w.store (r.commit.bind side.root))
      (vectorFor V w'.store (r'.commit.bind side.root)) settled := by
  intro law
  have nodes := (stands_of_head pinned headIs).nodes
  rw [lookup_of_isTree (nodes.tree.mono le)] at held
  obtain ⟨node, loads, -⟩ := nodes.filed id c (Except.ok.inj held)
  have headNode : HeadNode w.store head c node :=
    ⟨id, (lookup_of_isTree nodes.tree id).trans held, loads⟩
  obtain ⟨old, before, after⟩ := law.vectors c node headNode m
  rw [vectorFor_answer side (pinned.mono le)] at found
  rw [vectorFor_answer side pinned] at before
  obtain rfl := Except.ok.inj (before.symm.trans found)
  rw [lost] at after
  cases after

/-- A run that takes a vector away. -/
def takesAway {V : Type} [Object ℕ (Bucket V)] (side : StagingKind ℕ V) (c : ℕ) (m : String)
    (out : ReadonlyRepo ℕ × ReadonlyRepo ℕ) (w : World shortHashing) : Bool :=
  out.1.commit.any fun head => decide (lookup w.store head.nodes 1 = .ok (some c)) &&
    (Exec.okAnd (vectorFor V w.store (out.1.commit.bind side.root) c m) Option.isSome &&
      Exec.okAnd (vectorFor V w.store (out.2.commit.bind side.root) c m) Option.isNone)

theorem not_liftLaw_of_takesAway {V : Type} [Object ℕ (Bucket V)] {side : StagingKind ℕ V}
    {k : LiftKind shortHashing V} {name : V → String}
    {put : Transaction ℕ → OrdMap ℕ (Bucket V) → Transaction ℕ} {w w' : World shortHashing}
    {r r' : ReadonlyRepo ℕ} {g : Graph ℕ} {head : Commit ℕ} {stamp : Stamp} {settled : Prop}
    {c : ℕ} {m : String} (stages : Stages k side name put)
    (checks : ∀ c v, ∃ b, k.carried w.store r c v = .ok b)
    (pinned : Pinned (fun _ => True) w.store r g) (headIs : r.commit = some head)
    (ran : (k.lift r head none {} stamp : WorldM shortHashing _).Returns w r' w')
    (passed : takesAway side c m (r, r') w' = true) :
    ¬ LiftLaw (k.inline none {}) name w.store head (vectorFor V w.store (r.commit.bind side.root))
      (vectorFor V w'.store (r'.commit.bind side.root)) settled := by
  obtain ⟨_, found, -⟩ := exists_collects none {}
    (stands_of_head pinned headIs).nodes checks
  obtain ⟨_, _, leaves⟩ := lift_leaves stages pinned headIs rfl found ran
  unfold takesAway at passed
  obtain ⟨head', headIs', passed⟩ := (Option.any_eq_true _ _).mp passed
  obtain rfl := Option.some.inj (headIs.symm.trans headIs')
  obtain ⟨held, passed⟩ := Bool.and_eq_true_iff.mp passed
  obtain ⟨before, after⟩ := Bool.and_eq_true_iff.mp passed
  obtain ⟨_, had, isSome⟩ := Exec.exists_of_okAnd before
  obtain ⟨_, lost, isNone⟩ := Exec.exists_of_okAnd after
  obtain ⟨v, rfl⟩ := Option.isSome_iff_exists.mp isSome
  obtain rfl := Option.isNone_iff_eq_none.mp isNone
  exact not_liftLaw_of_lost side pinned headIs leaves.grows (of_decide_eq_true held) had lost

/-- The dense lift takes the vector of the other model away. -/
theorem graceRun_loses : ∃ w w' r r' g head, Pinned (fun _ => True) w.store r g ∧
    r.commit = some head ∧
    (runLiftLegacyExtra readGrace r head none {} ⟨"", 0, 0⟩ :
      WorldM shortHashing _).Returns w r' w' ∧
    ¬ LiftLaw ((legacyExtra readGrace : LiftKind shortHashing Embedding).inline none {})
      Embedding.model w.store head (r.embeddingFor w.store) (r'.embeddingFor w'.store)
      (Settled (fun head stamp =>
        (runLiftLegacyExtra readGrace r' head none {} stamp : WorldM shortHashing _)) w' r') := by
  have passed : (graceRun fun r head => runLiftLegacyExtra readGrace r head none {} ⟨"", 0, 0⟩).check {}
      (takesAway embeddingStaging graceCid "k") = true := by
    delta graceRun liftRun takesAway graceCid
    rw [shortHashing_eq_quickHashing]
    decide +kernel
  obtain ⟨⟨r, r'⟩, w', ran, passed⟩ := Exec.exists_of_check passed
  obtain ⟨w, g, head, pinned, headIs, ran⟩ := liftRun_returns ran
  exact ⟨w, w', r, r', g, head, pinned, headIs, ran, not_liftLaw_of_takesAway
    (stages_legacyExtra readGrace) (fun _ _ => ⟨false, rfl⟩) pinned headIs ran passed⟩

/-- So does the sparse one. -/
theorem graceRun_losesSparse : ∃ w w' r r' g head, Pinned (fun _ => True) w.store r g ∧
    r.commit = some head ∧
    (runLiftLegacySparse readGraceSparse r head none {} ⟨"", 0, 0⟩ :
      WorldM shortHashing _).Returns w r' w' ∧
    ¬ LiftLaw ((legacySparse readGraceSparse : LiftKind shortHashing SparseEmbed).inline none {})
      SparseEmbed.vocabId w.store head (r.sparseFor w.store) (r'.sparseFor w'.store)
      (Settled (fun head stamp =>
        (runLiftLegacySparse readGraceSparse r' head none {} stamp : WorldM shortHashing _)) w' r') := by
  have passed : (graceRun fun r head =>
        runLiftLegacySparse readGraceSparse r head none {} ⟨"", 0, 0⟩).check {}
      (takesAway sparseStaging graceCid "k") = true := by
    delta graceRun liftRun takesAway graceCid
    rw [shortHashing_eq_quickHashing]
    decide +kernel
  obtain ⟨⟨r, r'⟩, w', ran, passed⟩ := Exec.exists_of_check passed
  obtain ⟨w, g, head, pinned, headIs, ran⟩ := liftRun_returns ran
  exact ⟨w, w', r, r', g, head, pinned, headIs, ran, not_liftLaw_of_takesAway
    (stages_legacySparse readGraceSparse)
    (fun c v => ⟨_, carried_legacySparse readGraceSparse pinned c v⟩) pinned headIs ran passed⟩

/-- Neither lift keeps its law. -/
theorem lifts_take_away :
    (∃ (w w' : World shortHashing) (r r' : ReadonlyRepo ℕ) (g : Graph ℕ) (head : Commit ℕ),
      Pinned (fun _ => True) w.store r g ∧ r.commit = some head ∧
      (runLiftLegacyExtra readGrace r head none {} ⟨"", 0, 0⟩ :
        WorldM shortHashing _).Returns w r' w' ∧
      ¬ LiftLaw ((legacyExtra readGrace : LiftKind shortHashing Embedding).inline none {})
        Embedding.model w.store head (r.embeddingFor w.store) (r'.embeddingFor w'.store)
        (Settled (fun head stamp =>
          (runLiftLegacyExtra readGrace r' head none {} stamp : WorldM shortHashing _)) w' r')) ∧
    ∃ (w w' : World shortHashing) (r r' : ReadonlyRepo ℕ) (g : Graph ℕ) (head : Commit ℕ),
      Pinned (fun _ => True) w.store r g ∧ r.commit = some head ∧
      (runLiftLegacySparse readGraceSparse r head none {} ⟨"", 0, 0⟩ :
        WorldM shortHashing _).Returns w r' w' ∧
      ¬ LiftLaw ((legacySparse readGraceSparse : LiftKind shortHashing SparseEmbed).inline none {})
        SparseEmbed.vocabId w.store head (r.sparseFor w.store) (r'.sparseFor w'.store)
        (Settled (fun head stamp =>
          (runLiftLegacySparse readGraceSparse r' head none {} stamp : WorldM shortHashing _))
          w' r') :=
  ⟨graceRun_loses, graceRun_losesSparse⟩

/-- There the conditions fail. -/
theorem lifts_iff_grace :
    (∃ (w : World shortHashing) (head : Commit ℕ), ¬ ∀ c node, HeadNode w.store head c node →
      (legacyExtra readGrace : LiftKind shortHashing Embedding).inline none {} c node = none) ∧
    ∃ (w : World shortHashing) (r : ReadonlyRepo ℕ) (head : Commit ℕ),
      ¬ IntoEmpty ((legacySparse readGraceSparse : LiftKind shortHashing SparseEmbed).inline none {})
        SparseEmbed.vocabId w.store head fun c m => r.sparseFor w.store c m = .ok none := by
  obtain ⟨w, w', r, r', g, head, pinned, headIs, ran, lossy⟩ := graceRun_loses
  obtain ⟨v, v', q, q', h, head', pinned', headIs', ran', lossy'⟩ := graceRun_losesSparse
  refine ⟨⟨w, head, fun nothing => lossy ?_⟩, v, q, head', fun empty => lossy' ?_⟩
  · exact ((lifts_iff readGrace readGraceSparse pinned headIs none rfl _).1 r' w' ran).mpr nothing
  · exact ((lifts_iff readGrace readGraceSparse pinned' headIs' none rfl _).2 q' v' ran').mpr empty

end Mnem.Cli.Reindex
