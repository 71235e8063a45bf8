/-
# Repo.StagedVectors — what a commit does to the vectors of a node

`lastStaged` is what a transaction should leave: the last vector staged for a
node under a name, unless the node is removed later.  The commit files whole
buckets instead.  A staged bucket takes the place of the base's, names it does
not have included, and it also wins over the removal of a node of the base.  So
the law of the transaction holds at a node and a name exactly where that makes
no difference (`vectors_after_commit_iff`).
-/
import Mnem.Repo.Vectors

namespace Mnem.Repo

open Theory Prolly Index Transaction

set_option autoImplicit false
set_option linter.unusedSectionVars false

variable {Cid : Type} {H : Hashing Cid} [LinearOrder Cid] {V : Type} [Object Cid (Bucket V)]

/-! ## The last vector staged -/

/-- The last vectors staged, after one more call.  A removal takes back those of the node, under
the CID staged for it and under the base's. -/
def lastAfter (staging : Call Cid → Option (Cid × String × V)) (s : Store H) (tx : Transaction Cid)
    (last : Cid → String → Option V) (call : Call Cid) : Cid → String → Option V :=
  match staging call with
  | some (nodeCid, name, vector) =>
      if name = "" then last
      else fun c m => if c = nodeCid ∧ m = name then some vector else last c m
  | none =>
      match call with
      | .removeNode id => fun c m =>
          if tx.newNodes.get? id = some c ∨ tx.base.nodeCid s id = some c then none else last c m
      | _ => last

/-- The last vectors staged by a run of calls, over those staged before. -/
def lastStaged (staging : Call Cid → Option (Cid × String × V)) (s : Store H) (tx : Transaction Cid)
    (last : Cid → String → Option V) : List (Call Cid) → Cid → String → Option V
  | [] => last
  | call :: calls =>
      lastStaged staging (tx.apply s call).2 (tx.apply s call).1 (lastAfter staging s tx last call)
        calls

/-- The transaction removes the node of the base that has this CID. -/
def Removes (s : Store H) (tx : Transaction Cid) (c : Cid) : Prop :=
  ∃ id ∈ tx.removedNodes, tx.base.nodeCid s id = some c

/-- What a repository committed from `base` should have for a node under a name. -/
structure VectorLaw (base after : Except (Error Cid) (Option V)) (last : Option V)
    (removed : Prop) : Prop where
  last_staged : ∀ v, last = some v → after = .ok (some v)
  of_removed : last = none → removed → after = .ok none
  of_kept : last = none → ¬ removed → after = base

/-! ## The buckets staged -/

/-- The staged buckets after one more call: a removal takes the bucket of the staged node. -/
def bucketsAfter (staging : Call Cid → Option (Cid × String × V)) (tx : Transaction Cid)
    (pending : OrdMap Cid (Bucket V)) (call : Call Cid) : OrdMap Cid (Bucket V) :=
  match staging call with
  | some (nodeCid, name, vector) =>
      if name = "" then pending
      else pending.modify nodeCid fun b => (b.getD {}).upsert name vector
  | none =>
      match call with
      | .removeNode id => (tx.newNodes.get? id).elim pending pending.erase
      | _ => pending

/-- A sidecar and the calls that stage vectors for it. -/
structure StagingKind (Cid : Type) [LinearOrder Cid] (V : Type) [Object Cid (Bucket V)] extends
    SidecarKind Cid V where
  pending : Transaction Cid → OrdMap Cid (Bucket V)
  staging : Call Cid → Option (Cid × String × V)
  unset_empty : buckets {} = OrdMap.empty
  new : ∀ base, pending (Transaction.new base) = OrdMap.empty
  changed : ∀ {H : Hashing Cid} {s s' : Store H} {tx tx' : Transaction Cid} {call : Call Cid},
    Change s s' tx call tx' → pending tx' = bucketsAfter staging tx (pending tx) call
  committed : ∀ (H : Hashing Cid) (tx : Transaction Cid) (g : Graph Cid),
    buckets (tx.committed H g) = rebuiltBuckets (buckets g) (stagedBuckets H (pending tx))
      (tx.removedKeys H g.nodes)

theorem pendingEmbeddings_removeNode (tx : Transaction Cid) (s : Store H) (id : NodeId) :
    (tx.removeNode s id).pendingEmbeddings =
      (tx.newNodes.get? id).elim tx.pendingEmbeddings tx.pendingEmbeddings.erase := by
  rw [removeNode_eq]
  obtain ⟨_, _, eq, -⟩ := (tx.unstageNode id).removeEdges_eq (tx.cascade s id)
  rw [eq]
  rfl

theorem pendingSparse_removeNode (tx : Transaction Cid) (s : Store H) (id : NodeId) :
    (tx.removeNode s id).pendingSparse =
      (tx.newNodes.get? id).elim tx.pendingSparse tx.pendingSparse.erase := by
  rw [removeNode_eq]
  obtain ⟨_, _, eq, -⟩ := (tx.unstageNode id).removeEdges_eq (tx.cascade s id)
  rw [eq]
  rfl

/-- The vector that a `set_embedding` stages. -/
def embeddingOf : Call Cid → Option (Cid × String × Embedding)
  | .setEmbedding nodeCid model embedding => some (nodeCid, model, embedding)
  | _ => none

/-- The vector that a `set_sparse_embedding` stages. -/
def sparseOf : Call Cid → Option (Cid × String × SparseEmbed)
  | .setSparseEmbedding nodeCid vocabId sparse => some (nodeCid, vocabId, sparse)
  | _ => none

def embeddingStaging : StagingKind Cid Embedding where
  toSidecarKind := embeddingSidecar
  pending := Transaction.pendingEmbeddings
  staging := embeddingOf
  unset_empty := rfl
  new _ := rfl
  committed _ _ _ := rfl
  changed {H s s' tx tx' call} change := by
    cases change with
    | removal id => exact pendingEmbeddings_removeNode tx s id
    | embedding named => exact (if_neg named).symm
    | node plain _ => cases call <;> first | rfl | exact plain.elim
    | rest plain same => cases call <;> first | exact same.pendingEmbeddings | exact plain.elim
    | _ => rfl

def sparseStaging : StagingKind Cid SparseEmbed where
  toSidecarKind := sparseSidecar
  pending := Transaction.pendingSparse
  staging := sparseOf
  unset_empty := rfl
  new _ := rfl
  committed _ _ _ := rfl
  changed {H s s' tx tx' call} change := by
    cases change with
    | removal id => exact pendingSparse_removeNode tx s id
    | sparse named => exact (if_neg named).symm
    | node plain _ => cases call <;> first | rfl | exact plain.elim
    | rest plain same => cases call <;> first | exact same.pendingSparse | exact plain.elim
    | _ => rfl

/-- The staged buckets have the last vectors staged. -/
def Carries (pending : OrdMap Cid (Bucket V)) (last : Cid → String → Option V) : Prop :=
  ∀ c m v, last c m = some v → ∃ b, pending.get? c = some b ∧ b.get m = some v

section Runs

variable {staging : Call Cid → Option (Cid × String × V)} {s : Store H} {tx : Transaction Cid}
  {pending : OrdMap Cid (Bucket V)} {last : Cid → String → Option V}

theorem Carries.upsert (carries : Carries pending last) (nodeCid : Cid) (name : String)
    (vector : V) :
    Carries (pending.modify nodeCid fun b => (b.getD {}).upsert name vector)
      fun c m => if c = nodeCid ∧ m = name then some vector else last c m := by
  intro c m v found
  rw [OrdMap.get?_modify]
  dsimp only at found
  split at found
  · rename_i here
    obtain ⟨rfl, rfl⟩ := here
    obtain rfl := Option.some.inj found
    exact ⟨_, if_pos rfl, by rw [Bucket.get_upsert, if_pos rfl]⟩
  · rename_i elsewhere
    obtain ⟨b, at_c, has⟩ := carries c m v found
    by_cases same : nodeCid = c
    · subst same
      have other : ¬ name = m := fun h => elsewhere ⟨rfl, h.symm⟩
      exact ⟨_, if_pos rfl, by rw [Bucket.get_upsert, if_neg other, at_c]; exact has⟩
    · exact ⟨b, (if_neg same).trans at_c, has⟩

/-- One call keeps the last vectors in the staged buckets. -/
theorem Carries.after (carries : Carries pending last) (call : Call Cid) :
    Carries (bucketsAfter staging tx pending call) (lastAfter staging s tx last call) := by
  unfold bucketsAfter lastAfter
  cases staging call with
  | some staged =>
      obtain ⟨nodeCid, name, vector⟩ := staged
      dsimp only
      split
      · exact carries
      · exact carries.upsert nodeCid name vector
  | none =>
      cases call with
      | removeNode id =>
          intro c m v found
          dsimp only at found ⊢
          split at found
          · cases found
          · rename_i other
            obtain ⟨b, at_c, has⟩ := carries c m v found
            refine ⟨b, ?_, has⟩
            cases staged : tx.newNodes.get? id with
            | none => exact at_c
            | some c' =>
                have apart : c ≠ c' := fun same => other (.inl (staged.trans (congrArg some same.symm)))
                exact (OrdMap.get?_erase pending c' c).trans ((if_neg apart).trans at_c)
      | _ => exact carries

/-- A run of calls does. -/
theorem Carries.stage (k : StagingKind Cid V) (calls : List (Call Cid))
    (carries : Carries (k.pending tx) last) :
    Carries (k.pending (tx.stage s calls).1) (lastStaged k.staging s tx last calls) := by
  induction calls generalizing s tx last with
  | nil => exact carries
  | cons call calls ih =>
      refine ih ?_
      rw [k.changed (apply_change s tx call)]
      exact carries.after call

end Runs

/-! ## The law and where it holds -/

/-- No other CID that the transaction stages vectors for, or removes, has the sidecar key of this
one. -/
def KeyApart (H : Hashing Cid) (s : Store H) (tx : Transaction Cid)
    (pending : OrdMap Cid (Bucket V)) (c : Cid) : Prop :=
  ∀ c', (pending.get? c').isSome ∨ Removes s tx c' → H.cidHash c' = H.cidHash c → c' = c

/-- Where no vector is staged under the name, a staged bucket has what the law asks for: nothing,
and the base has nothing either or the node is removed; or the vector of the base, and the node
stays. -/
def Undisturbed (base : Except (Error Cid) (Option V)) (last : Option V) (removed : Prop)
    (bucket : Option (Bucket V)) (name : String) : Prop :=
  ∀ b, bucket = some b → last = none →
    (b.get name = none → removed ∨ base = .ok none) ∧
      ∀ v, b.get name = some v → ¬ removed ∧ base = .ok (some v)

/-- The staged bucket of a node, under a key that is its own. -/
theorem get?_stagedBuckets {pending : OrdMap Cid (Bucket V)} {c : Cid}
    (apart : ∀ c', (pending.get? c').isSome → H.cidHash c' = H.cidHash c → c' = c) :
    (stagedBuckets H pending).get? (H.cidHash c) = (pending.get? c).map Bucket.canonical := by
  have loop : ∀ (es : List (Cid × Bucket V)) (m : OrdMap ProllyKey (Bucket V)),
      Entries.Ascending es → (∀ e ∈ es, H.cidHash e.1 = H.cidHash c → e.1 = c) →
      (es.foldl (fun m e => m.insert (H.cidHash e.1) e.2.canonical) m).get? (H.cidHash c) =
        ((Entries.get? c es).map Bucket.canonical).or (m.get? (H.cidHash c)) := by
    intro es
    induction es with
    | nil => intro m _ _; rfl
    | cons e es ih =>
        intro m ascending own
        rw [List.foldl_cons, ih _ ascending.tail fun f member => own f (List.mem_cons_of_mem _ member),
          OrdMap.get?_insert, Entries.get?_cons]
        by_cases here : e.1 = c
        · have later : Entries.get? c es = none := by
            apply Entries.get?_eq_none_iff.mpr
            intro f member same
            exact absurd (List.rel_of_pairwise_cons ascending member) (by rw [here, same]; exact lt_irrefl c)
          rw [later, if_pos (congrArg H.cidHash here), if_pos here]
          rfl
        · have elsewhere : ¬ H.cidHash e.1 = H.cidHash c := fun same =>
            here (own e List.mem_cons_self same)
          rw [if_neg elsewhere, if_neg here]
  rw [stagedBuckets, loop _ _ pending.ascending, OrdMap.get?_empty, Option.or_none]
  · rfl
  · intro e member same
    exact apart e.1 (by rw [pending.get?_eq_some_iff.mpr member]; rfl) same

section Law

variable {P : Graph Cid → Prop} {s : Store H} {tx : Transaction Cid} {r : ReadonlyRepo Cid}
  {g : Graph Cid}

theorem sidecar_of_pinned (k : StagingKind Cid V) (pinned : Pinned P s r g) :
    Sidecar s (r.commit.bind k.root) (k.buckets g) := by
  have holds := pinned.holds
  cases head : r.commit with
  | none =>
      rw [head] at holds
      obtain rfl : g = {} := holds
      rw [k.unset_empty]
      exact sidecar_none s
  | some commit =>
      rw [head] at holds
      exact k.stands holds

/-- A pinned repository reads its vectors from any later store alike. -/
theorem embeddingFor_of_le {s' : Store H} (pinned : Pinned P s r g) (le : s ≤ s') (c : Cid)
    (m : String) : r.embeddingFor s' c m = r.embeddingFor s c m :=
  (vectorFor_sidecar (sidecar_of_pinned embeddingStaging (pinned.mono le)) c m).trans
    (vectorFor_sidecar (sidecar_of_pinned embeddingStaging pinned) c m).symm

theorem mem_removedKeys_iff {c : Cid} (pinned : Pinned P s tx.base g)
    (apart : ∀ c', Removes s tx c' → H.cidHash c' = H.cidHash c → c' = c) :
    H.cidHash c ∈ tx.removedKeys H g.nodes ↔ Removes s tx c := by
  rw [mem_removedKeys]
  constructor
  · rintro ⟨id, removed, c', at_id, sameKey⟩
    have here : tx.base.nodeCid s id = some c' := (pinned.nodeCid_eq id).trans at_id
    obtain rfl := apart c' ⟨id, removed, here⟩ sameKey
    exact ⟨id, removed, here⟩
  · rintro ⟨id, removed, here⟩
    exact ⟨id, removed, c, (pinned.nodeCid_eq id).symm.trans here, rfl⟩

/-- What a vector lookup gives after the commit. -/
theorem get?_committed_buckets (k : StagingKind Cid V) {c : Cid} (pinned : Pinned P s tx.base g)
    (apart : KeyApart H s tx (k.pending tx) c) [Decidable (Removes s tx c)] :
    (k.buckets (tx.committed H g)).get? (H.cidHash c) =
      (((k.pending tx).get? c).map Bucket.canonical).or
        (if Removes s tx c then none else (k.buckets g).get? (H.cidHash c)) := by
  rw [k.committed, get?_rebuiltBuckets, get?_stagedBuckets fun c' staged => apart c' (.inl staged)]
  have keys := mem_removedKeys_iff pinned fun c' removed => apart c' (.inr removed)
  simp only [keys]

/-- The law at one node and name, when the staged bucket has what was staged last. -/
theorem vectorLaw_iff_undisturbed {last : Option V} {base bucket : Option (Bucket V)}
    {removed : Prop} [Decidable removed] {name : String}
    (carries : ∀ v, last = some v → ∃ b, bucket = some b ∧ b.get name = some v) :
    VectorLaw (.ok (base.bind fun b => b.get name) : Except (Error Cid) (Option V))
        (.ok (((bucket.map Bucket.canonical).or (if removed then none else base)).bind fun b =>
          b.get name)) last removed ↔
      Undisturbed (.ok (base.bind fun b => b.get name) : Except (Error Cid) (Option V)) last removed
        bucket name := by
  cases bucket with
  | none =>
      have unstaged : last = none := by
        cases last with
        | none => rfl
        | some v =>
            obtain ⟨_, absent, -⟩ := carries v rfl
            cases absent
      rw [Option.map_none, Option.none_or]
      refine iff_of_true ⟨fun v staged => ?_, fun _ gone => ?_, fun _ stays => ?_⟩ (fun _ => nofun)
      · cases unstaged.symm.trans staged
      · rw [if_pos gone]
        rfl
      · rw [if_neg stays]
  | some b =>
      rw [Option.map_some, Option.some_or, Option.bind_some, Bucket.get_canonical]
      cases last with
      | some v =>
          obtain ⟨_, ⟨⟩, has⟩ := carries v rfl
          rw [has]
          exact iff_of_true ⟨fun _ same => congrArg Except.ok same, nofun, nofun⟩ (fun _ _ => nofun)
      | none =>
          constructor
          · rintro law _ ⟨⟩ -
            by_cases gone : removed
            · have absent := Except.ok.inj (law.of_removed rfl gone)
              refine ⟨fun _ => .inl gone, fun v has => ?_⟩
              cases absent.symm.trans has
            · have same := law.of_kept rfl gone
              exact ⟨fun absent => .inr (same ▸ congrArg Except.ok absent),
                fun v has => ⟨gone, same ▸ congrArg Except.ok has⟩⟩
          · intro undisturbed
            obtain ⟨absent, present⟩ := undisturbed b rfl rfl
            refine ⟨nofun, fun _ gone => ?_, fun _ stays => ?_⟩
            · cases has : b.get name with
              | none => rfl
              | some v => exact absurd gone (present v has).1
            · cases has : b.get name with
              | none => exact ((absent has).resolve_left stays).symm
              | some v => exact (present v has).2.symm

end Law

/-- The transaction that a repository has after a run of calls. -/
def ReadonlyRepo.stagedTx (s : Store H) (r : ReadonlyRepo Cid) (calls : List (Call Cid)) :
    Transaction Cid :=
  ((Transaction.new r).stage s calls).1

/-- The last vectors that a run of calls on a new transaction stages. -/
def ReadonlyRepo.lastStaged (staging : Call Cid → Option (Cid × String × V)) (s : Store H)
    (r : ReadonlyRepo Cid) (calls : List (Call Cid)) : Cid → String → Option V :=
  Repo.lastStaged staging s (Transaction.new r) (fun _ _ => none) calls

theorem carries_stagedTx (k : StagingKind Cid V) (s : Store H) (r : ReadonlyRepo Cid)
    (calls : List (Call Cid)) :
    Carries (k.pending (r.stagedTx s calls)) (r.lastStaged k.staging s calls) := by
  apply Carries.stage
  intro c m v found
  cases found

section Commit

variable {w w' : World H} {r r' : ReadonlyRepo Cid} {g : Graph Cid} {calls : List (Call Cid)}
  {opts : CommitOptions}

/-- **The law of one sidecar.** -/
theorem vectorFor_transact_iff (k : StagingKind Cid V)
    (pinned : Pinned (fun _ => True) w.store r g)
    (ran : (r.transact calls opts : WorldM H _).Returns w r' w') (c : Cid) (m : String)
    (apart : KeyApart H w.store (r.stagedTx w.store calls) (k.pending (r.stagedTx w.store calls)) c) :
    VectorLaw (vectorFor V w.store (r.commit.bind k.root) c m)
        (vectorFor V w'.store (r'.commit.bind k.root) c m)
        (r.lastStaged k.staging w.store calls c m) (Removes w.store (r.stagedTx w.store calls) c) ↔
      Undisturbed (vectorFor V w.store (r.commit.bind k.root) c m)
        (r.lastStaged k.staging w.store calls c m) (Removes w.store (r.stagedTx w.store calls) c)
        ((k.pending (r.stagedTx w.store calls)).get? c) m := by
  classical
  obtain ⟨tx, s₁, staging, le, rfl, staged, ran⟩ := transact_returns ran
  have same : tx.base.stagedTx w.store calls = tx := congrArg Prod.fst staging
  have carried := carries_stagedTx k w.store tx.base calls
  rw [same] at apart carried ⊢
  have done := Transaction.commitOpts_returns (w := { w with store := s₁ }) (pinned.mono le) staged
    (fun _ => trivial) ran
  rw [vectorFor_sidecar (sidecar_of_pinned k pinned),
    vectorFor_sidecar (sidecar_of_pinned k done.pinned), get?_committed_buckets k pinned apart]
  exact vectorLaw_iff_undisturbed (carried c m)

/-- **Vectors across a commit.**  After a transaction a node has, under a name, the last vector
staged for it, none if it was removed, and otherwise what it had before, if and only if its staged
bucket, should there be one, has the same under the names that nothing was staged for. -/
theorem vectors_after_commit_iff (pinned : Pinned (fun _ => True) w.store r g)
    (ran : (r.transact calls opts : WorldM H _).Returns w r' w') (c : Cid) (m : String) :
    let tx := r.stagedTx w.store calls
    (KeyApart H w.store tx tx.pendingEmbeddings c →
      (VectorLaw (r.embeddingFor w.store c m) (r'.embeddingFor w'.store c m)
          (r.lastStaged embeddingOf w.store calls c m) (Removes w.store tx c) ↔
        Undisturbed (r.embeddingFor w.store c m) (r.lastStaged embeddingOf w.store calls c m)
          (Removes w.store tx c) (tx.pendingEmbeddings.get? c) m)) ∧
    (KeyApart H w.store tx tx.pendingSparse c →
      (VectorLaw (r.sparseFor w.store c m) (r'.sparseFor w'.store c m)
          (r.lastStaged sparseOf w.store calls c m) (Removes w.store tx c) ↔
        Undisturbed (r.sparseFor w.store c m) (r.lastStaged sparseOf w.store calls c m)
          (Removes w.store tx c) (tx.pendingSparse.get? c) m)) :=
  ⟨vectorFor_transact_iff embeddingStaging pinned ran c m,
    vectorFor_transact_iff sparseStaging pinned ran c m⟩

end Commit

/-! ## A second model -/

/-- A vector under a second name, on top of the first. -/
def secondModel : List (Call ℕ) :=
  [.setEmbedding (shortHashing.cidOf (Object.toBlock ada)) "k" adaVector]

/-- A node with a vector, and then a vector for it under another name. -/
def modelsRun : WorldM shortHashing (ReadonlyRepo ℕ × ReadonlyRepo ℕ) :=
  transactTwice
    [.addNode ada, .setEmbedding (shortHashing.cidOf (Object.toBlock ada)) "m" adaVector] secondModel

theorem modelsRun_loses : ∃ base next w v, modelsRun.Returns {} (base, next) w ∧
    base.embeddingFor w.store (shortHashing.cidOf (Object.toBlock ada)) "m" = .ok (some v) ∧
    next.embeddingFor w.store (shortHashing.cidOf (Object.toBlock ada)) "m" = .ok none := by
  have passed : modelsRun.check {} (fun out w =>
      Exec.okAnd (out.1.embeddingFor w.store (shortHashing.cidOf (Object.toBlock ada)) "m")
          Option.isSome &&
        Exec.okAnd (out.2.embeddingFor w.store (shortHashing.cidOf (Object.toBlock ada)) "m")
          Option.isNone) = true := by decide +kernel
  obtain ⟨⟨base, next⟩, w, ran, passed⟩ := Exec.exists_of_check passed
  obtain ⟨before, after⟩ := Bool.and_eq_true_iff.mp passed
  obtain ⟨_, found, isSome⟩ := Exec.exists_of_okAnd before
  obtain ⟨_, lost, isNone⟩ := Exec.exists_of_okAnd after
  obtain ⟨v, rfl⟩ := Option.isSome_iff_exists.mp isSome
  obtain rfl := Option.isNone_iff_eq_none.mp isNone
  exact ⟨base, next, w, v, ran, found, lost⟩

theorem apply_setEmbedding (s : Store H) (tx : Transaction Cid) (nodeCid : Cid) {model : String}
    (named : model ≠ "") (embedding : Embedding) :
    tx.apply s (.setEmbedding nodeCid model embedding) =
      ({ tx with pendingEmbeddings :=
          tx.pendingEmbeddings.modify nodeCid fun b => (b.getD {}).upsert model embedding }, s) := by
  apply apply_of_returns
  refine Exec.returns_read.mpr ⟨?_, rfl⟩
  rw [setEmbedding, stageVector_of_named _ _ _ named]
  rfl

/-- What the second transaction stages: one vector, and nothing is removed. -/
theorem secondModel_staged (s : Store shortHashing) (r : ReadonlyRepo ℕ) :
    let tx := r.stagedTx s secondModel
    KeyApart shortHashing s tx tx.pendingEmbeddings (shortHashing.cidOf (Object.toBlock ada)) ∧
      r.lastStaged embeddingOf s secondModel (shortHashing.cidOf (Object.toBlock ada)) "m" = none ∧
      ¬ Removes s tx (shortHashing.cidOf (Object.toBlock ada)) := by
  have call := apply_setEmbedding s (Transaction.new r) (shortHashing.cidOf (Object.toBlock ada))
    (show "k" ≠ "" by decide) adaVector
  have pending : (r.stagedTx s secondModel).pendingEmbeddings =
      OrdMap.empty.modify (shortHashing.cidOf (Object.toBlock ada)) fun b =>
        (b.getD {}).upsert "k" adaVector :=
    congrArg (fun out => out.1.pendingEmbeddings) call
  have removed : (r.stagedTx s secondModel).removedNodes = OrdMap.empty :=
    congrArg (fun out => out.1.removedNodes) call
  have removesNone : ∀ c, ¬ Removes s (r.stagedTx s secondModel) c := by
    rintro c ⟨id, member, -⟩
    rw [removed] at member
    cases member
  refine ⟨fun c' involved _ => ?_, ?_, removesNone _⟩
  · rcases involved with staged | removed
    · rw [pending, OrdMap.get?_modify] at staged
      split at staged
      · rename_i here
        exact here.symm
      · cases staged
    · exact absurd removed (removesNone c')
  · rw [ReadonlyRepo.lastStaged, secondModel, Repo.lastStaged, Repo.lastStaged]
    unfold lastAfter
    dsimp only [embeddingOf]
    rw [if_neg (show "k" ≠ "" by decide)]
    exact if_neg fun both => absurd both.2 (by decide)

/-- A commit that loses the vector of a model that it does not touch. -/
theorem commit_drops_model : ∃ (w w' : World shortHashing) (r r' : ReadonlyRepo ℕ) (g : Graph ℕ)
    (calls : List (Call ℕ)) (opts : CommitOptions) (c : ℕ) (m : String),
    Pinned (fun _ => True) w.store r g ∧
      (r.transact calls opts : WorldM shortHashing _).Returns w r' w' ∧
      KeyApart shortHashing w.store (r.stagedTx w.store calls)
        (r.stagedTx w.store calls).pendingEmbeddings c ∧
      ¬ VectorLaw (r.embeddingFor w.store c m) (r'.embeddingFor w'.store c m)
        (r.lastStaged embeddingOf w.store calls c m) (Removes w.store (r.stagedTx w.store calls) c) := by
  obtain ⟨base, next, w', v, ran, found, lost⟩ := modelsRun_loses
  obtain ⟨w, g, pinned, le, second⟩ := transactTwice_returns ran
  obtain ⟨apart, unstaged, stays⟩ := secondModel_staged w.store base
  refine ⟨w, w', base, next, g, secondModel, _, _, "m", pinned, second, apart, fun law => ?_⟩
  rw [embeddingFor_of_le pinned le, ← law.of_kept unstaged stays, lost] at found
  cases found

/-- The law there. -/
theorem vectors_after_commit_iff_second : ∃ (w : World shortHashing) (r : ReadonlyRepo ℕ) (c : ℕ),
    ¬ Undisturbed (r.embeddingFor w.store c "m") (r.lastStaged embeddingOf w.store secondModel c "m")
      (Removes w.store (r.stagedTx w.store secondModel) c)
      ((r.stagedTx w.store secondModel).pendingEmbeddings.get? c) "m" := by
  obtain ⟨base, next, w', v, ran, found, lost⟩ := modelsRun_loses
  obtain ⟨w, g, pinned, le, second⟩ := transactTwice_returns ran
  obtain ⟨apart, unstaged, stays⟩ := secondModel_staged w.store base
  refine ⟨w, base, shortHashing.cidOf (Object.toBlock ada), fun undisturbed => ?_⟩
  have law := ((vectors_after_commit_iff pinned second _ "m").1 apart).mpr undisturbed
  rw [embeddingFor_of_le pinned le, ← law.of_kept unstaged stays, lost] at found
  cases found

end Mnem.Repo
