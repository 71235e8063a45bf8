/-
# Repo.CommitReturns — a commit that passes the edge check goes through

Everything that a commit reads is there when its base is good and its staged
objects are stored.  What remains to fail are the edge check, a vector without
an encoding, and the linearize guard; a commit without that guard fails before
the heads are advanced, or not at all.
-/
import Mnem.Repo.HeadMerge
import Mnem.Repo.Session
import Mnem.Theory.Fails

namespace Mnem.Repo

open Theory Theory.Groups Prolly Index

set_option autoImplicit false
set_option linter.unusedSectionVars false

variable {Cid : Type} {H : Hashing Cid} [LinearOrder Cid]

section Sidecars

variable {V : Type} [Object Cid (Bucket V)]

theorem putBuckets_succeeds {pending : OrdMap Cid (Bucket V)}
    (encodes : ∀ e ∈ pending.entries, H.encodes (Object.toBlock e.2.canonical) = true)
    (s : Store H) : (putBuckets pending : StoreM H _).Succeeds s fun _ _ => True := by
  refine Exec.succeeds_foldlM (fun _ _ _ => True) pending.entries ?_ trivial
  rintro before e _ s₁ ⟨after, split⟩ -
  have member : e ∈ pending.entries := by
    rw [← split]
    exact List.mem_append_right _ List.mem_cons_self
  refine Exec.succeeds_bind (putObject_succeeds (encodes e member) s₁) ?_
  exact fun _ _ _ => Exec.succeeds_pure trivial

theorem rebuildSidecar_succeeds {s : Store H} {root : Option Cid}
    {base : OrdMap ProllyKey (Bucket V)} {pending : OrdMap Cid (Bucket V)}
    (removals : OrdSet ProllyKey) (sidecar : Sidecar s root base)
    (encodes : ∀ e ∈ pending.entries, H.encodes (Object.toBlock e.2.canonical) = true) :
    (rebuildSidecar root pending removals : StoreM H _).Succeeds s fun _ _ => True := by
  unfold rebuildSidecar
  split
  · exact Exec.succeeds_pure trivial
  · have opened : (root.elim (buildTree []) pure : StoreM H Cid).Succeeds s
        fun r s₁ => s ≤ s₁ ∧ IsTree s₁ r (bucketCids H base) := by
      cases at_root : root with
      | none =>
          rw [sidecar.absent at_root]
          exact (buildTree_succeeds OrdMap.empty s).mono fun _ _ h => h.2
      | some r => exact Exec.succeeds_pure ⟨le_refl s, sidecar.tree r at_root⟩
    refine Exec.succeeds_bind opened ?_
    rintro r s₁ ⟨-, tree⟩
    obtain ⟨additions, s₂, put, -⟩ := putBuckets_succeeds encodes s₁
    obtain ⟨-, le₂, -⟩ := putBuckets_returns put
    refine put.succeeds_bind ?_
    exact Exec.succeeds_bind (rebuildTree_succeeds (tree.mono le₂) _ _)
      fun _ _ _ => Exec.succeeds_pure trivial

end Sidecars

namespace Transaction

variable {tx : Transaction Cid} {s : Store H} {g : Graph Cid}

/-- The staged vectors have an encoding: no weight is NaN or infinite. -/
structure Encodes (H : Hashing Cid) (tx : Transaction Cid) : Prop where
  sparse : ∀ e ∈ tx.pendingSparse.entries,
    H.encodes (Object.toBlock (Bucket.canonical e.2 : SparseBucket)) = true

theorem newIndexes_succeeds (baseNodes : Cid) {newNodesRoot newEdgesRoot : Cid}
    (holds : HeadHolds s tx.base.commit g) (staged : Staged s tx)
    (nodes : NodeTable s newNodesRoot (tx.committed H g).nodes)
    (edges : EdgeTable s newEdgesRoot (tx.committed H g).edges) :
    (tx.newIndexes baseNodes newNodesRoot newEdgesRoot : StoreM H _).Succeeds s
      fun _ _ => True := by
  obtain ⟨nodeRows, nodesRead, -⟩ := nodes.rows
  obtain ⟨edgeRows, edgesRead, -⟩ := edges.rows
  have rebuilds : (buildIndexSet newNodesRoot newEdgesRoot : StoreM H _).Succeeds s
      fun _ _ => True :=
    (buildIndexSet_succeeds nodes.tree edges.tree nodesRead edgesRead).mono fun _ _ _ => trivial
  unfold newIndexes
  split
  · rename_i _ _ baseIdx appendOnly indexed
    refine Exec.succeeds_read_bind rfl ?_
    split
    · exact rebuilds
    · obtain ⟨commit, head, root⟩ := Option.bind_eq_some_iff.mp indexed
      rw [head] at holds
      obtain ⟨_, _, c, -, -, root', stored, -⟩ := Stands.indexed holds
      obtain rfl : baseIdx = c.cid H := Option.some.inj (root.symm.trans root')
      obtain ⟨addedRows, addedRead⟩ := staged.exists_rows
      exact (incrementalAppendIndexes_succeeds stored addedRead).mono fun _ _ _ => trivial
  · exact rebuilds

theorem baseRoots_succeeds (s : Store H) (tx : Transaction Cid) :
    (tx.baseRoots : StoreM H _).Succeeds s fun _ _ => True := by
  unfold baseRoots
  split
  · exact Exec.succeeds_pure trivial
  · exact Exec.succeeds_bind (buildTree_succeeds OrdMap.empty s)
      fun _ _ _ => Exec.succeeds_pure trivial

theorem writeCommit_succeeds (opts : CommitOptions) (holds : HeadHolds s tx.base.commit g)
    (staged : Staged s tx) (encodes : tx.Encodes H) :
    (tx.writeCommit opts : StoreM H _).Succeeds s fun _ _ => True := by
  obtain ⟨roots, s₁, openRoots, -⟩ := baseRoots_succeeds s tx
  obtain ⟨le₁, baseNodes, baseEdges⟩ := baseRoots_returns holds openRoots
  refine openRoots.succeeds_bind ?_
  refine Exec.succeeds_bind (rebuildTree_succeeds baseNodes.tree _ _) ?_
  rintro nodes s₂ ⟨-, le₂, nodeTree⟩
  refine Exec.succeeds_bind (rebuildTree_succeeds (baseEdges.tree.mono le₂) _ _) ?_
  rintro edges s₃ ⟨-, le₃, edgeTree⟩
  have to₃ := (le₁.trans le₂).trans le₃
  have nodeTable := table_rebuilt baseNodes (le₂.trans le₃) (staged.mono to₃).nodes
    (nodeTree.mono le₃)
  have edgeTable := table_rebuilt (baseEdges.mono le₂) le₃ (staged.mono to₃).edges edgeTree
  obtain ⟨idx, s₄, index, -⟩ := newIndexes_succeeds roots.1 (holds.mono to₃) (staged.mono to₃)
    nodeTable edgeTable
  have le₄ := (newIndexes_returns (holds.mono to₃) (staged.mono to₃)
    (baseNodes.mono (le₂.trans le₃)) nodeTable edgeTable index).1
  refine index.succeeds_bind (Exec.succeeds_read_bind rfl ?_)
  have sidecars := (holds.mono (to₃.trans le₄)).sidecars
  have embeddingsEncode : ∀ e ∈ tx.pendingEmbeddings.entries,
      H.encodes (Object.toBlock e.2.canonical) = true := fun _ _ => rfl
  obtain ⟨embeddings, s₅, buildEmbeddings, -⟩ :=
    rebuildSidecar_succeeds (tx.sidecarRemovals s₄ roots.1) sidecars.1 embeddingsEncode
  obtain ⟨le₅, -⟩ := rebuildSidecar_returns sidecars.1 buildEmbeddings
  refine buildEmbeddings.succeeds_bind ?_
  refine Exec.succeeds_bind
    (rebuildSidecar_succeeds _ (sidecars.2.mono le₅) encodes.sparse) ?_
  rintro sparse s₆ -
  exact (putObject_succeeds rfl s₆).mono fun _ _ _ => trivial

/-! ## The view -/

theorem newView_extra {commitCid : Cid} {now : Nat} {key : String} {v : Ipld Cid}
    (found : (tx.newView commitCid now).extra.get? key = some v) :
    tx.base.view.extra.get? key = some v ∨ ∃ branch, v = .string branch := by
  have inserted : ∀ (m : Props Cid) (k branch : String),
      (m.insert k (.string branch)).get? key = some v →
        m.get? key = some v ∨ ∃ branch, v = .string branch := by
    intro m k branch here
    rw [OrdMap.get?_insert] at here
    split at here
    · exact .inr ⟨branch, (Option.some.inj here).symm⟩
    · exact .inl here
  have first : ∀ view : View Cid, view.extra = tx.base.view.extra →
      (tx.withFirstBranch commitCid view).extra.get? key = some v →
        tx.base.view.extra.get? key = some v ∨ ∃ branch, v = .string branch := by
    intro view same here
    rw [← same]
    unfold withFirstBranch at here
    dsimp only at here
    split at here
    · dsimp only at here
      split at here
      · exact inserted _ _ _ here
      · exact .inl here
    · exact .inl here
  unfold newView withActiveBranch at found
  dsimp only at found
  split at found
  · refine first _ ?_ found
    rfl
  · rcases inserted _ _ _ found with earlier | string
    · refine first _ ?_ earlier
      rfl
    · exact .inr string

/-- The view of a commit has an encoding: to the extensions of the base's it adds strings. -/
theorem newView_encodes {viewCid : Cid} (stored : s.Loads viewCid tx.base.view) (commitCid : Cid)
    (now : Nat) : H.encodes (Object.toBlock (tx.newView commitCid now)) = true := by
  have accepted : ∀ v ∈ (tx.newView commitCid now).extra.values, H.acceptsValue v = true := by
    intro v member
    obtain ⟨⟨key, _⟩, inEntries, rfl⟩ := List.mem_map.mp member
    have found := (OrdMap.get?_eq_some_iff _).mpr inEntries
    rcases newView_extra found with old | ⟨branch, rfl⟩
    · exact accepted_of_loads stored old
    · exact H.acceptsValue_of_numberFree _ rfl
  exact Bool.and_eq_true_iff.mpr ⟨List.all_eq_true.mpr accepted, rfl⟩

/-- **A commit goes through.** -/
theorem commitOpts_succeeds {P : Graph Cid → Prop} {w : World H} {opts : CommitOptions}
    (default : opts.linearize = false) (pinned : Pinned P w.store tx.base g)
    (staged : Staged w.store tx) (encodes : tx.Encodes H) (checked : tx.checkEdges w.store = .ok ())
    (kept : P (tx.committed H g)) :
    (tx.commitOpts opts : WorldM H _).Succeeds w fun r w' => Committed P w tx g r w' := by
  have writes : (tx.writeOperation opts : StoreM H _).Succeeds w.store fun _ _ => True := by
    refine Exec.succeeds_read_bind checked ?_
    obtain ⟨commitCid, s₁, write, -⟩ := writeCommit_succeeds opts pinned.holds staged encodes
    obtain ⟨le₁, -⟩ := writeCommit_returns pinned.holds staged write
    refine write.succeeds_bind ?_
    refine Exec.succeeds_bind
      (putObject_succeeds (newView_encodes (pinned.view.mono le₁) _ _) s₁) ?_
    rintro viewCid s₂ -
    exact (putObject_succeeds rfl s₂).mono fun _ _ _ => trivial
  obtain ⟨opCid, s', wrote, -⟩ := writes
  obtain ⟨-, -, _, _, _, -, -, -, -, -, good⟩ :=
    writeOperation_returns pinned staged (fun _ => kept) wrote
  obtain ⟨r, -, loaded, -, -⟩ := loadAt_of_good good
  let w' : World H := ⟨s', OpHeads.update w.opHeads opCid [tx.base.opId]⟩
  have ran : (tx.commitOpts opts : WorldM H _).Returns w r w' := by
    refine Exec.returns_bind.mpr ⟨opCid, { w with store := s' },
      returns_onStore.mpr ⟨wrote, rfl⟩, ?_⟩
    refine Exec.returns_bind.mpr ⟨(), w', ?_, ?_⟩
    · rw [default]
      exact returns_updateHeads.mpr rfl
    · exact returns_onStore.mpr ⟨Exec.returns_read.mpr ⟨loaded, rfl⟩, rfl⟩
  exact ⟨r, w', ran, commitOpts_returns pinned staged (fun _ => kept) ran⟩

/-- A commit that fails has left the heads alone. -/
theorem commitBy_fails {index : Cid → Cid → Cid → StoreM H Cid} {P : Graph Cid → Prop}
    {opts : CommitOptions} {w w' : World H} {e : Error Cid} (default : opts.linearize = false)
    (builds : tx.BuildsIndexes g index)
    (grows : ∀ baseNodes nodes edges, Exec.Grows (index baseNodes nodes edges))
    (pinned : Pinned P w.store tx.base g) (staged : Staged w.store tx)
    (kept : tx.checkEdges w.store = .ok () → P (tx.committed H g))
    (fails : (tx.commitBy index opts).Fails w e w') : w ≤ w' ∧ w'.opHeads = w.opHeads := by
  rcases Exec.fails_bind.mp fails with unwritten | ⟨opCid, w₁, write, fails⟩
  · obtain ⟨s', stopped, rfl⟩ := Exec.fails_zoom.mp unwritten
    exact ⟨(writeOperationBy_grows tx grows opts).of_fails stopped, rfl⟩
  · -- the operation is written: nothing after it can fail
    obtain ⟨wrote, -⟩ := returns_onStore.mp write
    obtain ⟨-, -, _, _, _, -, -, -, -, -, good⟩ :=
      writeOperationBy_returns builds pinned staged kept wrote
    rcases Exec.fails_bind.mp fails with unpublished | ⟨_, w₂, advance, fails⟩
    · rw [default] at unpublished
      exact absurd unpublished Exec.not_fails_update
    · obtain rfl := publish_returns advance
      obtain ⟨s', stopped, -⟩ := Exec.fails_zoom.mp fails
      obtain ⟨failed, -⟩ := Exec.fails_read.mp stopped
      obtain ⟨r, -, loaded, -, -⟩ := loadAt_of_good good
      cases failed.symm.trans loaded

end Transaction

/-- A transaction whose edges join nodes goes through. -/
theorem transact_succeeds {P : Graph Cid → Prop} {w : World H} {r : ReadonlyRepo Cid} {g : Graph Cid}
    (calls : List (Transaction.Call Cid)) (opts : CommitOptions) (default : opts.linearize = false)
    (pinned : Pinned P w.store r g)
    (encodes : ((Transaction.new r).stage w.store calls).1.Encodes H)
    (checked : ((Transaction.new r).stage w.store calls).1.checkEdges
      ((Transaction.new r).stage w.store calls).2 = .ok ())
    (kept : P (((Transaction.new r).stage w.store calls).1.committed H g)) :
    (r.transact calls opts : WorldM H _).Succeeds w fun r' w' =>
      Pinned P w'.store r' (((Transaction.new r).stage w.store calls).1.committed H g) ∧
        ∃ commit, r'.commit = some commit := by
  have le := Transaction.le_stage w.store (Transaction.new r) calls
  have staged := (Transaction.staged_new w.store r).stage calls
  have base := Transaction.base_stage w.store (Transaction.new r) calls
  let w₁ : World H := ⟨((Transaction.new r).stage w.store calls).2, w.opHeads⟩
  have pinned₁ : Pinned P w₁.store ((Transaction.new r).stage w.store calls).1.base g := by
    rw [base]
    exact pinned.mono le
  have staging : (onStore (Exec.update fun s => (Transaction.new r).stage s calls) :
      WorldM H _).Returns w ((Transaction.new r).stage w.store calls).1 w₁ :=
    returns_onStore.mpr ⟨Exec.returns_update.mpr rfl, rfl⟩
  refine staging.succeeds_bind ?_
  exact (Transaction.commitOpts_succeeds default pinned₁ staged encodes checked kept).mono
    fun _ _ committed => ⟨committed.pinned, committed.commit.imp fun _ here => here.1⟩

end Mnem.Repo
