/-
# Cli.ActiveBranch — the branch that commits advance, and the head they stand on

Commits, switches and merges move the working head and the active branch
together.  A pull moves the head and the branch it is asked for.

`Tidy h b` is the view in which they agree, `Quiet h b` what every earlier view
then satisfies, so that a merge of operation heads, which asks the common
ancestor where no head has an answer, finds nothing there.  `Neat` holds of every
operation head in every run whose pulls are of the active branch
(`Run.neat`), hence `activeBranch_at_head`.
-/
import Mnem.Addressing
import Mnem.Cli.Commands

namespace Mnem.Cli

open Theory Repo

set_option autoImplicit false
set_option linter.unusedSectionVars false

variable {Cid : Type} {H : Hashing Cid} [LinearOrder Cid]

/-! ## Views -/

/-- The working head is `h`, the active branch is `b`, and it points there. -/
structure Tidy (h : Option Cid) (b : Option String) (v : View Cid) : Prop where
  heads : v.heads = h.toList
  active : Transaction.activeBranch v = b
  target : ∀ name, b = some name → ∃ c, h = some c ∧ v.refs.get? name = some (.normal c)

/-- What is absent in the end has been absent before. -/
structure Quiet (h : Option Cid) (b : Option String) (v : View Cid) : Prop where
  heads : h = none → v.heads = []
  active : b = none → Transaction.activeBranch v = none

section Views

variable {h h' : Option Cid} {b b' : Option String} {v ancestor : View Cid}

theorem Tidy.quiet (tidy : Tidy h b v) : Quiet h b v where
  heads none := by rw [tidy.heads, none]; rfl
  active none := tidy.active.trans none

theorem Quiet.weaken (quiet : Quiet h b v) (moreHead : h' = none → h = none)
    (moreActive : b' = none → b = none) : Quiet h' b' v :=
  ⟨fun none => quiet.heads (moreHead none), fun none => quiet.active (moreActive none)⟩

/-- A view without an active branch asks nothing of its refs. -/
theorem tidy_detached (heads : v.heads = h.toList) (active : Transaction.activeBranch v = none) :
    Tidy h none v := ⟨heads, active, nofun⟩

theorem activeBranch_of_insert {extra : Props Cid} {name : String}
    (same : v.extra = extra.insert "active_branch" (.string name)) :
    Transaction.activeBranch v = some name := by
  unfold Transaction.activeBranch
  rw [same, OrdMap.get?_insert, if_pos rfl]

theorem activeBranch_congr (same : v.extra = ancestor.extra) :
    Transaction.activeBranch v = Transaction.activeBranch ancestor := by
  unfold Transaction.activeBranch
  rw [same]

/-- The active branch of a commit: the one it is told or has, or `main` on the first commit. -/
inductive NewBranch (tx : Transaction Cid) (cid : Cid) (view : View Cid) : Prop where
  | effective (branch : String) (given : tx.effectiveActiveBranch = some branch)
      (active : Transaction.activeBranch view = some branch)
      (target : ¬ tx.refUpdates.contains branch → view.refs.get? branch = some (.normal cid))
  | first (branch : String) (detached : tx.effectiveActiveBranch = none)
      (active : Transaction.activeBranch view = some branch)
      (target : view.refs.get? branch = some (.normal cid))
  | detached (absent : tx.effectiveActiveBranch = none)
      (active : Transaction.activeBranch view = none)

theorem newView_branch (tx : Transaction Cid) (cid : Cid) (now : Nat) :
    NewBranch tx cid (tx.newView cid now) := by
  unfold Transaction.newView Transaction.withActiveBranch
  dsimp only
  split
  · rename_i effective
    have base : Transaction.activeBranch tx.base.view = none := by
      unfold Transaction.effectiveActiveBranch at effective
      exact (Option.or_eq_none_iff.mp effective).2
    unfold Transaction.withTombstones Transaction.withFirstBranch
    dsimp only
    split
    · refine .first "refs/heads/main" effective ?_ ?_
      · rw [effective]
        exact activeBranch_of_insert rfl
      · dsimp only
        rw [OrdMap.get?_insert, if_pos rfl]
    · refine .detached effective ((activeBranch_congr ?_).trans base)
      rfl
  · rename_i branch effective
    refine .effective branch effective (activeBranch_of_insert rfl) fun others => ?_
    dsimp only
    rw [if_neg others, OrdMap.get?_insert, if_pos rfl]

/-! ### Merged views -/

theorem mergeOneRef_of_forall_eq {base target : Option (RefTarget Cid)}
    {heads : List (Option (RefTarget Cid))} (nonempty : heads ≠ []) (all : ∀ t ∈ heads, t = target) :
    mergeOneRef base heads = target := by
  unfold mergeOneRef
  match heads, nonempty with
  | first :: rest, _ =>
      have here : first = target := all first List.mem_cons_self
      split
      · rename_i unmoved
        rw [List.all_eq_true] at unmoved
        exact (of_decide_eq_true (unmoved first List.mem_cons_self)).symm.trans here
      · dsimp only
        rw [if_pos, here]
        rw [List.all_eq_true]
        exact fun t m => decide_eq_true ((all t (List.mem_cons_of_mem _ m)).trans here.symm)

theorem get?_mergeRefs {base : OrdMap String (RefTarget Cid)}
    {heads : List (OrdMap String (RefTarget Cid))} {name : String} {target : RefTarget Cid}
    (nonempty : heads ≠ []) (all : ∀ refs ∈ heads, refs.get? name = some target) :
    (mergeRefs base heads).get? name = some target := by
  have merged : mergeOneRef (base.get? name) (heads.map fun refs => refs.get? name) = some target :=
    mergeOneRef_of_forall_eq (by simpa using nonempty) fun t m => by
      obtain ⟨refs, member, rfl⟩ := List.mem_map.mp m
      exact all refs member
  obtain ⟨first, m⟩ := List.exists_mem_of_ne_nil _ nonempty
  have named : name ∈ (base.keys ++ heads.flatMap OrdMap.keys).foldl OrdSet.add
      (OrdMap.empty : OrdSet String) := by
    refine OrdSet.mem_addAll.mpr (.inl (List.mem_append_right _ (List.mem_flatMap.mpr ⟨first, m, ?_⟩)))
    rw [first.mem_keys_iff, all first m]
    rfl
  have looked := OrdMap.get?_foldl_insert (fun name =>
    mergeOneRef (base.get? name) (heads.map fun refs => refs.get? name))
    ((base.keys ++ heads.flatMap OrdMap.keys).foldl OrdSet.add (OrdMap.empty : OrdSet String)).keys
    OrdMap.empty name
  rw [if_pos (OrdSet.mem_keys.mpr named), merged, Option.some_or] at looked
  rw [← looked]
  unfold mergeRefs
  dsimp only
  congr 1
  congr 1
  funext acc k
  cases mergeOneRef (base.get? k) (heads.map fun refs => refs.get? k) with
  | none => rfl
  | some t => rfl

/-- Views that agree keep what they agree on. -/
theorem tidy_mergeViews {views : List (View Cid)} {out : Option Cid} (nonempty : views ≠ [])
    (each : ∀ v ∈ views, Tidy h b v) (quiet : Quiet h b ancestor) (result : out = h) :
    Tidy h b { mergeViews ancestor views with
      heads := out.elim (mergeViews ancestor views).heads fun c => [c] } where
  heads := by
    subst result
    cases out with
    | some c => rfl
    | none =>
        refine List.eq_nil_iff_forall_not_mem.mpr fun c m => ?_
        rcases mem_mergeViews_heads.mp m with old | ⟨v, member, here⟩
        · rw [quiet.heads rfl] at old
          cases old
        · rw [(each v member).heads] at here
          cases here
  active := by
    have merged := get?_foldl_insertAll View.extra views ancestor.extra "active_branch"
    have answers : ∀ value, (views.reverse.findSome? fun v => v.extra.get? "active_branch") = some value →
        ∃ v ∈ views, v.extra.get? "active_branch" = some value := by
      intro value found
      obtain ⟨v, m, here⟩ := List.exists_of_findSome?_eq_some found
      exact ⟨v, List.mem_reverse.mp m, here⟩
    have extra : (mergeViews ancestor views).extra.get? "active_branch" = _ := merged
    unfold Transaction.activeBranch
    dsimp only
    rw [extra]
    cases found : views.reverse.findSome? fun v => v.extra.get? "active_branch" with
    | some value =>
        obtain ⟨v, m, here⟩ := answers value found
        have active := (each v m).active
        unfold Transaction.activeBranch at active
        rw [here] at active
        exact active
    | none =>
        rw [Option.none_or]
        obtain ⟨v, m⟩ := List.exists_mem_of_ne_nil _ nonempty
        have silent : v.extra.get? "active_branch" = none :=
          List.findSome?_eq_none_iff.mp found v (List.mem_reverse.mpr m)
        have detached := (each v m).active
        unfold Transaction.activeBranch at detached
        rw [silent] at detached
        rw [← detached]
        exact quiet.active detached.symm
  target name active := by
    obtain ⟨v, m⟩ := List.exists_mem_of_ne_nil _ nonempty
    obtain ⟨c, head, -⟩ := (each v m).target name active
    refine ⟨c, head, get?_mergeRefs (by simpa using nonempty) fun refs member => ?_⟩
    obtain ⟨v', m', rfl⟩ := List.mem_map.mp member
    obtain ⟨c', head', there⟩ := (each v' m').target name active
    rw [head] at head'
    cases head'
    exact there

end Views

/-! ## Heads -/

/-- An operation whose view is tidy, with a quiet past. -/
structure Neat (h : Option Cid) (b : Option String) (s : Store H) (r : ReadonlyRepo Cid) : Prop where
  reads : Reads s r
  tidy : Tidy h b r.view
  past : Past (Quiet h b) s r.opId

/-- Every operation head is neat. -/
def NeatHeads (h : Option Cid) (b : Option String) (w : World H) : Prop :=
  ∀ c ∈ w.opHeads, ∃ r : ReadonlyRepo Cid, r.opId = c ∧ Neat h b w.store r

section Neat

variable {h h' : Option Cid} {b b' : Option String} {s s' : Store H} {w w' : World H}
  {r r' : ReadonlyRepo Cid}

theorem Neat.mono (neat : Neat h b s r) (le : s ≤ s') : Neat h b s' r :=
  ⟨⟨neat.reads.op.mono le, neat.reads.view.mono le⟩, neat.tidy, neat.past.mono le⟩

/-- A write on top of a neat operation is neat when its own view is. -/
theorem Neat.follows (neat : Neat h b w.store r) (follows : Follows w r w' r')
    (tidy : Tidy h' b' r'.view) (moreHead : h' = none → h = none)
    (moreActive : b' = none → b = none) : Neat h' b' w'.store r' where
  reads := follows.reads
  tidy := tidy
  past := follows.past (neat.past.weaken fun _ quiet => quiet.weaken moreHead moreActive) tidy.quiet

theorem neatHeads_at (at_op : At w r) (neat : Neat h b w.store r) : NeatHeads h b w := by
  intro c m
  exact ⟨r, (at_op.mem_iff.mp m).symm, neat⟩

theorem loadHead_reads {head : Cid} {l : LoadedHead Cid} (ran : loadHead s head = .ok l) :
    s.Loads head l.op ∧ s.Loads l.op.view l.view ∧ l.commit.map Prod.fst = l.view.heads.head? := by
  unfold loadHead at ran
  obtain ⟨op, opLoads, ran⟩ := Exec.bind_eq_ok.mp ran
  obtain ⟨view, viewLoads, ran⟩ := Exec.bind_eq_ok.mp ran
  split at ran
  · rename_i none
    cases ran
    exact ⟨opLoads, viewLoads, none.symm⟩
  · rename_i cid first
    obtain ⟨commit, -, done⟩ := Exec.bind_eq_ok.mp ran
    cases done
    exact ⟨opLoads, viewLoads, first.symm⟩

/-- Heads at one commit, or without one, merge to that. -/
theorem buildMergeCommit_agree {out : Option Cid} {commits : List (Option (Cid × Commit Cid))}
    (nonempty : commits ≠ []) (agree : ∀ c ∈ commits, c.map Prod.fst = h)
    (ran : (buildMergeCommit commits : StoreM H _).Returns s out s') : out = h := by
  have each : ∀ p ∈ commits.filterMap id, some p.1 = h := by
    intro p m
    obtain ⟨c, member, here⟩ := List.mem_filterMap.mp m
    rw [← agree c member, show c = some p from here]
    rfl
  unfold buildMergeCommit at ran
  cases present : commits.filterMap id with
  | nil =>
      rw [present] at ran
      obtain ⟨rfl, -⟩ := Exec.returns_pure.mp ran
      obtain ⟨c, m⟩ := List.exists_mem_of_ne_nil _ nonempty
      have absent : c = none := List.filterMap_eq_nil_iff.mp present c m
      rw [← agree c m, absent]
      rfl
  | cons first rest =>
      rw [present] at ran each
      have same : (first :: rest).all (fun p => p.1 = first.1) = true := by
        rw [List.all_eq_true]
        intro p m
        refine decide_eq_true (Option.some.inj ?_)
        exact (each p m).trans (each first List.mem_cons_self).symm
      dsimp only at ran
      rw [if_pos same] at ran
      obtain ⟨rfl, -⟩ := Exec.returns_pure.mp ran
      exact each first List.mem_cons_self

/-- Opening neat heads gives a neat repository. -/
theorem Opens.neat (opens : Opens w r w') (at_op : At w' r) (neat : NeatHeads h b w) :
    Neat h b w'.store r := by
  cases opens with
  | single alone =>
      obtain ⟨r', same, neat'⟩ := neat r.opId (at_op.mem_iff.mpr rfl)
      have op : r'.op = r.op := neat'.reads.op.unique (same ▸ at_op.reads.op)
      have view : r'.view = r.view := neat'.reads.view.unique (op ▸ at_op.reads.view)
      exact ⟨at_op.reads, view ▸ neat'.tidy, same ▸ neat'.past⟩
  | merged heads nonempty _ all writes =>
      obtain ⟨loaded, ancestor, out, s₁, each, found, build, view⟩ := writes.merged
      have past : ∀ c ∈ heads, Past (Quiet h b) w.store c := by
        intro c m
        obtain ⟨r', rfl, neat'⟩ := neat c ((all c).mp m)
        exact neat'.past
      have loadedNonempty : loaded ≠ [] := by
        rintro rfl
        exact nonempty (List.forall₂_nil_right_iff.mp each)
      have tidies : ∀ l ∈ loaded, Tidy h b l.view ∧ l.commit.map Prod.fst = h := by
        intro l m
        obtain ⟨c, inHeads, load⟩ := Exec.exists_left_of_forall₂ each m
        obtain ⟨opLoads, viewLoads, commit⟩ := loadHead_reads load
        obtain ⟨r', rfl, neat'⟩ := neat c ((all c).mp inHeads)
        have op : r'.op = l.op := neat'.reads.op.unique opLoads
        have same : r'.view = l.view := neat'.reads.view.unique (op ▸ viewLoads)
        have tidy : Tidy h b l.view := same ▸ neat'.tidy
        refine ⟨tidy, commit.trans ?_⟩
        rw [tidy.heads]
        cases h <;> rfl
      have result : out = h := by
        refine buildMergeCommit_agree (by simpa using loadedNonempty) (fun c m => ?_) build
        obtain ⟨l, member, rfl⟩ := List.mem_map.mp m
        exact (tidies l member).2
      have tidy : Tidy h b r.view := by
        rw [view]
        refine tidy_mergeViews (by simpa using loadedNonempty) (fun v m => ?_)
          (ancestorView_past nonempty past found) result
        obtain ⟨l, member, rfl⟩ := List.mem_map.mp m
        exact (tidies l member).1
      obtain ⟨op, opLoads, parents, viewLoads⟩ := writes.op
      refine ⟨at_op.reads, tidy, .intro op r.view opLoads viewLoads tidy.quiet fun p m => ?_⟩
      exact (past p (parents ▸ m)).mono writes.grows

end Neat

/-! ## Steps -/

section Steps

variable {h : Option Cid} {b : Option String} {w w' : World H} {r r' : ReadonlyRepo Cid}

/-- A repository that was just opened, all of it neat. -/
structure Ready (h : Option Cid) (b : Option String) (w : World H) (r : ReadonlyRepo Cid) : Prop where
  at_op : At w r
  neat : Neat h b w.store r

theorem Ready.heads (ready : Ready h b w r) : NeatHeads h b w :=
  neatHeads_at ready.at_op ready.neat

theorem openRepo_ready (neat : NeatHeads h b w) (ran : (openRepo : WorldM H _).Returns w r w') :
    Ready h b w' r := by
  obtain ⟨at_op, opens⟩ := openRepo_opens ran
  exact ⟨at_op, opens.neat at_op neat⟩

theorem Ready.grow (ready : Ready h b w r) {s : Store H} (le : w.store ≤ s) :
    Ready h b { w with store := s } r := ⟨ready.at_op.grow le, ready.neat.mono le⟩

theorem Ready.follows {h' : Option Cid} {b' : Option String} (ready : Ready h b w r)
    (follows : Follows w r w' r') (tidy : Tidy h' b' r'.view) (moreHead : h' = none → h = none)
    (moreActive : b' = none → b = none) : Ready h' b' w' r' :=
  ⟨follows.at ready.at_op, ready.neat.follows follows tidy moreHead moreActive⟩

/-- A commit that overrides no ref of its own branch. -/
theorem Ready.commit (ready : Ready h b w r) {calls : List (Transaction.Call Cid)}
    {opts : CommitOptions} (ran : (r.transact calls opts : WorldM H _).Returns w r' w')
    (others : ∀ branch, ((Transaction.new r).stage w.store calls).1.effectiveActiveBranch = some branch →
      ¬ ((Transaction.new r).stage w.store calls).1.refUpdates.contains branch) :
    ∃ h' b', NeatHeads h' b' w' := by
  obtain ⟨follows, tx, cid, commit, staged, base, view, -⟩ := transact_follows ran
  rw [← staged] at others
  have heads : r'.view.heads = (some cid).toList := by
    rw [view, Transaction.newView_heads]
    rfl
  have detached : tx.effectiveActiveBranch = none → b = none := by
    intro none
    unfold Transaction.effectiveActiveBranch at none
    rw [base] at none
    rw [← ready.neat.tidy.active]
    exact (Option.or_eq_none_iff.mp none).2
  have branch := newView_branch tx cid opts.time
  rw [← view] at branch
  cases branch with
  | effective name given active target =>
      refine ⟨some cid, some name, (ready.follows follows ⟨heads, active, ?_⟩ nofun nofun).heads⟩
      rintro _ ⟨⟩
      exact ⟨cid, rfl, target (others name given)⟩
  | first name absent active target =>
      refine ⟨some cid, some name, (ready.follows follows ⟨heads, active, ?_⟩ nofun nofun).heads⟩
      rintro _ ⟨⟩
      exact ⟨cid, rfl, target⟩
  | detached absent active =>
      exact ⟨some cid, none,
        (ready.follows follows (tidy_detached heads active) nofun fun _ => detached absent).heads⟩

theorem Ready.switchBranch (ready : Ready h b w r) {newHead : Cid} {branch author : String}
    {now : Nat} (there : r.view.refs.get? branch = some (.normal newHead))
    (ran : (r.switchBranch newHead branch author now : WorldM H _).Returns w r' w') :
    NeatHeads (some newHead) (some branch) w' := by
  obtain ⟨follows, view⟩ := switchBranch_follows ran
  have tidy : Tidy (some newHead) (some branch) r'.view := by
    rw [view]
    refine ⟨rfl, activeBranch_of_insert rfl, ?_⟩
    rintro _ ⟨⟩
    exact ⟨newHead, rfl, there⟩
  exact (ready.follows follows tidy nofun nofun).heads

/-- Setting the active branch, or any ref when there is none, and then the head. -/
theorem Ready.advance (ready : Ready h b w r) {name author : String} {prev : Option (RefTarget Cid)}
    {target : Cid} {now now' : Nat} (active : b = none ∨ b = some name) {u : Unit}
    (ran : (do
      let r2 ← r.updateRef name prev (some (.normal target)) author now
      let _ ← r2.updateHeads target author now'
      : WorldM H Unit).Returns w u w') :
    NeatHeads (some target) b w' := by
  obtain ⟨r₁, w₁, update, ran⟩ := Exec.returns_bind.mp ran
  obtain ⟨r₂, w₂, move, done⟩ := Exec.returns_bind.mp ran
  obtain ⟨-, rfl⟩ := Exec.returns_pure.mp done
  obtain ⟨follows₁, view₁⟩ := updateRef_follows update
  obtain ⟨follows₂, view₂⟩ := updateHeads_follows move
  have here : Transaction.activeBranch r₂.view = b := by
    refine (activeBranch_congr ?_).trans ready.neat.tidy.active
    rw [view₂, view₁]
  have tidy : Tidy (some target) b r₂.view := by
    refine ⟨by rw [view₂]; rfl, here, fun branch at_b => ⟨target, rfl, ?_⟩⟩
    rcases active with none | at_name
    · rw [none] at at_b
      cases at_b
    · obtain rfl := Option.some.inj (at_name.symm.trans at_b)
      rw [view₂, view₁]
      dsimp only
      rw [OrdMap.get?_insert, if_pos rfl]
  refine neatHeads_at (follows₂.at (follows₁.at ready.at_op)) ⟨follows₂.reads, tidy, ?_⟩
  have quiet : ∀ v, Quiet h b v → Quiet (some target) b v :=
    fun v q => q.weaken nofun id
  have view₁Quiet : Quiet (some target) b r₁.view := by
    refine ⟨nofun, fun none => ?_⟩
    refine (activeBranch_congr ?_).trans (ready.neat.tidy.active.trans none)
    rw [view₁]
  exact follows₂.past (follows₁.past (ready.neat.past.weaken quiet) view₁Quiet) tidy.quiet

theorem Ready.land (ready : Ready h b w r) {target : Cid} {author : String} {clock : Nat → Nat}
    {u : Unit} (ran : (land r target author clock : WorldM H _).Returns w u w') :
    ∃ h' b', NeatHeads h' b' w' := by
  unfold Cli.land at ran
  have active := ready.neat.tidy.active
  split at ran
  · rename_i name current
    refine ⟨some target, b, ready.advance ?_ ran⟩
    unfold currentBranchName at current
    rw [active] at current
    cases b with
    | none => exact .inl rfl
    | some branch => exact .inr current
  · rename_i absent
    obtain ⟨r', w₁, move, done⟩ := Exec.returns_bind.mp ran
    obtain ⟨-, rfl⟩ := Exec.returns_pure.mp done
    obtain ⟨follows, view⟩ := updateHeads_follows move
    have detached : b = none := by
      unfold currentBranchName at absent
      rw [active] at absent
      cases b with
      | none => rfl
      | some branch => cases absent
    subst detached
    have tidy : Tidy (some target) none r'.view := by
      rw [view]
      exact tidy_detached rfl ((activeBranch_congr rfl).trans active)
    exact ⟨some target, none, (ready.follows follows tidy nofun id).heads⟩

theorem importBlocks_grows (blocks : List (Block Cid)) :
    Exec.Grows (importBlocks blocks : StoreM H Unit) := by
  unfold importBlocks
  induction blocks with
  | nil => exact Exec.grows_pure _
  | cons block blocks ih =>
      refine Exec.grows_bind ?_ fun _ => ih
      dsimp only
      split
      · rename_i ok
        exact Exec.grows_update fun s => s.le_insert _ ok
      · exact Exec.grows_throw _

/-- A fetched ref leaves neat heads neat, unless it is filed under the active branch. -/
theorem fetchRef_neat {remote author name : String} {received : Cid → List (Block Cid)} {now : Nat}
    {want : Cid} {u : Unit} (base : Neat h b w.store r) (neat : NeatHeads h b w)
    (apart : b ≠ some (trackingKey remote name))
    (ran : (fetchRef r remote received author now name want : WorldM H _).Returns w u w') :
    w.store ≤ w'.store ∧ NeatHeads h b w' := by
  unfold fetchRef at ran
  dsimp only at ran
  split at ran
  · obtain ⟨-, rfl⟩ := Exec.returns_pure.mp ran
    exact ⟨le_refl _, neat⟩
  · obtain ⟨_, w₁, imported, ran⟩ := Exec.returns_bind.mp ran
    obtain ⟨r', w₂, update, done⟩ := Exec.returns_bind.mp ran
    obtain ⟨-, rfl⟩ := Exec.returns_pure.mp done
    obtain ⟨wrote, sameHeads⟩ := returns_onStore.mp imported
    have le := (importBlocks_grows _).of_returns wrote
    obtain ⟨follows, view⟩ := updateRef_follows update
    have tidy : Tidy h b r'.view := by
      rw [view]
      refine ⟨base.tidy.heads, (activeBranch_congr rfl).trans base.tidy.active, fun branch at_b => ?_⟩
      obtain ⟨c, head, target⟩ := base.tidy.target branch at_b
      refine ⟨c, head, ?_⟩
      dsimp only
      rw [OrdMap.get?_insert, if_neg fun same => apart (at_b.trans (congrArg some same.symm))]
      exact target
    refine ⟨le.trans follows.grows, fun c m => ?_⟩
    rw [follows.heads, OpHeads.mem_update, sameHeads] at m
    rcases m.1 with rfl | old
    · exact ⟨r', rfl, (base.mono le).follows follows tidy id id⟩
    · obtain ⟨r₀, at_c, neat₀⟩ := neat c old
      exact ⟨r₀, at_c, neat₀.mono (le.trans follows.grows)⟩

theorem fetchRefs_neat {remote author : String} {received : Cid → List (Block Cid)}
    {clock : Nat → Nat} {u : Unit} : ∀ {refs : List (String × Cid)} {w : World H},
      Neat h b w.store r → NeatHeads h b w →
        (∀ ref ∈ refs, b ≠ some (trackingKey remote ref.1)) →
          (fetchRefs r remote received author clock refs : WorldM H _).Returns w u w' →
            NeatHeads h b w'
  | [], w, _, neat, _, ran => by
      obtain ⟨-, rfl⟩ := Exec.returns_pure.mp ran
      exact neat
  | ref :: refs, w, base, neat, apart, ran => by
      obtain ⟨_, w₁, one, others⟩ := Exec.returns_bind.mp ran
      obtain ⟨le, neat₁⟩ := fetchRef_neat base neat (apart ref List.mem_cons_self) one
      exact fetchRefs_neat (base.mono le) neat₁ (fun x m => apart x (List.mem_cons_of_mem _ m)) others

/-- A fast-forward of the active branch, or of any when there is none. -/
theorem Ready.fastForward (ready : Ready h b w r) {remote branch author : String}
    {clock : Nat → Nat} {u : Unit}
    (pulls : ∀ name, b = some name → name = headsPrefix ++ branch ∨
      ∃ c, h = some c ∧ r.view.refs.get? (trackingKey remote branch) = some (.normal c))
    (ran : (fastForwardAt r remote branch author clock : WorldM H _).Returns w u w') :
    ∃ h' b', NeatHeads h' b' w' := by
  unfold fastForwardAt at ran
  split at ran
  · rename_i tip tracking
    split at ran
    · obtain ⟨-, rfl⟩ := Exec.returns_pure.mp ran
      exact ⟨h, b, ready.heads⟩
    · rename_i behind
      obtain ⟨forward, w₁, walk, ran⟩ := Exec.returns_bind.mp ran
      obtain ⟨walked, sameHeads⟩ := returns_onStore.mp walk
      obtain ⟨-, sameStore⟩ := Exec.returns_read.mp walked
      have ready₁ : Ready h b w₁ r := by
        rw [world_of_heads sameHeads]
        exact ready.grow (le_of_eq sameStore)
      split at ran
      · refine ⟨some tip, b, ready₁.advance ?_ ran⟩
        cases b with
        | none => exact .inl rfl
        | some name =>
            rcases pulls name rfl with rfl | ⟨c, head, target⟩
            · exact .inr rfl
            · rw [tracking] at target
              cases target
              refine absurd ?_ behind
              rw [ready.neat.tidy.heads, head]
              rfl
      · exact absurd ran Exec.returns_throw
  · exact absurd ran Exec.returns_throw

end Steps

/-! ## Runs -/

/-- What the callers keep to: a switch is to a branch that points at the given head, and a commit
overrides no ref of the branch that it advances. -/
def Command.Proper (s : Session H) : Command Cid → Prop
  | .commit calls _ => ∀ r w, (openRepo : WorldM H _).Returns s.world r w → ∀ branch,
      ((Transaction.new r).stage w.store calls).1.effectiveActiveBranch = some branch →
        ¬ ((Transaction.new r).stage w.store calls).1.refUpdates.contains branch
  | .switchBranch newHead branch _ _ => ∀ r w, (openRepo : WorldM H _).Returns s.world r w →
      r.view.refs.get? branch = some (.normal newHead)
  | _ => True

/-- A fetch files no ref under the active branch, and a pull that has something to do is of the
active branch. -/
def Command.PullsActive (s : Session H) : Command Cid → Prop
  | .fetch remote refs _ _ _ => ∀ r w, (openRepo : WorldM H _).Returns s.world r w →
      ∀ ref ∈ refs, Transaction.activeBranch r.view ≠ some (trackingKey remote ref.1)
  | .fastForward remote branch _ _ => ∀ r w, (openRepo : WorldM H _).Returns s.world r w →
      ∀ name, Transaction.activeBranch r.view = some name → name = headsPrefix ++ branch ∨
        ∃ c, r.view.heads.head? = some c ∧
          r.view.refs.get? (trackingKey remote branch) = some (.normal c)
  | _ => True

/-- The sessions that a run from `init` reaches, each step meeting `Q`. -/
inductive Run (Q : Session H → Command Cid → Prop) : Session H → Prop where
  | init {now : Nat} {r : ReadonlyRepo Cid} {w : World H}
      (ran : (Repo.init now : WorldM H _).Returns {} r w) : Run Q { world := w }
  | step {s s' : Session H} {command : Command Cid} (before : Run Q s) (meets : Q s command)
      (ran : command.run.Returns s () s') : Run Q s'

section Runs

variable {h : Option Cid} {b : Option String} {w w' : World H} {r : ReadonlyRepo Cid}

theorem Ready.landed {left right : Cid} {author : String} {clock : Nat → Nat}
    (ready : Ready h b w r) (landed : Landed w r left right author clock w') :
    ∃ h' b', NeatHeads h' b' w' := by
  obtain ⟨strategy, out, target, s₁, merged, -, land⟩ := landed.landed
  have le := (mergeThreeWay_returns merged).grows
  exact (ready.grow le).land land

/-- A command that pulls the active branch only leaves the heads neat. -/
theorem Command.neat {s s' : Session H} {command : Command Cid} (neat : NeatHeads h b s.world)
    (proper : command.Proper s) (active : command.PullsActive s)
    (ran : command.run.Returns s () s') : ∃ h' b', NeatHeads h' b' s'.world := by
  cases command with
  | «open» =>
      obtain ⟨ran, -⟩ := returns_onWorld.mp ran
      obtain ⟨r, w, opened, done⟩ := Exec.returns_bind.mp ran
      obtain ⟨-, rfl⟩ := Exec.returns_pure.mp done
      exact ⟨h, b, (openRepo_ready neat opened).heads⟩
  | commit calls opts =>
      obtain ⟨ran, -⟩ := returns_onWorld.mp ran
      obtain ⟨r, w, opened, ran⟩ := Exec.returns_bind.mp ran
      obtain ⟨r', w₁, committed, done⟩ := Exec.returns_bind.mp ran
      obtain ⟨-, rfl⟩ := Exec.returns_pure.mp done
      exact (openRepo_ready neat opened).commit committed (proper r w opened)
  | switchBranch newHead branch author now =>
      obtain ⟨ran, -⟩ := returns_onWorld.mp ran
      obtain ⟨r, w, opened, ran⟩ := Exec.returns_bind.mp ran
      obtain ⟨r', w₁, switched, done⟩ := Exec.returns_bind.mp ran
      obtain ⟨-, rfl⟩ := Exec.returns_pure.mp done
      exact ⟨_, _, (openRepo_ready neat opened).switchBranch (proper r w opened) switched⟩
  | merge parse branch strategy dryRun author clock =>
      obtain ⟨-, r, w, opened, effect⟩ := merge_returns ran
      have ready := openRepo_ready neat opened
      cases effect with
      | nothing s₁ le => exact ⟨h, b, (ready.grow le).heads⟩
      | landed _ _ landed => exact ready.landed landed
      | conflicts _ mc s₁ le => exact ⟨h, b, (ready.grow le).heads⟩
  | mergeContinue author clock =>
      obtain ⟨_, _, _, r, w, -, opened, landed, -⟩ := mergeContinue_returns ran
      exact (openRepo_ready neat opened).landed landed
  | mergeAbort =>
      obtain rfl := mergeAbort_returns ran
      exact ⟨h, b, neat⟩
  | edit conflicts =>
      have wrote := congrArg Prod.snd (Exec.returns_update.mp ran)
      subst wrote
      exact ⟨h, b, neat⟩
  | fetch remote refs received author clock =>
      obtain ⟨ran, -⟩ := returns_onWorld.mp ran
      obtain ⟨r, w, opened, ran⟩ := Exec.returns_bind.mp ran
      have ready := openRepo_ready neat opened
      refine ⟨h, b, fetchRefs_neat ready.neat ready.heads (fun ref m => ?_) ran⟩
      rw [← ready.neat.tidy.active]
      exact active r w opened ref m
  | fastForward remote branch author clock =>
      obtain ⟨ran, -⟩ := returns_onWorld.mp ran
      obtain ⟨r, w, opened, ran⟩ := Exec.returns_bind.mp ran
      have ready := openRepo_ready neat opened
      refine ready.fastForward (fun name at_b => ?_) ran
      rcases active r w opened name (ready.neat.tidy.active.trans at_b) with same | ⟨c, head, target⟩
      · exact .inl same
      · refine .inr ⟨c, ?_, target⟩
        rw [ready.neat.tidy.heads] at head
        cases h with
        | none => cases head
        | some c' => exact head

theorem Run.neat {s : Session H}
    (run : Run (fun s command => command.Proper s ∧ command.PullsActive s) s) :
    ∃ h b, NeatHeads h b s.world := by
  induction run with
  | init ran =>
      rename_i now r w
      obtain ⟨-, pinned, parents, heads⟩ := init_returns (P := fun _ => True) ran
      obtain ⟨view, -⟩ := init_empty ran
      have tidy : Tidy none none r.view := by
        rw [view]
        exact tidy_detached rfl rfl
      refine ⟨none, none, fun c m => ?_⟩
      rw [heads, OpHeads.mem_update] at m
      rcases m.1 with rfl | old
      · refine ⟨r, rfl, ⟨pinned.op, pinned.view⟩, tidy, .intro r.op r.view pinned.op pinned.view
          tidy.quiet fun p member => ?_⟩
        rw [parents] at member
        cases member
      · exact absurd old (OrdSet.not_mem_empty c)
  | step _ meets ran ih =>
      obtain ⟨h, b, neat⟩ := ih
      exact Command.neat neat meets.1 meets.2 ran

/-- **In a run whose pulls are of the active branch**, the active branch points at the head. -/
theorem activeBranch_at_head {s : Session H}
    (run : Run (fun s command => command.Proper s ∧ command.PullsActive s) s) {r : ReadonlyRepo Cid}
    {w : World H} (opened : (openRepo : WorldM H _).Returns s.world r w) {branch : String}
    (active : Transaction.activeBranch r.view = some branch) :
    ∃ c, r.view.heads.head? = some c ∧ r.view.refs.get? branch = some (.normal c) := by
  obtain ⟨h, b, neat⟩ := run.neat
  have tidy := (openRepo_ready neat opened).neat.tidy
  obtain ⟨c, rfl, target⟩ := tidy.target branch (tidy.active.symm.trans active)
  refine ⟨c, ?_, target⟩
  rw [tidy.heads]
  rfl

end Runs

/-! ### A pull of another branch -/

theorem Run.runAll {Q : Session H → Command Cid → Prop} {commands : List (Command Cid)}
    (meets : ∀ command ∈ commands, ∀ s, Q s command) {s s' : Session H} (run : Run Q s)
    (ran : (runAll commands : SessionM H Unit).Returns s () s') : Run Q s' := by
  induction commands generalizing s with
  | nil =>
      obtain ⟨-, rfl⟩ := Exec.returns_pure.mp ran
      exact run
  | cons command commands ih =>
      obtain ⟨_, s₁, one, others⟩ := Exec.returns_bind.mp ran
      refine ih (fun c m => meets c (List.mem_cons_of_mem _ m)) ?_ others
      exact run.step (meets command List.mem_cons_self s) one

/-- A commit that stages nothing. -/
def emptyCommit (message : String) : Command ℕ := .commit [] { author := "", message := message }

theorem emptyCommit_proper (message : String) (s : Session shortHashing) :
    (emptyCommit message).Proper s := by
  intro r w _ branch _ updated
  cases updated

/-- `init` and some commands, then what the next command opens. -/
def afterCommands (commands : List (Command ℕ)) :
    SessionM shortHashing (Session shortHashing × ReadonlyRepo ℕ) := do
  let _ ← onWorld (Repo.init 0)
  runAll commands
  let s ← Exec.read fun s => .ok s
  let r ← onWorld openRepo
  return (s, r)

theorem afterCommands_returns {Q : Session shortHashing → Command ℕ → Prop}
    {commands : List (Command ℕ)} (meets : ∀ command ∈ commands, ∀ s, Q s command)
    {s s' : Session shortHashing} {r : ReadonlyRepo ℕ}
    (ran : (afterCommands commands).Returns {} (s, r) s') :
    Run Q s ∧ (openRepo : WorldM shortHashing _).Returns s.world r s'.world := by
  obtain ⟨root, s₀, start, ran⟩ := Exec.returns_bind.mp ran
  obtain ⟨_, s₁, steps, ran⟩ := Exec.returns_bind.mp ran
  obtain ⟨s₂, s₃, read, ran⟩ := Exec.returns_bind.mp ran
  obtain ⟨r', s₄, opened, done⟩ := Exec.returns_bind.mp ran
  obtain ⟨⟨⟩, rfl⟩ := Exec.returns_pure.mp done
  obtain ⟨⟨⟩, rfl⟩ := Exec.returns_read.mp read
  obtain ⟨start, files⟩ := returns_onWorld.mp start
  obtain ⟨opened, -⟩ := returns_onWorld.mp opened
  have started : Run Q s₀ := by
    rw [show s₀ = { world := s₀.world } from Session.ext' rfl files]
    exact .init start
  exact ⟨started.runAll meets steps, opened⟩

/-- The blocks of a remote with two commits, and the second commit. -/
def published : List (Block ℕ) × ℕ :=
  match (afterCommands [emptyCommit "first", emptyCommit "second"]).outcome {} with
  | (.ok (s, r), _) => (s.world.store.blocks.map Prod.snd, r.view.heads.headD 0)
  | (.error _, _) => ([], 0)

/-- One commit on `main`, and a pull of another branch of that remote. -/
def strayPull : List (Command ℕ) :=
  [emptyCommit "first", .fetch "origin" [("dev", published.2)] (fun _ => published.1) "" id,
    .fastForward "origin" "dev" "" id]

/-- The commit a target is at, put to a test. -/
def normalPasses (t : RefTarget ℕ) (test : ℕ → Bool) : Bool :=
  match t with
  | .normal c => test c
  | .conflicted _ _ => false

theorem exists_of_normalPasses {t : RefTarget ℕ} {test : ℕ → Bool}
    (passed : normalPasses t test = true) : ∃ c, t = .normal c ∧ test c = true := by
  cases t with
  | normal c => exact ⟨c, rfl, passed⟩
  | conflicted _ _ => cases passed

/-- A pull of a branch that is not active leaves the active branch behind the head. -/
theorem activeBranch_behind : ∃ (s : Session shortHashing) (r : ReadonlyRepo ℕ)
    (w : World shortHashing) (branch : String) (c c' : ℕ),
    Run (fun s command => command.Proper s) s ∧ (openRepo : WorldM shortHashing _).Returns s.world r w ∧
      Transaction.activeBranch r.view = some branch ∧ r.view.heads.head? = some c ∧
        r.view.refs.get? branch = some (.normal c') ∧ c' ≠ c := by
  have passed : (afterCommands strayPull).check {} (fun out _ =>
      decide (Transaction.activeBranch out.2.view = some "refs/heads/main") &&
        out.2.view.heads.head?.any fun c => (out.2.view.refs.get? "refs/heads/main").any fun t =>
          normalPasses t fun c' => decide (c' ≠ c)) = true := by decide +kernel
  obtain ⟨⟨s, r⟩, s', ran, passed⟩ := Exec.exists_of_check passed
  obtain ⟨active, passed⟩ := Bool.and_eq_true_iff.mp passed
  obtain ⟨c, head, passed⟩ := (Option.any_eq_true _ _).mp passed
  obtain ⟨t, target, passed⟩ := (Option.any_eq_true _ _).mp passed
  have proper : ∀ command ∈ strayPull, ∀ s : Session shortHashing, command.Proper s := by
    intro command m s
    simp only [strayPull, List.mem_cons, List.not_mem_nil, or_false] at m
    rcases m with rfl | rfl | rfl
    · exact emptyCommit_proper "first" s
    · exact trivial
    · exact trivial
  obtain ⟨run, opened⟩ := afterCommands_returns proper ran
  obtain ⟨c', rfl, apart⟩ := exists_of_normalPasses passed
  exact ⟨s, r, s'.world, _, c, c', run, opened, of_decide_eq_true active, head, target,
    of_decide_eq_true apart⟩

/-- One commit on `main`, and a pull of `main`; with the sessions before its two parts. -/
def watchedPull : SessionM shortHashing
    (Session shortHashing × Session shortHashing × Session shortHashing × ReadonlyRepo ℕ) := do
  let _ ← onWorld (Repo.init 0)
  (emptyCommit "first").run
  let s ← Exec.read fun s => .ok s
  (Command.fetch "origin" [("main", published.2)] (fun _ => published.1) "" id).run
  let s₁ ← Exec.read fun s => .ok s
  (Command.fastForward "origin" "main" "" id).run
  let s₂ ← Exec.read fun s => .ok s
  let r ← onWorld openRepo
  return (s, s₁, s₂, r)

def onMain (s : Session shortHashing) : Bool :=
  (openRepo : WorldM shortHashing _).check s.world fun r _ =>
    decide (Transaction.activeBranch r.view = some "refs/heads/main")

theorem onMain_opens {s : Session shortHashing} (on : onMain s = true) {r : ReadonlyRepo ℕ}
    {w : World shortHashing} (opened : (openRepo : WorldM shortHashing _).Returns s.world r w) :
    Transaction.activeBranch r.view = some "refs/heads/main" := by
  obtain ⟨r', w', opened', passed⟩ := Exec.exists_of_check on
  obtain ⟨rfl, -⟩ := opened.unique opened'
  exact of_decide_eq_true passed

/-- A pull of the active branch takes it along. -/
theorem activeBranch_at_head_pulled : ∃ (s : Session shortHashing) (r : ReadonlyRepo ℕ)
    (w : World shortHashing) (branch : String),
    (openRepo : WorldM shortHashing _).Returns s.world r w ∧
      Transaction.activeBranch r.view = some branch ∧ r.view.heads = [published.2] ∧
        ∃ c, r.view.heads.head? = some c ∧ r.view.refs.get? branch = some (.normal c) := by
  have passed : watchedPull.check {} (fun out _ => onMain out.1 && (onMain out.2.1 &&
      (decide (Transaction.activeBranch out.2.2.2.view = some "refs/heads/main") &&
        decide (out.2.2.2.view.heads = [published.2])))) = true := by decide +kernel
  obtain ⟨⟨s, s₁, s₂, r⟩, s', ran, passed⟩ := Exec.exists_of_check passed
  obtain ⟨on, passed⟩ := Bool.and_eq_true_iff.mp passed
  obtain ⟨on₁, passed⟩ := Bool.and_eq_true_iff.mp passed
  obtain ⟨active, pulled⟩ := Bool.and_eq_true_iff.mp passed
  obtain ⟨root, s₀, start, ran⟩ := Exec.returns_bind.mp ran
  obtain ⟨_, s₃, committed, ran⟩ := Exec.returns_bind.mp ran
  obtain ⟨_, _, read, ran⟩ := Exec.returns_bind.mp ran
  obtain ⟨⟨⟩, rfl⟩ := Exec.returns_read.mp read
  obtain ⟨_, s₄, fetched, ran⟩ := Exec.returns_bind.mp ran
  obtain ⟨_, _, read, ran⟩ := Exec.returns_bind.mp ran
  obtain ⟨⟨⟩, rfl⟩ := Exec.returns_read.mp read
  obtain ⟨_, s₅, forwarded, ran⟩ := Exec.returns_bind.mp ran
  obtain ⟨_, _, read, ran⟩ := Exec.returns_bind.mp ran
  obtain ⟨⟨⟩, rfl⟩ := Exec.returns_read.mp read
  obtain ⟨r', s₆, opened, done⟩ := Exec.returns_bind.mp ran
  obtain ⟨⟨⟩, rfl⟩ := Exec.returns_pure.mp done
  obtain ⟨start, files⟩ := returns_onWorld.mp start
  obtain ⟨opened, -⟩ := returns_onWorld.mp opened
  have started : Run (fun s command => command.Proper s ∧ command.PullsActive s) s₀ := by
    rw [show s₀ = { world := s₀.world } from Session.ext' rfl files]
    exact .init start
  have atCommit := started.step ⟨emptyCommit_proper "first" s₀, trivial⟩ committed
  have atFetch : Run (fun s command => command.Proper s ∧ command.PullsActive s) s₁ := by
    refine atCommit.step ?_ fetched
    refine ⟨trivial, fun r w open₁ ref m => ?_⟩
    obtain rfl := List.mem_singleton.mp m
    rw [onMain_opens on open₁]
    decide
  have atForward : Run (fun s command => command.Proper s ∧ command.PullsActive s) s₂ := by
    refine atFetch.step ?_ forwarded
    refine ⟨trivial, fun r w open₂ name here => ?_⟩
    rw [onMain_opens on₁ open₂] at here
    cases here
    exact .inl rfl
  have held := of_decide_eq_true active
  exact ⟨_, r, _, _, opened, held, of_decide_eq_true pulled,
    activeBranch_at_head atForward opened held⟩

end Mnem.Cli
