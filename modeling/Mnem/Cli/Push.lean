/-
# Cli.Push — many pushes against one server

`mnem push` asks a server for its head, sends every block that the local head
reaches, and advances the server's head from the one it was told to the local
one.  Any number of pushes run at once, request by request in any order, and
requests and answers may be lost.

* `pushes_keep`: the server keeps one head, below which is everything that any
  push was told it had accepted.
* `fetch_delivers`: a fetch of the head that the server lists brings every block
  of every accepted push.
* `open_fails_after_push`: what the server then has at its operation heads is no
  operation, so the repository does not open again.
-/
import Mnem.Http.Remote
import Mnem.Theory.Parties

namespace Mnem.Cli.Push

open Theory Repo Cli Http.Remote

set_option autoImplicit false
set_option linter.unusedSectionVars false

variable {Cid : Type} {H : Hashing Cid} [LinearOrder Cid]

/-! ## One push -/

/-- How far a push has come; `tip` is what the server listed. -/
inductive Phase (Cid : Type) where
  | idle
  | listed (tip : Option Cid)
  | staged (tip : Option Cid)
  | upToDate
  | accepted
  | rejected (cause : RemoteError Cid)
  | failed

/-- A push of the head of a local repository. -/
structure Pusher (H : Hashing Cid) where
  store : Store H
  head : Cid
  loaded : isCommit store head = true
  branch : String := defaultRef
  phase : Phase Cid := .idle

/-- What becomes of a request.  An import that is refused has stored some blocks. -/
inductive Delivery where
  | delivered
  | requestLost
  | answerLost
  | refused (stored : Nat)
  deriving DecidableEq

/-- The tip of a branch, which is the head where the server lists no such branch. -/
def remoteTip (refs : RefsResponse Cid) (branch : String) : Option Cid :=
  (refs.refs.get? branch).or refs.head

/-- The blocks of an archive. -/
def sections (items : List (Cid × Block Cid)) : List {b : Block Cid // H.encodes b = true} :=
  items.filterMap fun item => if ok : H.encodes item.2 = true then some ⟨item.2, ok⟩ else none

/-- The request that a push ends with. -/
def Pusher.request (p : Pusher H) (tip : Option Cid) : AdvanceHeadRequest Cid :=
  { old := tip, new := p.head, ref := p.branch }

/-- The next request of a push, and what comes of it. -/
def Pusher.act (F : BlockCodec H) (d : Delivery) (sv : Server H) (p : Pusher H) : Server H × Pusher H :=
  match p.phase with
  | .idle =>
      let tip := remoteTip (getRefs sv.world) p.branch
      if d = .delivered then
        (sv, { p with phase := if tip = some p.head then .upToDate else .listed tip })
      else (sv, { p with phase := .failed })
  | .listed tip =>
      match iterFromRoot F p.store p.head with
      | .error _ => (sv, { p with phase := .failed })
      | .ok items =>
          match d with
          | .delivered => (sv.stage (sections items), { p with phase := .staged tip })
          | .answerLost => (sv.stage (sections items), { p with phase := .failed })
          | .requestLost => (sv, { p with phase := .failed })
          | .refused stored => (sv.stage ((sections items).take stored), { p with phase := .failed })
  | .staged tip =>
      match d with
      | .delivered =>
          match sv.advance (p.request tip) with
          | (.ok _, sv) => (sv, { p with phase := .accepted })
          | (.error e, sv) => (sv, { p with phase := .rejected e })
      | .answerLost => ((sv.advance (p.request tip)).2, { p with phase := .failed })
      | .requestLost => (sv, { p with phase := .failed })
      | .refused _ => (sv, { p with phase := .failed })
  | _ => (sv, p)

/-- A server and the pushes that are about to start. -/
def start (w : World H) (pushes : List (Pusher H)) : Parties (Server H) (Pusher H) where
  shared := { world := w }
  held := pushes.map fun p => { p with phase := .idle }

/-- The server and the pushes after some turns. -/
def after (F : BlockCodec H) (w : World H) (pushes : List (Pusher H)) (turns : List (Nat × Delivery)) :
    Parties (Server H) (Pusher H) :=
  (start w pushes).run (Pusher.act F) turns

/-! ## Walks in two stores -/

section Walks

variable {F : BlockCodec H} {s t : Store H} {root : Cid} {items : List (Cid × Block Cid)}

/-- What a drained walk yields was read. -/
theorem get_of_walked (ran : iterFromRoot F s root = .ok items) {item : Cid × Block Cid}
    (member : item ∈ items) : s.get item.1 = some item.2 ∧
      ∃ links, visit F s item.1 = .ok (item.2, links) := by
  obtain ⟨-, -, values⟩ := Walk.collect_exact ran
  obtain ⟨links, read⟩ := values item member
  exact ⟨(visit_ok read).1, links, read⟩

/-- A walk is the same in every store that has the blocks it yielded. -/
theorem walk_transfers (ran : iterFromRoot F s root = .ok items)
    (held : ∀ item ∈ items, t.get item.1 = some item.2) :
    (∃ items', iterFromRoot F t root = .ok items') ∧
      ∀ c, Relation.ReflTransGen (Refers F s) root c ↔ Relation.ReflTransGen (Refers F t) root c := by
  have here : ∀ {c}, Relation.ReflTransGen (Refers F s) root c →
      ∃ b links, s.get c = some b ∧ t.get c = some b ∧ visit F s c = .ok (b, links) := by
    intro c path
    obtain ⟨item, member, rfl⟩ := List.mem_map.mp ((iterFromRoot_exact ran c).1.mpr path)
    obtain ⟨present, links, read⟩ := get_of_walked ran member
    exact ⟨item.2, links, present, held item member, read⟩
  have same : ∀ c, Relation.ReflTransGen (Refers F s) root c ↔
      Relation.ReflTransGen (Refers F t) root c := by
    intro c
    constructor
    · intro path
      induction path with
      | refl => exact .refl
      | tail before link ih =>
          obtain ⟨b, links, inS, inT, -⟩ := here before
          obtain ⟨block, v, present, cbor, decoded, member⟩ := link
          obtain rfl := Option.some.inj (inS.symm.trans present)
          exact ih.tail ⟨b, v, inT, cbor, decoded, member⟩
    · intro path
      induction path with
      | refl => exact .refl
      | tail _ link ih =>
          obtain ⟨b, links, inS, inT, -⟩ := here ih
          obtain ⟨block, v, present, cbor, decoded, member⟩ := link
          obtain rfl := Option.some.inj (inT.symm.trans present)
          exact ih.tail ⟨b, v, inS, cbor, decoded, member⟩
  refine ⟨?_, same⟩
  cases drained : iterFromRoot F t root with
  | ok items' => exact ⟨items', rfl⟩
  | error e =>
      obtain ⟨k, path, fails⟩ := iterFromRoot_fails drained
      obtain ⟨b, links, inS, inT, read⟩ := here ((same k).mpr path)
      have alike : visit F t k = visit F s k := by
        unfold visit
        rw [inS, inT]
      rw [alike, read] at fails
      cases fails

/-- A commit's parents are links of its value, whatever keys stand beside its fields. -/
theorem mem_links_of_parent {commit : Commit Cid} {c : Cid} (member : c ∈ commit.parents) :
    c ∈ (Block.commit commit).wire.links := by
  have field : ("parents", linkList commit.parents) ∈ (Block.commit commit).fields := by
    simp [Block.fields, Commit.fields]
  have here : (commit.extra.insertAll (Block.commit commit).fields).get? "parents" =
      some (linkList commit.parents) := by
    have once : ((Block.commit commit).fields.reverse.map Prod.fst).Nodup := by
      rw [List.map_reverse, List.nodup_reverse]
      exact Block.fields_nodup _
    rw [OrdMap.get?_insertAll,
      (Entries.get?_eq_some_iff_of_nodup once).mpr (List.mem_reverse.mpr field)]
    rfl
  show c ∈ (Ipld.map (commit.extra.insertAll (Block.commit commit).fields).entries).links
  rw [Ipld.mem_links_map]
  exact ⟨_, (OrdMap.get?_eq_some_iff _).mp here, mem_links_linkList.mpr member⟩

/-- What descends by parents descends by links. -/
theorem refers_of_descends {c a : Cid} (below : Descends s c a) :
    Relation.ReflTransGen (Refers F s) c a := by
  refine Relation.ReflTransGen.mono (fun x y link => ?_) _ _ below
  obtain ⟨ps, found, member⟩ := link
  obtain ⟨commit, loads, rfl⟩ := Exec.map_eq_ok.mp found
  have typed := F.typed (.commit commit) rfl
  rw [show H.cidOf (Block.commit commit) = x from Store.Loads.cidOf loads] at typed
  exact ⟨.commit commit, _, Store.loads_iff.mp loads, typed, rfl, mem_links_of_parent member⟩

theorem mem_sections {item : Cid × Block Cid} (present : s.get item.1 = some item.2)
    (member : item ∈ items) :
    ∃ b ∈ sections (H := H) items, b.1 = item.2 ∧ H.cidOf b.1 = item.1 := by
  have ok := Store.encodes_of_get present
  refine ⟨⟨item.2, ok⟩, List.mem_filterMap.mpr ⟨item, member, dif_pos ok⟩, rfl, ?_⟩
  exact Store.cidOf_of_get present

/-- What arrives in an archive is there. -/
theorem get_of_sections (ran : iterFromRoot F s root = .ok items) (t : Store H)
    {item : Cid × Block Cid} (member : item ∈ items) :
    ((sections (H := H) items).foldl (fun s b => s.insert b.1 b.2) t).get item.1 = some item.2 := by
  obtain ⟨b, inside, same, addressed⟩ := mem_sections (get_of_walked ran member).1 member
  have delivered := get_deliver (a := (⟨[], sections items, fun _ m => absurd m List.not_mem_nil⟩ :
    Archive H)) t inside
  rw [addressed, same] at delivered
  exact delivered

end Walks

/-! ## What pushes rely on -/

section Discipline

variable {F : BlockCodec H} {s t : Store H} {p : Pusher H} {sv sv' : Server H} {root : Cid}

/-- A store has every block that a push sends. -/
def Has (F : BlockCodec H) (s : Store H) (p : Pusher H) : Prop :=
  ∃ items, iterFromRoot F p.store p.head = .ok items ∧ ∀ item ∈ items, s.get item.1 = some item.2

theorem Has.mono (has : Has F s p) (le : s ≤ t) : Has F t p := by
  obtain ⟨items, ran, held⟩ := has
  exact ⟨items, ran, fun item member => le _ _ (held item member)⟩

/-- Among what a push sends is its head. -/
theorem Has.commit (has : Has F s p) : isCommit s p.head = true := by
  obtain ⟨items, ran, held⟩ := has
  obtain ⟨item, member, at_head⟩ := List.mem_map.mp ((iterFromRoot_exact ran p.head).1.mpr .refl)
  obtain ⟨commit, loads⟩ := isCommit_iff.mp p.loaded
  have here := (get_of_walked ran member).1
  have there := held item member
  rw [at_head] at here there
  obtain same := Option.some.inj (here.symm.trans (Store.loads_iff.mp loads))
  exact isCommit_iff.mpr ⟨commit, Store.loads_iff.mpr (same ▸ there)⟩

/-- What is true of a push in its phase. -/
def Own (F : BlockCodec H) (sv : Server H) (p : Pusher H) : Prop :=
  match p.phase with
  | .listed tip => tip ≠ some p.head
  | .staged tip => tip ≠ some p.head ∧ Has F sv.world.store p
  | .accepted => Has F sv.world.store p ∧ ∃ e ∈ sv.accepted, e.new = p.head ∧ e.stored = true
  | _ => True

/-- What is true of the server, which started at `root`. -/
structure Common (F : BlockCodec H) (root : Cid) (sv : Server H) : Prop where
  chained : Chained root sv
  proper : Proper sv
  stored : ∀ e ∈ sv.accepted, e.stored = true
  complete : sv.accepted ≠ [] → ∃ items, iterFromRoot F sv.world.store (sv.head root) = .ok items

/-- What a push can do to the server: blocks and accepted advances are added. -/
structure Moves (sv sv' : Server H) : Prop where
  store : sv.world.store ≤ sv'.world.store
  accepted : sv.accepted <:+ sv'.accepted

theorem moves_advance (sv : Server H) (req : AdvanceHeadRequest Cid) : Moves sv (sv.advance req).2 where
  store := by
    rw [store_advance]
  accepted := accepted_advance sv req

theorem moves_stage (sv : Server H) (blocks : List {b : Block Cid // H.encodes b = true}) :
    Moves sv (sv.stage blocks) where
  store := le_stage sv blocks
  accepted := List.suffix_refl _

theorem Own.stable (own : Own F sv p) (moves : Moves sv sv') : Own F sv' p := by
  unfold Own at own ⊢
  split at own
  · exact own
  · exact ⟨own.1, own.2.mono moves.store⟩
  · obtain ⟨has, e, member, entry⟩ := own
    exact ⟨has.mono moves.store, e, moves.accepted.subset member, entry⟩
  · trivial

theorem walk_grows {items : List (Cid × Block Cid)} (le : s ≤ t)
    (ran : iterFromRoot F s root = .ok items) : ∃ items', iterFromRoot F t root = .ok items' :=
  (walk_transfers ran fun _ member => le _ _ (get_of_walked ran member).1).1

theorem Common.stage (common : Common F root sv) (blocks : List {b : Block Cid // H.encodes b = true}) :
    Common F root (sv.stage blocks) where
  chained := common.chained.grow (le_stage sv blocks)
  proper := common.proper
  stored := common.stored
  complete some := by
    obtain ⟨items, ran⟩ := common.complete some
    exact walk_grows (le_stage sv blocks) ran

/-- The advance of a push whose blocks have arrived. -/
theorem Common.advance (common : Common F root sv) {tip : Option Cid} (apart : tip ≠ some p.head)
    (has : Has F sv.world.store p) : Common F root (sv.advance (p.request tip)).2 := by
  rcases advance_cases sv (p.request tip) with ⟨e, same⟩ | ⟨-, -, -, wrote⟩
  · rw [same]
    exact common
  · have proper : Proper (sv.advance (p.request tip)).2 := by
      rw [wrote]
      intro e member
      rcases List.mem_cons.mp member with rfl | old
      · exact apart
      · exact common.proper e old
    have chained := common.chained.advance proper
    rw [wrote] at proper chained ⊢
    refine ⟨chained, proper, fun e member => ?_, fun _ => ?_⟩
    · rcases List.mem_cons.mp member with rfl | old
      · exact has.commit
      · exact common.stored e old
    · obtain ⟨items, ran, held⟩ := has
      exact (walk_transfers ran held).1

/-- **What one turn of a push does to the server.** -/
theorem act_server (F : BlockCodec H) (d : Delivery) (sv : Server H) (p : Pusher H) :
    (p.act F d sv).1 = sv ∨ (∃ blocks, (p.act F d sv).1 = sv.stage blocks) ∨
      ∃ tip, p.phase = .staged tip ∧ (p.act F d sv).1 = (sv.advance (p.request tip)).2 := by
  unfold Pusher.act
  split
  · split <;> exact .inl rfl
  · split
    · exact .inl rfl
    · cases d with
      | delivered => exact .inr (.inl ⟨_, rfl⟩)
      | answerLost => exact .inr (.inl ⟨_, rfl⟩)
      | requestLost => exact .inl rfl
      | refused stored => exact .inr (.inl ⟨_, rfl⟩)
  · rename_i tip at_phase
    cases d with
    | delivered =>
        refine .inr (.inr ⟨tip, at_phase, ?_⟩)
        dsimp only
        split <;> rename_i answered <;> rw [answered]
    | answerLost => exact .inr (.inr ⟨tip, at_phase, rfl⟩)
    | requestLost => exact .inl rfl
    | refused stored => exact .inl rfl
  · exact .inl rfl

/-- **What one turn of a push makes true of it.** -/
theorem act_own (d : Delivery) (own : Own F sv p) : Own F (p.act F d sv).1 (p.act F d sv).2 := by
  unfold Pusher.act
  split
  · by_cases arrived : d = .delivered
    · rw [if_pos arrived]
      by_cases level : remoteTip (getRefs sv.world) p.branch = some p.head
      · simp [Own, level]
      · simp [Own, level]
    · rw [if_neg arrived]
      trivial
  · rename_i tip at_phase
    have apart : tip ≠ some p.head := by simpa [Own, at_phase] using own
    split
    · trivial
    · rename_i items ran
      cases d with
      | delivered => exact ⟨apart, items, ran, fun item member => get_of_sections ran _ member⟩
      | answerLost => trivial
      | requestLost => trivial
      | refused stored => trivial
  · rename_i tip at_phase
    have ready : tip ≠ some p.head ∧ Has F sv.world.store p := by simpa [Own, at_phase] using own
    cases d with
    | delivered =>
        rcases advance_cases sv (p.request tip) with ⟨e, same⟩ | ⟨-, -, -, wrote⟩
        · simp only [same]
          trivial
        · simp only [wrote]
          exact ⟨ready.2, _, List.mem_cons_self, rfl, ready.2.commit⟩
    | answerLost => trivial
    | requestLost => trivial
    | refused stored => trivial
  · exact own

/-- What a staged push has to offer. -/
theorem Own.staged (own : Own F sv p) {tip : Option Cid} (at_phase : p.phase = .staged tip) :
    tip ≠ some p.head ∧ Has F sv.world.store p := by
  simpa [Own, at_phase] using own

theorem discipline (F : BlockCodec H) (root : Cid) :
    Parties.Discipline (Pusher.act F) (Common F root) (Own F) Moves where
  common {d sv p} common own := by
    rcases act_server F d sv p with same | ⟨blocks, same⟩ | ⟨tip, at_phase, same⟩
    · rw [same]
      exact common
    · rw [same]
      exact common.stage blocks
    · rw [same]
      obtain ⟨apart, has⟩ := own.staged at_phase
      exact common.advance apart has
  own _ own := act_own _ own
  moves {d sv p} _ _ := by
    rcases act_server F d sv p with same | ⟨blocks, same⟩ | ⟨tip, -, same⟩
    · rw [same]
      exact ⟨fun _ _ found => found, List.suffix_refl _⟩
    · rw [same]
      exact moves_stage sv blocks
    · rw [same]
      exact moves_advance sv _
  stable _ moves own := own.stable moves

/-- What holds of the server and of every push after any turns. -/
theorem holds_after (F : BlockCodec H) {w : World H} (alone : OpHeads.current w.opHeads = [root])
    (pushes : List (Pusher H)) (turns : List (Nat × Delivery)) :
    (after F w pushes turns).Holds (Common F root) (Own F) := by
  refine ((discipline F root).run ⟨⟨chained_start alone, ?_, ?_, ?_⟩, fun p member => ?_⟩ turns).1
  · exact fun e member => absurd member List.not_mem_nil
  · exact fun e member => absurd member List.not_mem_nil
  · exact fun some => absurd rfl some
  · obtain ⟨q, -, rfl⟩ := List.mem_map.mp member
    trivial

end Discipline

/-! ## Runs -/

section Runs

variable {F : BlockCodec H} {sv : Server H} {p q : Pusher H} {root : Cid}

theorem Own.accepted (own : Own F sv p) (at_phase : p.phase = .accepted) :
    Has F sv.world.store p ∧ ∃ e ∈ sv.accepted, e.new = p.head ∧ e.stored = true := by
  simpa [Own, at_phase] using own

/-- Of two accepted commits that were stored, one descends from the other. -/
theorem comparable_of_chained (chained : Chained root sv) (stored : ∀ e ∈ sv.accepted, e.stored = true)
    {a b : Accepted Cid} (inA : a ∈ sv.accepted) (inB : b ∈ sv.accepted) :
    Descends sv.world.store a.new b.new ∨ Descends sv.world.store b.new a.new := by
  obtain ⟨i, lt_i, rfl⟩ := List.mem_iff_getElem.mp inA
  obtain ⟨j, lt_j, rfl⟩ := List.mem_iff_getElem.mp inB
  have ordered := List.pairwise_iff_getElem.mp chained.ordered
  rcases Nat.lt_trichotomy i j with before | rfl | later
  · exact .inl (ordered i j lt_i lt_j before (stored _ inB))
  · exact .inl .refl
  · exact .inr (ordered j i lt_j lt_i later (stored _ inA))

/-- **No accepted push is lost**, however many push at once and whatever is lost between them: the
server has one head, which descends from the head of every push that was told so, and of any two of
these one descends from the other. -/
theorem pushes_keep (F : BlockCodec H) {w : World H} (alone : OpHeads.current w.opHeads = [root])
    (pushes : List (Pusher H)) (turns : List (Nat × Delivery)) :
    ∃ head, OpHeads.current (after F w pushes turns).shared.world.opHeads = [head] ∧
      (∀ p ∈ (after F w pushes turns).held, p.phase = .accepted →
        Descends (after F w pushes turns).shared.world.store head p.head) ∧
      ∀ p ∈ (after F w pushes turns).held, ∀ q ∈ (after F w pushes turns).held,
        p.phase = .accepted → q.phase = .accepted →
          Descends (after F w pushes turns).shared.world.store p.head q.head ∨
            Descends (after F w pushes turns).shared.world.store q.head p.head := by
  obtain ⟨common, own⟩ := holds_after F alone pushes turns
  refine ⟨_, common.chained.alone, fun p member at_phase => ?_,
    fun p inP q inQ at_p at_q => ?_⟩
  · obtain ⟨-, e, inLog, mine, stored⟩ := (own p member).accepted at_phase
    exact mine ▸ (common.chained.kept e inLog stored).2
  · obtain ⟨-, a, inA, ofP, -⟩ := (own p inP).accepted at_p
    obtain ⟨-, b, inB, ofQ, -⟩ := (own q inQ).accepted at_q
    rw [← ofP, ← ofQ]
    exact comparable_of_chained common.chained common.stored inA inB

/-! ### After a push -/

/-- One want is sent as its walk yields it. -/
theorem postFetchBlocks_single {s : Store H} {want : Cid} {items : List (Cid × Block Cid)}
    (ran : iterFromRoot F s want = .ok items) : postFetchBlocks F s [want] = .ok items := by
  have once : (items.map Prod.fst).Nodup := (Walk.collect_exact ran).1
  have sent : ∀ before rest : List (Cid × Block Cid), ((before ++ rest).map Prod.fst).Nodup →
      rest.foldl (fun sent item =>
        if (sent.map Prod.fst).contains item.1 then sent else sent ++ [item]) before =
        before ++ rest := by
    intro before rest
    induction rest generalizing before with
    | nil => simp
    | cons item rest ih =>
        intro apart
        have new : item.1 ∉ before.map Prod.fst := by
          rw [List.map_append, List.map_cons] at apart
          exact fun old => (List.disjoint_of_nodup_append apart) old List.mem_cons_self
        rw [List.foldl_cons, if_neg (by simpa using new), ih _ (by rwa [List.append_assoc]),
          List.append_assoc]
        rfl
  unfold postFetchBlocks
  rw [if_neg (List.cons_ne_nil _ _)]
  show (sendFrom F s [] want >>= fun sent => Except.ok sent) = _
  unfold sendFrom
  rw [ran]
  show Except.ok _ = _
  rw [sent [] items (by simpa using once)]
  rfl

/-- **A fetch of the head that the server lists brings every block of every accepted push**, into
whatever store. -/
theorem fetch_delivers (F : BlockCodec H) {w : World H} (alone : OpHeads.current w.opHeads = [root])
    (pushes : List (Pusher H)) (turns : List (Nat × Delivery)) :
    ∀ p ∈ (after F w pushes turns).held, p.phase = .accepted →
      ∃ tip items, (getRefs (after F w pushes turns).shared.world).head = some tip ∧
        postFetchBlocks F (after F w pushes turns).shared.world.store [tip] = .ok items ∧
        ∀ c, Relation.ReflTransGen (Refers F p.store) p.head c → ∃ b, p.store.get c = some b ∧
          ∀ t : Store H, ((sections items).foldl (fun s b => s.insert b.1 b.2) t).get c = some b := by
  obtain ⟨common, own⟩ := holds_after F alone pushes turns
  intro p member at_phase
  obtain ⟨⟨sent, walked, held⟩, e, inLog, mine, stored⟩ := (own p member).accepted at_phase
  obtain ⟨items, ran⟩ := common.complete (List.ne_nil_of_mem inLog)
  have below := (common.chained.kept e inLog stored).2
  rw [mine] at below
  refine ⟨_, items, by rw [getRefs, common.chained.alone]; rfl, postFetchBlocks_single ran,
    fun c path => ?_⟩
  obtain ⟨item, inSent, rfl⟩ := List.mem_map.mp ((iterFromRoot_exact walked c).1.mpr path)
  refine ⟨item.2, (get_of_walked walked inSent).1, fun t => ?_⟩
  have reached := (refers_of_descends below).trans (((walk_transfers walked held).2 item.1).mp path)
  obtain ⟨item', inItems, same⟩ := List.mem_map.mp ((iterFromRoot_exact ran item.1).1.mpr reached)
  have value : item'.2 = item.2 := by
    have here := (get_of_walked ran inItems).1
    rw [same, held item inSent] at here
    exact (Option.some.inj here).symm
  rw [← same, ← value]
  exact get_of_sections ran t inItems

/-- **After an accepted push the server's repository does not open again**: what is at its operation
heads is a commit. -/
theorem open_fails_after_push (F : BlockCodec H) {w : World H}
    (alone : OpHeads.current w.opHeads = [root]) (pushes : List (Pusher H))
    (turns : List (Nat × Delivery)) :
    ∀ p ∈ (after F w pushes turns).held, p.phase = .accepted →
      ∃ head, OpHeads.current (after F w pushes turns).shared.world.opHeads = [head] ∧
        (openRepo : WorldM H _).Fails (after F w pushes turns).shared.world (.decode head)
          (after F w pushes turns).shared.world := by
  obtain ⟨common, own⟩ := holds_after F alone pushes turns
  intro p member at_phase
  obtain ⟨-, e, inLog, -, stored⟩ := (own p member).accepted at_phase
  obtain ⟨commit, loads⟩ := isCommit_iff.mp (common.chained.kept e inLog stored).1
  have notOp : (after F w pushes turns).shared.world.store.decodeFromStore (Operation Cid)
      ((after F w pushes turns).shared.head root) =
        .error (.decode ((after F w pushes turns).shared.head root)) := by
    unfold Store.decodeFromStore
    rw [Store.loads_iff.mp loads]
    rfl
  have unloaded : ReadonlyRepo.loadAt (after F w pushes turns).shared.world.store
      ((after F w pushes turns).shared.head root) =
        .error (.decode ((after F w pushes turns).shared.head root)) := by
    unfold ReadonlyRepo.loadAt
    rw [notOp]
    rfl
  refine ⟨_, common.chained.alone, ?_⟩
  unfold openRepo
  refine Exec.fails_bind.mpr (.inr ⟨_, _, Exec.returns_read.mpr ⟨rfl, rfl⟩, ?_⟩)
  rw [common.chained.alone]
  show (onStore (Exec.read fun s => ReadonlyRepo.loadAt s _) : WorldM H _).Fails _ _ _
  unfold onStore
  rw [Exec.fails_zoom]
  exact ⟨_, Exec.fails_read.mpr ⟨unloaded, rfl⟩, rfl⟩

end Runs

/-! ### Two pushes at once -/

section Example

/-- Every block is an object. -/
def allObjects : BlockCodec quickHashing where
  cbor := objectCodec.cbor
  isDagCbor _ := true
  typed _ _ := rfl

def leafCid : ℕ := quickHashing.cidOf (.tree (.leaf []))

/-- A commit of the empty trees. -/
def emptyCommit (parents : List ℕ) (message : String) : Commit ℕ :=
  { plainCommit parents message with nodes := leafCid, edges := leafCid, schema := leafCid }

def leafStore : Store quickHashing := ({} : Store quickHashing).insert (.tree (.leaf [])) rfl

/-- A repository with one commit. -/
def pusherOf (message : String) : Pusher quickHashing where
  store := leafStore.insert (.commit (emptyCommit [] message)) rfl
  head := quickHashing.cidOf (.commit (emptyCommit [] message))
  loaded := isCommit_iff.mpr ⟨_, leafStore.loads_insert (emptyCommit [] message) rfl⟩

/-- Both list the same head, both send their blocks, and both ask to advance. -/
def race : List (Nat × Delivery) :=
  [(0, .delivered), (1, .delivered), (0, .delivered), (1, .delivered), (1, .delivered), (0, .delivered)]

def raced : Parties (Server quickHashing) (Pusher quickHashing) :=
  after allObjects freshWorld [pusherOf "a", pusherOf "b"] race

def isAccepted : Phase ℕ → Bool
  | .accepted => true
  | _ => false

theorem eq_of_isAccepted {phase : Phase ℕ} (accepted : isAccepted phase = true) : phase = .accepted := by
  cases phase <;> first | rfl | cases accepted

/-- One of two pushes that race is accepted. -/
theorem raced_accepted : ∃ p ∈ raced.held, p.phase = .accepted := by
  have passed : (raced.held.any fun p => isAccepted p.phase) = true := by decide +kernel
  obtain ⟨p, member, accepted⟩ := List.any_eq_true.mp passed
  exact ⟨p, member, eq_of_isAccepted accepted⟩

theorem freshWorld_alone : OpHeads.current freshWorld.opHeads = [1] := by decide

theorem pushes_keep_raced : ∃ head, OpHeads.current raced.shared.world.opHeads = [head] ∧
    ∃ p ∈ raced.held, p.phase = .accepted ∧ Descends raced.shared.world.store head p.head := by
  obtain ⟨p, member, accepted⟩ := raced_accepted
  obtain ⟨head, alone, below, -⟩ :=
    pushes_keep allObjects freshWorld_alone [pusherOf "a", pusherOf "b"] race
  exact ⟨head, alone, p, member, accepted, below p member accepted⟩

theorem fetch_delivers_raced : ∃ p ∈ raced.held, ∃ items b,
    postFetchBlocks allObjects raced.shared.world.store (getRefs raced.shared.world).head.toList =
        .ok items ∧ p.store.get p.head = some b ∧
      ((sections items).foldl (fun s b => s.insert b.1 b.2) ({} : Store quickHashing)).get p.head =
        some b := by
  obtain ⟨p, member, accepted⟩ := raced_accepted
  obtain ⟨tip, items, listed, sent, arrives⟩ :=
    fetch_delivers allObjects freshWorld_alone [pusherOf "a", pusherOf "b"] race p member accepted
  obtain ⟨b, here, there⟩ := arrives p.head .refl
  have want : (getRefs raced.shared.world).head.toList = [tip] := by
    rw [show (getRefs raced.shared.world).head = some tip from listed]
    rfl
  exact ⟨p, member, items, b, by rw [want]; exact sent, here, there _⟩

theorem open_fails_after_push_raced : ∃ cid, (openRepo : WorldM quickHashing _).Fails raced.shared.world
    (.decode cid) raced.shared.world := by
  obtain ⟨p, member, accepted⟩ := raced_accepted
  obtain ⟨head, -, fails⟩ :=
    open_fails_after_push allObjects freshWorld_alone [pusherOf "a", pusherOf "b"] race p member accepted
  exact ⟨head, fails⟩

end Example

end Mnem.Cli.Push
