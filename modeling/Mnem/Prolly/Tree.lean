/-
# Prolly.Tree — what a chunk in a store stands for

`Holds s h cid es` reads a tree out of a store: at height zero `cid` is a leaf of
`es`; above, it is an internal chunk over a run of children, each filed under
the first key of the entries it holds, and `es` is what the children hold, in
order.  The separators of an internal chunk are the children's first keys but
the first, which is exactly what the builder emits (`emitInternal`).

A CID holds at most one entry list, at one height (`Holds.unique`), stays so as
the store grows (`Holds.mono`), and its height is below the number of blocks
(`Holds.lt_length`), which bounds every descent.  `buildTree_holds` is the
builder's correctness; `IsTree` is the interface the repository code uses.
-/
import Mnem.Prolly.Build
import Mathlib.Data.List.Forall2
import Mathlib.Data.List.Infix
import Mathlib.Data.List.Nodup

namespace Mnem.Prolly

open Theory

set_option autoImplicit false
set_option linter.unusedSectionVars false

variable {Cid : Type} {H : Hashing Cid}

/-! ## Loading and storing chunks -/

/-- A tree chunk always has an encoding: it carries no IPLD values. -/
theorem encodes_tree (t : TreeChunk Cid) : H.encodes (.tree t) = true := rfl

/-- Write chunks in order. -/
def putChunks (s : Store H) (ts : List (TreeChunk Cid)) : Store H :=
  ts.foldl (fun s t => s.insert (.tree t) (encodes_tree t)) s

/-- `build_tree`: write every chunk, return the root. -/
def buildTree (entries : List (ProllyKey × Cid)) : StoreM H Cid :=
  Exec.update fun s => (treeRoot H entries, putChunks s (treeChunks H entries))

variable [LinearOrder Cid]

/-- Fetch and decode a chunk; an internal chunk must separate all its children. -/
def loadTreeChunk (s : Store H) (cid : Cid) : Except (Error Cid) (TreeChunk Cid) :=
  match s.decodeFromStore (TreeChunk Cid) cid with
  | .error e => .error e
  | .ok (.leaf entries) => .ok (.leaf entries)
  | .ok (.internal boundaries children) =>
      if boundaries.length + 1 = children.length then .ok (.internal boundaries children)
      else .error (.decode cid)

theorem le_putChunks (s : Store H) (ts : List (TreeChunk Cid)) : s ≤ putChunks s ts := by
  induction ts generalizing s with
  | nil => exact le_refl s
  | cons t ts ih => exact (s.le_insert _ (encodes_tree t)).trans (ih _)

theorem loads_putChunks (s : Store H) (ts : List (TreeChunk Cid)) :
    ∀ t ∈ ts, (putChunks s ts).Loads (H.cidOf (.tree t)) t := by
  induction ts generalizing s with
  | nil => simp
  | cons t ts ih =>
      intro t' member
      rcases List.mem_cons.mp member with rfl | later
      · exact (s.loads_insert t' (encodes_tree t')).mono (le_putChunks _ ts)
      · exact ih _ t' later

/-! ## Trees in a store -/

/-- The chunk at `cid` is the root of a tree of height `h` that holds `es`. -/
def Holds (s : Store H) : Nat → Cid → List (ProllyKey × Cid) → Prop
  | 0, cid, es => s.Loads cid (TreeChunk.leaf es)
  | h + 1, cid, es =>
      ∃ run parts,
        s.Loads cid (TreeChunk.internal (run.tail.map Prod.fst) (run.map Prod.snd)) ∧ run ≠ [] ∧
          List.Forall₂ (fun e part => Holds s h e.2 part ∧ part.head?.map Prod.fst = some e.1)
            run parts ∧
          parts.flatten = es

/-- A child filed under the first key of what it holds. -/
def Spans (s : Store H) (h : Nat) (e : ProllyKey × Cid) (part : List (ProllyKey × Cid)) : Prop :=
  Holds s h e.2 part ∧ part.head?.map Prod.fst = some e.1

theorem holds_zero {s : Store H} {cid : Cid} {es : List (ProllyKey × Cid)} :
    Holds s 0 cid es ↔ s.Loads cid (TreeChunk.leaf es) := Iff.rfl

theorem holds_succ {s : Store H} {h : Nat} {cid : Cid} {es : List (ProllyKey × Cid)} :
    Holds s (h + 1) cid es ↔ ∃ run parts,
      s.Loads cid (TreeChunk.internal (run.tail.map Prod.fst) (run.map Prod.snd)) ∧ run ≠ [] ∧
        List.Forall₂ (Spans s h) run parts ∧ parts.flatten = es := Iff.rfl

theorem Spans.ne_nil {s : Store H} {h : Nat} {e : ProllyKey × Cid}
    {part : List (ProllyKey × Cid)} (spans : Spans s h e part) : part ≠ [] := by
  rintro rfl
  simp [Spans] at spans

theorem Holds.mono {s s' : Store H} (le : s ≤ s') {h : Nat} {cid : Cid}
    {es : List (ProllyKey × Cid)} (holds : Holds s h cid es) : Holds s' h cid es := by
  induction h generalizing cid es with
  | zero => exact Store.Loads.mono holds le
  | succ h ih =>
      obtain ⟨run, parts, loads, occupied, spans, flat⟩ := holds_succ.mp holds
      exact holds_succ.mpr ⟨run, parts, loads.mono le, occupied,
        spans.imp fun e part sp => ⟨ih sp.1, sp.2⟩, flat⟩

theorem Spans.mono {s s' : Store H} (le : s ≤ s') {h : Nat} {e : ProllyKey × Cid}
    {part : List (ProllyKey × Cid)} (spans : Spans s h e part) : Spans s' h e part :=
  ⟨spans.1.mono le, spans.2⟩

/-- The children of an internal chunk, with what they hold, are determined by their CIDs. -/
theorem spans_unique {s s' : Store H} {h h' : Nat}
    (child : ∀ {cid : Cid} {es es' : List (ProllyKey × Cid)}, Holds s h cid es →
      Holds s' h' cid es' → es = es') :
    ∀ {run run' : List (ProllyKey × Cid)} {parts parts' : List (List (ProllyKey × Cid))},
      List.Forall₂ (Spans s h) run parts → List.Forall₂ (Spans s' h') run' parts' →
      run.map Prod.snd = run'.map Prod.snd → run = run' ∧ parts = parts'
  | [], [], _, _, .nil, .nil, _ => ⟨rfl, rfl⟩
  | e :: run, e' :: run', _, _, .cons sp rest, .cons sp' rest', same => by
      simp only [List.map_cons, List.cons.injEq] at same
      obtain ⟨sameHead, sameTail⟩ := same
      have samePart := child sp.1 (sameHead ▸ sp'.1)
      obtain ⟨sameRun, sameParts⟩ := spans_unique child rest rest' sameTail
      have sameKey : e.1 = e'.1 := Option.some.inj (sp.2.symm.trans (samePart ▸ sp'.2))
      exact ⟨by rw [sameRun, Prod.ext sameKey sameHead], by rw [samePart, sameParts]⟩
  | [], _ :: _, _, _, .nil, .cons _ _, same => by simp at same
  | _ :: _, [], _, _, .cons _ _, .nil, same => by simp at same

/-- **A CID holds at most one entry list, at one height**, in any two stores. -/
theorem Holds.unique {s s' : Store H} {h h' : Nat} {cid : Cid}
    {es es' : List (ProllyKey × Cid)} (holds : Holds s h cid es) (holds' : Holds s' h' cid es') :
    h = h' ∧ es = es' := by
  induction h generalizing h' cid es es' with
  | zero =>
      cases h' with
      | zero =>
          have same := Store.Loads.same (holds_zero.mp holds) (holds_zero.mp holds')
          exact ⟨rfl, TreeChunk.leaf.inj same⟩
      | succ h' =>
          obtain ⟨run, parts, loads, -⟩ := holds_succ.mp holds'
          cases Store.Loads.same (holds_zero.mp holds) loads
  | succ h ih =>
      obtain ⟨run, parts, loads, occupied, spans, rfl⟩ := holds_succ.mp holds
      cases h' with
      | zero => cases Store.Loads.same loads (holds_zero.mp holds')
      | succ h' =>
          obtain ⟨run', parts', loads', -, spans', rfl⟩ := holds_succ.mp holds'
          have sameChildren := (TreeChunk.internal.inj (Store.Loads.same loads loads')).2
          obtain ⟨rfl, rfl⟩ := spans_unique (fun a b => (ih a b).2) spans spans' sameChildren
          refine ⟨?_, rfl⟩
          cases spans with
          | nil => exact absurd rfl occupied
          | cons sp _ =>
              cases spans' with
              | cons sp' _ => rw [(ih sp.1 sp'.1).1]

/-- A tree of height `h` has, for each height up to `h`, a chunk of its own. -/
theorem Holds.chain {s : Store H} {h : Nat} {cid : Cid} {es : List (ProllyKey × Cid)}
    (holds : Holds s h cid es) :
    ∃ cids : List Cid, cids.length = h + 1 ∧ cids.Nodup ∧
      (∀ c ∈ cids, c ∈ s.blocks.map Prod.fst) ∧
      ∀ c ∈ cids, ∃ k ≤ h, ∃ part, Holds s k c part := by
  have stored : ∀ {c : Cid} {t : TreeChunk Cid}, s.Loads c t → c ∈ s.blocks.map Prod.fst := by
    intro c t loads
    have found : Entries.get? c s.blocks = some (.tree t) := Store.loads_iff.mp loads
    exact Entries.get?_isSome_iff.mp (by rw [found]; rfl)
  induction h generalizing cid es with
  | zero =>
      refine ⟨[cid], rfl, List.nodup_singleton _, ?_, ?_⟩
      · simpa using stored (holds_zero.mp holds)
      · simpa using ⟨es, holds⟩
  | succ h ih =>
      obtain ⟨run, parts, loads, occupied, spans, flat⟩ := holds_succ.mp holds
      cases spans with
      | nil => exact absurd rfl occupied
      | cons sp rest =>
          obtain ⟨cids, len, nodup, inStore, lower⟩ := ih sp.1
          refine ⟨cid :: cids, by rw [List.length_cons, len], ?_, ?_, ?_⟩
          · refine List.nodup_cons.mpr ⟨fun again => ?_, nodup⟩
            obtain ⟨k, le, part, lowerHolds⟩ := lower cid again
            have same := (holds.unique lowerHolds).1
            omega
          · intro c member
            rcases List.mem_cons.mp member with rfl | below
            · exact stored loads
            · exact inStore c below
          · intro c member
            rcases List.mem_cons.mp member with rfl | below
            · exact ⟨h + 1, le_refl _, es, holds⟩
            · obtain ⟨k, le, part, lowerHolds⟩ := lower c below
              exact ⟨k, by omega, part, lowerHolds⟩

theorem Holds.lt_length {s : Store H} {h : Nat} {cid : Cid} {es : List (ProllyKey × Cid)}
    (holds : Holds s h cid es) : h < s.blocks.length := by
  obtain ⟨cids, len, nodup, inStore, -⟩ := holds.chain
  have le := List.Nodup.length_le_of_subset nodup inStore
  rw [len, List.length_map] at le
  omega

/-- A chunk that holds something passes the check on loading. -/
theorem loadTreeChunk_leaf {s : Store H} {cid : Cid} {es : List (ProllyKey × Cid)}
    (holds : Holds s 0 cid es) : loadTreeChunk s cid = .ok (.leaf es) := by
  have loads : s.decodeFromStore (TreeChunk Cid) cid = .ok (.leaf es) := holds_zero.mp holds
  unfold loadTreeChunk
  rw [loads]

theorem loadTreeChunk_internal {s : Store H} {cid : Cid} {run : List (ProllyKey × Cid)}
    (loads : s.Loads cid (TreeChunk.internal (run.tail.map Prod.fst) (run.map Prod.snd)))
    (occupied : run ≠ []) :
    loadTreeChunk s cid = .ok (.internal (run.tail.map Prod.fst) (run.map Prod.snd)) := by
  have pos : 0 < run.length := List.length_pos_iff.mpr occupied
  have loads' : s.decodeFromStore (TreeChunk Cid) cid = .ok _ := loads
  unfold loadTreeChunk
  rw [loads']
  simp only [List.length_map, List.length_tail]
  rw [if_pos (by omega)]

/-! ## The builder -/

section Builder

variable {s : Store H}

/-- What the children of a nonempty run hold starts at the run's first key. -/
theorem head?_flatten_of_spans {h : Nat} {run : List (ProllyKey × Cid)}
    {parts : List (List (ProllyKey × Cid))} (spans : List.Forall₂ (Spans s h) run parts)
    (occupied : run ≠ []) : parts.flatten.head?.map Prod.fst = some (firstKey run) := by
  cases spans with
  | nil => exact absurd rfl occupied
  | @cons e part run parts sp rest =>
      rw [List.flatten_cons, List.head?_append_of_ne_nil _ sp.ne_nil]
      exact sp.2

/-- One level up: each run of children, once written, holds what its children hold. -/
theorem spans_emitInternal {h : Nat} {rs : List (List (ProllyKey × Cid))}
    {parts : List (List (ProllyKey × Cid))} (occupied : ∀ r ∈ rs, r ≠ [])
    (stored : ∀ r ∈ rs, s.Loads (H.cidOf (.tree (emitInternal r).2)) (emitInternal r).2)
    (spans : List.Forall₂ (Spans s h) rs.flatten parts) :
    ∃ parts', List.Forall₂ (Spans s (h + 1)) (rs.map fun r => address H (emitInternal r)) parts' ∧
      parts'.flatten = parts.flatten := by
  induction rs generalizing parts with
  | nil =>
      cases spans
      exact ⟨[], .nil, rfl⟩
  | cons r rs ih =>
      rw [List.flatten_cons] at spans
      obtain ⟨here, later, spansHere, spansLater, rfl⟩ :
          ∃ here later, List.Forall₂ (Spans s h) r here ∧
            List.Forall₂ (Spans s h) rs.flatten later ∧ parts = here ++ later :=
        ⟨parts.take r.length, parts.drop r.length,
          (List.forall₂_take_append _ _ _ spans.flip).flip,
          (List.forall₂_drop_append _ _ _ spans.flip).flip, (List.take_append_drop _ _).symm⟩
      obtain ⟨parts', spans', flat'⟩ := ih (fun x m => occupied x (List.mem_cons_of_mem _ m))
        (fun x m => stored x (List.mem_cons_of_mem _ m)) spansLater
      have r_occupied := occupied r List.mem_cons_self
      refine ⟨here.flatten :: parts', ?_, ?_⟩
      · refine .cons ⟨?_, head?_flatten_of_spans spansHere r_occupied⟩ spans'
        exact holds_succ.mpr ⟨r, here, stored r List.mem_cons_self, r_occupied, spansHere, rfl⟩
      · rw [List.flatten_cons, flat', List.flatten_append]

/-- Written, the leaf of a nonempty run holds the run. -/
theorem spans_emitLeaf {rs : List (List (ProllyKey × Cid))} (occupied : ∀ r ∈ rs, r ≠ [])
    (stored : ∀ r ∈ rs, s.Loads (H.cidOf (.tree (emitLeaf r).2)) (emitLeaf r).2) :
    List.Forall₂ (Spans s 0) (rs.map fun r => address H (emitLeaf r)) rs := by
  induction rs with
  | nil => exact .nil
  | cons r rs ih =>
      refine .cons ⟨stored r List.mem_cons_self, ?_⟩
        (ih (fun x m => occupied x (List.mem_cons_of_mem _ m))
          (fun x m => stored x (List.mem_cons_of_mem _ m)))
      cases r with
      | nil => exact absurd rfl (occupied [] List.mem_cons_self)
      | cons e es => rfl

/-- Every chunk of `ts` holds some stretch of `es`. -/
def AllHold (s : Store H) (ts : List (TreeChunk Cid)) (es : List (ProllyKey × Cid)) : Prop :=
  ∀ t ∈ ts, ∃ h part, Holds s h (H.cidOf (.tree t)) part ∧ part <:+: es

/-- The chunks of a level hold the parts of what the level holds. -/
theorem allHold_of_spans {h : Nat} {chunks : List (ProllyKey × TreeChunk Cid)}
    {parts : List (List (ProllyKey × Cid))}
    (spans : List.Forall₂ (Spans s h) (chunks.map (address H)) parts) :
    AllHold s (chunks.map Prod.snd) parts.flatten := by
  induction chunks generalizing parts with
  | nil => simp [AllHold]
  | cons c cs ih =>
      rw [List.map_cons] at spans
      cases spans with
      | @cons _ part _ parts sp rest =>
          intro t member
          rw [List.map_cons] at member
          rw [List.flatten_cons]
          rcases List.mem_cons.mp member with rfl | later
          · exact ⟨h, part, sp.1, List.infix_append' [] part _⟩
          · obtain ⟨k, sub, holds, inPart⟩ := ih rest t later
            exact ⟨k, sub, holds, inPart.trans (List.suffix_append _ _).isInfix⟩

theorem out_subset_levelLoop (fuel : Nat) (current : List (ProllyKey × Cid))
    (out : List (TreeChunk Cid)) : ∀ t ∈ out, t ∈ (levelLoop H fuel current out).2 := by
  induction fuel generalizing current out with
  | zero => exact fun t member => member
  | succ fuel ih =>
      intro t member
      simp only [levelLoop]
      split
      · exact ih _ _ t (List.mem_append_left _ member)
      · exact member

/-- The loop over levels keeps what the current level holds. -/
theorem levelLoop_holds {fuel h : Nat} {current : List (ProllyKey × Cid)}
    {out : List (TreeChunk Cid)} {parts : List (List (ProllyKey × Cid))}
    (stored : ∀ t ∈ (levelLoop H fuel current out).2, s.Loads (H.cidOf (.tree t)) t)
    (spans : List.Forall₂ (Spans s h) current parts) (written : AllHold s out parts.flatten) :
    ∃ h' parts', List.Forall₂ (Spans s h') (levelLoop H fuel current out).1 parts' ∧
      parts'.flatten = parts.flatten ∧
      AllHold s (levelLoop H fuel current out).2 parts.flatten := by
  induction fuel generalizing h current out parts with
  | zero => exact ⟨h, parts, spans, rfl, written⟩
  | succ fuel ih =>
      simp only [levelLoop] at stored ⊢
      split at stored
      · rename_i many
        rw [if_pos many]
        have inLoop := out_subset_levelLoop (H := H) fuel
          ((buildInternalLevel H current).map (address H))
          (out ++ (buildInternalLevel H current).map Prod.snd)
        have cut : (runs H {} [] current).flatten = current := runs_flatten H {} [] current
        obtain ⟨parts', spans', flat'⟩ := spans_emitInternal (runs_ne_nil H {} [] current)
          (fun r member => stored _ (inLoop _ (List.mem_append_right _ (by
            rw [buildInternalLevel, List.map_map]
            exact List.mem_map.mpr ⟨r, member, rfl⟩))))
          (cut.symm ▸ spans)
        have next : List.Forall₂ (Spans s (h + 1))
            ((buildInternalLevel H current).map (address H)) parts' := by
          rw [buildInternalLevel, List.map_map]
          exact spans'
        have written' : AllHold s (out ++ (buildInternalLevel H current).map Prod.snd)
            parts'.flatten := by
          intro t member
          rcases List.mem_append.mp member with old | new
          · rw [flat']
            exact written t old
          · exact allHold_of_spans next t new
        obtain ⟨h', parts'', final, flat'', all⟩ := ih stored next written'
        exact ⟨h', parts'', final, flat''.trans flat', flat' ▸ all⟩
      · rename_i single
        rw [if_neg single]
        exact ⟨h, parts, spans, rfl, written⟩

/-- **In any store that has the chunks, the root holds the entries**, and every
chunk holds a stretch of them. -/
theorem treeRoot_holds (es : List (ProllyKey × Cid))
    (stored : ∀ t ∈ treeChunks H es, s.Loads (H.cidOf (.tree t)) t) :
    (∃ h, Holds s h (treeRoot H es) es) ∧ AllHold s (treeChunks H es) es := by
  have inLoop := out_subset_levelLoop (H := H) (buildLeafLevel H es).length
    ((buildLeafLevel H es).map (address H)) ((buildLeafLevel H es).map Prod.snd)
  by_cases empty : (runs H {} [] es).isEmpty = true
  · -- the empty input: one empty leaf, and no level is built over it
    have none_cut : runs H {} [] es = [] := List.isEmpty_iff.mp empty
    have nothing : es = [] := by simpa [none_cut] using (runs_flatten H {} [] es).symm
    subst nothing
    have levels : buildLevels H ([] : List (ProllyKey × Cid)) =
        ([(0, H.cidOf (.tree (.leaf [])))], [.leaf []]) := rfl
    have holds : Holds s 0 (H.cidOf (.tree (.leaf []))) [] :=
      stored (.leaf []) (by rw [treeChunks, levels]; exact List.mem_cons_self)
    refine ⟨⟨0, ?_⟩, ?_⟩
    · rw [treeRoot, levels]
      exact holds
    · rw [treeChunks, levels]
      intro t member
      rw [List.mem_singleton.mp member]
      exact ⟨0, [], holds, List.infix_refl _⟩
  · have leaves : buildLeafLevel H es = (runs H {} [] es).map emitLeaf := by
      simp only [buildLeafLevel]
      rw [if_neg (by simpa using empty)]
    have spans : List.Forall₂ (Spans s 0) ((buildLeafLevel H es).map (address H))
        (runs H {} [] es) := by
      rw [leaves, List.map_map]
      refine spans_emitLeaf (runs_ne_nil H {} [] es) fun r member => stored _ (inLoop _ ?_)
      rw [leaves, List.map_map]
      exact List.mem_map.mpr ⟨r, member, rfl⟩
    obtain ⟨h, parts, final, flat, all⟩ := levelLoop_holds stored spans (allHold_of_spans spans)
    have cut : (runs H {} [] es).flatten = es := runs_flatten H {} [] es
    rw [cut] at flat all
    refine ⟨?_, all⟩
    obtain ⟨key, top⟩ := buildLevels_top H es
    change List.Forall₂ (Spans s h) (buildLevels H es).1 parts at final
    rw [top] at final
    cases final with
    | @cons _ part _ _ sp rest =>
        cases rest
        have whole : part = es := by simpa using flat
        have rootHolds := sp.1
        rw [whole] at rootHolds
        exact ⟨h, rootHolds⟩

end Builder

theorem buildTree_holds (es : List (ProllyKey × Cid)) (s : Store H) :
    (buildTree es : StoreM H Cid).Succeeds s fun root s' =>
      root = treeRoot H es ∧ s ≤ s' ∧ ∃ h, Holds s' h root es :=
  Exec.succeeds_update ⟨rfl, le_putChunks s _, (treeRoot_holds es (loads_putChunks s _)).1⟩

theorem buildTree_grows (es : List (ProllyKey × Cid)) :
    Exec.Grows (buildTree es : StoreM H Cid) :=
  Exec.grows_update fun s => le_putChunks s _

/-! ## Trees as maps -/

/-- The tree at `root` holds the bindings of `m`. -/
def IsTree (s : Store H) (root : Cid) (m : OrdMap ProllyKey Cid) : Prop :=
  ∃ h, Holds s h root m.entries

theorem IsTree.mono {s s' : Store H} {root : Cid} {m : OrdMap ProllyKey Cid}
    (tree : IsTree s root m) (le : s ≤ s') : IsTree s' root m := by
  obtain ⟨h, holds⟩ := tree
  exact ⟨h, holds.mono le⟩

/-- A root determines its map, in any two stores. -/
theorem IsTree.unique {s s' : Store H} {root : Cid} {m m' : OrdMap ProllyKey Cid}
    (tree : IsTree s root m) (tree' : IsTree s' root m') : m = m' := by
  obtain ⟨h, holds⟩ := tree
  obtain ⟨h', holds'⟩ := tree'
  exact OrdMap.entries_injective (holds.unique holds').2

/-- Building a map's tree: always succeeds, and the root is a function of the map. -/
theorem buildTree_succeeds (m : OrdMap ProllyKey Cid) (s : Store H) :
    (buildTree m.entries : StoreM H Cid).Succeeds s fun root s' =>
      root = treeRoot H m.entries ∧ s ≤ s' ∧ IsTree s' root m :=
  (buildTree_holds m.entries s).mono fun _ _ h => h

/-- Equal roots come from equal maps. -/
theorem treeRoot_injective {m m' : OrdMap ProllyKey Cid}
    (same : treeRoot H m.entries = treeRoot H m'.entries) : m = m' := by
  obtain ⟨root, s, -, rfl, -, tree⟩ := buildTree_succeeds (H := H) m {}
  obtain ⟨root', s', -, rfl, -, tree'⟩ := buildTree_succeeds (H := H) m' {}
  exact tree.unique (same ▸ tree')

end Mnem.Prolly
