/-
# Ingest.Session — session chunks partition the conversation

The loop of the session chunker flushes its buffer when the user speaks again,
and when the buffer is full.  A full buffer is flushed at once, and is flushed
before whatever comes next: both cuts are one rule on the group and the next
message (`sessions_eq`).  So the groups are the runs that the rule cuts
(`Theory.Runs`), and the two rules together say where a group ends
(`session_partition`).
-/
import Mnem.Ingest.Chunk
import Mnem.Theory.Runs
import Mathlib.Data.List.Nodup

namespace Mnem.Ingest

open Theory Theory.Utf8

set_option autoImplicit false

/-! ## The rule that closes a group -/

def isUser (s : Section) : Bool := sectionRole s == some "user".toList

/-- A section with text; the others are skipped. -/
def spoken (p : Section × Nat) : Bool := !decide (trim p.1.text = [])

/-- A group is closed before a message when it is full, or when the user speaks again. -/
def closes (cap : Nat) (group : List (Section × Nat)) (p : Section × Nat) : Bool :=
  decide (cap ≤ group.length) || (isUser p.1 && group.any fun q => !isUser q.1)

theorem closes_eq_true {cap : Nat} {group : List (Section × Nat)} {p : Section × Nat} :
    closes cap group p = true ↔
      cap ≤ group.length ∨ isUser p.1 = true ∧ ∃ q ∈ group, isUser q.1 = false := by
  simp [closes]

/-- The groups of a conversation. -/
def groups (sections : List Section) (cap : Nat) : List (List (Section × Nat)) :=
  runs (closes cap) (sections.zipIdx.filter spoken)

/-- The flag of the loop says whether somebody else has spoken in the group. -/
theorem sessions_eq {sections : List Section} {cap : Nat} (roomy : 0 < cap)
    (rest : List (Section × Nat)) {buffer : List (Section × Nat)} (short : buffer.length < cap) :
    sessions sections cap buffer (buffer.any fun q => !isUser q.1) rest =
      (runsFrom (closes cap) buffer (rest.filter spoken)).flatMap (flush sections) := by
  induction rest generalizing buffer with
  | nil =>
      cases buffer with
      | nil => rfl
      | cons p buffer => simp [sessions, runsFrom]
  | cons p rest ih =>
      rw [sessions]
      by_cases blank : trim p.1.text = []
      · have skipped : spoken p = false := by simp [spoken, blank]
        rw [if_pos blank, List.filter_cons_of_neg (by simp [skipped]), ih short]
      · have kept : spoken p = true := by simp [spoken, blank]
        rw [if_neg blank, List.filter_cons_of_pos kept, runsFrom]
        -- a group that grew by this message: full at once, or carried on with its flag
        have grow : ∀ old : List (Section × Nat), old.length < cap →
            (if cap ≤ (old ++ [p]).length then
              flush sections (old ++ [p]) ++ sessions sections cap [] false rest
            else sessions sections cap (old ++ [p])
              ((old ++ [p]).any fun q => !isUser q.1) rest) =
            (runsFrom (closes cap) (old ++ [p]) (rest.filter spoken)).flatMap
              (flush sections) := by
          intro old oldShort
          by_cases full : cap ≤ (old ++ [p]).length
          · have closed : ∀ q, closes cap (old ++ [p]) q = true :=
              fun q => closes_eq_true.mpr (.inl full)
            rw [if_pos full, runsFrom_full (by simp) closed, List.flatMap_cons]
            congr 1
            exact ih roomy
          · rw [if_neg full]
            exact ih (by omega)
        have flag : ∀ old : List (Section × Nat),
            ((old.any fun q => !isUser q.1) || !isUser p.1) =
              (old ++ [p]).any fun q => !isUser q.1 := by
          intro old
          simp
        have turn : (isUser p.1 && (buffer.any fun q => !isUser q.1) && !buffer.isEmpty) =
            (!buffer.isEmpty && closes cap buffer p) := by
          have notFull : decide (cap ≤ buffer.length) = false :=
            decide_eq_false (Nat.not_le.mpr short)
          rw [closes, notFull, Bool.false_or, Bool.and_comm]
        dsimp only
        rw [show (sectionRole p.1 == some "user".toList) = isUser p.1 from rfl, turn]
        split
        · rw [List.flatMap_cons]
          congr 1
          have fresh := grow [] roomy
          rw [← flag] at fresh
          exact fresh
        · rw [List.nil_append, flag]
          exact grow buffer short

theorem built_session {bounds : Text → List Text} (sections : List Section) (maxMessages : Nat) :
    built bounds sections (.session maxMessages) =
      (groups sections (max maxMessages 1)).flatMap (flush sections) :=
  sessions_eq (by omega) sections.zipIdx
    (show ([] : List (Section × Nat)).length < max maxMessages 1 by rw [List.length_nil]; omega)

/-! ## The groups -/

variable {sections : List Section} {cap : Nat}

theorem cuts_groups (sections : List Section) (cap : Nat) :
    Cuts (closes cap) (sections.zipIdx.filter spoken) (groups sections cap) := cuts_runs _

theorem length_of_group (roomy : 0 < cap) {group : List (Section × Nat)}
    (m : group ∈ groups sections cap) : 1 ≤ group.length ∧ group.length ≤ cap := by
  refine ⟨List.length_pos_iff.mpr ((cuts_groups sections cap).occupied group m), ?_⟩
  -- without its last message the group was not full
  rcases List.eq_nil_or_concat group with rfl | ⟨before, p, rfl⟩
  · exact Nat.zero_le cap
  · rw [List.length_concat]
    by_cases none : before = []
    · rw [none, List.length_nil]
      omega
    · have goesOn := (cuts_groups sections cap).uncut _ m before p [] (by simp) none
      have notFull : ¬ cap ≤ before.length := fun full =>
        Bool.eq_false_iff.mp goesOn (closes_eq_true.mpr (.inl full))
      omega

/-- The messages of a group, found again by their positions. -/
def messagesAt (sections : List Section) (positions : List Nat) : List (Section × Nat) :=
  positions.filterMap fun i => (sections[i]?).map fun s => (s, i)

theorem messagesAt_of_subset {group : List (Section × Nat)}
    (inside : ∀ p ∈ group, p ∈ sections.zipIdx) :
    messagesAt sections (group.map Prod.snd) = group := by
  induction group with
  | nil => rfl
  | cons p group ih =>
      have here : sections[p.2]? = some p.1 :=
        List.mk_mem_zipIdx_iff_getElem?.mp (inside p List.mem_cons_self)
      have later := ih fun q m => inside q (List.mem_cons_of_mem p m)
      rw [messagesAt, List.map_cons, List.filterMap_cons, here]
      exact congrArg (p :: ·) later

theorem group_inside {group : List (Section × Nat)} (m : group ∈ groups sections cap) :
    ∀ p ∈ group, p ∈ sections.zipIdx := by
  intro p inGroup
  have spoken : p ∈ sections.zipIdx.filter spoken := by
    rw [← (cuts_groups sections cap).flatten]
    exact List.mem_flatten.mpr ⟨group, m, inGroup⟩
  exact (List.mem_filter.mp spoken).1

/-- The user speaks at a position. -/
def userAt (sections : List Section) (i : Nat) : Prop :=
  ∃ s, sections[i]? = some s ∧ sectionRole s = some "user".toList

theorem userAt_iff {p : Section × Nat} (here : p ∈ sections.zipIdx) :
    userAt sections p.2 ↔ isUser p.1 = true := by
  have found : sections[p.2]? = some p.1 := List.mk_mem_zipIdx_iff_getElem?.mp here
  simp [userAt, found, isUser]

/-- The positions of the sections with text, in order. -/
def spokenPositions (sections : List Section) : List Nat :=
  (sections.zipIdx.filter fun p => !decide (trim p.1.text = [])).map Prod.snd

theorem nodup_spoken (sections : List Section) : (sections.zipIdx.filter spoken).Nodup := by
  have positions : (sections.zipIdx.map Prod.snd).Nodup := by
    rw [List.zipIdx_map_snd]
    exact List.nodup_range'
  exact (List.Nodup.of_map Prod.snd positions).filter _

/-- The chunks flushed from the groups have the groups as their sources. -/
theorem sources_flatMap_flush {gs : List (List (Section × Nat))} (occupied : ∀ g ∈ gs, g ≠ []) :
    (gs.flatMap (flush sections)).map Built.sources = gs.map (List.map Prod.snd) := by
  induction gs with
  | nil => rfl
  | cons g gs ih =>
      have later := ih fun h m => occupied h (List.mem_cons_of_mem g m)
      cases g with
      | nil => exact absurd rfl (occupied [] List.mem_cons_self)
      | cons p g =>
          rw [List.flatMap_cons, List.map_append, later]
          rfl

/-- Somebody else in a part of a group, by its positions. -/
theorem exists_other_iff {part : List (Section × Nat)} (inside : ∀ z ∈ part, z ∈ sections.zipIdx) :
    (∃ z ∈ part, isUser z.1 = false) ↔ ∃ h ∈ part.map Prod.snd, ¬ userAt sections h := by
  have each : ∀ z ∈ part, (isUser z.1 = false ↔ ¬ userAt sections z.2) := by
    intro z m
    rw [userAt_iff (inside z m), Bool.not_eq_true]
  constructor
  · rintro ⟨z, m, other⟩
    exact ⟨z.2, List.mem_map_of_mem m, (each z m).mp other⟩
  · rintro ⟨h, m, other⟩
    obtain ⟨z, inPart, rfl⟩ := List.mem_map.mp m
    exact ⟨z, inPart, (each z inPart).mpr other⟩

/-- Where a group ends, by the positions of its messages. -/
theorem group_ends_iff (roomy : 0 < cap) {group : List (Section × Nat)}
    (inGroups : group ∈ groups sections cap) {before after p q : List Nat} {i j : Nat}
    (here : group.map Prod.snd = before ++ i :: after)
    (next : spokenPositions sections = p ++ i :: j :: q) :
    after = [] ↔ (before ++ [i]).length = cap ∨
      userAt sections j ∧ ∃ h ∈ before ++ [i], ¬ userAt sections h := by
  have cuts := cuts_groups sections cap
  have inside := group_inside inGroups
  obtain ⟨before, rest, rfl, rfl, tail⟩ := List.map_eq_append_iff.mp here
  obtain ⟨x, after, rfl, rfl, rfl⟩ := List.map_eq_cons_iff.mp tail
  obtain ⟨p, rest, whole, rfl, tail⟩ := List.map_eq_append_iff.mp next
  obtain ⟨x', rest, rfl, same, tail⟩ := List.map_eq_cons_iff.mp tail
  obtain ⟨y, q, rfl, rfl, rfl⟩ := List.map_eq_cons_iff.mp tail
  have inside' : ∀ z ∈ p ++ x' :: y :: q, z ∈ sections.zipIdx := by
    intro z m
    rw [← whole] at m
    exact (List.mem_filter.mp m).1
  -- the message at the position is the one of the group
  obtain rfl : x' = x := by
    have found : sections[x'.2]? = some x'.1 :=
      List.mk_mem_zipIdx_iff_getElem?.mp (inside' x' (by simp))
    have found' : sections[x.2]? = some x.1 :=
      List.mk_mem_zipIdx_iff_getElem?.mp (inside x (by simp))
    rw [same, found'] at found
    exact Prod.ext (Option.some.inj found).symm same
  have short := (length_of_group roomy inGroups).2
  have front : ∀ z ∈ before ++ [x'], z ∈ sections.zipIdx := by
    intro z m
    refine inside z ?_
    rcases List.mem_append.mp m with old | last
    · exact List.mem_append_left _ old
    · rw [List.mem_singleton.mp last]
      exact List.mem_append_right _ List.mem_cons_self
  rw [List.map_eq_nil_iff, cuts.ends_iff (nodup_spoken sections) inGroups rfl whole,
    closes_eq_true, userAt_iff (inside' y (by simp)), exists_other_iff front, List.map_append]
  refine or_congr ?_ Iff.rfl
  rw [List.length_append, List.length_cons] at short
  simp only [List.length_append, List.length_map, List.length_singleton]
  omega

/-- The chunk of a group has the texts of its messages. -/
theorem text_of_flush {group : List (Section × Nat)} {b : Built}
    (inGroups : group ∈ groups sections cap) (flushed : b ∈ flush sections group) :
    b.chunk.text = sessionText (messagesAt sections (group.map Prod.snd)) := by
  rw [messagesAt_of_subset (group_inside inGroups)]
  cases group with
  | nil => cases flushed
  | cons p group =>
      cases List.mem_singleton.mp flushed
      rfl

end Mnem.Ingest
