/-
# Theory.Walk — a depth-first iterator with a set of pushed keys

`next` pops a key, reads it, and pushes those of its links that were never
pushed before, so a key is visited at most once.  A key that cannot be read
ends the walk for good.  `collect` drains the iterator up to the first failure.

* What a drained walk yields are the keys reachable from its root, each once
  (`collect_exact`).
* Over finitely many readable keys, one step for each and one more is enough:
  the walk drains, or a reachable key cannot be read (`collect_cases`).
* Called without end, it gives distinct reachable keys, each after one that
  links to it, and then nothing more when these are all, or one failure and then
  nothing more (`exists_gives`).
-/
import Mathlib.Data.List.Nodup
import Mathlib.Data.List.Perm.Subperm
import Mathlib.Logic.Relation
import Mnem.Theory.Exec

namespace Mnem.Theory.Walk

set_option autoImplicit false

variable {K V ε : Type}

/-- The keys to visit, next first, and every key pushed so far. -/
structure Walker (K : Type) where
  stack : List K
  seen : List K
  fused : Bool := false

def start (root : K) : Walker K := { stack := [root], seen := [root] }

/-- One key links to another that its reading lists. -/
def Links (read : K → Except ε (V × List K)) (a b : K) : Prop :=
  ∃ v links, read a = .ok (v, links) ∧ b ∈ links

def Reaches (read : K → Except ε (V × List K)) : K → K → Prop :=
  Relation.ReflTransGen (Links read)

variable [DecidableEq K]

/-- Push the links that were never pushed before; the first link ends on top. -/
def Walker.push (w : Walker K) (links : List K) : Walker K :=
  links.foldr (fun k w => if k ∈ w.seen then w
    else { w with stack := k :: w.stack, seen := k :: w.seen }) w

def next (read : K → Except ε (V × List K)) (w : Walker K) :
    Option (Except ε (K × V)) × Walker K :=
  if w.fused then (none, w)
  else
    match w.stack with
    | [] => (none, w)
    | k :: stack =>
        match read k with
        | .error e => (some (.error e), { w with stack := stack, fused := true })
        | .ok (v, links) => (some (.ok (k, v)), Walker.push { w with stack := stack } links)

/-- Every item of the walk, up to its first failure; `cut` marks a walk that ran out of steps. -/
def collect (read : K → Except ε (V × List K)) (cut : ε) : Nat → Walker K → Except ε (List (K × V))
  | 0, _ => .error cut
  | fuel + 1, w =>
      match next read w with
      | (none, _) => .ok []
      | (some (.error e), _) => .error e
      | (some (.ok item), w) => do
          let rest ← collect read cut fuel w
          return item :: rest

variable {read : K → Except ε (V × List K)} {cut : ε} {w : Walker K}

/-! ## One step -/

theorem next_nil (running : w.fused = false) (top : w.stack = []) : next read w = (none, w) := by
  simp [next, running, top]

theorem next_error {k : K} {stack : List K} {e : ε} (running : w.fused = false)
    (top : w.stack = k :: stack) (fails : read k = .error e) :
    next read w = (some (.error e), { w with stack := stack, fused := true }) := by
  simp [next, running, top, fails]

theorem next_ok {k : K} {stack links : List K} {v : V} (running : w.fused = false)
    (top : w.stack = k :: stack) (reads : read k = .ok (v, links)) :
    next read w = (some (.ok (k, v)), Walker.push { w with stack := stack } links) := by
  simp [next, running, top, reads]

/-- A walk that gives nothing stays where it is. -/
theorem next_none {w' : Walker K} (stopped : next read w = (none, w')) : w' = w := by
  unfold next at stopped
  split at stopped
  · exact (Prod.mk.inj stopped).2.symm
  · split at stopped
    · exact (Prod.mk.inj stopped).2.symm
    · split at stopped <;> cases (Prod.mk.inj stopped).1

/-- What a push adds: links that are new, each once, until every link is there. -/
theorem Walker.push_fresh (w : Walker K) (links : List K) :
    ∃ fresh, w.push links = { w with stack := fresh ++ w.stack, seen := fresh ++ w.seen } ∧
      fresh.Nodup ∧ (∀ k ∈ fresh, k ∈ links ∧ k ∉ w.seen) ∧
      ∀ k ∈ links, k ∈ fresh ++ w.seen := by
  induction links with
  | nil => exact ⟨[], rfl, List.nodup_nil, nofun, nofun⟩
  | cons j links ih =>
      obtain ⟨fresh, pushed, once, new, all⟩ := ih
      have unfolded : w.push (j :: links) = if j ∈ (w.push links).seen then w.push links
          else { w.push links with
            stack := j :: (w.push links).stack, seen := j :: (w.push links).seen } := rfl
      rw [pushed] at unfolded
      by_cases old : j ∈ fresh ++ w.seen
      · refine ⟨fresh, unfolded.trans (if_pos old), once, fun k m => ?_, fun k m => ?_⟩
        · exact ⟨List.mem_cons_of_mem _ (new k m).1, (new k m).2⟩
        · rcases List.mem_cons.mp m with rfl | later
          · exact old
          · exact all k later
      · refine ⟨j :: fresh, unfolded.trans (if_neg old), ?_, fun k m => ?_, fun k m => ?_⟩
        · exact List.nodup_cons.mpr ⟨fun m => old (List.mem_append_left _ m), once⟩
        · rcases List.mem_cons.mp m with rfl | later
          · exact ⟨List.mem_cons_self, fun seen => old (List.mem_append_right _ seen)⟩
          · exact ⟨List.mem_cons_of_mem _ (new k later).1, (new k later).2⟩
        · rcases List.mem_cons.mp m with rfl | later
          · exact List.mem_cons_self
          · exact List.mem_cons_of_mem _ (all k later)

/-- A walk from `root` that has yielded `done` and can go on. -/
structure Underway (read : K → Except ε (V × List K)) (root : K) (done : List K)
    (w : Walker K) : Prop where
  running : w.fused = false
  pushed : w.seen.Perm (done ++ w.stack)
  once : w.seen.Nodup
  rooted : root ∈ w.seen
  reached : ∀ k ∈ w.seen, Reaches read root k
  closed : ∀ k ∈ done, ∃ v links, read k = .ok (v, links) ∧ ∀ j ∈ links, j ∈ w.seen

omit [DecidableEq K] in
theorem underway_start (root : K) : Underway read root [] (start root) where
  running := rfl
  pushed := List.Perm.refl _
  once := List.nodup_singleton _
  rooted := List.mem_singleton_self _
  reached k m := by
    obtain rfl := List.mem_singleton.mp m
    exact .refl
  closed := nofun

/-- A visit moves the key from the stack to what is done. -/
theorem Underway.visit {root k : K} {done stack : List K} (before : Underway read root done w)
    (top : w.stack = k :: stack) {v : V} {links : List K} (reads : read k = .ok (v, links)) :
    ∃ w', next read w = (some (.ok (k, v)), w') ∧ Underway read root (done ++ [k]) w' := by
  obtain ⟨fresh, pushed, once, new, all⟩ := Walker.push_fresh { w with stack := stack } links
  have here : k ∈ w.seen :=
    before.pushed.mem_iff.mpr (List.mem_append_right _ (top ▸ List.mem_cons_self))
  refine ⟨_, next_ok before.running top reads, ?_⟩
  rw [pushed]
  constructor
  case running => exact before.running
  case pushed =>
    have moved : w.seen.Perm (done ++ [k] ++ stack) := by
      have split := before.pushed
      rw [top] at split
      simpa using split
    refine (moved.append_left fresh).trans ?_
    change (fresh ++ (done ++ [k] ++ stack)).Perm (done ++ [k] ++ (fresh ++ stack))
    rw [← List.append_assoc fresh, ← List.append_assoc (done ++ [k])]
    exact List.perm_append_comm.append_right stack
  case once =>
    exact once.append before.once fun k m seen => (new k m).2 seen
  case rooted => exact List.mem_append_right _ before.rooted
  case reached =>
    intro j m
    rcases List.mem_append.mp m with added | old
    · exact (before.reached k here).tail ⟨v, links, reads, (new j added).1⟩
    · exact before.reached j old
  case closed =>
    intro j m
    rcases List.mem_append.mp m with earlier | last
    · obtain ⟨v', links', reads', inside⟩ := before.closed j earlier
      exact ⟨v', links', reads', fun i mi => List.mem_append_right _ (inside i mi)⟩
    · obtain rfl := List.mem_singleton.mp last
      exact ⟨v, links, reads, all⟩

omit [DecidableEq K] in
/-- With nothing left to visit, what is done is closed under links. -/
theorem Underway.all_done {root k : K} {done : List K} (before : Underway read root done w)
    (top : w.stack = []) (reached : Reaches read root k) : k ∈ done := by
  have all : w.seen.Perm done := by simpa [top] using before.pushed
  induction reached with
  | refl => exact all.mem_iff.mp before.rooted
  | tail _ link ih =>
      obtain ⟨v, links, reads, member⟩ := link
      obtain ⟨v', links', reads', inside⟩ := before.closed _ ih
      rw [reads] at reads'
      obtain ⟨rfl, rfl⟩ := Prod.mk.inj (Except.ok.inj reads')
      exact all.mem_iff.mp (inside _ member)

omit [DecidableEq K] in
theorem Underway.nodup_done {root : K} {done : List K} (before : Underway read root done w) :
    done.Nodup := (List.nodup_append.mp (before.pushed.nodup_iff.mp before.once)).1

omit [DecidableEq K] in
theorem Underway.reaches_top {root k : K} {done stack : List K} (before : Underway read root done w)
    (top : w.stack = k :: stack) : Reaches read root k :=
  before.reached k
    (before.pushed.mem_iff.mpr (List.mem_append_right _ (top ▸ List.mem_cons_self)))

/-! ## A whole walk -/

/-- A drained walk has yielded the reachable keys that were not yielded before. -/
theorem Underway.collected {root : K} : ∀ {fuel : Nat} {done : List K} {w : Walker K}
    {items : List (K × V)}, Underway read root done w → collect read cut fuel w = .ok items →
      (done ++ items.map Prod.fst).Nodup ∧
        (∀ k, k ∈ done ++ items.map Prod.fst ↔ Reaches read root k) ∧
        ∀ item ∈ items, ∃ links, read item.1 = .ok (item.2, links)
  | 0, done, w, items, _, ran => by cases ran
  | fuel + 1, done, w, items, before, ran => by
      cases top : w.stack with
      | nil =>
          rw [collect, next_nil before.running top] at ran
          obtain rfl := Except.ok.inj ran
          have seen : ∀ k ∈ done, k ∈ w.seen := fun k m =>
            before.pushed.mem_iff.mpr (List.mem_append_left _ m)
          simp only [List.map_nil, List.append_nil]
          refine ⟨before.nodup_done, fun k => ⟨fun m => ?_, before.all_done top⟩, nofun⟩
          exact before.reached k (seen k m)
      | cons k stack =>
          cases reads : read k with
          | error e =>
              rw [collect, next_error before.running top reads] at ran
              cases ran
          | ok reading =>
              obtain ⟨v, links⟩ := reading
              obtain ⟨w', stepped, after⟩ := before.visit top reads
              rw [collect, stepped] at ran
              obtain ⟨rest, collected, kept⟩ := Exec.bind_eq_ok.mp ran
              obtain rfl := Except.ok.inj kept
              obtain ⟨once, exact, values⟩ := after.collected collected
              rw [List.append_assoc] at once exact
              refine ⟨once, exact, fun item m => ?_⟩
              rcases List.mem_cons.mp m with rfl | later
              · exact ⟨links, reads⟩
              · exact values item later

/-- What a walk yields: the reachable keys, each once, as they read. -/
theorem collect_exact {fuel : Nat} {root : K} {items : List (K × V)}
    (ran : collect read cut fuel (start root) = .ok items) :
    (items.map Prod.fst).Nodup ∧ (∀ k, k ∈ items.map Prod.fst ↔ Reaches read root k) ∧
      ∀ item ∈ items, ∃ links, read item.1 = .ok (item.2, links) :=
  (underway_start root).collected ran

omit [DecidableEq K] in
/-- The keys done are distinct and readable, so there are not more of them than readable keys. -/
theorem Underway.few {root : K} {done nodes : List K} (before : Underway read root done w)
    (finite : ∀ k v links, read k = .ok (v, links) → k ∈ nodes) : done.length ≤ nodes.length := by
  have inside : done ⊆ nodes := fun k m => by
    obtain ⟨v, links, reads, -⟩ := before.closed k m
    exact finite k v links reads
  exact (before.nodup_done.subperm inside).length_le

/-- With a step for each readable key left, a walk drains or meets one that cannot be read. -/
theorem Underway.collect_cases {root : K} {nodes : List K}
    (finite : ∀ k v links, read k = .ok (v, links) → k ∈ nodes) :
    ∀ {fuel : Nat} {done : List K} {w : Walker K}, Underway read root done w →
      nodes.length + 1 ≤ fuel + done.length →
        (∃ items, collect read cut fuel w = .ok items) ∨
          ∃ k e, Reaches read root k ∧ read k = .error e ∧ collect read cut fuel w = .error e
  | 0, done, w, before, enough => by
      have few := before.few finite
      omega
  | fuel + 1, done, w, before, enough => by
      cases top : w.stack with
      | nil =>
          refine .inl ⟨[], ?_⟩
          rw [collect, next_nil before.running top]
      | cons k stack =>
          cases reads : read k with
          | error e =>
              refine .inr ⟨k, e, before.reaches_top top, reads, ?_⟩
              rw [collect, next_error before.running top reads]
          | ok reading =>
              obtain ⟨v, links⟩ := reading
              obtain ⟨w', stepped, after⟩ := before.visit top reads
              rw [collect, stepped]
              have room : nodes.length + 1 ≤ fuel + (done ++ [k]).length := by
                rw [List.length_append, List.length_singleton]
                omega
              rcases after.collect_cases finite room with ⟨items, ran⟩ | ⟨j, e, reached, fails, ran⟩
              · exact .inl ⟨(k, v) :: items, by simp only [ran]; rfl⟩
              · exact .inr ⟨j, e, reached, fails, by simp only [ran]; rfl⟩

/-- Enough steps: a walk drains, or a reachable key cannot be read and the walk says so. -/
theorem collect_cases {nodes : List K}
    (finite : ∀ k v links, read k = .ok (v, links) → k ∈ nodes) {fuel : Nat}
    (enough : nodes.length < fuel) (root : K) :
    (∃ items, collect read cut fuel (start root) = .ok items) ∨
      ∃ k e, Reaches read root k ∧ read k = .error e ∧
        collect read cut fuel (start root) = .error e :=
  (underway_start root).collect_cases finite enough

/-! ## The order of a walk -/

/-- The first key is the root, and every other comes after a key that links to it. -/
def InOrder (links : K → K → Prop) (root : K) (keys : List K) : Prop :=
  ∀ before k after, keys = before ++ k :: after →
    (before = [] ∧ k = root) ∨ ∃ j ∈ before, links j k

omit [DecidableEq K] in
theorem InOrder.concat {links : K → K → Prop} {root k : K} {keys : List K}
    (inOrder : InOrder links root keys) (next : (keys = [] ∧ k = root) ∨ ∃ j ∈ keys, links j k) :
    InOrder links root (keys ++ [k]) := by
  intro before j after split
  rcases List.eq_nil_or_concat after with rfl | ⟨after, last, rfl⟩
  · obtain ⟨rfl, same⟩ := List.append_inj' split rfl
    obtain rfl := List.singleton_inj.mp same
    exact next
  · rw [List.concat_eq_append, ← List.cons_append, ← List.append_assoc] at split
    exact inOrder before j after (List.append_inj' split rfl).1

/-- The keys done are in order, and so is any key of the stack after them. -/
structure Ordered (read : K → Except ε (V × List K)) (root : K) (done : List K)
    (w : Walker K) : Prop where
  inOrder : InOrder (Links read) root done
  stacked : (done = [] ∧ w.stack = [root]) ∨ ∀ k ∈ w.stack, ∃ j ∈ done, Links read j k

omit [DecidableEq K] in
theorem ordered_start (root : K) : Ordered read root [] (start root) where
  inOrder before k after split := by simp at split
  stacked := .inl ⟨rfl, rfl⟩

theorem Ordered.visit {root k : K} {done stack : List K} (before : Ordered read root done w)
    (top : w.stack = k :: stack) {v : V} {links : List K} (reads : read k = .ok (v, links)) :
    Ordered read root (done ++ [k]) (Walker.push { w with stack := stack } links) := by
  obtain ⟨fresh, pushed, -, new, -⟩ := Walker.push_fresh { w with stack := stack } links
  have linked : ∀ j ∈ fresh, ∃ i ∈ done ++ [k], Links read i j :=
    fun j m => ⟨k, by simp, v, links, reads, (new j m).1⟩
  rw [pushed]
  rcases before.stacked with ⟨rfl, only⟩ | stacked
  · -- the root itself is on top, and nothing is below it
    rw [top] at only
    obtain ⟨rfl, rfl⟩ := List.cons.inj only
    refine ⟨before.inOrder.concat (.inl ⟨rfl, rfl⟩), .inr fun j m => ?_⟩
    exact linked j (by simpa using m)
  · rw [top] at stacked
    refine ⟨before.inOrder.concat (.inr (stacked k List.mem_cons_self)), .inr fun j m => ?_⟩
    rcases List.mem_append.mp m with added | old
    · exact linked j added
    · obtain ⟨i, mi, link⟩ := stacked j (List.mem_cons_of_mem _ old)
      exact ⟨i, List.mem_append_left _ mi, link⟩

/-! ## Every call of a walk -/

/-- What the `n`-th call gives. -/
def answer (read : K → Except ε (V × List K)) : Nat → Walker K → Option (Except ε (K × V))
  | 0, w => (next read w).1
  | n + 1, w => answer read n (next read w).2

/-- The calls give these answers, one after the other, and then nothing for ever. -/
def Answers (read : K → Except ε (V × List K)) (w : Walker K) (l : List (Except ε (K × V))) : Prop :=
  ∀ n, answer read n w = l[n]?

theorem answers_nil (stopped : next read w = (none, w)) : Answers read w [] := by
  intro n
  induction n with
  | zero => rw [answer, stopped]; rfl
  | succ n ih => rw [answer, stopped, ih]; rfl

theorem answers_cons {w' : Walker K} {a : Except ε (K × V)} {l : List (Except ε (K × V))}
    (step : next read w = (some a, w')) (rest : Answers read w' l) : Answers read w (a :: l)
  | 0 => by rw [answer, step]; rfl
  | n + 1 => by rw [answer, step, rest n]; rfl

/-- A failure is the last answer. -/
theorem answers_error {k : K} {stack : List K} {e : ε} (running : w.fused = false)
    (top : w.stack = k :: stack) (fails : read k = .error e) : Answers read w [.error e] :=
  answers_cons (next_error running top fails) (answers_nil (by simp [next]))

/-- What a drained walk has collected are its answers. -/
theorem answers_of_collect : ∀ {fuel : Nat} {w : Walker K} {items : List (K × V)},
    collect read cut fuel w = .ok items → Answers read w (items.map .ok)
  | 0, _, _, ran => by cases ran
  | fuel + 1, w, items, ran => by
      rw [collect] at ran
      split at ran
      · rename_i w' stopped
        obtain rfl := Except.ok.inj ran
        obtain rfl := next_none stopped
        exact answers_nil stopped
      · cases ran
      · rename_i item w' step
        obtain ⟨rest, collected, kept⟩ := Exec.bind_eq_ok.mp ran
        obtain rfl := Except.ok.inj kept
        exact answers_cons step (answers_of_collect collected)

/-- The items a walk gives from where it is: readable keys, with what was done before each once
and in order; and after them nothing, when the keys done are then closed under links, or the
failure to read a reachable key. -/
structure Gives (read : K → Except ε (V × List K)) (root : K) (done : List K) (w : Walker K)
    (items : List (K × V)) : Prop where
  once : (done ++ items.map Prod.fst).Nodup
  inOrder : InOrder (Links read) root (done ++ items.map Prod.fst)
  sound : ∀ item ∈ items, Reaches read root item.1 ∧ ∃ links, read item.1 = .ok (item.2, links)
  ends : (Answers read w (items.map .ok) ∧
      ∀ k, Reaches read root k → k ∈ done ++ items.map Prod.fst) ∨
    ∃ k e, Reaches read root k ∧ read k = .error e ∧
      Answers read w (items.map .ok ++ [.error e])

theorem Ordered.gives_nil {root : K} {done : List K} (inOrder : Ordered read root done w)
    (before : Underway read root done w) (ends : (Answers read w [] ∧ w.stack = []) ∨
      ∃ k e, Reaches read root k ∧ read k = .error e ∧ Answers read w [.error e]) :
    Gives read root done w [] where
  once := by simpa using before.nodup_done
  inOrder := by simpa using inOrder.inOrder
  sound := nofun
  ends := ends.imp_left fun ⟨answers, top⟩ =>
    ⟨answers, fun k reached => by simpa using before.all_done top reached⟩

theorem Gives.cons {root k : K} {done : List K} {v : V} {links : List K} {items : List (K × V)}
    {w' : Walker K} (rest : Gives read root (done ++ [k]) w' items)
    (reached : Reaches read root k) (reads : read k = .ok (v, links))
    (step : next read w = (some (.ok (k, v)), w')) : Gives read root done w ((k, v) :: items) where
  once := by simpa using rest.once
  inOrder := by simpa using rest.inOrder
  sound item m := by
    rcases List.mem_cons.mp m with rfl | later
    · exact ⟨reached, links, reads⟩
    · exact rest.sound item later
  ends := by
    rcases rest.ends with ⟨answers, all⟩ | ⟨j, e, reached, fails, answers⟩
    · exact .inl ⟨answers_cons step answers, by simpa using all⟩
    · exact .inr ⟨j, e, reached, fails, answers_cons step answers⟩

/-- A walk is at its end, or visits one more key and goes on. -/
theorem Underway.ends_or_visits {root : K} {done : List K} (before : Underway read root done w)
    (inOrder : Ordered read root done w) : Gives read root done w [] ∨
      ∃ k v w', Underway read root (done ++ [k]) w' ∧ Ordered read root (done ++ [k]) w' ∧
        ∀ items, Gives read root (done ++ [k]) w' items → Gives read root done w ((k, v) :: items) := by
  cases top : w.stack with
  | nil => exact .inl (inOrder.gives_nil before (.inl ⟨answers_nil (next_nil before.running top), top⟩))
  | cons k stack =>
      have reached := before.reaches_top top
      cases reads : read k with
      | error e =>
          refine .inl (inOrder.gives_nil before (.inr ⟨k, e, reached, reads, ?_⟩))
          exact answers_error before.running top reads
      | ok reading =>
          obtain ⟨v, links⟩ := reading
          have step := next_ok before.running top reads
          obtain ⟨w', stepped, after⟩ := before.visit top reads
          obtain rfl : Walker.push { w with stack := stack } links = w' :=
            (Prod.mk.inj (step.symm.trans stepped)).2
          exact .inr ⟨k, v, _, after, inOrder.visit top reads,
            fun items rest => rest.cons reached reads step⟩

theorem Underway.gives {root : K} {nodes : List K}
    (finite : ∀ k v links, read k = .ok (v, links) → k ∈ nodes) (left : Nat) :
    ∀ {done : List K} {w : Walker K}, Underway read root done w → Ordered read root done w →
      nodes.length ≤ left + done.length → ∃ items, Gives read root done w items := by
  induction left with
  | zero =>
      intro done w before inOrder enough
      rcases before.ends_or_visits inOrder with ended | ⟨k, v, w', after, -, -⟩
      · exact ⟨[], ended⟩
      · -- one more key is done than there are readable keys
        have few := after.few finite
        rw [List.length_append, List.length_singleton] at few
        omega
  | succ left ih =>
      intro done w before inOrder enough
      rcases before.ends_or_visits inOrder with ended | ⟨k, v, w', after, ordered, gives⟩
      · exact ⟨[], ended⟩
      · have room : nodes.length ≤ left + (done ++ [k]).length := by
          rw [List.length_append, List.length_singleton]
          omega
        obtain ⟨items, rest⟩ := ih after ordered room
        exact ⟨(k, v) :: items, gives items rest⟩

/-- Over finitely many readable keys, every walk gives some items and ends. -/
theorem exists_gives {nodes : List K}
    (finite : ∀ k v links, read k = .ok (v, links) → k ∈ nodes) (root : K) :
    ∃ items, Gives read root [] (start root) items :=
  (underway_start root).gives finite nodes.length (ordered_start root) (Nat.le_add_right _ _)

end Mnem.Theory.Walk
