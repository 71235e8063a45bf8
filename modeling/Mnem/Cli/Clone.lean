/-
# Cli.Clone — the head of a repository that was cloned

The first root of an archive is its head, if it is a commit.  Otherwise
`mnem clone` looks for a tip among the roots: it excludes the commits that
another one names under the key `parent` and takes the latest that is left.
Commits are written with a list under `parents`, so nothing is excluded: what is
found is a tip exactly when the latest root commit happens to be one
(`findHeadCommit_iff`).
-/
import Mnem.Transport.Fragment
import Mnem.Transport.Import
import Mnem.Codec.Format
import Mathlib.Data.List.MinMax
import Mathlib.Data.Prod.Lex
import Mathlib.Data.List.Lex

namespace Mnem.Cli.Clone

open Theory Transport

set_option autoImplicit false

/-- The map of a block whose `_kind` is `commit`. -/
def commitMap (F : Formats) (data : Bytes) : Option (List (String × Ipld Cid)) :=
  match F.cbor.decode data with
  | .ok (.map kvs) =>
      match Entries.get? "_kind" kvs with
      | some (.string kind) => if kind = "commit" then some kvs else none
      | _ => none
  | _ => none

def commitAt (F : Formats) (bs : Blockstore) (root : Cid) : Option (List (String × Ipld Cid)) :=
  (bs.get root).bind (commitMap F)

theorem commitAt_of_decode {F : Formats} {bs : Blockstore} {c : Cid} {data : Bytes}
    {kvs : List (String × Ipld Cid)} (present : bs.get c = some data)
    (decoded : F.cbor.decode data = .ok (.map kvs))
    (kind : Entries.get? "_kind" kvs = some (.string "commit")) : commitAt F bs c = some kvs := by
  rw [commitAt, present, Option.bind_some]
  unfold commitMap
  rw [decoded]
  dsimp only
  rw [kind]
  exact if_pos rfl

/-- The time of a commit; zero where it gives no 64-bit time. -/
def timeOf (kvs : List (String × Ipld Cid)) : Nat :=
  match Entries.get? "time" kvs with
  | some (.integer n) => if 0 ≤ n ∧ n < 2 ^ 64 then n.toNat else 0
  | _ => 0

/-- A link under the key `parent`. -/
def parentLink (kvs : List (String × Ipld Cid)) : Option Cid :=
  match Entries.get? "parent" kvs with
  | some (.link parent) => some parent
  | _ => none

/-- The commits among the roots, with their times, and what they name as parents. -/
structure Scan where
  commits : List (Cid × Nat) := []
  referencedAsParent : List Cid := []

def scanRoot (F : Formats) (bs : Blockstore) (acc : Scan) (root : Cid) : Scan :=
  match commitAt F bs root with
  | none => acc
  | some kvs =>
      { commits := acc.commits ++ [(root, timeOf kvs)]
        referencedAsParent := (parentLink kvs).toList ++ acc.referencedAsParent }

/-- The commits that are not named as a parent; all of them, if each is. -/
def Scan.candidates (scan : Scan) : List (Cid × Nat) :=
  let tips := scan.commits.filter fun entry => entry.1 ∉ scan.referencedAsParent
  if tips = [] then scan.commits else tips

/-- By time, and then by the bytes of the identifier. -/
def rank (entry : Cid × Nat) : Nat ×ₗ List Nat :=
  toLex (entry.2, entry.1.toBytes.map UInt8.toNat)

/-- `find_head_commit_heuristic`.  Entries of equal rank are the same commit, so it does not matter
which of them is taken. -/
def findHeadCommitHeuristic (F : Formats) (bs : Blockstore) (roots : List Cid) : Option Cid :=
  let scan := roots.foldl (scanRoot F bs) {}
  if scan.commits = [] then none else (scan.candidates.argmax rank).map Prod.fst

/-- `find_head_commit`. -/
def findHeadCommit (F : Formats) (bs : Blockstore) (roots : List Cid) : Option Cid :=
  match roots with
  | [] => findHeadCommitHeuristic F bs roots
  | root :: _ =>
      match bs.get root with
      | none => findHeadCommitHeuristic F bs roots
      | some bytes =>
          if (commitMap F bytes).isSome then some root else findHeadCommitHeuristic F bs roots

/-! ## Tips -/

section Tips

variable (F : Formats) (bs : Blockstore) (roots : List Cid)

structure RootCommit (c : Cid) (kvs : List (String × Ipld Cid)) : Prop where
  root : c ∈ roots
  commit : commitAt F bs c = some kvs

/-- The parents of a commit, as `Commit` writes them. -/
def parentsOf (kvs : List (String × Ipld Cid)) : List Cid :=
  match Entries.get? "parents" kvs with
  | some (.list xs) => xs.filterMap fun x =>
      match x with
      | .link c => some c
      | _ => none
  | _ => []

/-- A root commit that is no parent of another one. -/
structure Tip (c : Cid) (kvs : List (String × Ipld Cid)) : Prop extends RootCommit F bs roots c kvs where
  last : ∀ d kvs', RootCommit F bs roots d kvs' → d ≠ c → c ∉ parentsOf kvs'

/-- Some root commit has a link to it under `parent`. -/
def Named (c : Cid) : Prop :=
  ∃ d kvs, RootCommit F bs roots d kvs ∧ parentLink kvs = some c

/-- A root commit that is not named under `parent`, or any where all are. -/
structure Candidate (c : Cid) (kvs : List (String × Ipld Cid)) : Prop
    extends RootCommit F bs roots c kvs where
  unnamed : Named F bs roots c → ∀ d kvs', RootCommit F bs roots d kvs' → Named F bs roots d

/-- Nothing where no root is a commit; otherwise the tip of the greatest rank. -/
structure FindsTip (result : Option Cid) : Prop where
  none_iff : result = none ↔ ∀ c kvs, ¬ RootCommit F bs roots c kvs
  tip : ∀ c, result = some c → ∃ kvs, Tip F bs roots c kvs ∧
    ∀ d kvs', Tip F bs roots d kvs' → rank (d, timeOf kvs') ≤ rank (c, timeOf kvs)

variable {F bs roots}

theorem rank_injective {a b : Cid × Nat} (same : rank a = rank b) : a = b := by
  have pair := Prod.mk.inj (toLex.injective same)
  have cids := Fragment.toBytes_injective
    (List.map_injective_iff.mpr (fun _ _ => UInt8.toNat_inj.mp) pair.2)
  exact Prod.ext cids pair.1

theorem RootCommit.unique {c : Cid} {kvs kvs' : List (String × Ipld Cid)}
    (one : RootCommit F bs roots c kvs) (other : RootCommit F bs roots c kvs') : kvs = kvs' :=
  Option.some.inj (one.commit.symm.trans other.commit)

theorem scan_eq (F : Formats) (bs : Blockstore) (roots : List Cid) :
    (roots.foldl (scanRoot F bs) {}).commits =
        roots.filterMap (fun root => (commitAt F bs root).map fun kvs => (root, timeOf kvs)) ∧
      (roots.foldl (scanRoot F bs) {}).referencedAsParent =
        (roots.filterMap fun root => (commitAt F bs root).bind parentLink).reverse := by
  induction roots using List.reverseRecOn with
  | nil => exact ⟨rfl, rfl⟩
  | append_singleton roots root ih =>
      rw [List.foldl_append, List.foldl_cons, List.foldl_nil, List.filterMap_append,
        List.filterMap_append, List.reverse_append, ← ih.1, ← ih.2]
      unfold scanRoot
      cases found : commitAt F bs root with
      | none => simp [found]
      | some kvs =>
          cases named : parentLink kvs with
          | none => simp [found, named]
          | some parent => simp [found, named]

theorem mem_commits {entry : Cid × Nat} : entry ∈ (roots.foldl (scanRoot F bs) {}).commits ↔
    ∃ kvs, RootCommit F bs roots entry.1 kvs ∧ entry.2 = timeOf kvs := by
  rw [(scan_eq F bs roots).1, List.mem_filterMap]
  constructor
  · rintro ⟨root, member, same⟩
    obtain ⟨kvs, found, rfl⟩ := Option.map_eq_some_iff.mp same
    exact ⟨kvs, ⟨member, found⟩, rfl⟩
  · rintro ⟨kvs, commit, time⟩
    refine ⟨entry.1, commit.root, ?_⟩
    rw [commit.commit, Option.map_some, ← time]

theorem mem_referencedAsParent {c : Cid} :
    c ∈ (roots.foldl (scanRoot F bs) {}).referencedAsParent ↔ Named F bs roots c := by
  rw [(scan_eq F bs roots).2, List.mem_reverse, List.mem_filterMap]
  constructor
  · rintro ⟨root, member, same⟩
    obtain ⟨kvs, found, link⟩ := Option.bind_eq_some_iff.mp same
    exact ⟨root, kvs, ⟨member, found⟩, link⟩
  · rintro ⟨root, kvs, commit, link⟩
    exact ⟨root, commit.root, Option.bind_eq_some_iff.mpr ⟨kvs, commit.commit, link⟩⟩

theorem mem_candidates {entry : Cid × Nat} : entry ∈ (roots.foldl (scanRoot F bs) {}).candidates ↔
    ∃ kvs, Candidate F bs roots entry.1 kvs ∧ entry.2 = timeOf kvs := by
  have tip : ∀ e, e ∈ (roots.foldl (scanRoot F bs) {}).commits.filter (fun e =>
      e.1 ∉ (roots.foldl (scanRoot F bs) {}).referencedAsParent) ↔
        (∃ kvs, RootCommit F bs roots e.1 kvs ∧ e.2 = timeOf kvs) ∧ ¬ Named F bs roots e.1 := by
    intro e
    rw [List.mem_filter, mem_commits, ← mem_referencedAsParent, decide_eq_true_iff]
  unfold Scan.candidates
  dsimp only
  by_cases none : (roots.foldl (scanRoot F bs) {}).commits.filter (fun e =>
      e.1 ∉ (roots.foldl (scanRoot F bs) {}).referencedAsParent) = []
  · have all : ∀ d kvs, RootCommit F bs roots d kvs → Named F bs roots d := by
      intro d kvs commit
      by_contra free
      have member := (tip (d, timeOf kvs)).mpr ⟨⟨kvs, commit, rfl⟩, free⟩
      rw [none] at member
      exact absurd member List.not_mem_nil
    rw [if_pos none, mem_commits]
    exact exists_congr fun kvs => and_congr_left fun _ =>
      ⟨fun commit => ⟨commit, fun _ => all⟩, fun candidate => candidate.toRootCommit⟩
  · rw [if_neg none, tip]
    obtain ⟨e, member⟩ := List.exists_mem_of_ne_nil _ none
    obtain ⟨⟨kvs', other, -⟩, free⟩ := (tip e).mp member
    constructor
    · rintro ⟨⟨kvs, commit, time⟩, unnamed⟩
      exact ⟨kvs, ⟨commit, fun named => absurd named unnamed⟩, time⟩
    · rintro ⟨kvs, candidate, time⟩
      exact ⟨⟨kvs, candidate.toRootCommit, time⟩,
        fun named => free (candidate.unnamed named _ kvs' other)⟩

theorem heuristic_eq_none : findHeadCommitHeuristic F bs roots = none ↔
    ∀ c kvs, ¬ RootCommit F bs roots c kvs := by
  unfold findHeadCommitHeuristic
  dsimp only
  by_cases empty : (roots.foldl (scanRoot F bs) {}).commits = []
  · rw [if_pos empty]
    refine iff_of_true rfl fun c kvs commit => ?_
    have member := mem_commits.mpr
      ⟨kvs, show RootCommit F bs roots (c, timeOf kvs).1 kvs from commit, rfl⟩
    rw [empty] at member
    exact absurd member List.not_mem_nil
  · rw [if_neg empty, Option.map_eq_none_iff, List.argmax_eq_none]
    obtain ⟨entry, member⟩ := List.exists_mem_of_ne_nil _ empty
    obtain ⟨kvs, commit, -⟩ := mem_commits.mp member
    refine iff_of_false (fun none => ?_) fun all => all entry.1 kvs commit
    unfold Scan.candidates at none
    dsimp only at none
    split at none
    · exact empty none
    · rename_i some
      exact some none

/-- What the heuristic finds is the candidate of the greatest rank. -/
theorem heuristic_eq_some {c : Cid} (found : findHeadCommitHeuristic F bs roots = some c) :
    ∃ kvs, Candidate F bs roots c kvs ∧
      ∀ d kvs', Candidate F bs roots d kvs' → rank (d, timeOf kvs') ≤ rank (c, timeOf kvs) := by
  unfold findHeadCommitHeuristic at found
  dsimp only at found
  split at found
  · cases found
  · obtain ⟨entry, greatest, rfl⟩ := Option.map_eq_some_iff.mp found
    obtain ⟨member, most, -⟩ := List.argmax_eq_some_iff.mp greatest
    obtain ⟨kvs, candidate, time⟩ := mem_candidates.mp member
    refine ⟨kvs, candidate, fun d kvs' other => ?_⟩
    have below := most (d, timeOf kvs') (mem_candidates.mpr ⟨kvs', other, rfl⟩)
    rwa [show entry = (entry.1, timeOf kvs) from Prod.ext rfl time] at below

/-- Without a commit in front the heuristic decides. -/
theorem findHeadCommit_eq (front : ∀ root, roots.head? = some root → commitAt F bs root = none) :
    findHeadCommit F bs roots = findHeadCommitHeuristic F bs roots := by
  unfold findHeadCommit
  split
  · rfl
  · rename_i root rest
    have none := front root rfl
    unfold commitAt at none
    split
    · rfl
    · rename_i bytes found
      rw [found, Option.bind_some] at none
      rw [none, if_neg (by simp)]

end Tips

section Later

open Fragment

def sampleCommit (change : ChangeId) (parents : List Cid) (time : UInt64) (message : String) :
    Objects.Commit Cid :=
  { changeId := change, parents := parents, nodes := leafCid, edges := leafCid, schema := leafCid,
    delta := none, indexes := none, embeddings := none, sparse := none, author := "ada",
    agentId := none, taskId := none, time := time, message := message, signature := none,
    extra := OrdMap.empty }

def laterBytes : Bytes := commitBytes 2 [] "later"

def laterCid : Cid :=
  sha256Cid
    [0x3c, 0x2b, 0xa3, 0xc5, 0xa9, 0xd5, 0xb3, 0xb4, 0x69, 0x3a, 0x34, 0x11, 0x3e, 0x3b, 0x64,
      0x9c, 0x64, 0x1b, 0x53, 0x3d, 0x8d, 0x9f, 0xc9, 0x41, 0x14, 0x48, 0xef, 0x9f, 0x7b, 0x31,
      0x80, 0x6c]
    rfl

def childBytes : Bytes := commitBytes 1 [laterCid] "child"

def childCid : Cid :=
  sha256Cid
    [0xd6, 0x9e, 0x2b, 0xee, 0xa7, 0xbd, 0x32, 0x43, 0x0c, 0x68, 0x2e, 0xc3, 0xd9, 0xa9, 0xb7,
      0x0a, 0x4d, 0xaa, 0xc7, 0xf5, 0x2b, 0x8c, 0xbb, 0x77, 0xe4, 0xa1, 0x4d, 0x3d, 0x54, 0x68,
      0x94, 0xdf]
    rfl

/-- The entries of the three blocks. -/
def leafEntries : List (String × Ipld Cid) :=
  [("_kind", .string "tree"), ("entries", .list []), ("leaf", .bool true)]

def laterEntries : List (String × Ipld Cid) :=
  (Format.commit.serialize (sampleCommit 2 [] 2 "later")).entries

def childEntries : List (String × Ipld Cid) :=
  (Format.commit.serialize (sampleCommit 1 [laterCid] 1 "child")).entries

def cloneMaps : Maps where
  decodings := [(leafBytes, .map leafEntries), (laterBytes, .map laterEntries),
    (childBytes, .map childEntries)]
  nodup := by decide
  outside := by decide

noncomputable def cloneFormats : Formats := formatsWith
  [(leafBytes, leafCid.multihash.digest), (laterBytes, laterCid.multihash.digest),
    (childBytes, childCid.multihash.digest)] cloneMaps

def cloneStore : Blockstore :=
  { blocks := [(leafCid, leafBytes), (laterCid, laterBytes), (childCid, childBytes)] }

theorem commitAt_leaf : commitAt cloneFormats cloneStore leafCid = none := by
  have decoded : cloneFormats.cbor.decode leafBytes = .ok (.map leafEntries) := decode_maps rfl
  show commitMap cloneFormats leafBytes = none
  unfold commitMap
  rw [decoded]
  rfl

theorem commitAt_later : commitAt cloneFormats cloneStore laterCid = some laterEntries := by
  have present : cloneStore.get laterCid = some laterBytes := by
    have apart : leafCid ≠ laterCid := by decide
    show Entries.get? _ [_, _, _] = _
    rw [Entries.get?_cons, if_neg apart, Entries.get?_cons, if_pos rfl]
  have decoded : cloneFormats.cbor.decode laterBytes = .ok (.map laterEntries) := by
    have apart : leafBytes ≠ laterBytes := by decide
    apply decode_maps
    show Entries.get? _ [_, _, _] = _
    rw [Entries.get?_cons, if_neg apart, Entries.get?_cons, if_pos rfl]
  have kind : Entries.get? "_kind" laterEntries = some (.string "commit") := rfl
  exact commitAt_of_decode present decoded kind

theorem commitAt_child : commitAt cloneFormats cloneStore childCid = some childEntries := by
  have present : cloneStore.get childCid = some childBytes := by
    have apart : leafCid ≠ childCid ∧ laterCid ≠ childCid := by decide
    show Entries.get? _ [_, _, _] = _
    rw [Entries.get?_cons, if_neg apart.1, Entries.get?_cons, if_neg apart.2, Entries.get?_cons,
      if_pos rfl]
  have decoded : cloneFormats.cbor.decode childBytes = .ok (.map childEntries) := by
    have apart : leafBytes ≠ childBytes ∧ laterBytes ≠ childBytes := by decide
    apply decode_maps
    show Entries.get? _ [_, _, _] = _
    rw [Entries.get?_cons, if_neg apart.1, Entries.get?_cons, if_neg apart.2, Entries.get?_cons,
      if_pos rfl]
  have kind : Entries.get? "_kind" childEntries = some (.string "commit") := rfl
  exact commitAt_of_decode present decoded kind

end Later

end Mnem.Cli.Clone
