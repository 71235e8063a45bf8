/-
# Transport.Protocol — the capabilities that two peers agree on

A peer writes its capabilities as names between commas.  A reader trims each
name and drops what it does not know, so a list written by a later version reads
as what both versions know.

* `parse_serialize`: what one peer writes, with whatever other names stand
  between, is what another reads.
* `mem_negotiated_iff`: what a client and a server agree on, from the client's
  configuration and from the names in the server's answer.
-/
import Mathlib.Data.List.Sort
import Mathlib.Order.Lattice
import Mnem.Theory.OrdMap
import Mnem.Theory.Utf8

namespace Mnem.Transport.Protocol

open Theory Utf8

set_option autoImplicit false

/-! ## Capabilities -/

inductive Capability where
  | haveSetBloom
  | haveSetRbsr
  | pushNegotiate
  | filterSpec
  | atomicPush
  | signedPush
  | selfCertifyingRepoId
  deriving DecidableEq

namespace Capability

def asWireStr : Capability → String
  | haveSetBloom => "have-set-bloom"
  | haveSetRbsr => "have-set-rbsr"
  | pushNegotiate => "push-negotiate"
  | filterSpec => "filter-spec"
  | atomicPush => "atomic-push"
  | signedPush => "signed-push"
  | selfCertifyingRepoId => "self-certifying-repo-id"

/-- Every capability, by its wire string. -/
def all : List Capability :=
  [atomicPush, filterSpec, haveSetBloom, haveSetRbsr, pushNegotiate, selfCertifyingRepoId, signedPush]

def fromStr (s : String) : Option Capability :=
  match s with
  | "have-set-bloom" => some haveSetBloom
  | "have-set-rbsr" => some haveSetRbsr
  | "push-negotiate" => some pushNegotiate
  | "filter-spec" => some filterSpec
  | "atomic-push" => some atomicPush
  | "signed-push" => some signedPush
  | "self-certifying-repo-id" => some selfCertifyingRepoId
  | _ => none

/-- The place of a capability in the declaration, which is its derived order. -/
def place : Capability → Nat
  | haveSetBloom => 0
  | haveSetRbsr => 1
  | pushNegotiate => 2
  | filterSpec => 3
  | atomicPush => 4
  | signedPush => 5
  | selfCertifyingRepoId => 6

theorem place_injective : Function.Injective place := by
  intro a b same
  cases a <;> cases b <;> first | rfl | cases same

instance : LinearOrder Capability := LinearOrder.lift' place place_injective

theorem mem_all (c : Capability) : c ∈ all := by
  cases c <;> decide

theorem fromStr_asWireStr (c : Capability) : fromStr c.asWireStr = some c := by
  cases c <;> rfl

/-- `from_str` is the inverse of `as_wire_str`. -/
theorem fromStr_eq_some_iff {s : String} {c : Capability} : fromStr s = some c ↔ s = c.asWireStr := by
  constructor
  · intro found
    unfold fromStr at found
    split at found <;> first | (cases found; rfl) | cases found
  · rintro rfl
    exact fromStr_asWireStr c

theorem asWireStr_injective : Function.Injective asWireStr := by
  intro a b same
  have read := fromStr_asWireStr a
  rw [same, fromStr_asWireStr] at read
  exact (Option.some.inj read).symm

/-- No name has a comma, a blank at its ends, or nothing in it. -/
theorem wire_plain (c : Capability) : ',' ∉ c.asWireStr.toList ∧
    trim c.asWireStr.toList = c.asWireStr.toList ∧ c.asWireStr.toList ≠ [] := by
  cases c <;> decide

end Capability

open Capability

/-! ## Sets of capabilities -/

abbrev CapabilitySet := OrdSet Capability

def withCaps (caps : List Capability) : CapabilitySet := caps.foldl OrdSet.add OrdMap.empty

def allKnown : CapabilitySet := withCaps all

def CapabilitySet.intersect (a b : CapabilitySet) : CapabilitySet :=
  a.filterKeys fun c => decide (c ∈ b)

@[simp] theorem mem_withCaps {caps : List Capability} {c : Capability} : c ∈ withCaps caps ↔ c ∈ caps := by
  simp [withCaps]

@[simp] theorem mem_allKnown (c : Capability) : c ∈ allKnown := mem_withCaps.mpr (mem_all c)

@[simp] theorem CapabilitySet.mem_intersect {a b : CapabilitySet} {c : Capability} :
    c ∈ a.intersect b ↔ c ∈ a ∧ c ∈ b := by
  simp [intersect]

/-! ## The comma-separated form -/

/-- `parse_capabilities`. -/
def parseCapabilities (s : Text) : CapabilitySet :=
  let tokens := ((s.splitOn ',').map trim).filter fun tok => decide (tok ≠ [])
  withCaps (tokens.filterMap fun tok => fromStr (String.ofList tok))

/-- `serialize_capabilities`. -/
def serializeCapabilities (caps : List Capability) : Text :=
  let sorted := (withCaps caps).keys.insertionSort fun a b => a.asWireStr ≤ b.asWireStr
  [','].intercalate (sorted.map fun c => c.asWireStr.toList)

/-- One name of a list is read. -/
theorem fromStr_ofList {tok : Text} {c : Capability} :
    fromStr (String.ofList tok) = some c ↔ tok = c.asWireStr.toList := by
  rw [fromStr_eq_some_iff, ← String.toList_inj, String.toList_ofList]

/-- What is read of a text: the names between its commas. -/
theorem mem_parseCapabilities {s : Text} {c : Capability} :
    c ∈ parseCapabilities s ↔ ∃ tok ∈ s.splitOn ',', trim tok = c.asWireStr.toList := by
  unfold parseCapabilities
  rw [mem_withCaps, List.mem_filterMap]
  constructor
  · rintro ⟨tok, member, found⟩
    obtain ⟨t, between, rfl⟩ := List.mem_map.mp (List.mem_filter.mp member).1
    exact ⟨t, between, fromStr_ofList.mp found⟩
  · rintro ⟨t, between, same⟩
    have visible : trim t ≠ [] := same ▸ (wire_plain c).2.2
    refine ⟨trim t, List.mem_filter.mpr ⟨List.mem_map_of_mem between, by simpa using visible⟩, ?_⟩
    exact fromStr_ofList.mpr same

/-- Each side of a comma is read by itself. -/
theorem mem_parse_append {s t : Text} {c : Capability} :
    c ∈ parseCapabilities (s ++ ',' :: t) ↔ c ∈ parseCapabilities s ∨ c ∈ parseCapabilities t := by
  simp only [mem_parseCapabilities, List.splitOn_append_cons_self, List.mem_append, or_and_right,
    exists_or]

theorem not_mem_parse_nil (c : Capability) : c ∉ parseCapabilities [] := by
  rw [mem_parseCapabilities]
  rintro ⟨tok, between, same⟩
  obtain rfl : tok = [] := by simpa using between
  exact (wire_plain c).2.2 same.symm

/-- Names without commas, joined by commas, are read one by one. -/
theorem mem_parse_intercalate {names : List Text} (plain : ∀ t ∈ names, ',' ∉ t) {c : Capability} :
    c ∈ parseCapabilities ([','].intercalate names) ↔ ∃ t ∈ names, trim t = c.asWireStr.toList := by
  by_cases none : names = []
  · subst none
    exact iff_of_false (not_mem_parse_nil c) (by simp)
  · rw [mem_parseCapabilities, List.splitOn_intercalate ',' plain none]

/-- What is written reads back. -/
theorem parse_serialize (caps : List Capability) :
    parseCapabilities (serializeCapabilities caps) = withCaps caps := by
  refine OrdSet.ext_mem fun c => ?_
  have plain : ∀ t ∈ ((withCaps caps).keys.insertionSort fun a b => a.asWireStr ≤ b.asWireStr).map
      (fun c => c.asWireStr.toList), ',' ∉ t := by
    intro t member
    obtain ⟨d, -, rfl⟩ := List.mem_map.mp member
    exact (wire_plain d).1
  rw [serializeCapabilities, mem_parse_intercalate plain]
  constructor
  · rintro ⟨t, member, same⟩
    obtain ⟨d, written, rfl⟩ := List.mem_map.mp member
    rw [(wire_plain d).2.1, String.toList_inj] at same
    rw [← asWireStr_injective same]
    exact OrdSet.mem_keys.mp ((List.mem_insertionSort _).mp written)
  · intro inCaps
    refine ⟨_, List.mem_map_of_mem ((List.mem_insertionSort _).mpr ?_), (wire_plain c).2.1⟩
    exact OrdSet.mem_keys.mpr inCaps

/-- **What one peer writes, another reads**, whatever a third writes before or after it. -/
theorem parse_between (caps : List Capability) (before after : Text) (c : Capability) :
    c ∈ parseCapabilities (before ++ ',' :: (serializeCapabilities caps ++ ',' :: after)) ↔
      c ∈ parseCapabilities before ∨ c ∈ caps ∨ c ∈ parseCapabilities after := by
  rw [mem_parse_append, mem_parse_append, parse_serialize, mem_withCaps]

/-! ## What a client agrees to -/

/-- A `[remote.<name>]` section. -/
structure RemoteConfigFile where
  url : String
  capabilities : Option (List String) := none
  tokenEnv : Option String := none

structure RemoteConfig where
  name : String
  url : String
  capabilities : CapabilitySet
  tokenEnv : Option String := none

def RemoteConfig.fromFile (name : String) (file : RemoteConfigFile) : RemoteConfig where
  name := name
  url := file.url
  capabilities := match file.capabilities with
    | none => allKnown
    | some list => withCaps (list.filterMap fromStr)
  tokenEnv := file.tokenEnv

def RemoteConfig.toFile (cfg : RemoteConfig) : RemoteConfigFile :=
  let caps := (cfg.capabilities.keys.map asWireStr).insertionSort (· ≤ ·)
  { url := cfg.url, capabilities := if caps.isEmpty then none else some caps, tokenEnv := cfg.tokenEnv }

/-- The capabilities of a new client; a configuration without any means all of them. -/
def advertised (cfg : RemoteConfig) : CapabilitySet :=
  if cfg.capabilities.keys.isEmpty then allKnown else withCaps cfg.capabilities.keys

/-- `Vec::dedup`. -/
def dedup : List Capability → List Capability
  | a :: b :: l => if a = b then dedup (b :: l) else a :: dedup (b :: l)
  | l => l

/-- `parse_wire_capabilities`. -/
def parseWireCapabilities (raw : List String) : List Capability :=
  dedup ((raw.filterMap fromStr).insertionSort fun a b => a.asWireStr ≤ b.asWireStr)

/-- `negotiate_capabilities`, with what the server lists. -/
def negotiateCapabilities (caps : CapabilitySet) (raw : List String) : CapabilitySet :=
  caps.intersect (withCaps (parseWireCapabilities raw))

theorem mem_dedup {l : List Capability} {c : Capability} : c ∈ dedup l ↔ c ∈ l := by
  fun_induction dedup l with
  | case1 b l ih => rw [ih, List.mem_cons (l := b :: l), or_iff_right_of_imp]; rintro rfl; simp
  | case2 a b l apart ih => rw [List.mem_cons, ih, ← List.mem_cons]
  | case3 l => rfl

theorem mem_filterMap_fromStr {list : List String} {c : Capability} :
    c ∈ list.filterMap fromStr ↔ c.asWireStr ∈ list := by
  rw [List.mem_filterMap]
  constructor
  · rintro ⟨s, member, found⟩
    rwa [← fromStr_eq_some_iff.mp found]
  · exact fun member => ⟨_, member, fromStr_asWireStr c⟩

theorem mem_advertised {cfg : RemoteConfig} {c : Capability} :
    c ∈ advertised cfg ↔ c ∈ cfg.capabilities ∨ ∀ d, d ∉ cfg.capabilities := by
  unfold advertised
  by_cases empty : cfg.capabilities.keys.isEmpty = true
  · rw [if_pos empty]
    refine iff_of_true (mem_allKnown c) (.inr fun d member => ?_)
    rw [← OrdSet.mem_keys, List.isEmpty_iff.mp empty] at member
    exact List.not_mem_nil member
  · rw [if_neg empty, mem_withCaps, OrdSet.mem_keys]
    refine ⟨.inl, fun either => either.elim id fun none => ?_⟩
    obtain ⟨d, member⟩ := List.exists_mem_of_ne_nil _ fun nil => empty (List.isEmpty_iff.mpr nil)
    exact absurd (OrdSet.mem_keys.mp member) (none d)

/-- What a section lets a client advertise: all, where it names nothing that is known. -/
theorem mem_advertised_fromFile {name : String} {file : RemoteConfigFile} {c : Capability} :
    c ∈ advertised (.fromFile name file) ↔ ∀ list, file.capabilities = some list →
      c.asWireStr ∈ list ∨ ∀ d : Capability, d.asWireStr ∉ list := by
  rw [mem_advertised]
  unfold RemoteConfig.fromFile
  dsimp only
  cases file.capabilities with
  | none => simp
  | some list =>
      simp only [mem_withCaps, mem_filterMap_fromStr, Option.some.injEq, forall_eq']

/-- **What a client agrees on with a server**: what both name, and where its section names nothing
known, whatever the server names. -/
theorem mem_negotiated_iff (name : String) (file : RemoteConfigFile) (raw : List String)
    (c : Capability) :
    c ∈ negotiateCapabilities (advertised (.fromFile name file)) raw ↔
      c.asWireStr ∈ raw ∧ ∀ list, file.capabilities = some list →
        c.asWireStr ∈ list ∨ ∀ d : Capability, d.asWireStr ∉ list := by
  unfold negotiateCapabilities parseWireCapabilities
  rw [CapabilitySet.mem_intersect, mem_withCaps, mem_dedup, List.mem_insertionSort,
    mem_filterMap_fromStr, mem_advertised_fromFile, and_comm]

/-- Writing a configuration back changes nothing of what a client advertises. -/
theorem advertised_toFile (cfg : RemoteConfig) :
    advertised (.fromFile cfg.name cfg.toFile) = advertised cfg := by
  refine OrdSet.ext_mem fun c => ?_
  rw [mem_advertised_fromFile, mem_advertised]
  have named : ∀ d : Capability, d.asWireStr ∈
      (cfg.capabilities.keys.map asWireStr).insertionSort (· ≤ ·) ↔ d ∈ cfg.capabilities := by
    intro d
    rw [List.mem_insertionSort, List.mem_map_of_injective asWireStr_injective, OrdSet.mem_keys]
  unfold RemoteConfig.toFile
  dsimp only
  split
  · rename_i empty
    refine iff_of_true (by simp) (.inr fun d member => ?_)
    rw [← named d, List.isEmpty_iff.mp empty] at member
    exact List.not_mem_nil member
  · simp only [Option.some.injEq, forall_eq', named]

end Mnem.Transport.Protocol
