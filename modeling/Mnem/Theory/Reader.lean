/-
# Theory.Reader — readers of byte strings

A reader takes bytes from the front of its input.  It returns a value, reports a
miss, fails, or crashes.  `Reads p used a` says that the reader takes `used` and
returns `a`, whatever follows; such facts compose (`Reads.bind`, `Reads.many`).

A `Stable` reader decides from what it took: a value depends on nothing behind
it, and a miss or a crash stays when more bytes are added.  Hence on an input
that is cut short a reader of the whole can only fail (`Stable.cut`).

Numbers are read in little-endian form.
-/
import Mathlib.Algebra.GroupWithZero.Nat
import Mathlib.Data.List.Basic
import Mathlib.Tactic.Cases

namespace Mnem.Theory

set_option autoImplicit false

abbrev ByteString := List UInt8

/-- What a reader comes to. -/
inductive Outcome (ε α : Type) where
  | value (a : α)
  | miss
  | error (e : ε)
  | crash
  deriving DecidableEq

def Reader (ε α : Type) := ByteString → Outcome ε (α × ByteString)

namespace Reader

variable {ε α β : Type}

/-- One reader, and another on what it leaves. -/
def andThen (p : Reader ε α) (f : α → Reader ε β) : Reader ε β := fun s =>
  match p s with
  | .value (a, rest) => f a rest
  | .miss => .miss
  | .error e => .error e
  | .crash => .crash

instance : Monad (Reader ε) where
  pure a := fun s => .value (a, s)
  bind := andThen

/-- Exactly so many bytes. -/
def take (eof : ε) (n : Nat) : Reader ε ByteString := fun s =>
  if n ≤ s.length then .value (s.take n, s.drop n) else .error eof

def miss : Reader ε α := fun _ => .miss

def fail (e : ε) : Reader ε α := fun _ => .error e

/-- Room for so many elements of a size, up to a limit. -/
def reserve (limit size n : Nat) : Reader ε Unit := fun s =>
  if size * n ≤ limit then .value ((), s) else .crash

def many (p : Reader ε α) : Nat → Reader ε (List α)
  | 0 => pure []
  | n + 1 => do
      let a ← p
      let as ← many p n
      return a :: as

/-! ## What a reader comes to -/

section Inversion

variable {p : Reader ε α} {f : α → Reader ε β} {s r : ByteString}

theorem bind_of_value {a : α} (first : p s = .value (a, r)) : (p >>= f) s = f a r := by
  show andThen p f s = _
  rw [andThen, first]

theorem bind_eq_value {b : β} {t : ByteString} :
    (p >>= f) s = .value (b, t) ↔ ∃ a r, p s = .value (a, r) ∧ f a r = .value (b, t) := by
  show andThen p f s = _ ↔ _
  unfold andThen
  cases found : p s with
  | value ar =>
      obtain ⟨a, r⟩ := ar
      constructor
      · exact fun second => ⟨a, r, rfl, second⟩
      · rintro ⟨a', r', same, second⟩
        cases same
        exact second
  | miss => exact ⟨nofun, fun ⟨_, _, same, _⟩ => nomatch same⟩
  | error e => exact ⟨nofun, fun ⟨_, _, same, _⟩ => nomatch same⟩
  | crash => exact ⟨nofun, fun ⟨_, _, same, _⟩ => nomatch same⟩

theorem bind_eq_miss :
    (p >>= f) s = .miss ↔ p s = .miss ∨ ∃ a r, p s = .value (a, r) ∧ f a r = .miss := by
  show andThen p f s = _ ↔ _
  unfold andThen
  cases found : p s with
  | value ar =>
      obtain ⟨a, r⟩ := ar
      constructor
      · exact fun second => .inr ⟨a, r, rfl, second⟩
      · rintro (same | ⟨a', r', same, second⟩)
        · cases same
        · cases same
          exact second
  | miss => exact ⟨fun _ => .inl rfl, fun _ => rfl⟩
  | error e => exact ⟨nofun, fun either => by obtain same | ⟨_, _, same, _⟩ := either <;> cases same⟩
  | crash => exact ⟨nofun, fun either => by obtain same | ⟨_, _, same, _⟩ := either <;> cases same⟩

theorem bind_eq_crash :
    (p >>= f) s = .crash ↔ p s = .crash ∨ ∃ a r, p s = .value (a, r) ∧ f a r = .crash := by
  show andThen p f s = _ ↔ _
  unfold andThen
  cases found : p s with
  | value ar =>
      obtain ⟨a, r⟩ := ar
      constructor
      · exact fun second => .inr ⟨a, r, rfl, second⟩
      · rintro (same | ⟨a', r', same, second⟩)
        · cases same
        · cases same
          exact second
  | miss => exact ⟨nofun, fun either => by obtain same | ⟨_, _, same, _⟩ := either <;> cases same⟩
  | error e => exact ⟨nofun, fun either => by obtain same | ⟨_, _, same, _⟩ := either <;> cases same⟩
  | crash => exact ⟨fun _ => .inl rfl, fun _ => rfl⟩

theorem take_eq_value {eof : ε} {n : Nat} {a : ByteString} :
    take eof n s = .value (a, r) ↔ s = a ++ r ∧ a.length = n := by
  unfold take
  constructor
  · intro found
    split at found
    · rename_i enough
      cases found
      exact ⟨(List.take_append_drop n s).symm, by rw [List.length_take]; omega⟩
    · cases found
  · rintro ⟨rfl, rfl⟩
    rw [if_pos (by rw [List.length_append]; omega), List.take_left, List.drop_left]

theorem take_ne_crash {eof : ε} {n : Nat} : take eof n s ≠ .crash := by
  unfold take
  split
  · exact nofun
  · exact nofun

theorem take_ne_miss {eof : ε} {n : Nat} : take eof n s ≠ .miss := by
  unfold take
  split
  · exact nofun
  · exact nofun

theorem map_eq_value {g : α → β} {b : β} :
    (do let a ← p; return g a) s = .value (b, r) ↔ ∃ a, p s = .value (a, r) ∧ g a = b := by
  rw [bind_eq_value]
  constructor
  · rintro ⟨a, t, first, last⟩
    cases last
    exact ⟨a, first, rfl⟩
  · rintro ⟨a, first, rfl⟩
    exact ⟨a, r, first, rfl⟩

/-- Elements that are read so are read together so. -/
theorem many_eq_value {enc : α → ByteString} {Good : α → Prop}
    (each : ∀ s a r, p s = .value (a, r) → s = enc a ++ r ∧ Good a) :
    ∀ {n : Nat} {s r : ByteString} {as : List α}, many p n s = .value (as, r) →
      s = as.flatMap enc ++ r ∧ as.length = n ∧ ∀ a ∈ as, Good a
  | 0, s, r, as, found => by
      cases found
      exact ⟨rfl, rfl, nofun⟩
  | n + 1, s, r, as, found => by
      obtain ⟨a, t, first, found⟩ := bind_eq_value.mp found
      obtain ⟨as, rest, rfl⟩ := map_eq_value.mp found
      obtain ⟨rfl, good⟩ := each _ _ _ first
      obtain ⟨rfl, rfl, all⟩ := many_eq_value each rest
      refine ⟨by rw [List.flatMap_cons, List.append_assoc], rfl, fun b m => ?_⟩
      rcases List.mem_cons.mp m with rfl | later
      · exact good
      · exact all b later

theorem pure_ne_crash (a : α) (s : ByteString) : (pure a : Reader ε α) s ≠ .crash := nofun

theorem bind_ne_crash (first : ∀ s, p s ≠ .crash) (second : ∀ a s, f a s ≠ .crash)
    (s : ByteString) : (p >>= f) s ≠ .crash := by
  intro crashed
  rcases bind_eq_crash.mp crashed with here | ⟨a, r, -, later⟩
  · exact first s here
  · exact second a r later

theorem reserve_eq_crash {limit size n : Nat} :
    (reserve limit size n : Reader ε Unit) s = .crash ↔ limit < size * n := by
  unfold reserve
  split
  · rename_i fits
    exact ⟨nofun, fun exceeds => absurd fits (Nat.not_le.mpr exceeds)⟩
  · rename_i exceeds
    exact ⟨fun _ => Nat.not_le.mp exceeds, fun _ => rfl⟩

theorem reserve_eq_value {limit size n : Nat} {u : Unit} :
    (reserve limit size n : Reader ε Unit) s = .value (u, r) ↔ size * n ≤ limit ∧ s = r := by
  unfold reserve
  split
  · rename_i fits
    constructor
    · intro same
      cases same
      exact ⟨fits, rfl⟩
    · rintro ⟨-, rfl⟩
      rfl
  · rename_i exceeds
    exact ⟨nofun, fun fits => absurd fits.1 exceeds⟩

/-- Elements of a fixed size are read as long as there are bytes. -/
theorem many_of_length {size : Nat}
    (each : ∀ s, size ≤ s.length → ∃ a, p s = .value (a, s.drop size)) :
    ∀ {n : Nat} {s : ByteString}, size * n ≤ s.length → ∃ as r, many p n s = .value (as, r)
  | 0, s, _ => ⟨[], s, rfl⟩
  | n + 1, s, enough => by
      rw [Nat.mul_succ] at enough
      obtain ⟨a, first⟩ := each s (by omega)
      obtain ⟨as, r, rest⟩ := many_of_length each (s := s.drop size) (n := n)
        (by rw [List.length_drop]; omega)
      exact ⟨a :: as, r, bind_eq_value.mpr ⟨a, _, first, map_eq_value.mpr ⟨as, rest, rfl⟩⟩⟩

theorem many_ne_crash (each : ∀ s, p s ≠ .crash) (n : Nat) (s : ByteString) :
    many p n s ≠ .crash := by
  induction n generalizing s with
  | zero => exact nofun
  | succ n ih =>
      exact bind_ne_crash each (fun _ => bind_ne_crash ih fun _ => pure_ne_crash _) s

end Inversion

/-! ## What is read -/

theorem length_flatMap {enc : α → ByteString} {size : Nat} (each : ∀ a, (enc a).length = size)
    (as : List α) : (as.flatMap enc).length = size * as.length := by
  induction as with
  | nil => rfl
  | cons a as ih => rw [List.flatMap_cons, List.length_append, each, ih, List.length_cons,
      Nat.mul_succ, Nat.add_comm]

/-- The reader takes `used` and returns a value, whatever follows. -/
def Reads (p : Reader ε α) (used : ByteString) (a : α) : Prop :=
  ∀ more, p (used ++ more) = .value (a, more)

namespace Reads

variable {p : Reader ε α} {f : α → Reader ε β} {used : ByteString}

theorem pure (a : α) : Reads (Pure.pure a : Reader ε α) [] a := fun _ => rfl

theorem bind {a : α} {b : β} {used' : ByteString} (first : Reads p used a)
    (second : Reads (f a) used' b) : Reads (p >>= f) (used ++ used') b := by
  intro more
  rw [List.append_assoc, bind_of_value (first _)]
  exact second more

theorem map {a : α} {g : α → β} (first : Reads p used a) :
    Reads (do let a ← p; return g a) used (g a) := by
  have both := first.bind (f := fun a => (Pure.pure (g a) : Reader ε β)) (pure (g a))
  rwa [List.append_nil] at both

theorem take {eof : ε} {n : Nat} (length : used.length = n) : Reads (take eof n) used used :=
  fun _ => take_eq_value.mpr ⟨rfl, length⟩

theorem reserve {limit size n : Nat} (fits : size * n ≤ limit) :
    Reads (reserve limit size n : Reader ε Unit) [] () :=
  fun _ => if_pos fits

/-- Element by element. -/
theorem many {enc : α → ByteString} : ∀ {as : List α}, (∀ a ∈ as, Reads p (enc a) a) →
    Reads (many p as.length) (as.flatMap enc) as
  | [], _ => pure []
  | a :: as, each => by
      have first := each a List.mem_cons_self
      have rest := many fun b m => each b (List.mem_cons_of_mem a m)
      exact first.bind rest.map

end Reads

/-- What is taken decides. -/
structure Stable (p : Reader ε α) : Prop where
  value : ∀ {s a r}, p s = .value (a, r) → ∃ used, s = used ++ r ∧ Reads p used a
  miss : ∀ {s}, p s = .miss → ∀ more, p (s ++ more) = .miss
  crash : ∀ {s}, p s = .crash → ∀ more, p (s ++ more) = .crash

namespace Stable

variable {p : Reader ε α} {f : α → Reader ε β}

theorem pure (a : α) : Stable (Pure.pure a : Reader ε α) where
  value found := by
    cases found
    exact ⟨[], rfl, .pure a⟩
  miss := nofun
  crash := nofun

theorem miss' : Stable (Reader.miss : Reader ε α) where
  value := nofun
  miss _ _ := rfl
  crash := nofun

theorem fail (e : ε) : Stable (Reader.fail e : Reader ε α) where
  value := nofun
  miss := nofun
  crash := nofun

theorem take (eof : ε) (n : Nat) : Stable (Reader.take eof n) where
  value {s a r} found := by
    obtain ⟨rfl, length⟩ := take_eq_value.mp found
    exact ⟨a, rfl, .take length⟩
  miss found := absurd found take_ne_miss
  crash found := absurd found take_ne_crash

theorem reserve (limit size n : Nat) : Stable (Reader.reserve limit size n : Reader ε Unit) where
  value {s a r} found := by
    obtain ⟨fits, rfl⟩ := reserve_eq_value.mp found
    exact ⟨[], rfl, .reserve fits⟩
  miss {s} found := by
    unfold Reader.reserve at found
    split at found
    · cases found
    · cases found
  crash found more := reserve_eq_crash.mpr (reserve_eq_crash.mp found)

theorem bind (first : Stable p) (second : ∀ a, Stable (f a)) : Stable (p >>= f) where
  value found := by
    obtain ⟨a, t, found, found'⟩ := bind_eq_value.mp found
    obtain ⟨used, rfl, reads⟩ := first.value found
    obtain ⟨used', rfl, reads'⟩ := (second a).value found'
    exact ⟨used ++ used', (List.append_assoc ..).symm, reads.bind reads'⟩
  miss found more := by
    rcases bind_eq_miss.mp found with here | ⟨a, t, found, later⟩
    · exact bind_eq_miss.mpr (.inl (first.miss here more))
    · obtain ⟨used, rfl, reads⟩ := first.value found
      rw [List.append_assoc]
      exact bind_eq_miss.mpr (.inr ⟨a, _, reads _, (second a).miss later more⟩)
  crash found more := by
    rcases bind_eq_crash.mp found with here | ⟨a, t, found, later⟩
    · exact bind_eq_crash.mpr (.inl (first.crash here more))
    · obtain ⟨used, rfl, reads⟩ := first.value found
      rw [List.append_assoc]
      exact bind_eq_crash.mpr (.inr ⟨a, _, reads _, (second a).crash later more⟩)

theorem many (each : Stable p) : ∀ n, Stable (many p n)
  | 0 => pure []
  | n + 1 => each.bind fun a => (many each n).bind fun as => pure (a :: as)

/-- **Cut short.**  Before the end of what it reads a reader can only fail. -/
theorem cut (stable : Stable p) {whole s : ByteString} {a : α} (reads : p whole = .value (a, []))
    (isPrefix : s <+: whole) (short : s ≠ whole) : ∃ e, p s = .error e := by
  obtain ⟨more, rfl⟩ := isPrefix
  cases found : p s with
  | value br =>
      obtain ⟨b, r⟩ := br
      obtain ⟨used, rfl, reads'⟩ := stable.value found
      rw [List.append_assoc, reads' (r ++ more)] at reads
      have nothing := congrArg Prod.snd (Outcome.value.inj reads)
      have none : more = [] := (List.append_eq_nil_iff.mp nothing).2
      rw [none, List.append_nil] at short
      exact absurd rfl short
  | miss =>
      rw [stable.miss found more] at reads
      cases reads
  | error e => exact ⟨e, rfl⟩
  | crash =>
      rw [stable.crash found more] at reads
      cases reads

end Stable

end Reader

/-! ## Little-endian numbers -/

/-- The lowest bytes of a number, and the number of some bytes. -/
def littleBytes : Nat → Nat → ByteString
  | 0, _ => []
  | k + 1, n => UInt8.ofNat n :: littleBytes k (n / 256)

def littleEndian : ByteString → Nat
  | [] => 0
  | b :: bs => b.toNat + 256 * littleEndian bs

@[simp]
theorem length_littleBytes (k n : Nat) : (littleBytes k n).length = k := by
  induction k generalizing n with
  | zero => rfl
  | succ k ih => rw [littleBytes, List.length_cons, ih]

theorem littleEndian_littleBytes {k n : Nat} (small : n < 256 ^ k) :
    littleEndian (littleBytes k n) = n := by
  induction k generalizing n with
  | zero => rw [Nat.pow_zero] at small; rw [littleBytes, littleEndian]; omega
  | succ k ih =>
      rw [Nat.pow_succ] at small
      have low : (UInt8.ofNat n).toNat = n % 256 := UInt8.toNat_ofNat'
      rw [littleBytes, littleEndian, ih (by omega), low]
      omega

theorem littleBytes_littleEndian (bs : ByteString) :
    littleBytes bs.length (littleEndian bs) = bs := by
  induction bs with
  | nil => rfl
  | cons b bs ih =>
      have low := b.toNat_lt
      have first : UInt8.ofNat (b.toNat + 256 * littleEndian bs) = b := by
        apply UInt8.toNat_inj.mp
        rw [UInt8.toNat_ofNat']
        omega
      have rest : (b.toNat + 256 * littleEndian bs) / 256 = littleEndian bs := by omega
      rw [List.length_cons, littleEndian, littleBytes, first, rest, ih]

theorem littleEndian_lt (bs : ByteString) : littleEndian bs < 256 ^ bs.length := by
  induction bs with
  | nil => exact Nat.one_pos
  | cons b bs ih =>
      have low := b.toNat_lt
      rw [littleEndian, List.length_cons, Nat.pow_succ]
      omega

end Mnem.Theory
