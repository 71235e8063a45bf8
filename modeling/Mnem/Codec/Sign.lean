/-
# Codec.Sign — signatures over canonical bytes, and what they bind

A commit or an operation is signed over the encoding of itself without its
signature, and verified against the same.  Both kinds go through one definition
(`Signable`).  The signature scheme is a parameter; it is ideal if it accepts
exactly what was signed (`Ideal`).  A signed object that was stored and read
back is accepted unless its key was revoked before (`verify_signed_iff`), and a
signature that is accepted is on the object that it was made for
(`eq_of_verify`).
-/
import Mnem.Codec.RoundTrip
import Mnem.Transport.Fragment

namespace Mnem.Sign

open Theory Shape Format

set_option autoImplicit false

variable {Cid Body α Key : Type}

/-! ## The signature scheme -/

/-- `ed25519_dalek` -/
structure Ed25519 (Key : Type) where
  publicKey : Key → List UInt8
  publicKey_length : ∀ key, (publicKey key).length = 32
  sign : Key → List UInt8 → List UInt8
  sign_length : ∀ key message, (sign key message).length = 64
  /-- `VerifyingKey::from_bytes` -/
  validKey : List UInt8 → Bool
  verifyStrict : List UInt8 → List UInt8 → List UInt8 → Bool

/-- The scheme is ideal about the messages that the keys' owners signed: it accepts these
signatures and no others, and a signature is on one message. -/
structure Ideal (E : Ed25519 Key) (signed : Key → List UInt8 → Prop) : Prop where
  valid : ∀ key, E.validKey (E.publicKey key) = true
  accepts_iff : ∀ publicKey message sig, E.verifyStrict publicKey message sig = true ↔
    ∃ key, signed key message ∧ E.publicKey key = publicKey ∧ E.sign key message = sig
  binds : ∀ key message key' message', signed key message → signed key' message' →
    E.sign key message = E.sign key' message' → message = message'

/-! ## Signing and verifying -/

inductive SignError where
  | noSignature
  | wrongAlgorithm (got : String)
  | malformedKey
  | malformedSignature
  | invalidSignature
  | encoding (error : Codec.CodecError)
  | revokedKey (revokedAt time : UInt64)

/-- One entry in the repository's revocation list. -/
structure Revocation where
  publicKey : List UInt8
  revokedAt : UInt64
  reason : String

/-- `ALGO_ED25519` -/
def algoEd25519 : String := "ed25519"

def signatureFromParts (publicKey sig : List UInt8) : Objects.Signature :=
  ⟨algoEd25519, publicKey, sig⟩

/-- The key and the signature, of the right algorithm and lengths. -/
def extractVerifierInputs (E : Ed25519 Key) (sig : Objects.Signature) :
    Except SignError (List UInt8 × List UInt8) :=
  if sig.algo ≠ algoEd25519 then .error (.wrongAlgorithm sig.algo)
  else if sig.publicKey.length ≠ 32 then .error .malformedKey
  else if E.validKey sig.publicKey = false then .error .malformedKey
  else if sig.sig.length ≠ 64 then .error .malformedSignature
  else .ok (sig.publicKey, sig.sig)

/-- Refuse what was signed after its key was revoked. -/
def checkRevocation (revocations : List Revocation) (publicKey : List UInt8) (time : UInt64) :
    Except SignError Unit :=
  match revocations with
  | [] => .ok ()
  | rev :: revocations =>
      if rev.publicKey = publicKey ∧ time > rev.revokedAt then
        .error (.revokedKey rev.revokedAt time)
      else checkRevocation revocations publicKey time

/-- A kind of object that carries a signature. -/
structure Signable (Cid Body α : Type) where
  format : Format Cid Body α
  signature : α → Option Objects.Signature
  withSignature : α → Option Objects.Signature → α
  time : α → UInt64
  signature_with : ∀ a sig, signature (withSignature a sig) = sig
  with_with : ∀ a sig sig', withSignature (withSignature a sig) sig' = withSignature a sig'
  time_with : ∀ a sig, time (withSignature a sig) = time a
  extra_with : ∀ a sig, (format.whole.symm (withSignature a sig)).2 = (format.whole.symm a).2
  fits : ∀ a, format.Fits a
  ordered : format.wire.Writes Ipld.Ordered

namespace Signable

variable (S : Signable Cid Body α) (E : Ed25519 Key) (codec : Codec.DagCbor Cid)

/-- The bytes that are signed: the object without its signature. -/
def canonicalBytes (a : α) : Except Codec.CodecError (List UInt8) :=
  toCanonicalBytes codec S.format (S.withSignature a none)

def sign (key : Key) (a : α) : Except Codec.CodecError α := do
  let bytes ← S.canonicalBytes codec a
  return S.withSignature a (some (signatureFromParts (E.publicKey key) (E.sign key bytes)))

def verify (revocations : List Revocation) (a : α) : Except SignError Unit :=
  match S.signature a with
  | none => .error .noSignature
  | some sig => do
      let (key, edSig) ← extractVerifierInputs E sig
      let bytes ← (S.canonicalBytes codec a).mapError .encoding
      if E.verifyStrict key bytes edSig then checkRevocation revocations sig.publicKey (S.time a)
      else .error .invalidSignature

end Signable

/-! ## What a record is written as -/

section Ordered

/-- The entries of each map in the value are in order. -/
theorem ordered_maps {m : Props Cid} (each : ∀ k v, m.get? k = some v → v.Ordered) :
    (maps.encode m).Ordered := by
  refine ⟨m.ascending, Ipld.orderedMap_iff.mpr fun e member => ?_⟩
  exact each e.1 e.2 (m.get?_eq_some_iff.mpr member)

theorem ordered_listOf {c : Theory.Codec (Ipld Cid) α} (each : ∀ a, (c.encode a).Ordered)
    (as : List α) : ((listOf c).encode as).Ordered := by
  refine Ipld.orderedList_iff.mpr fun v member => ?_
  obtain ⟨a, -, rfl⟩ := List.mem_map.mp member
  exact each a

theorem ordered_mapOf {c : Theory.Codec (Ipld Cid) α} (each : ∀ a, (c.encode a).Ordered)
    (m : OrdMap String α) : ((mapOf c).encode m).Ordered := by
  apply ordered_maps
  intro k v found
  rw [show c.values.encode m = m.mapValues c.encode from rfl, OrdMap.get?_mapValues] at found
  obtain ⟨a, -, rfl⟩ := Option.map_eq_some_iff.mp found
  exact each a

theorem ordered_plain {s : Shape String (Ipld Cid) α} (all : s.Writes Ipld.Ordered) (a : α) :
    ((plain s).encode a).Ordered :=
  ordered_maps fun _ _ found => all.write (fun _ _ none => by cases none) found

theorem ordered_links (cs : List Cid) : ((@links Cid).encode cs).Ordered :=
  @ordered_listOf _ _ link (fun _ => trivial) cs

theorem ordered_signature (sig : Objects.Signature) :
    ((@signature Cid).encode sig).Ordered := by
  refine ordered_plain (writes_as _ (writes_and ?_ (writes_and ?_ ?_))) sig
  all_goals exact writes_required fun _ => trivial

theorem writes_opt {key : String} {c : Theory.Codec (Ipld Cid) α} [NeverNull c]
    (each : ∀ a, (c.encode a).Ordered) : (opt key c).Writes Ipld.Ordered :=
  writes_optional NeverNull.never each

theorem ordered_commit : (@commit Cid).wire.Writes Ipld.Ordered := by
  unfold commit
  refine writes_and ?_ <| writes_and ?_ <| writes_and (writes_required ordered_links) <|
    writes_and ?_ <| writes_and ?_ <| writes_and ?_ <| writes_and ?_ <| writes_and ?_ <|
    writes_and ?_ <| writes_and ?_ <| writes_and ?_ <| writes_and ?_ <| writes_and ?_ <|
    writes_and ?_ <| writes_and ?_ (writes_opt ordered_signature)
  all_goals first
    | exact writes_required fun _ => trivial
    | exact writes_opt fun _ => trivial

theorem ordered_operation : (@operation Cid).wire.Writes Ipld.Ordered := by
  have changeIds : ∀ ids, ((listOf (@stableId Cid)).encode ids).Ordered := by
    apply ordered_listOf
    exact fun _ => trivial
  have changes := ordered_mapOf changeIds
  unfold operation
  refine writes_and ?_ <| writes_and (writes_required ordered_links) <| writes_and ?_ <|
    writes_and (writes_opt changes) <| writes_and ?_ <|
    writes_and ?_ <| writes_and ?_ <| writes_and ?_ <| writes_and ?_ <|
    writes_and ?_ (writes_opt ordered_signature)
  all_goals first
    | exact writes_required fun _ => trivial
    | exact writes_opt fun _ => trivial

end Ordered

/-! ## Commits and operations -/

def commits : Signable Cid
    (ChangeId × List Cid × Cid × Cid × Cid × Option Cid × Option Cid × Option Cid × Option Cid ×
      String × Option String × Option String × UInt64 × String × Option Objects.Signature)
    (Objects.Commit Cid) where
  format := commit
  signature c := c.signature
  withSignature c sig := { c with signature := sig }
  time c := c.time
  signature_with _ _ := rfl
  with_with _ _ _ := rfl
  time_with _ _ := rfl
  extra_with _ _ := rfl
  fits := fits_commit
  ordered := ordered_commit

def operations : Signable Cid
    (List Cid × Cid × Option (OrdMap String (List ChangeId)) × String × Option String ×
      Option String × Option String × UInt64 × String × Option Objects.Signature)
    (Objects.Operation Cid) where
  format := operation
  signature o := o.signature
  withSignature o sig := { o with signature := sig }
  time o := o.time
  signature_with _ _ := rfl
  with_with _ _ _ := rfl
  time_with _ _ := rfl
  extra_with _ _ := rfl
  fits := fits_operation
  ordered := ordered_operation

section Source

variable (E : Ed25519 Key) (codec : Codec.DagCbor Cid)

def canonicalBytesForCommit (c : Objects.Commit Cid) : Except Codec.CodecError (List UInt8) :=
  commits.canonicalBytes codec c

def canonicalBytesForOperation (o : Objects.Operation Cid) :
    Except Codec.CodecError (List UInt8) := operations.canonicalBytes codec o

def signCommit (key : Key) (c : Objects.Commit Cid) :
    Except Codec.CodecError (Objects.Commit Cid) := commits.sign E codec key c

def signOperation (key : Key) (o : Objects.Operation Cid) :
    Except Codec.CodecError (Objects.Operation Cid) := operations.sign E codec key o

def verifyCommit (revocations : List Revocation) (c : Objects.Commit Cid) :
    Except SignError Unit := commits.verify E codec revocations c

def verifyOperation (revocations : List Revocation) (o : Objects.Operation Cid) :
    Except SignError Unit := operations.verify E codec revocations o

end Source

/-! ## What is stored -/

/-- The extra keys of an object that was read are those of the map. -/
theorem extra_of_deserialize {f : Format Cid Body α} {m : Props Cid} {a : α}
    (read : f.deserialize m = .ok a) {k : String} {v : Ipld Cid}
    (found : (f.whole.symm a).2.get? k = some v) : m.get? k = some v := by
  rw [deserialize] at read
  cases record : f.wire.flatten.decode m with
  | none =>
      rw [record] at read
      cases read
  | some r =>
      obtain ⟨⟨kind, body⟩, extra⟩ := r
      rw [record] at read
      dsimp only at read
      split at read
      · cases read
      · cases read
        rw [f.whole.symm_apply_apply] at found
        obtain ⟨_, -, same⟩ := Option.map_eq_some_iff.mp record
        obtain ⟨-, rfl⟩ := Prod.mk.inj same
        rw [OrdMap.get?_filterKeys] at found
        split at found
        · exact found
        · cases found

/-- The codec is DAG-CBOR: each value has its own encoding, and what is read has its maps in
order. -/
structure Canonical (codec : Codec.DagCbor Cid) : Prop where
  injective : ∀ v w bytes, v.Ordered → w.Ordered → codec.encode v = .ok bytes →
    codec.encode w = .ok bytes → v = w
  ordered : ∀ bytes v, codec.decode bytes = .ok v → v.Ordered

namespace Signable

variable {S : Signable Cid Body α} {codec : Codec.DagCbor Cid} {a b : α} {bytes : List UInt8}

/-- The extra keys of an object are none of its fields, and their values are in order. -/
structure Proper (S : Signable Cid Body α) (a : α) : Prop where
  beside : Format.Beside S.format.wire.keys (S.format.whole.symm a).2
  ordered : ∀ k v, (S.format.whole.symm a).2.get? k = some v → v.Ordered

theorem Proper.withSignature (proper : S.Proper a) (sig : Option Objects.Signature) :
    S.Proper (S.withSignature a sig) := by
  constructor
  · rw [S.extra_with]
    exact proper.beside
  · rw [S.extra_with]
    exact proper.ordered

theorem Proper.ordered_serialize (proper : S.Proper a) :
    (maps.encode (S.format.serialize a)).Ordered :=
  ordered_maps fun _ _ found => S.ordered.write proper.ordered found

theorem Proper.read (proper : S.Proper a) :
    S.format.deserialize (S.format.serialize a) = .ok a :=
  S.format.deserialize_serialize (S.fits a) proper.beside

/-- An object that was read is proper. -/
theorem proper_of_read (canonical : Canonical codec)
    (read : fromCanonicalBytes codec S.format bytes = .ok a) : S.Proper a := by
  obtain ⟨m, decoded, record⟩ := fromCanonicalBytes_eq_ok.mp read
  refine ⟨(S.format.fits_of_deserialize record).2, fun k v found => ?_⟩
  have inMap := extra_of_deserialize record found
  have ordered := Ipld.orderedMap_iff.mp (canonical.ordered _ _ decoded).2
  exact ordered (k, v) (m.get?_eq_some_iff.mp inMap)

/-- A proper object is read back from its encoding, if the codec does not stop at its depth. -/
theorem Proper.stored (proper : S.Proper a) (written : toCanonicalBytes codec S.format a = .ok bytes) :
    fromCanonicalBytes codec S.format bytes = .ok a ∨
      128 < (maps.encode (S.format.serialize a)).height ∧
        ∃ e, fromCanonicalBytes codec S.format bytes = .error e := by
  rcases codec.decode_encode _ _ proper.ordered_serialize (toCanonicalBytes_eq_ok.mp written) with
    back | ⟨high, message, refused⟩
  · exact .inl (fromCanonicalBytes_eq_ok.mpr ⟨_, back, proper.read⟩)
  · refine .inr ⟨high, .decode message, ?_⟩
    rw [fromCanonicalBytes, refused]

/-- Proper objects that are written as the same map are the same. -/
theorem Proper.eq_of_serialize (left : S.Proper a) (right : S.Proper b)
    (same : maps.encode (S.format.serialize a) = maps.encode (S.format.serialize b)) : a = b := by
  have record : S.format.serialize a = S.format.serialize b := by
    have back := congrArg maps.decode same
    rw [maps.decode_encode _ trivial, maps.decode_encode _ trivial] at back
    exact Option.some.inj back
  have read := left.read
  rw [record, right.read] at read
  exact (Except.ok.inj read).symm

/-- Proper objects with the same bytes are the same. -/
theorem Proper.eq_of_bytes (canonical : Canonical codec) (left : S.Proper a) (right : S.Proper b)
    (here : toCanonicalBytes codec S.format a = .ok bytes)
    (there : toCanonicalBytes codec S.format b = .ok bytes) : a = b := by
  apply left.eq_of_serialize right
  exact canonical.injective _ _ bytes left.ordered_serialize right.ordered_serialize
    (toCanonicalBytes_eq_ok.mp here) (toCanonicalBytes_eq_ok.mp there)

end Signable

/-! ## Revocation -/

/-- A key was revoked before a time. -/
def Revoked (revocations : List Revocation) (publicKey : List UInt8) (time : UInt64) : Prop :=
  ∃ rev ∈ revocations, rev.publicKey = publicKey ∧ rev.revokedAt < time

theorem checkRevocation_eq_ok {revocations : List Revocation} {publicKey : List UInt8}
    {time : UInt64} :
    checkRevocation revocations publicKey time = .ok () ↔ ¬ Revoked revocations publicKey time := by
  induction revocations with
  | nil => simp [checkRevocation, Revoked]
  | cons rev revocations ih =>
      rw [checkRevocation]
      split
      · rename_i here
        have revoked : Revoked (rev :: revocations) publicKey time :=
          ⟨rev, List.mem_cons_self, here⟩
        simp [revoked]
      · rename_i other
        rw [ih]
        apply not_congr
        constructor
        · rintro ⟨r, member, here⟩
          exact ⟨r, List.mem_cons_of_mem _ member, here⟩
        · rintro ⟨r, member, here⟩
          rcases List.mem_cons.mp member with rfl | later
          · exact absurd here other
          · exact ⟨r, later, here⟩

/-! ## What a signature binds -/

section Bind

variable {S : Signable Cid Body α} {E : Ed25519 Key} {codec : Codec.DagCbor Cid}
  {signed : Key → List UInt8 → Prop} {key : Key} {a a' : α} {revocations : List Revocation}

theorem extractVerifierInputs_eq_ok {sig : Objects.Signature} {inputs : List UInt8 × List UInt8} :
    extractVerifierInputs E sig = .ok inputs ↔ sig.algo = algoEd25519 ∧
      sig.publicKey.length = 32 ∧ E.validKey sig.publicKey = true ∧ sig.sig.length = 64 ∧
        inputs = (sig.publicKey, sig.sig) := by
  unfold extractVerifierInputs
  split_ifs with algo key valid length
  · simp [algo]
  · simp [key]
  · simp [valid]
  · simp [length]
  · simp only [not_not, Bool.not_eq_false] at algo key valid length
    simp [algo, key, valid, length, eq_comm]

/-- A signature that is accepted is of the right form, on the object's own bytes, and its key is
not revoked. -/
theorem verify_eq_ok : S.verify E codec revocations a = .ok () ↔
    ∃ sig bytes, S.signature a = some sig ∧ sig.algo = algoEd25519 ∧ sig.publicKey.length = 32 ∧
      E.validKey sig.publicKey = true ∧ sig.sig.length = 64 ∧
        S.canonicalBytes codec a = .ok bytes ∧ E.verifyStrict sig.publicKey bytes sig.sig = true ∧
          ¬ Revoked revocations sig.publicKey (S.time a) := by
  unfold Signable.verify
  cases carried : S.signature a with
  | none => simp
  | some sig =>
      dsimp only
      rw [Exec.bind_eq_ok]
      constructor
      · rintro ⟨inputs, extracted, ran⟩
        obtain ⟨algo, length, valid, sigLength, rfl⟩ := extractVerifierInputs_eq_ok.mp extracted
        obtain ⟨bytes, written, ran⟩ := Exec.bind_eq_ok.mp ran
        dsimp only at ran
        split at ran
        · rename_i accepted
          refine ⟨sig, bytes, rfl, algo, length, valid, sigLength, ?_, accepted,
            checkRevocation_eq_ok.mp ran⟩
          cases encoded : S.canonicalBytes codec a with
          | error e =>
              rw [encoded] at written
              cases written
          | ok b =>
              rw [encoded] at written
              cases written
              rfl
        · cases ran
      · rintro ⟨_, bytes, ⟨⟩, algo, length, valid, sigLength, written, accepted, current⟩
        refine ⟨(sig.publicKey, sig.sig),
          extractVerifierInputs_eq_ok.mpr ⟨algo, length, valid, sigLength, rfl⟩, ?_⟩
        refine Exec.bind_eq_ok.mpr ⟨bytes, by rw [written]; rfl, ?_⟩
        dsimp only
        rw [if_pos accepted]
        exact checkRevocation_eq_ok.mpr current

/-- What signing leaves. -/
theorem sign_eq_ok : S.sign E codec key a = .ok a' ↔ ∃ bytes, S.canonicalBytes codec a = .ok bytes ∧
    a' = S.withSignature a (some (signatureFromParts (E.publicKey key) (E.sign key bytes))) := by
  unfold Signable.sign
  rw [Exec.bind_eq_ok]
  constructor
  · rintro ⟨bytes, written, made⟩
    exact ⟨bytes, written, (Except.ok.inj made).symm⟩
  · rintro ⟨bytes, written, rfl⟩
    exact ⟨bytes, written, rfl⟩

/-- The signature is not among the bytes that are signed. -/
theorem canonicalBytes_with (a : α) (sig : Option Objects.Signature) :
    S.canonicalBytes codec (S.withSignature a sig) = S.canonicalBytes codec a := by
  unfold Signable.canonicalBytes
  rw [S.with_with]

/-- A signed object is accepted unless its key was revoked before. -/
theorem verify_signed_iff (ideal : Ideal E signed) (made : S.sign E codec key a = .ok a')
    (owner : ∀ bytes, S.canonicalBytes codec a = .ok bytes → signed key bytes) :
    S.verify E codec revocations a' = .ok () ↔
      ¬ Revoked revocations (E.publicKey key) (S.time a) := by
  obtain ⟨bytes, written, rfl⟩ := sign_eq_ok.mp made
  rw [verify_eq_ok]
  simp only [S.signature_with, canonicalBytes_with, S.time_with]
  constructor
  · rintro ⟨_, bytes', ⟨⟩, -, -, -, -, -, -, current⟩
    exact current
  · intro current
    refine ⟨_, bytes, rfl, rfl, E.publicKey_length key, ideal.valid key, E.sign_length key bytes,
      written, ?_, current⟩
    exact (ideal.accepts_iff _ _ _).mpr ⟨key, owner bytes written, rfl, rfl⟩

/-- A signed object is read back as it was, and then accepted unless its key was revoked. -/
theorem stored_signed (ideal : Ideal E signed) (proper : S.Proper a)
    (made : S.sign E codec key a = .ok a')
    (owner : ∀ bytes, S.canonicalBytes codec a = .ok bytes → signed key bytes) {bytes : List UInt8}
    (written : toCanonicalBytes codec S.format a' = .ok bytes) :
    (fromCanonicalBytes codec S.format bytes = .ok a' ∨
      128 < (maps.encode (S.format.serialize a')).height ∧
        ∃ e, fromCanonicalBytes codec S.format bytes = .error e) ∧
    ∀ d, fromCanonicalBytes codec S.format bytes = .ok d → ∀ revocations,
      (S.verify E codec revocations d = .ok () ↔
        ¬ Revoked revocations (E.publicKey key) (S.time a)) := by
  have properSigned : S.Proper a' := by
    obtain ⟨_, -, rfl⟩ := sign_eq_ok.mp made
    exact proper.withSignature _
  have back := properSigned.stored written
  refine ⟨back, fun d read revocations => ?_⟩
  rcases back with same | ⟨-, e, refused⟩
  · obtain rfl := Except.ok.inj (same.symm.trans read)
    exact verify_signed_iff ideal made owner
  · rw [refused] at read
    cases read

/-- An accepted object has the bytes that its signature was made on. -/
theorem bytes_of_verify {Body' β : Type} {T : Signable Cid Body' β} {d : β}
    {sig sig' : Objects.Signature} (ideal : Ideal E signed)
    (made : S.sign E codec key a = .ok a')
    (owner : ∀ bytes, S.canonicalBytes codec a = .ok bytes → signed key bytes)
    (onMade : S.signature a' = some sig) (onDecoded : T.signature d = some sig')
    (same : sig'.sig = sig.sig) (accepted : T.verify E codec revocations d = .ok ()) :
    ∃ bytes, S.canonicalBytes codec a = .ok bytes ∧ T.canonicalBytes codec d = .ok bytes := by
  obtain ⟨bytes, written, rfl⟩ := sign_eq_ok.mp made
  rw [S.signature_with] at onMade
  cases onMade
  obtain ⟨carried, bytes', here, -, -, -, -, written', strict, -⟩ := verify_eq_ok.mp accepted
  obtain rfl := Option.some.inj (onDecoded.symm.trans here)
  obtain ⟨key', signedThere, -, produced⟩ := (ideal.accepts_iff _ _ _).mp strict
  have bound : bytes' = bytes :=
    ideal.binds key' bytes' key bytes signedThere (owner bytes written) (produced.trans same)
  exact ⟨bytes, written, bound ▸ written'⟩

/-- **An accepted object is the one that its signature was made on**, but for the signature. -/
theorem eq_of_verify {d : α} {sig sig' : Objects.Signature} (canonical : Canonical codec)
    (ideal : Ideal E signed) (proper : S.Proper a) (made : S.sign E codec key a = .ok a')
    (owner : ∀ bytes, S.canonicalBytes codec a = .ok bytes → signed key bytes) {stored : List UInt8}
    (read : fromCanonicalBytes codec S.format stored = .ok d) (onMade : S.signature a' = some sig)
    (onDecoded : S.signature d = some sig') (same : sig'.sig = sig.sig)
    (accepted : S.verify E codec revocations d = .ok ()) :
    S.withSignature d none = S.withSignature a none := by
  obtain ⟨bytes, here, there⟩ := bytes_of_verify ideal made owner onMade onDecoded same accepted
  have properRead := Signable.proper_of_read canonical read
  exact (properRead.withSignature none).eq_of_bytes canonical (proper.withSignature none) there here

end Bind

/-! ## Commits and operations apart -/

theorem kind_commit (c : Objects.Commit Cid) :
    (commit.serialize c).get? "_kind" = some (.string "commit") := by
  show (commit.wire.write _ _).get? "_kind" = _
  rw [get?_write, if_pos (by simp [commit])]
  rfl

theorem kind_operation (o : Objects.Operation Cid) :
    (operation.serialize o).get? "_kind" = some (.string "operation") := by
  show (operation.wire.write _ _).get? "_kind" = _
  rw [get?_write, if_pos (by simp [operation])]
  rfl

/-- No commit has the bytes of an operation. -/
theorem bytes_apart {codec : Codec.DagCbor Cid} (canonical : Canonical codec)
    {c : Objects.Commit Cid} {o : Objects.Operation Cid} {bytes : List UInt8}
    (left : commits.Proper c) (right : operations.Proper o)
    (here : canonicalBytesForCommit codec c = .ok bytes) :
    canonicalBytesForOperation codec o ≠ .ok bytes := by
  intro there
  have same := canonical.injective _ _ bytes (left.withSignature none).ordered_serialize
    (right.withSignature none).ordered_serialize (toCanonicalBytes_eq_ok.mp here)
    (toCanonicalBytes_eq_ok.mp there)
  have records := congrArg maps.decode same
  rw [maps.decode_encode _ trivial, maps.decode_encode _ trivial] at records
  have kinds := congrArg (fun m : Props Cid => m.get? "_kind") (Option.some.inj records)
  rw [show (commits.format.serialize _).get? "_kind" = _ from kind_commit _,
    show (operations.format.serialize _).get? "_kind" = _ from kind_operation _] at kinds
  exact absurd (Ipld.string.inj (Option.some.inj kinds)) (by decide)

/-! ## Every kind -/

/-- A signature that was made on one object is carried by another. -/
def Carries (made carried : Option Objects.Signature) : Prop :=
  ∃ sig sig', made = some sig ∧ carried = some sig' ∧ sig'.sig = sig.sig

/-- Extra keys that are none of the fields, with values whose maps are in order. -/
structure Aside (keys : List String) (extra : Props Cid) : Prop where
  beside : Format.Beside keys extra
  ordered : ∀ k v, extra.get? k = some v → v.Ordered

theorem properCommit {c : Objects.Commit Cid}
    (aside : Aside ["_kind", "change_id", "parents", "nodes", "edges", "schema", "delta", "indexes",
      "embeddings", "sparse", "author", "agent_id", "task_id", "time", "message", "signature"]
      c.extra) : commits.Proper c :=
  ⟨keys_commit ▸ aside.beside, aside.ordered⟩

theorem properOperation {o : Objects.Operation Cid}
    (aside : Aside ["_kind", "parents", "view", "predecessors", "author", "agent_id", "task_id",
      "host", "time", "description", "signature"] o.extra) : operations.Proper o :=
  ⟨keys_operation ▸ aside.beside, aside.ordered⟩

/-- **Signatures survive storage and bind the object.**  A signed object is read back as it was
(unless the codec stops at its depth) and then accepted exactly if its key was not revoked before
its time; and an accepted object that carries a signature is, but for signatures, the object that
the signature was made on, of the same kind. -/
theorem signatures_survive_and_bind {codec : Codec.DagCbor Cid} {E : Ed25519 Key}
    {signed : Key → List UInt8 → Prop} (canonical : Canonical codec) (ideal : Ideal E signed) :
    (∀ key (c c' : Objects.Commit Cid),
      Aside ["_kind", "change_id", "parents", "nodes", "edges", "schema", "delta", "indexes",
        "embeddings", "sparse", "author", "agent_id", "task_id", "time", "message", "signature"]
        c.extra →
      signCommit E codec key c = .ok c' →
      (∀ bytes, canonicalBytesForCommit codec c = .ok bytes → signed key bytes) →
      (∀ bytes, toCanonicalBytes codec commit c' = .ok bytes →
        (fromCanonicalBytes codec commit bytes = .ok c' ∨
          128 < (maps.encode (commit.serialize c')).height ∧
            ∃ e, fromCanonicalBytes codec commit bytes = .error e) ∧
        ∀ d, fromCanonicalBytes codec commit bytes = .ok d → ∀ revocations,
          (verifyCommit E codec revocations d = .ok () ↔
            ¬ Revoked revocations (E.publicKey key) c.time)) ∧
      (∀ bytes d revocations, fromCanonicalBytes codec commit bytes = .ok d →
        Carries c'.signature d.signature → verifyCommit E codec revocations d = .ok () →
          { d with signature := none } = { c with signature := none }) ∧
      ∀ bytes o revocations, fromCanonicalBytes codec operation bytes = .ok o →
        Carries c'.signature o.signature → verifyOperation E codec revocations o ≠ .ok ()) ∧
    ∀ key (o o' : Objects.Operation Cid),
      Aside ["_kind", "parents", "view", "predecessors", "author", "agent_id", "task_id", "host",
        "time", "description", "signature"] o.extra →
      signOperation E codec key o = .ok o' →
      (∀ bytes, canonicalBytesForOperation codec o = .ok bytes → signed key bytes) →
      (∀ bytes, toCanonicalBytes codec operation o' = .ok bytes →
        (fromCanonicalBytes codec operation bytes = .ok o' ∨
          128 < (maps.encode (operation.serialize o')).height ∧
            ∃ e, fromCanonicalBytes codec operation bytes = .error e) ∧
        ∀ d, fromCanonicalBytes codec operation bytes = .ok d → ∀ revocations,
          (verifyOperation E codec revocations d = .ok () ↔
            ¬ Revoked revocations (E.publicKey key) o.time)) ∧
      (∀ bytes d revocations, fromCanonicalBytes codec operation bytes = .ok d →
        Carries o'.signature d.signature → verifyOperation E codec revocations d = .ok () →
          { d with signature := none } = { o with signature := none }) ∧
      ∀ bytes c revocations, fromCanonicalBytes codec commit bytes = .ok c →
        Carries o'.signature c.signature → verifyCommit E codec revocations c ≠ .ok () := by
  constructor
  · intro key c c' aside made owner
    have proper := properCommit aside
    refine ⟨fun bytes written => ?_, fun bytes d revocations read carries accepted => ?_,
      fun bytes o revocations read carries accepted => ?_⟩
    · exact stored_signed ideal proper made owner written
    · obtain ⟨sig, sig', onMade, onDecoded, same⟩ := carries
      exact eq_of_verify (S := commits) canonical ideal proper made owner read onMade onDecoded same accepted
    · obtain ⟨sig, sig', onMade, onDecoded, same⟩ := carries
      obtain ⟨message, here, there⟩ :=
        bytes_of_verify (T := operations) ideal made owner onMade onDecoded same accepted
      exact bytes_apart canonical proper (Signable.proper_of_read (S := operations) canonical read) here there
  · intro key o o' aside made owner
    have proper := properOperation aside
    refine ⟨fun bytes written => ?_, fun bytes d revocations read carries accepted => ?_,
      fun bytes c revocations read carries accepted => ?_⟩
    · exact stored_signed ideal proper made owner written
    · obtain ⟨sig, sig', onMade, onDecoded, same⟩ := carries
      exact eq_of_verify (S := operations) canonical ideal proper made owner read onMade onDecoded same accepted
    · obtain ⟨sig, sig', onMade, onDecoded, same⟩ := carries
      obtain ⟨message, here, there⟩ :=
        bytes_of_verify (T := commits) ideal made owner onMade onDecoded same accepted
      exact bytes_apart canonical (Signable.proper_of_read (S := commits) canonical read) proper there here

/-! ### One signed operation -/

open Transport in
/-- The first operation of a repository. -/
def initOperation : Objects.Operation Transport.Cid :=
  ⟨[], Fragment.helloCid, none, "alice", none, none, none, 1000, "init", none, OrdMap.empty⟩

/-- The key of the seed of bytes `0x42`. -/
def initKey : List UInt8 :=
  [0x21, 0x52, 0xf8, 0xd1, 0x9b, 0x79, 0x1d, 0x24, 0x45, 0x32, 0x42, 0xe1, 0x5f, 0x2e, 0xab, 0x6c,
    0xb7, 0xcf, 0xfa, 0x7b, 0x6a, 0x5e, 0xd3, 0x00, 0x97, 0x96, 0x0e, 0x06, 0x98, 0x81, 0xdb, 0x12]

/-- Its signature on the operation. -/
def initSig : List UInt8 :=
  [0x53, 0xea, 0xdc, 0x4e, 0x61, 0x7e, 0xb5, 0xc7, 0xbd, 0xb9, 0xac, 0xca, 0x17, 0x70, 0x35, 0x0f,
    0x77, 0x5e, 0x74, 0xde, 0x05, 0xf5, 0xda, 0xbf, 0xc9, 0x95, 0x91, 0x2f, 0x9a, 0xc5, 0x29, 0xff,
    0x5f, 0xed, 0x69, 0x49, 0x37, 0xca, 0xa1, 0xf1, 0x99, 0xa3, 0xff, 0x42, 0x20, 0xa8, 0xdd, 0x1c,
    0x73, 0x05, 0x03, 0x0d, 0xf8, 0x2d, 0xae, 0xfc, 0xc0, 0x61, 0x8b, 0xc9, 0xf2, 0x72, 0x3a, 0x04]

def initSigned : Objects.Operation Transport.Cid :=
  { initOperation with signature := some (signatureFromParts initKey initSig) }

open Transport.Fragment in
def initBytes : List UInt8 :=
  mapBytes [("time", head 0 1000), ("view", linkBytes helloCid), ("_kind", textBytes "operation"),
    ("author", textBytes "alice"), ("parents", linksBytes []), ("description", textBytes "init")]

open Transport.Fragment in
def initSignedBytes : List UInt8 :=
  mapBytes [("time", head 0 1000), ("view", linkBytes helloCid), ("_kind", textBytes "operation"),
    ("author", textBytes "alice"), ("parents", linksBytes []),
    ("signature", mapBytes [("sig", head 2 64 ++ initSig), ("algo", textBytes "ed25519"),
      ("public_key", head 2 32 ++ initKey)]), ("description", textBytes "init")]

theorem initBytes_ne : initBytes ≠ initSignedBytes := by
  intro same
  have first : initBytes.head? = initSignedBytes.head? := congrArg List.head? same
  have apart : initBytes.head? ≠ initSignedBytes.head? := by decide
  exact apart first

open Classical in
/-- DAG-CBOR on the two forms of the operation. -/
noncomputable def initCodec : Codec.DagCbor Transport.Cid where
  encode v :=
    if v = maps.encode (operation.serialize initOperation) then .ok initBytes
    else if v = maps.encode (operation.serialize initSigned) then .ok initSignedBytes
    else .error "another value"
  decode bytes :=
    if bytes = initBytes then .ok (maps.encode (operation.serialize initOperation))
    else if bytes = initSignedBytes then .ok (maps.encode (operation.serialize initSigned))
    else .error "another block"
  decode_encode v bytes _ written := by
    split_ifs at written with plain full
    · cases written
      rw [if_pos rfl, plain]
      exact .inl rfl
    · cases written
      rw [if_neg initBytes_ne.symm, if_pos rfl, full]
      exact .inl rfl

theorem initOperation_proper : operations.Proper initOperation :=
  ⟨fun _ _ => OrdMap.get?_empty _, fun _ _ none => by cases none⟩

open Classical in
theorem initCodec_canonical : Canonical initCodec where
  injective v w bytes _ _ left right := by
    simp only [initCodec] at left right
    split_ifs at left right with h₁ h₂ h₃ h₄ h₅ h₆
    all_goals cases left
    · exact h₁.trans h₂.symm
    · exact absurd (Except.ok.inj right) initBytes_ne.symm
    · exact absurd (Except.ok.inj right) initBytes_ne
    · exact h₄.trans h₆.symm
  ordered bytes v read := by
    simp only [initCodec] at read
    split_ifs at read
    · cases read
      exact initOperation_proper.ordered_serialize
    · cases read
      exact (initOperation_proper.withSignature _).ordered_serialize

/-- Ed25519 where one key signed one message. -/
def initScheme : Ed25519 Unit where
  publicKey _ := initKey
  publicKey_length _ := rfl
  sign _ message := if message = initBytes then initSig else List.replicate 64 0
  sign_length _ message := by
    split <;> rfl
  validKey publicKey := decide (publicKey = initKey)
  verifyStrict publicKey message sig :=
    decide (publicKey = initKey ∧ message = initBytes ∧ sig = initSig)

theorem initScheme_sign : initScheme.sign () initBytes = initSig := by
  show (if initBytes = initBytes then initSig else List.replicate 64 0) = initSig
  exact if_pos rfl

theorem initScheme_ideal : Ideal initScheme fun _ message => message = initBytes where
  valid _ := decide_eq_true (show initKey = initKey from rfl)
  accepts_iff publicKey message sig := by
    refine decide_eq_true_iff.trans ⟨?_, ?_⟩
    · rintro ⟨rfl, rfl, rfl⟩
      exact ⟨(), rfl, rfl, initScheme_sign⟩
    · rintro ⟨_, rfl, rfl, rfl⟩
      exact ⟨rfl, rfl, initScheme_sign⟩
  binds _ _ _ _ here there _ := here.trans there.symm

theorem initOperation_encode :
    toCanonicalBytes initCodec operation initOperation = .ok initBytes :=
  toCanonicalBytes_eq_ok.mpr (if_pos rfl)

theorem initSigned_encode :
    toCanonicalBytes initCodec operation initSigned = .ok initSignedBytes := by
  refine toCanonicalBytes_eq_ok.mpr ?_
  have apart : maps.encode (operation.serialize initSigned) ≠
      maps.encode (operation.serialize initOperation) := by
    intro same
    have proper := initOperation_proper.withSignature (some (signatureFromParts initKey initSig))
    have equal : initSigned = initOperation := proper.eq_of_serialize initOperation_proper same
    have signatures := congrArg (·.signature) equal
    cases signatures
  exact (if_neg apart).trans (if_pos rfl)

theorem initCodec_decode :
    initCodec.decode initSignedBytes = .ok (maps.encode (operation.serialize initSigned)) := by
  dsimp only [initCodec]
  rw [if_neg initBytes_ne.symm, if_pos rfl]

theorem initOperation_signed :
    signOperation initScheme initCodec () initOperation = .ok initSigned := by
  refine sign_eq_ok.mpr ⟨initBytes, initOperation_encode, ?_⟩
  rw [initScheme_sign]
  rfl

/-- The first operation, signed, is stored, read back and accepted; with the key revoked before it
was made, it is refused. -/
theorem init_survives : ∃ (codec : Codec.DagCbor Transport.Cid) (E : Ed25519 Unit) (signed : _)
    (o o' : Objects.Operation Transport.Cid) (bytes : List UInt8),
    Canonical codec ∧ Ideal E signed ∧ signOperation E codec () o = .ok o' ∧
      toCanonicalBytes codec operation o' = .ok bytes ∧
      fromCanonicalBytes codec operation bytes = .ok o' ∧
      verifyOperation E codec [] o' = .ok () ∧
      verifyOperation E codec [⟨E.publicKey (), 999, "compromised"⟩] o' ≠ .ok () := by
  have aside : Aside ["_kind", "parents", "view", "predecessors", "author", "agent_id", "task_id",
      "host", "time", "description", "signature"] initOperation.extra :=
    ⟨fun _ _ => OrdMap.get?_empty _, fun _ _ none => by cases none⟩
  obtain ⟨stored, -, -⟩ := (signatures_survive_and_bind initCodec_canonical initScheme_ideal).2 ()
    initOperation initSigned aside initOperation_signed
    fun bytes written => Except.ok.inj (written.symm.trans initOperation_encode)
  have back : fromCanonicalBytes initCodec operation initSignedBytes = .ok initSigned := by
    have proper := initOperation_proper.withSignature (some (signatureFromParts initKey initSig))
    exact fromCanonicalBytes_eq_ok.mpr
      ⟨operation.serialize initSigned, initCodec_decode, proper.read⟩
  have judged := (stored _ initSigned_encode).2 _ back
  have accepted : verifyOperation initScheme initCodec [] initSigned = .ok () := by
    apply (judged []).mpr
    rintro ⟨rev, member, -⟩
    cases member
  have refused : verifyOperation initScheme initCodec [⟨initKey, 999, "compromised"⟩]
      initSigned ≠ .ok () := by
    intro passed
    apply (judged _).mp passed
    exact ⟨_, List.mem_singleton_self _, rfl, show (999 : UInt64) < 1000 by decide⟩
  exact ⟨initCodec, initScheme, _, initOperation, initSigned, initSignedBytes,
    initCodec_canonical, initScheme_ideal, initOperation_signed, initSigned_encode, back, accepted,
    refused⟩

end Mnem.Sign
