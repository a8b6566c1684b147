import Prismoire.SignedRoundTrip

namespace Prismoire

open Lib Lib.Cbor Option

/-- The three fields that a birth instance signs; the signature itself is none of them. -/
def attestedEntries (key : Key) (genesisAt : Nat) (birthInstanceKey : Key) : Table Text Value :=
  [("key", bytes key), ("genesis_at", uint genesisAt), ("birth_instance_key", bytes birthInstanceKey)]

def genesisAttestationSigningBytes (cbor : Ciborium) (key : Key) (genesisAt : Nat) (birthInstanceKey : Key) : Bytes :=
  cbor.intoWriter (buildMap (attestedEntries key genesisAt birthInstanceKey))

inductive PayloadBytes (nfc : Text → Text) (cbor : Ciborium) : Bytes → Prop
  | written {payload : SignedPayload} (typed : payload.Typed) : PayloadBytes nfc cbor (payload.encode cbor)
  | accepted {input : Bytes} {payload : SignedPayload} (parsed : SignedPayload.parse nfc cbor input = .ok payload) :
    PayloadBytes nfc cbor input

/-- A signature scheme, and the signatures that the owners of the keys made: one that was made over a message is a
signature of no other message. -/
structure SignatureScheme where
  verify : Key → Bytes → Bytes → Bool
  Made : Key → Bytes → Bytes → Prop
  bound : ∀ signer message other signature, Made signer message signature → verify signer other signature = true →
    other = message

section Maps

variable {nfc : Text → Text} {cbor : Ciborium}

theorem get?_of_written (faithful : cbor.Faithful) {entries others : Table Text Value} (keyed : entries.Keyed)
    (keyed' : others.Keyed) (plain : Plain 256 (buildMap entries)) (plain' : Plain 256 (buildMap others))
    (same : cbor.intoWriter (buildMap entries) = cbor.intoWriter (buildMap others)) (name : Text) :
    entries.get? name = others.get? name := by
  have back := faithful _ plain
  rw [same, faithful _ plain'] at back
  obtain ⟨fields, read, reads⟩ := readFields_buildMap keyed
  obtain ⟨fields', read', reads'⟩ := readFields_buildMap keyed'
  have lists : textKeyed (sortEntries others) = textKeyed (sortEntries entries) := Value.map.inj (some.inj back)
  rw [lists, read] at read'
  cases read'
  rw [← reads, ← reads']

variable {key birthInstanceKey : Key} {genesisAt : Nat}

theorem attestedEntries_keyed : (attestedEntries key genesisAt birthInstanceKey).Keyed := by
  simp [Table.Keyed, attestedEntries]

theorem plain_attestedEntries (fits : IsU64 genesisAt) :
    Plain 256 (buildMap (attestedEntries key genesisAt birthInstanceKey)) := by
  have named : PlainNames ((attestedEntries key genesisAt birthInstanceKey).map Prod.fst) :=
    ⟨by simp [attestedEntries], by simp only [attestedEntries, List.map_cons, List.map_nil]; decide⟩
  have values : PlainValues 2 (attestedEntries key genesisAt birthInstanceKey) := by
    simp [attestedEntries, fits]
  exact (plain_buildMap (List.Sublist.refl _) named values).mono (by omega)

theorem SignedPayload.plain_typed {payload : SignedPayload} (typed : payload.Typed) : Plain 256 payload.toCborValue :=
  (SignedPayload.plain_toCborValue typed).mono (by omega)

variable (faithful : cbor.Faithful) (fits : IsU64 genesisAt)
include faithful fits

theorem attested_injective {key' birthInstanceKey' : Key} {genesisAt' : Nat} (fits' : IsU64 genesisAt')
    (same : genesisAttestationSigningBytes cbor key genesisAt birthInstanceKey =
      genesisAttestationSigningBytes cbor key' genesisAt' birthInstanceKey') :
    key = key' ∧ genesisAt = genesisAt' ∧ birthInstanceKey = birthInstanceKey' := by
  have fields := get?_of_written faithful attestedEntries_keyed attestedEntries_keyed (plain_attestedEntries fits)
    (plain_attestedEntries fits') same
  have keys : fieldBits (attestedEntries key genesisAt birthInstanceKey) "key" 256 = .ok key' :=
    fieldBits_of rfl (fields "key")
  have births : fieldBits (attestedEntries key genesisAt birthInstanceKey) "birth_instance_key" 256 =
      .ok birthInstanceKey' := fieldBits_of rfl (fields "birth_instance_key")
  have ages : fieldUint (attestedEntries key genesisAt birthInstanceKey) "genesis_at" = .ok genesisAt' :=
    fieldUint_of fits' (fields "genesis_at")
  rw [fieldBits_of rfl rfl] at keys births
  rw [fieldUint_of fits rfl] at ages
  exact ⟨Except.ok.inj keys, Except.ok.inj ages, Except.ok.inj births⟩

theorem parse_attested :
    SignedPayload.parse nfc cbor (genesisAttestationSigningBytes cbor key genesisAt birthInstanceKey) =
      .error (.missingField "t") := by
  obtain ⟨fields, read, reads⟩ := readFields_buildMap (@attestedEntries_keyed key birthInstanceKey genesisAt)
  have back := faithful _ (@plain_attestedEntries key birthInstanceKey genesisAt fits)
  have untagged : fieldText fields "t" = .error (.missingField "t") := by
    rw [fieldText, reads]
    rfl
  rw [SignedPayload.parse, genesisAttestationSigningBytes, back]
  simp only [buildMap, ne_eq, not_true_eq_false, if_false, read, untagged, bind, Except.bind]

theorem attested_ne_payload :
    ¬ PayloadBytes nfc cbor (genesisAttestationSigningBytes cbor key genesisAt birthInstanceKey) := by
  intro isPayload
  generalize isInput : genesisAttestationSigningBytes cbor key genesisAt birthInstanceKey = input at isPayload
  cases isPayload with
  | @written payload typed =>
    have fields := get?_of_written faithful attestedEntries_keyed payload.keyed_entries (plain_attestedEntries fits)
      (SignedPayload.plain_typed typed) isInput "t"
    rw [SignedPayload.get?_tag] at fields
    cases fields
  | accepted parsed =>
    rw [← isInput, parse_attested faithful fits] at parsed
    cases parsed

end Maps

def classTags : List Text :=
  [tagPostRevision, tagRetraction, tagTrustEdge, tagProfile, tagMove, tagAdminRemoval, tagFedEnvelope,
    tagRegistrationChallenge, tagPriorHomeChallenge, tagPriorHomeResponse, tagThreadCreate, tagUserStatus,
    tagDeactivation, tagThreadStatus, tagReport]

theorem SignedPayload.ctorIdx_eq (payload : SignedPayload) : payload.ctorIdx = classTags.idxOf payload.tag := by
  cases payload <;> rfl

/-- The bytes of an attestation are those of no signed payload, so a signature of one is none of the other; they say
which attestation it is, and the bytes of a payload of which class it is. -/
theorem signature_domains {cbor : Ciborium} (faithful : cbor.Faithful) (nfc : Text → Text) :
    (∀ key genesisAt birthInstanceKey key' genesisAt' birthInstanceKey', IsU64 genesisAt → IsU64 genesisAt' →
      genesisAttestationSigningBytes cbor key genesisAt birthInstanceKey =
        genesisAttestationSigningBytes cbor key' genesisAt' birthInstanceKey' →
      key = key' ∧ genesisAt = genesisAt' ∧ birthInstanceKey = birthInstanceKey') ∧
    (∀ key genesisAt birthInstanceKey, IsU64 genesisAt →
      SignedPayload.parse nfc cbor (genesisAttestationSigningBytes cbor key genesisAt birthInstanceKey) =
        .error (.missingField "t")) ∧
    (∀ (scheme : SignatureScheme) signer key genesisAt birthInstanceKey signature input, IsU64 genesisAt →
      PayloadBytes nfc cbor input →
      (scheme.Made signer (genesisAttestationSigningBytes cbor key genesisAt birthInstanceKey) signature →
        scheme.verify signer input signature = false) ∧
      (scheme.Made signer input signature →
        scheme.verify signer (genesisAttestationSigningBytes cbor key genesisAt birthInstanceKey) signature = false)) ∧
    ∀ payload other : SignedPayload, payload.Typed → other.Typed → payload.ctorIdx ≠ other.ctorIdx →
      payload.encode cbor ≠ other.encode cbor := by
  refine ⟨?_, ?_, ?_, ?_⟩
  · intro key genesisAt birthInstanceKey key' genesisAt' birthInstanceKey' fits fits' same
    exact attested_injective faithful fits fits' same
  · intro key genesisAt birthInstanceKey fits
    exact parse_attested faithful fits
  · intro scheme signer key genesisAt birthInstanceKey signature input fits isPayload
    constructor
    · intro made
      rw [← Bool.not_eq_true]
      intro verified
      have same := scheme.bound signer _ input signature made verified
      exact attested_ne_payload faithful fits (same ▸ isPayload)
    · intro made
      rw [← Bool.not_eq_true]
      intro verified
      have same := scheme.bound signer input _ signature made verified
      exact attested_ne_payload faithful fits (same ▸ isPayload)
  · intro payload other typed typed' apart same
    have tags := get?_of_written faithful payload.keyed_entries other.keyed_entries (SignedPayload.plain_typed typed)
      (SignedPayload.plain_typed typed') same "t"
    rw [SignedPayload.get?_tag, SignedPayload.get?_tag] at tags
    have sameTag : payload.tag = other.tag := Value.text.inj (some.inj tags)
    exact apart (by rw [SignedPayload.ctorIdx_eq, SignedPayload.ctorIdx_eq, sameTag])

def spelledSignatures : SignatureScheme where
  verify signer message signature := decide (signature = UInt8.ofNat signer.toNat :: message)
  Made signer message signature := signature = UInt8.ofNat signer.toNat :: message
  bound := by
    intro signer message other signature made verified
    have spelled := of_decide_eq_true verified
    rw [made] at spelled
    exact (List.cons.inj spelled).2.symm

/-- The bytes that instance 9 signs for user 5 are no deactivation of user 5, and its signature of the one is none of
the other. -/
theorem attestation_is_no_deactivation :
    let attested := genesisAttestationSigningBytes shortestCbor 5 1000 9
    let leaving := SignedPayload.encode shortestCbor (.deactivation { user := 5, createdAt := 1000 })
    SignedPayload.parse id shortestCbor attested = .error (.missingField "t") ∧
      spelledSignatures.verify 9 leaving (9 :: attested) = false := by
  intro attested leaving
  obtain ⟨-, refused, apart, -⟩ := signature_domains shortestCbor_faithful id
  have fits : IsU64 1000 := by decide
  have typed : SignedPayload.Typed (.deactivation { user := 5, createdAt := 1000 }) := fits
  exact ⟨refused 5 1000 9 fits, (apart spelledSignatures 9 5 1000 9 _ _ fits (.written typed)).1 rfl⟩

end Prismoire
