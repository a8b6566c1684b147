import Prismoire.SignedClasses

namespace Prismoire

open Lib List
open Lib.Cbor (Value)

/-- The keys that a class may write, in the order in which its encoder pushes them. -/
def SignedPayload.fieldNames : SignedPayload → List Text
  | .postRevision _ => ["v", "t", "post_id", "author", "thread_id", "revision", "body", "created_at", "parent_id",
      "attachments"]
  | .retraction _ => ["v", "t", "post_id", "author", "created_at"]
  | .trustEdge _ => ["v", "t", "from_key", "to_key", "stance", "created_at", "prior_edge_hash"]
  | .profileRevision _ => ["v", "t", "user", "display_name", "bio", "created_at", "avatar_attachment_hash",
      "prior_profile_hash"]
  | .move _ => ["v", "t", "key", "to_instance_key", "to_instance", "created_at", "genesis_at", "genesis_attestation",
      "from_instance_key", "from_instance", "prior_move_hash"]
  | .adminRemoval _ => ["v", "t", "post_id", "target_author", "signing_instance", "created_at", "reason"]
  | .fedEnvelope _ => ["v", "t", "sender", "receiver", "method", "path", "created_at", "nonce", "body_hash"]
  | .registrationChallenge _ => ["v", "t", "user_key", "dest_instance_key", "dest_domain", "nonce", "created_at"]
  | .priorHomeChallenge _ => ["v", "t", "responder_instance_key", "subject_key", "nonce", "created_at", "expires_at"]
  | .priorHomeResponse _ => ["v", "t", "subject_key", "challenge_hash", "created_at"]
  | .threadCreate _ => ["v", "t", "thread_id", "author", "room_slug", "title", "op_post_id", "created_at", "link_url"]
  | .userStatus _ => ["v", "t", "subject", "status", "signing_instance", "created_at", "suspended_until", "reason",
      "prior_status_hash"]
  | .deactivation _ => ["v", "t", "user", "created_at"]
  | .threadStatus _ => ["v", "t", "thread_id", "status", "signing_instance", "created_at", "reason",
      "prior_status_hash"]
  | .report _ => ["v", "t", "post_id", "target_author", "reporter", "reason", "created_at", "detail"]

theorem keys_append_pushSome {entries : Table Text Value} {names : List Text} (key : Text) (value : Option Value)
    (sub : (entries.map Prod.fst).Sublist names) :
    ((entries ++ pushSome key value).map Prod.fst).Sublist (names ++ [key]) := by
  rw [map_append]
  exact sub.append (keys_pushSome key value)

theorem keys_moveEntries (m : Move) : ((moveEntries m).map Prod.fst).Sublist (SignedPayload.move m).fieldNames := by
  cases isKey : m.fromInstanceKey <;> cases isDomain : m.fromInstance <;> cases isPrior : m.priorMoveHash <;>
    simp [moveEntries, SignedPayload.fieldNames, isKey, isDomain, isPrior, pushSome]

theorem SignedPayload.keys_sublist (payload : SignedPayload) :
    (payload.entries.map Prod.fst).Sublist payload.fieldNames := by
  cases payload with
  | retraction r => exact List.Sublist.refl _
  | registrationChallenge c => exact List.Sublist.refl _
  | priorHomeChallenge c => exact List.Sublist.refl _
  | priorHomeResponse r => exact List.Sublist.refl _
  | deactivation d => exact List.Sublist.refl _
  | trustEdge e => exact keys_append_pushSome _ _ (List.Sublist.refl _)
  | adminRemoval a => exact keys_append_pushSome _ _ (List.Sublist.refl _)
  | fedEnvelope e => exact keys_append_pushSome _ _ (List.Sublist.refl _)
  | threadCreate t => exact keys_append_pushSome _ _ (List.Sublist.refl _)
  | report r => exact keys_append_pushSome _ _ (List.Sublist.refl _)
  | postRevision p => exact keys_append_pushSome _ _ (keys_append_pushSome _ _ (List.Sublist.refl _))
  | profileRevision p => exact keys_append_pushSome _ _ (keys_append_pushSome _ _ (List.Sublist.refl _))
  | threadStatus s => exact keys_append_pushSome _ _ (keys_append_pushSome _ _ (List.Sublist.refl _))
  | userStatus s =>
    exact keys_append_pushSome _ _ (keys_append_pushSome _ _ (keys_append_pushSome _ _ (List.Sublist.refl _)))
  | move m => exact keys_moveEntries m

theorem SignedPayload.fieldNames_nodup (payload : SignedPayload) : payload.fieldNames.Nodup := by
  cases payload <;> simp [fieldNames]

theorem SignedPayload.keyed_entries (payload : SignedPayload) : payload.entries.Keyed :=
  payload.fieldNames_nodup.sublist payload.keys_sublist

section Typed

/-- Integers of 64 bits, a signature of 64 bytes, and strings that fit into memory. -/
structure Move.Typed (m : Move) : Prop where
  sig : m.genesisAttestation.sig.length = 64
  createdAt : IsU64 m.createdAt
  genesisAt : IsU64 m.genesisAt
  attestedAt : IsU64 m.genesisAttestation.genesisAt
  toInstance : FitsMemory m.toInstance
  fromInstance : ∀ domain ∈ m.fromInstance, FitsMemory domain

/-- What the Rust types alone enforce of a payload, whether a parser accepts it or not. -/
def SignedPayload.Typed : SignedPayload → Prop
  | .postRevision p => IsU64 p.revision ∧ IsU64 p.createdAt ∧ FitsMemory p.body ∧
      ∀ r ∈ p.attachments, FitsMemory r.mime ∧ FitsMemory r.filename
  | .retraction r => IsU64 r.createdAt
  | .trustEdge e => IsU64 e.createdAt
  | .profileRevision p => IsU64 p.createdAt ∧ FitsMemory p.displayName ∧ FitsMemory p.bio
  | .move m => m.Typed
  | .adminRemoval a => IsU64 a.createdAt ∧ FitsMemory a.signingInstance ∧ ∀ reason ∈ a.reason, FitsMemory reason
  | .fedEnvelope e => IsU64 e.createdAt ∧ FitsMemory e.method ∧ FitsMemory e.path
  | .registrationChallenge c => IsU64 c.createdAt ∧ FitsMemory c.destDomain
  | .priorHomeChallenge c => IsU64 c.createdAt ∧ IsU64 c.expiresAt
  | .priorHomeResponse r => IsU64 r.createdAt
  | .threadCreate t => IsU64 t.createdAt ∧ FitsMemory t.roomSlug ∧ FitsMemory t.title ∧ ∀ url ∈ t.linkUrl, FitsMemory url
  | .userStatus s => IsU64 s.createdAt ∧ FitsMemory s.signingInstance ∧ (∀ reason ∈ s.reason, FitsMemory reason) ∧
      ∀ end' ∈ s.suspendedUntil, IsU64 end'
  | .deactivation d => IsU64 d.createdAt
  | .threadStatus s => IsU64 s.createdAt ∧ FitsMemory s.signingInstance ∧ ∀ reason ∈ s.reason, FitsMemory reason
  | .report r => IsU64 r.createdAt ∧ ∀ detail ∈ r.detail, FitsMemory detail

variable {nfc : Text → Text}

theorem fitsMemory_of_le {s : Text} {bound : Nat} (le : s.utf8ByteSize ≤ bound) (small : bound < 2 ^ 63) :
    FitsMemory s :=
  Nat.lt_of_le_of_lt le small

theorem SignedPayload.Wire.typed {payload : SignedPayload} (wire : payload.Wire nfc) : payload.Typed := by
  cases payload with
  | postRevision p =>
    obtain ⟨revision, createdAt, body, attachments⟩ := wire
    refine ⟨revision, createdAt, body, fun r mem => ⟨?_, (attachments r mem).named⟩⟩
    exact (by decide : ∀ mime ∈ allowedMimes, mime.utf8ByteSize < 2 ^ 63) r.mime (attachments r mem).mime
  | profileRevision p => exact ⟨wire.1, wire.2.1, fitsMemory_of_le wire.2.2 (by decide)⟩
  | move m =>
    exact ⟨wire.sig, wire.createdAt, wire.genesisAt, wire.attestedAt ▸ wire.genesisAt, wire.toInstance, wire.fromInstance⟩
  | threadCreate t => exact ⟨wire.1, wire.2.1, fitsMemory_of_le wire.2.2.1 (by decide), wire.2.2.2⟩
  | userStatus s => exact ⟨wire.1, wire.2.1, wire.2.2.1, wire.2.2.2.1⟩
  | report r => exact ⟨wire.1, fun detail isDetail => fitsMemory_of_le (wire.2 detail isDetail) (by decide)⟩
  | retraction | trustEdge | adminRemoval | fedEnvelope | registrationChallenge | priorHomeChallenge | priorHomeResponse
    | deactivation | threadStatus => exact wire

end Typed

section Plain

open Lib.Cbor (Plain)

/-- The entries of a map whose keys and number a head can announce. -/
def PlainNames (names : List Text) : Prop :=
  names.length < 2 ^ 64 ∧ ∀ name ∈ names, name.utf8ByteSize < 2 ^ 64

def PlainValues (depth : Nat) (entries : Table Text Value) : Prop :=
  ∀ entry ∈ entries, Plain depth entry.2

variable {depth : Nat} {key : Text}

@[simp] theorem plainValues_nil : PlainValues depth [] := by
  simp [PlainValues]

variable {entries : Table Text Value} {s : Text} {n : Nat} {payload : SignedPayload}

@[simp] theorem plainValues_cons {value : Value} :
    PlainValues depth ((key, value) :: entries) ↔ Plain depth value ∧ PlainValues depth entries := by
  simp [PlainValues]

@[simp] theorem plainValues_append {front back : Table Text Value} :
    PlainValues depth (front ++ back) ↔ PlainValues depth front ∧ PlainValues depth back := by
  simp only [PlainValues, forall_mem_append]

@[simp] theorem plainValues_pushSome {value : Option Value} :
    PlainValues depth (pushSome key value) ↔ ∀ v ∈ value, Plain depth v := by
  cases value <;> simp [pushSome, PlainValues]

theorem plain_buildMap {names : List Text} (sub : (entries.map Prod.fst).Sublist names) (named : PlainNames names)
    (values : PlainValues (depth + 1) entries) : Plain (depth + 2) (buildMap entries) := by
  have perm := sortEntries_perm entries
  refine ⟨?_, ?_⟩
  · have short := sub.length_le
    have few := named.1
    rw [length_map] at short
    rw [textKeyed, length_map, perm.length_eq]
    omega
  · intro entry mem
    obtain ⟨field, isField, rfl⟩ := mem_map.mp mem
    have isEntry := perm.mem_iff.mp isField
    exact ⟨named.2 field.1 (sub.subset (mem_map_of_mem isEntry)), values field isEntry⟩

@[simp] theorem plain_bytes {w : Nat} {x : BitVec w} : Plain (depth + 1) (bytes x) ↔ w / 8 < 2 ^ 64 := by
  simp [bytes, Plain]

@[simp] theorem plain_text : Plain (depth + 1) (text s) ↔ IsU64 s.utf8ByteSize :=
  Iff.rfl

@[simp] theorem plain_uint : Plain (depth + 1) (uint n) ↔ IsU64 n := by
  constructor
  · intro bounds
    have high : (n : Int) < 2 ^ 64 := bounds.2
    rw [IsU64]
    omega
  · intro fits
    rw [IsU64] at fits
    exact ⟨by omega, by omega⟩

theorem FitsMemory.isU64 (fits : FitsMemory s) : IsU64 s.utf8ByteSize := by
  rw [FitsMemory] at fits
  rw [IsU64]
  omega

theorem SignedPayload.plainNames (payload : SignedPayload) : PlainNames payload.fieldNames := by
  cases payload <;> exact ⟨by simp [fieldNames], by simp only [fieldNames]; decide⟩

theorem isU64_of_le {bound : Nat} (le : n ≤ bound) (small : bound < 2 ^ 64) : IsU64 n :=
  Nat.lt_of_le_of_lt le small

theorem plain_attachmentRef {r : AttachmentRef} (mime : FitsMemory r.mime) (filename : FitsMemory r.filename) :
    Plain 3 (attachmentRefToCbor r) := by
  have size : IsU64 r.size := isU64_of_le r.sizeFits (by decide)
  refine plain_buildMap (List.Sublist.refl _) ⟨by simp, by simp only [map_cons, map_nil]; decide⟩ ?_
  simp [filename.isU64, mime.isU64, size]

theorem plain_attachments {p : PostRevision} (typed : ∀ r ∈ p.attachments, FitsMemory r.mime ∧ FitsMemory r.filename) :
    Plain 4 (attachmentsToCbor p.attachments) := by
  refine ⟨?_, ?_⟩
  · have few := p.attachmentsFit
    rw [maxAttachmentsPerOp] at few
    rw [length_map]
    omega
  · intro item mem
    obtain ⟨r, isRef, rfl⟩ := mem_map.mp mem
    exact plain_attachmentRef (typed r isRef).1 (typed r isRef).2

theorem plain_genesisAttestation {a : GenesisAttestation} (sig : a.sig.length = 64) (genesis : IsU64 a.genesisAt) :
    Plain 4 (genesisAttestationToCbor a) := by
  refine plain_buildMap (List.Sublist.refl _) ⟨by simp, by simp only [map_cons, map_nil]; decide⟩ ?_
  have signature : Plain 3 (.bytes a.sig) := isU64_of_le (Nat.le_of_eq sig) (by decide)
  simp [genesis, signature]

theorem plain_moveEntries {m : Move} (typed : m.Typed) : PlainValues 4 (moveEntries m) := by
  have attestation : Plain 4 (genesisAttestationToCbor m.genesisAttestation) :=
    plain_genesisAttestation typed.sig typed.attestedAt
  have version : IsU64 v1 := by decide
  have tag : IsU64 tagMove.utf8ByteSize := by decide
  have source : ∀ domain, m.fromInstance = some domain → IsU64 domain.utf8ByteSize :=
    fun domain isDomain => (typed.fromInstance domain isDomain).isU64
  cases isKey : m.fromInstanceKey <;> cases isDomain : m.fromInstance <;>
    simp [moveEntries, isKey, isDomain, typed.toInstance.isU64, typed.createdAt, typed.genesisAt, attestation, version, tag,
      source]

theorem SignedPayload.plain_entries (typed : payload.Typed) : PlainValues 4 payload.entries := by
  have version : IsU64 v1 := by decide
  cases payload with
  | postRevision p =>
    obtain ⟨revision, createdAt, body, attachments⟩ := typed
    have tag : IsU64 tagPostRevision.utf8ByteSize := by decide
    have list := plain_attachments attachments
    by_cases some : p.attachments = [] <;>
      simp [entries, postRevisionEntries, version, tag, revision, createdAt, body.isU64, list, some]
  | retraction r =>
    have tag : IsU64 tagRetraction.utf8ByteSize := by decide
    have createdAt : IsU64 r.createdAt := typed
    simp [entries, retractionEntries, version, tag, createdAt]
  | trustEdge e =>
    have tag : IsU64 tagTrustEdge.utf8ByteSize := by decide
    have createdAt : IsU64 e.createdAt := typed
    have stance : IsU64 e.stance.asStr.utf8ByteSize := by cases e.stance <;> decide
    simp [entries, trustEdgeEntries, version, tag, createdAt, stance]
  | profileRevision p =>
    obtain ⟨createdAt, displayName, bio⟩ := typed
    have tag : IsU64 tagProfile.utf8ByteSize := by decide
    simp [entries, profileRevisionEntries, version, tag, createdAt, displayName.isU64, bio.isU64]
  | move m => exact plain_moveEntries typed
  | adminRemoval a =>
    obtain ⟨createdAt, signingInstance, reason⟩ := typed
    have tag : IsU64 tagAdminRemoval.utf8ByteSize := by decide
    have reason : ∀ s, a.reason = some s → IsU64 s.utf8ByteSize := fun s isReason => (reason s isReason).isU64
    simpa [entries, adminRemovalEntries, version, tag, createdAt, signingInstance.isU64] using reason
  | fedEnvelope e =>
    obtain ⟨createdAt, method, path⟩ := typed
    have tag : IsU64 tagFedEnvelope.utf8ByteSize := by decide
    simp [entries, fedEnvelopeEntries, version, tag, createdAt, method.isU64, path.isU64]
  | registrationChallenge c =>
    obtain ⟨createdAt, destDomain⟩ := typed
    have tag : IsU64 tagRegistrationChallenge.utf8ByteSize := by decide
    simp [entries, registrationChallengeEntries, version, tag, createdAt, destDomain.isU64]
  | priorHomeChallenge c =>
    obtain ⟨createdAt, expiresAt⟩ := typed
    have tag : IsU64 tagPriorHomeChallenge.utf8ByteSize := by decide
    simp [entries, priorHomeChallengeEntries, version, tag, createdAt, expiresAt]
  | priorHomeResponse r =>
    have tag : IsU64 tagPriorHomeResponse.utf8ByteSize := by decide
    have createdAt : IsU64 r.createdAt := typed
    simp [entries, priorHomeResponseEntries, version, tag, createdAt]
  | threadCreate t =>
    obtain ⟨createdAt, roomSlug, title, linkUrl⟩ := typed
    have tag : IsU64 tagThreadCreate.utf8ByteSize := by decide
    have linkUrl : ∀ s, t.linkUrl = some s → IsU64 s.utf8ByteSize := fun s isUrl => (linkUrl s isUrl).isU64
    simpa [entries, threadCreateEntries, version, tag, createdAt, roomSlug.isU64, title.isU64] using linkUrl
  | userStatus s =>
    obtain ⟨createdAt, signingInstance, reason, suspendedUntil⟩ := typed
    have tag : IsU64 tagUserStatus.utf8ByteSize := by decide
    have status : IsU64 s.status.asStr.utf8ByteSize := by cases s.status <;> decide
    have reason : ∀ r, s.reason = some r → IsU64 r.utf8ByteSize := fun r isReason => (reason r isReason).isU64
    simpa [entries, userStatusEntries, version, tag, createdAt, signingInstance.isU64, status] using
      ⟨suspendedUntil, reason⟩
  | deactivation d =>
    have tag : IsU64 tagDeactivation.utf8ByteSize := by decide
    have createdAt : IsU64 d.createdAt := typed
    simp [entries, deactivationEntries, version, tag, createdAt]
  | threadStatus s =>
    obtain ⟨createdAt, signingInstance, reason⟩ := typed
    have tag : IsU64 tagThreadStatus.utf8ByteSize := by decide
    have status : IsU64 s.status.asStr.utf8ByteSize := by cases s.status <;> decide
    have reason : ∀ r, s.reason = some r → IsU64 r.utf8ByteSize := fun r isReason => (reason r isReason).isU64
    simpa [entries, threadStatusEntries, version, tag, createdAt, signingInstance.isU64, status] using reason
  | report r =>
    obtain ⟨createdAt, detail⟩ := typed
    have tag : IsU64 tagReport.utf8ByteSize := by decide
    have reason : IsU64 r.reason.asStr.utf8ByteSize := by cases r.reason <;> decide
    have detail : ∀ d, r.detail = some d → IsU64 d.utf8ByteSize :=
      fun d isDetail => (detail d isDetail).isU64
    simpa [entries, reportEntries, version, tag, createdAt, reason] using detail

theorem SignedPayload.plain_toCborValue (typed : payload.Typed) : Plain 5 payload.toCborValue :=
  plain_buildMap payload.keys_sublist payload.plainNames (plain_entries typed)

end Plain

open Lib.Cbor (Plain)

variable {nfc : Text → Text} {fields : Table Text Value} {cbor : Ciborium}

def SignedPayload.tag : SignedPayload → Text
  | .postRevision _ => tagPostRevision
  | .retraction _ => tagRetraction
  | .trustEdge _ => tagTrustEdge
  | .profileRevision _ => tagProfile
  | .move _ => tagMove
  | .adminRemoval _ => tagAdminRemoval
  | .fedEnvelope _ => tagFedEnvelope
  | .registrationChallenge _ => tagRegistrationChallenge
  | .priorHomeChallenge _ => tagPriorHomeChallenge
  | .priorHomeResponse _ => tagPriorHomeResponse
  | .threadCreate _ => tagThreadCreate
  | .userStatus _ => tagUserStatus
  | .deactivation _ => tagDeactivation
  | .threadStatus _ => tagThreadStatus
  | .report _ => tagReport

theorem SignedPayload.get?_tag (payload : SignedPayload) : payload.entries.get? "t" = some (text payload.tag) := by
  cases payload <;> rfl

theorem SignedPayload.get?_version (payload : SignedPayload) : payload.entries.get? "v" = some (uint v1) := by
  cases payload <;> rfl

theorem parseClass_of {α : Type} {parse : Except ParseError α} {x : α} (className : Text) (wrap : α → SignedPayload)
    (parsed : parse = .ok x) : parseClass className v1 parse wrap = .ok (wrap x) := by
  rw [parseClass, if_pos rfl, parsed]
  rfl

theorem dispatch_of {payload : SignedPayload} (wire : payload.Wire nfc)
    (reads : ∀ name, fields.get? name = payload.entries.get? name) :
    dispatch nfc fields payload.tag v1 = .ok payload := by
  cases payload with
  | postRevision p => exact parseClass_of tagPostRevision _ (parsePostRevision_of wire reads)
  | retraction r => exact parseClass_of tagRetraction _ (parseRetraction_of wire reads)
  | trustEdge e => exact parseClass_of tagTrustEdge _ (parseTrustEdge_of wire reads)
  | profileRevision p => exact parseClass_of tagProfile _ (parseProfileRevision_of wire reads)
  | move m => exact parseClass_of tagMove _ (parseMove_of wire reads)
  | adminRemoval a => exact parseClass_of tagAdminRemoval _ (parseAdminRemoval_of wire reads)
  | fedEnvelope e => exact parseClass_of tagFedEnvelope _ (parseFedEnvelope_of wire reads)
  | registrationChallenge c => exact parseClass_of tagRegistrationChallenge _ (parseRegistrationChallenge_of wire reads)
  | priorHomeChallenge c => exact parseClass_of tagPriorHomeChallenge _ (parsePriorHomeChallenge_of wire reads)
  | priorHomeResponse r => exact parseClass_of tagPriorHomeResponse _ (parsePriorHomeResponse_of wire reads)
  | threadCreate t => exact parseClass_of tagThreadCreate _ (parseThreadCreate_of wire reads)
  | userStatus s => exact parseClass_of tagUserStatus _ (parseUserStatus_of wire reads)
  | deactivation d => exact parseClass_of tagDeactivation _ (parseDeactivation_of wire reads)
  | threadStatus s => exact parseClass_of tagThreadStatus _ (parseThreadStatus_of wire reads)
  | report r => exact parseClass_of tagReport _ (parseReport_of wire reads)

/-- The library reads back what it wrote. -/
def Ciborium.Faithful (cbor : Ciborium) : Prop :=
  ∀ value, Plain 256 value → cbor.fromReader (cbor.intoWriter value) = some value

theorem SignedPayload.parse_encode (faithful : cbor.Faithful) {payload : SignedPayload}
    (wire : payload.Wire nfc) : SignedPayload.parse nfc cbor (payload.encode cbor) = .ok payload := by
  obtain ⟨fields, read, reads⟩ := readFields_buildMap payload.keyed_entries
  have back := faithful payload.toCborValue ((plain_toCborValue wire.typed).mono (by omega))
  have tag : fieldText fields "t" = .ok payload.tag := fieldText_of (by rw [reads, get?_tag])
  have version : fieldUint fields "v" = .ok v1 := fieldUint_of (by decide) (by rw [reads, get?_version])
  rw [parse, encode, back]
  simp only [toCborValue, buildMap, ne_eq, not_true_eq_false, if_false, read, tag, version, bind, Except.bind]
  exact dispatch_of wire reads

/-- Every payload within the bounds of its class is read back from its encoding, so no two of them, of one
class or of two, have the same bytes. -/
theorem signed_payload_round_trip (faithful : cbor.Faithful) :
    (∀ payload : SignedPayload, payload.Wire nfc → SignedPayload.parse nfc cbor (payload.encode cbor) = .ok payload) ∧
    ∀ payload other : SignedPayload, payload.Wire nfc → other.Wire nfc →
      payload.encode cbor = other.encode cbor → payload = other := by
  refine ⟨fun payload wire => SignedPayload.parse_encode faithful wire, ?_⟩
  intro payload other wire otherWire same
  have read := SignedPayload.parse_encode faithful wire
  rw [same, SignedPayload.parse_encode faithful otherWire] at read
  exact (Except.ok.inj read).symm

/-- A library that writes definite lengths and shortest heads. -/
def shortestCbor : Ciborium where
  intoWriter := Cbor.encode 256
  fromReader input := (Cbor.decode 256 input).map Prod.fst

theorem shortestCbor_faithful : shortestCbor.Faithful := by
  intro value plain
  have read := Cbor.decode_encode plain []
  rw [append_nil] at read
  simp only [shortestCbor, read, Option.map_some]

def pictureReply : PostRevision where
  postId := 1
  author := 2
  threadId := 3
  parentId := some 4
  revision := 0
  body := "look"
  createdAt := 1700000000
  attachments := [{ contentHash := 5, filename := "a.png", mime := "image/png", size := 2048 }]

theorem picture_reply_round_trip : SignedPayload.Wire id (.postRevision pictureReply) ∧
    SignedPayload.parse id shortestCbor (SignedPayload.encode shortestCbor (.postRevision pictureReply)) =
      .ok (.postRevision pictureReply) := by
  have filename : sanitizeAttachmentFilename id "a.png" = some "a.png" := by decide
  have wire : SignedPayload.Wire id (.postRevision pictureReply) := by
    refine ⟨by decide, by decide, by decide, ?_⟩
    intro r mem
    rw [mem_singleton.mp mem]
    exact ⟨filename, by decide, by decide⟩
  exact ⟨wire, (signed_payload_round_trip shortestCbor_faithful).1 _ wire⟩

end Prismoire
