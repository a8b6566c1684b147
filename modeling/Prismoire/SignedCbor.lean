import Mathlib.Data.List.Sort
import Prismoire.Signed
import Prismoire.Lib.Cbor
import Prismoire.Lib.Table

namespace Prismoire

open Lib
open Lib.Cbor (Value)

def tagPostRevision : Text := "post-rev"
def tagRetraction : Text := "retract"
def tagTrustEdge : Text := "trust-edge"
def tagProfile : Text := "profile"
def tagMove : Text := "move"
def tagAdminRemoval : Text := "admin-rm"
def tagFedEnvelope : Text := "fed-envelope"
def tagRegistrationChallenge : Text := "registration-challenge"
def tagPriorHomeChallenge : Text := "prior-home-challenge"
def tagPriorHomeResponse : Text := "prior-home-response"
def tagThreadCreate : Text := "thread-create"
def tagUserStatus : Text := "user-status"
def tagDeactivation : Text := "deactivate"
def tagThreadStatus : Text := "thread-status"
def tagReport : Text := "report"

def v1 : Nat := 1

def maxProfileBioLen : Nat := 4096

def maxThreadTitleLen : Nat := 300

def maxReportDetailLen : Nat := 2000

def maxAttachmentFilenameLen : Nat := 255

def allowedMimes : List Text :=
  ["image/png", "image/jpeg", "image/webp", "text/plain", "application/pdf"]

inductive ParseError
  | invalidCbor
  | nonCanonical
  | nonTextKey
  | keysOutOfOrder
  | duplicateKey (key : Text)
  | unknownClass (tag : Text)
  | unsupportedVersion (className : Text) (got : Nat)
  | missingField (name : Text)
  | wrongType (name : Text)
  | badByteLength (field : Text) (expected got : Nat)
  | invalidStance (stance : Text)
  | integerOutOfRange (name : Text)
  | textTooLong (field : Text) (max got : Nat)
  | attachmentsEmpty
  | attachmentsTooMany (max got : Nat)
  | nonCanonicalFilename
  | disallowedMime (mime : Text)
  | attachmentTooLarge (max got : Nat)
  | invalidStatus (status : Text)
  | invalidReportReason (reason : Text)
  | illegalSuspendedUntil
  | movePresenceCoupling
  | genesisAttestationMismatch

/-- The code points that a signed filename may keep. -/
def keepsChar (c : Char) : Bool :=
  let cu := c.toNat
  !(c == '/' || c == '\\' || cu == 0) &&
  !(0x01 ≤ cu && cu ≤ 0x1F || cu == 0x7F) &&
  !(cu == 0x200E || cu == 0x200F || (0x202A ≤ cu && cu ≤ 0x202E) || (0x2066 ≤ cu && cu ≤ 0x2069)) &&
  !((0x200B ≤ cu && cu ≤ 0x200D) || cu == 0x2060 || cu == 0xFEFF) &&
  !(c == '<' || c == '>' || c == ':' || c == '"' || c == '|' || c == '?' || c == '*')

/-- The longest run of whole code points within so many bytes. -/
def truncateBytes : Nat → List Char → List Char
  | _, [] => []
  | max, c :: cs => if c.utf8Size ≤ max then c :: truncateBytes (max - c.utf8Size) cs else []

/-- `nfc` is the normalization of the Unicode tables. -/
def sanitizeAttachmentFilename (nfc : Text → Text) (raw : Text) : Option Text :=
  let normalized := (nfc raw).toList.filter keepsChar
  let stripped := normalized.dropWhile (· == '.')
  let truncated := truncateBytes maxAttachmentFilenameLen stripped
  if truncated = [] then none else some (String.ofList truncated)

def TrustStance.asStr : TrustStance → Text
  | .trust => "trust"
  | .distrust => "distrust"
  | .neutral => "neutral"

def TrustStance.parse (s : Text) : Option TrustStance :=
  if s = "trust" then some .trust
  else if s = "distrust" then some .distrust
  else if s = "neutral" then some .neutral
  else none

def UserStatusKind.asStr : UserStatusKind → Text
  | .active => "active"
  | .suspended => "suspended"
  | .banned => "banned"

def UserStatusKind.parse (s : Text) : Option UserStatusKind :=
  if s = "active" then some .active
  else if s = "suspended" then some .suspended
  else if s = "banned" then some .banned
  else none

def ThreadStatusKind.asStr : ThreadStatusKind → Text
  | .open => "open"
  | .locked => "locked"

def ThreadStatusKind.parse (s : Text) : Option ThreadStatusKind :=
  if s = "open" then some .open
  else if s = "locked" then some .locked
  else none

def ReportReason.asStr : ReportReason → Text
  | .spam => "spam"
  | .rulesViolation => "rules_violation"
  | .illegalContent => "illegal_content"
  | .other => "other"

def ReportReason.parse (s : Text) : Option ReportReason :=
  if s = "spam" then some .spam
  else if s = "rules_violation" then some .rulesViolation
  else if s = "illegal_content" then some .illegalContent
  else if s = "other" then some .other
  else none

def cborTextKeyCmp (a b : Text) : Ordering :=
  (compare a.utf8ByteSize b.utf8ByteSize).then (compare (Cbor.utf8 a) (Cbor.utf8 b))

def textKeyed (entries : Table Text Value) : List (Value × Value) :=
  entries.map fun entry => (Value.text entry.1, entry.2)

def sortEntries (entries : Table Text Value) : Table Text Value :=
  entries.insertionSort fun a b => (cborTextKeyCmp a.1 b.1).isLE

def buildMap (entries : Table Text Value) : Value :=
  .map (textKeyed (sortEntries entries))

def uint (n : Nat) : Value :=
  .integer n

/-- The bytes of a key, a hash or an identifier. -/
def bytes {w : Nat} (x : BitVec w) : Value :=
  .bytes (Cbor.beBytes (w / 8) x.toNat)

def text (s : Text) : Value :=
  .text s

def pushSome (name : Text) (value : Option Value) : Table Text Value :=
  match value with
  | none => []
  | some value => [(name, value)]

def attachmentRefToCbor (r : AttachmentRef) : Value :=
  buildMap [("content_hash", bytes r.contentHash), ("filename", text r.filename), ("mime", text r.mime),
    ("size", uint r.size)]

def attachmentsToCbor (refs : List AttachmentRef) : Value :=
  .array (refs.map attachmentRefToCbor)

def postRevisionEntries (p : PostRevision) : Table Text Value :=
  [("v", uint v1), ("t", text tagPostRevision), ("post_id", bytes p.postId), ("author", bytes p.author),
    ("thread_id", bytes p.threadId), ("revision", uint p.revision), ("body", text p.body),
    ("created_at", uint p.createdAt)] ++
  pushSome "parent_id" (p.parentId.map bytes) ++
  pushSome "attachments" (if p.attachments = [] then none else some (attachmentsToCbor p.attachments))

def retractionEntries (r : Retraction) : Table Text Value :=
  [("v", uint v1), ("t", text tagRetraction), ("post_id", bytes r.postId), ("author", bytes r.author),
    ("created_at", uint r.createdAt)]

def trustEdgeEntries (e : TrustEdge) : Table Text Value :=
  [("v", uint v1), ("t", text tagTrustEdge), ("from_key", bytes e.fromKey), ("to_key", bytes e.toKey),
    ("stance", text e.stance.asStr), ("created_at", uint e.createdAt)] ++
  pushSome "prior_edge_hash" (e.priorEdgeHash.map bytes)

def profileRevisionEntries (p : ProfileRevision) : Table Text Value :=
  [("v", uint v1), ("t", text tagProfile), ("user", bytes p.user), ("display_name", text p.displayName),
    ("bio", text p.bio), ("created_at", uint p.createdAt)] ++
  pushSome "avatar_attachment_hash" (p.avatarAttachmentHash.map bytes) ++
  pushSome "prior_profile_hash" (p.priorProfileHash.map bytes)

def genesisAttestationToCbor (a : GenesisAttestation) : Value :=
  buildMap [("key", bytes a.key), ("genesis_at", uint a.genesisAt),
    ("birth_instance_key", bytes a.birthInstanceKey), ("sig", .bytes a.sig)]

/-- The two fields of the source instance go out together or not at all. -/
def moveEntries (m : Move) : Table Text Value :=
  [("v", uint v1), ("t", text tagMove), ("key", bytes m.key), ("to_instance_key", bytes m.toInstanceKey),
    ("to_instance", text m.toInstance), ("created_at", uint m.createdAt), ("genesis_at", uint m.genesisAt),
    ("genesis_attestation", genesisAttestationToCbor m.genesisAttestation)] ++
  (match m.fromInstanceKey, m.fromInstance with
    | some fromKey, some fromDomain => [("from_instance_key", bytes fromKey), ("from_instance", text fromDomain)]
    | _, _ => []) ++
  pushSome "prior_move_hash" (m.priorMoveHash.map bytes)

def adminRemovalEntries (a : AdminRemoval) : Table Text Value :=
  [("v", uint v1), ("t", text tagAdminRemoval), ("post_id", bytes a.postId),
    ("target_author", bytes a.targetAuthor), ("signing_instance", text a.signingInstance),
    ("created_at", uint a.createdAt)] ++
  pushSome "reason" (a.reason.map text)

def fedEnvelopeEntries (e : FedEnvelope) : Table Text Value :=
  [("v", uint v1), ("t", text tagFedEnvelope), ("sender", bytes e.sender), ("receiver", bytes e.receiver),
    ("method", text e.method), ("path", text e.path), ("created_at", uint e.createdAt),
    ("nonce", bytes e.nonce)] ++
  pushSome "body_hash" (e.bodyHash.map bytes)

def registrationChallengeEntries (c : RegistrationChallenge) : Table Text Value :=
  [("v", uint v1), ("t", text tagRegistrationChallenge), ("user_key", bytes c.userKey),
    ("dest_instance_key", bytes c.destInstanceKey), ("dest_domain", text c.destDomain),
    ("nonce", bytes c.nonce), ("created_at", uint c.createdAt)]

def priorHomeChallengeEntries (c : PriorHomeChallenge) : Table Text Value :=
  [("v", uint v1), ("t", text tagPriorHomeChallenge), ("responder_instance_key", bytes c.responderInstanceKey),
    ("subject_key", bytes c.subjectKey), ("nonce", bytes c.nonce), ("created_at", uint c.createdAt),
    ("expires_at", uint c.expiresAt)]

def priorHomeResponseEntries (r : PriorHomeResponse) : Table Text Value :=
  [("v", uint v1), ("t", text tagPriorHomeResponse), ("subject_key", bytes r.subjectKey),
    ("challenge_hash", bytes r.challengeHash), ("created_at", uint r.createdAt)]

def threadCreateEntries (t : ThreadCreate) : Table Text Value :=
  [("v", uint v1), ("t", text tagThreadCreate), ("thread_id", bytes t.threadId), ("author", bytes t.author),
    ("room_slug", text t.roomSlug), ("title", text t.title), ("op_post_id", bytes t.opPostId),
    ("created_at", uint t.createdAt)] ++
  pushSome "link_url" (t.linkUrl.map text)

def userStatusEntries (s : UserStatus) : Table Text Value :=
  [("v", uint v1), ("t", text tagUserStatus), ("subject", bytes s.subject), ("status", text s.status.asStr),
    ("signing_instance", text s.signingInstance), ("created_at", uint s.createdAt)] ++
  pushSome "suspended_until" (s.suspendedUntil.map uint) ++
  pushSome "reason" (s.reason.map text) ++
  pushSome "prior_status_hash" (s.priorStatusHash.map bytes)

def deactivationEntries (d : Deactivation) : Table Text Value :=
  [("v", uint v1), ("t", text tagDeactivation), ("user", bytes d.user), ("created_at", uint d.createdAt)]

def threadStatusEntries (s : ThreadStatus) : Table Text Value :=
  [("v", uint v1), ("t", text tagThreadStatus), ("thread_id", bytes s.threadId),
    ("status", text s.status.asStr), ("signing_instance", text s.signingInstance),
    ("created_at", uint s.createdAt)] ++
  pushSome "reason" (s.reason.map text) ++
  pushSome "prior_status_hash" (s.priorStatusHash.map bytes)

def reportEntries (r : Report) : Table Text Value :=
  [("v", uint v1), ("t", text tagReport), ("post_id", bytes r.postId), ("target_author", bytes r.targetAuthor),
    ("reporter", bytes r.reporter), ("reason", text r.reason.asStr), ("created_at", uint r.createdAt)] ++
  pushSome "detail" (r.detail.map text)

/-- What each class hands to `build_map`. -/
def SignedPayload.entries : SignedPayload → Table Text Value
  | .postRevision p => postRevisionEntries p
  | .retraction r => retractionEntries r
  | .trustEdge e => trustEdgeEntries e
  | .profileRevision p => profileRevisionEntries p
  | .move m => moveEntries m
  | .adminRemoval a => adminRemovalEntries a
  | .fedEnvelope e => fedEnvelopeEntries e
  | .registrationChallenge c => registrationChallengeEntries c
  | .priorHomeChallenge c => priorHomeChallengeEntries c
  | .priorHomeResponse r => priorHomeResponseEntries r
  | .threadCreate t => threadCreateEntries t
  | .userStatus s => userStatusEntries s
  | .deactivation d => deactivationEntries d
  | .threadStatus s => threadStatusEntries s
  | .report r => reportEntries r

def SignedPayload.toCborValue (payload : SignedPayload) : Value :=
  buildMap payload.entries

/-- The two calls into the CBOR library. -/
structure Ciborium where
  intoWriter : Value → Bytes
  fromReader : Bytes → Option Value

def SignedPayload.encode (cbor : Ciborium) (payload : SignedPayload) : Bytes :=
  cbor.intoWriter payload.toCborValue

section Fields

/-- The loop over the entries of a map: text keys only, in strictly ascending order, none twice. -/
def readFields (lastKey : Option Text) (fields : Table Text Value) :
    List (Value × Value) → Except ParseError (Table Text Value)
  | [] => .ok fields
  | (.text key, value) :: entries =>
    if lastKey.any fun prev => cborTextKeyCmp prev key != .lt then .error .keysOutOfOrder
    else if (fields.get? key).isSome then .error (.duplicateKey key)
    else readFields (some key) (fields ++ [(key, value)]) entries
  | _ :: _ => .error .nonTextKey

variable (fields : Table Text Value) (name : Text)

def fieldText : Except ParseError Text :=
  match fields.get? name with
  | none => .error (.missingField name)
  | some (.text s) => .ok s
  | some _ => .error (.wrongType name)

def fieldUint : Except ParseError Nat :=
  match fields.get? name with
  | none => .error (.missingField name)
  | some (.integer i) => if 0 ≤ i ∧ i < 2 ^ 64 then .ok i.toNat else .error (.integerOutOfRange name)
  | some _ => .error (.wrongType name)

def fieldBytesFixed (expected : Nat) : Except ParseError Bytes :=
  match fields.get? name with
  | none => .error (.missingField name)
  | some (.bytes b) => if b.length = expected then .ok b else .error (.badByteLength name expected b.length)
  | some _ => .error (.wrongType name)

/-- `field_bytes_fixed` for a key, a hash or an identifier. -/
def fieldBits (w : Nat) : Except ParseError (BitVec w) := do
  let b ← fieldBytesFixed fields name (w / 8)
  return BitVec.ofNat w (Cbor.ofBe b)

def optionalField {α : Type} (read : Except ParseError α) : Except ParseError (Option α) := do
  if (fields.get? name).isSome then
    let value ← read
    return some value
  else return none

def orElse {α : Type} (value : Option α) (error : ParseError) : Except ParseError α :=
  match value with
  | none => .error error
  | some value => .ok value

end Fields

variable (nfc : Text → Text)

def parseAttachmentRef (v : Value) : Except ParseError AttachmentRef :=
  match v with
  | .map entries => do
    let fields ← readFields none [] entries
    let contentHash ← fieldBits fields "content_hash" 256
    let filename ← fieldText fields "filename"
    if sanitizeAttachmentFilename nfc filename ≠ some filename then throw .nonCanonicalFilename
    let mime ← fieldText fields "mime"
    if mime ∉ allowedMimes then throw (.disallowedMime mime)
    let size ← fieldUint fields "size"
    if sizeFits : size ≤ maxAttachmentSize then return { contentHash, mime, size, filename, sizeFits }
    else throw (.attachmentTooLarge maxAttachmentSize size)
  | _ => .error (.wrongType "attachments[]")

def parseAttachmentRefs : List Value → Except ParseError (List AttachmentRef)
  | [] => .ok []
  | item :: items => do
    let ref ← parseAttachmentRef nfc item
    let refs ← parseAttachmentRefs items
    return ref :: refs

theorem length_parseAttachmentRefs {items : List Value} {refs : List AttachmentRef}
    (run : parseAttachmentRefs nfc items = .ok refs) : refs.length = items.length := by
  induction items generalizing refs with
  | nil =>
    cases run
    rfl
  | cons item items ih =>
    rw [parseAttachmentRefs] at run
    cases first : parseAttachmentRef nfc item with
    | error e => simp [first, bind, Except.bind] at run
    | ok ref =>
      cases rest : parseAttachmentRefs nfc items with
      | error e => simp [first, rest, bind, Except.bind] at run
      | ok others =>
        simp only [first, rest, bind, Except.bind, pure, Except.pure, Except.ok.injEq] at run
        rw [← run, List.length_cons, ih rest, List.length_cons]

section

variable (fields : Table Text Value)

/-- The list of references, with the bound on its length that was checked on the items. -/
def parseAttachments : Except ParseError { refs : List AttachmentRef // refs.length ≤ maxAttachmentsPerOp } :=
  match fields.get? "attachments" with
  | none => .error (.missingField "attachments")
  | some (.array items) =>
    if items = [] then .error .attachmentsEmpty
    else if few : items.length ≤ maxAttachmentsPerOp then
      match run : parseAttachmentRefs nfc items with
      | .error e => .error e
      | .ok refs => .ok ⟨refs, by rw [length_parseAttachmentRefs nfc run]; exact few⟩
    else .error (.attachmentsTooMany maxAttachmentsPerOp items.length)
  | some _ => .error (.wrongType "attachments")

def parsePostRevision : Except ParseError PostRevision := do
  let postId ← fieldBits fields "post_id" 128
  let author ← fieldBits fields "author" 256
  let threadId ← fieldBits fields "thread_id" 128
  let parentId ← optionalField fields "parent_id" (fieldBits fields "parent_id" 128)
  let revision ← fieldUint fields "revision"
  let body ← fieldText fields "body"
  let createdAt ← fieldUint fields "created_at"
  let attachments ← optionalField fields "attachments" (parseAttachments nfc fields)
  match attachments with
  | none => return { postId, author, threadId, parentId, revision, body, createdAt, attachments := [] }
  | some ⟨attachments, attachmentsFit⟩ =>
    return { postId, author, threadId, parentId, revision, body, createdAt, attachments, attachmentsFit }

def parseRetraction : Except ParseError Retraction := do
  let postId ← fieldBits fields "post_id" 128
  let author ← fieldBits fields "author" 256
  let createdAt ← fieldUint fields "created_at"
  return { postId, author, createdAt }

def parseTrustEdge : Except ParseError TrustEdge := do
  let fromKey ← fieldBits fields "from_key" 256
  let toKey ← fieldBits fields "to_key" 256
  let stanceStr ← fieldText fields "stance"
  let stance ← orElse (TrustStance.parse stanceStr) (.invalidStance stanceStr)
  let createdAt ← fieldUint fields "created_at"
  let priorEdgeHash ← optionalField fields "prior_edge_hash" (fieldBits fields "prior_edge_hash" 256)
  return { fromKey, toKey, stance, createdAt, priorEdgeHash }

def parseProfileRevision : Except ParseError ProfileRevision := do
  let user ← fieldBits fields "user" 256
  let displayName ← fieldText fields "display_name"
  let bio ← fieldText fields "bio"
  if bio.utf8ByteSize > maxProfileBioLen then throw (.textTooLong "bio" maxProfileBioLen bio.utf8ByteSize)
  let createdAt ← fieldUint fields "created_at"
  let avatarAttachmentHash ← optionalField fields "avatar_attachment_hash"
    (fieldBits fields "avatar_attachment_hash" 256)
  let priorProfileHash ← optionalField fields "prior_profile_hash" (fieldBits fields "prior_profile_hash" 256)
  return { user, displayName, bio, avatarAttachmentHash, createdAt, priorProfileHash }

def parseGenesisAttestation (outerKey : Key) (outerGenesisAt : Nat) : Except ParseError GenesisAttestation :=
  match fields.get? "genesis_attestation" with
  | none => .error (.missingField "genesis_attestation")
  | some (.map entries) => do
    let inner ← readFields none [] entries
    let key ← fieldBits inner "key" 256
    let genesisAt ← fieldUint inner "genesis_at"
    let birthInstanceKey ← fieldBits inner "birth_instance_key" 256
    let sig ← fieldBytesFixed inner "sig" 64
    if key ≠ outerKey ∨ genesisAt ≠ outerGenesisAt then throw .genesisAttestationMismatch
    return { key, genesisAt, birthInstanceKey, sig }
  | some _ => .error (.wrongType "genesis_attestation")

def parseMove : Except ParseError Move := do
  let key ← fieldBits fields "key" 256
  let hasFromKey := (fields.get? "from_instance_key").isSome
  let hasFromDomain := (fields.get? "from_instance").isSome
  if hasFromKey ≠ hasFromDomain then throw .movePresenceCoupling
  let fromInstanceKey ← optionalField fields "from_instance_key" (fieldBits fields "from_instance_key" 256)
  let fromInstance ← optionalField fields "from_instance" (fieldText fields "from_instance")
  let toInstanceKey ← fieldBits fields "to_instance_key" 256
  let toInstance ← fieldText fields "to_instance"
  let createdAt ← fieldUint fields "created_at"
  let genesisAt ← fieldUint fields "genesis_at"
  let genesisAttestation ← parseGenesisAttestation fields key genesisAt
  let priorMoveHash ← optionalField fields "prior_move_hash" (fieldBits fields "prior_move_hash" 256)
  if fromInstanceKey = none ∧ priorMoveHash ≠ none then throw .movePresenceCoupling
  return { key, fromInstanceKey, fromInstance, toInstanceKey, toInstance, createdAt, genesisAt, genesisAttestation,
           priorMoveHash }

def parseAdminRemoval : Except ParseError AdminRemoval := do
  let postId ← fieldBits fields "post_id" 128
  let targetAuthor ← fieldBits fields "target_author" 256
  let signingInstance ← fieldText fields "signing_instance"
  let createdAt ← fieldUint fields "created_at"
  let reason ← optionalField fields "reason" (fieldText fields "reason")
  return { postId, targetAuthor, signingInstance, createdAt, reason }

def parseFedEnvelope : Except ParseError FedEnvelope := do
  let sender ← fieldBits fields "sender" 256
  let receiver ← fieldBits fields "receiver" 256
  let method ← fieldText fields "method"
  let path ← fieldText fields "path"
  let createdAt ← fieldUint fields "created_at"
  let nonce ← fieldBits fields "nonce" 128
  let bodyHash ← optionalField fields "body_hash" (fieldBits fields "body_hash" 256)
  return { sender, receiver, method, path, bodyHash, createdAt, nonce }

def parseRegistrationChallenge : Except ParseError RegistrationChallenge := do
  let userKey ← fieldBits fields "user_key" 256
  let destInstanceKey ← fieldBits fields "dest_instance_key" 256
  let destDomain ← fieldText fields "dest_domain"
  let nonce ← fieldBits fields "nonce" 256
  let createdAt ← fieldUint fields "created_at"
  return { userKey, destInstanceKey, destDomain, nonce, createdAt }

def parsePriorHomeChallenge : Except ParseError PriorHomeChallenge := do
  let responderInstanceKey ← fieldBits fields "responder_instance_key" 256
  let subjectKey ← fieldBits fields "subject_key" 256
  let nonce ← fieldBits fields "nonce" 256
  let createdAt ← fieldUint fields "created_at"
  let expiresAt ← fieldUint fields "expires_at"
  return { responderInstanceKey, subjectKey, nonce, createdAt, expiresAt }

def parsePriorHomeResponse : Except ParseError PriorHomeResponse := do
  let subjectKey ← fieldBits fields "subject_key" 256
  let challengeHash ← fieldBits fields "challenge_hash" 256
  let createdAt ← fieldUint fields "created_at"
  return { subjectKey, challengeHash, createdAt }

def parseThreadCreate : Except ParseError ThreadCreate := do
  let threadId ← fieldBits fields "thread_id" 128
  let author ← fieldBits fields "author" 256
  let roomSlug ← fieldText fields "room_slug"
  let title ← fieldText fields "title"
  if title.utf8ByteSize > maxThreadTitleLen then
    throw (.textTooLong "title" maxThreadTitleLen title.utf8ByteSize)
  let opPostId ← fieldBits fields "op_post_id" 128
  let createdAt ← fieldUint fields "created_at"
  let linkUrl ← optionalField fields "link_url" (fieldText fields "link_url")
  return { threadId, author, roomSlug, title, linkUrl, opPostId, createdAt }

def parseUserStatus : Except ParseError UserStatus := do
  let subject ← fieldBits fields "subject" 256
  let statusStr ← fieldText fields "status"
  let status ← orElse (UserStatusKind.parse statusStr) (.invalidStatus statusStr)
  let signingInstance ← fieldText fields "signing_instance"
  let createdAt ← fieldUint fields "created_at"
  let suspendedUntil ← optionalField fields "suspended_until" (fieldUint fields "suspended_until")
  if suspendedUntil ≠ none ∧ status ≠ .suspended then throw .illegalSuspendedUntil
  let reason ← optionalField fields "reason" (fieldText fields "reason")
  let priorStatusHash ← optionalField fields "prior_status_hash" (fieldBits fields "prior_status_hash" 256)
  return { subject, status, suspendedUntil, signingInstance, reason, createdAt, priorStatusHash }

def parseDeactivation : Except ParseError Deactivation := do
  let user ← fieldBits fields "user" 256
  let createdAt ← fieldUint fields "created_at"
  return { user, createdAt }

def parseThreadStatus : Except ParseError ThreadStatus := do
  let threadId ← fieldBits fields "thread_id" 128
  let statusStr ← fieldText fields "status"
  let status ← orElse (ThreadStatusKind.parse statusStr) (.invalidStatus statusStr)
  let signingInstance ← fieldText fields "signing_instance"
  let createdAt ← fieldUint fields "created_at"
  let reason ← optionalField fields "reason" (fieldText fields "reason")
  let priorStatusHash ← optionalField fields "prior_status_hash" (fieldBits fields "prior_status_hash" 256)
  return { threadId, status, signingInstance, reason, createdAt, priorStatusHash }

/-- The detail is bounded as it is read. -/
def parseReport : Except ParseError Report := do
  let postId ← fieldBits fields "post_id" 128
  let targetAuthor ← fieldBits fields "target_author" 256
  let reporter ← fieldBits fields "reporter" 256
  let reasonStr ← fieldText fields "reason"
  let reason ← orElse (ReportReason.parse reasonStr) (.invalidReportReason reasonStr)
  let createdAt ← fieldUint fields "created_at"
  let detail ← optionalField fields "detail" (do
    let d ← fieldText fields "detail"
    if d.utf8ByteSize > maxReportDetailLen then throw (.textTooLong "detail" maxReportDetailLen d.utf8ByteSize)
    return d)
  return { postId, targetAuthor, reporter, reason, detail, createdAt }

/-- One arm of the dispatch: the version is checked first. -/
def parseClass {α : Type} (className : Text) (version : Nat) (parse : Except ParseError α)
    (wrap : α → SignedPayload) : Except ParseError SignedPayload :=
  if version = v1 then parse.map wrap else .error (.unsupportedVersion className version)

def dispatch (t : Text) (version : Nat) : Except ParseError SignedPayload :=
  if t = tagPostRevision then parseClass tagPostRevision version (parsePostRevision nfc fields) .postRevision
  else if t = tagRetraction then parseClass tagRetraction version (parseRetraction fields) .retraction
  else if t = tagTrustEdge then parseClass tagTrustEdge version (parseTrustEdge fields) .trustEdge
  else if t = tagProfile then parseClass tagProfile version (parseProfileRevision fields) .profileRevision
  else if t = tagMove then parseClass tagMove version (parseMove fields) .move
  else if t = tagAdminRemoval then parseClass tagAdminRemoval version (parseAdminRemoval fields) .adminRemoval
  else if t = tagFedEnvelope then parseClass tagFedEnvelope version (parseFedEnvelope fields) .fedEnvelope
  else if t = tagRegistrationChallenge then
    parseClass tagRegistrationChallenge version (parseRegistrationChallenge fields) .registrationChallenge
  else if t = tagPriorHomeChallenge then
    parseClass tagPriorHomeChallenge version (parsePriorHomeChallenge fields) .priorHomeChallenge
  else if t = tagPriorHomeResponse then
    parseClass tagPriorHomeResponse version (parsePriorHomeResponse fields) .priorHomeResponse
  else if t = tagThreadCreate then parseClass tagThreadCreate version (parseThreadCreate fields) .threadCreate
  else if t = tagUserStatus then parseClass tagUserStatus version (parseUserStatus fields) .userStatus
  else if t = tagDeactivation then parseClass tagDeactivation version (parseDeactivation fields) .deactivation
  else if t = tagThreadStatus then parseClass tagThreadStatus version (parseThreadStatus fields) .threadStatus
  else if t = tagReport then parseClass tagReport version (parseReport fields) .report
  else .error (.unknownClass t)

end

def SignedPayload.parse (cbor : Ciborium) (input : Bytes) : Except ParseError SignedPayload :=
  match cbor.fromReader input with
  | none => .error .invalidCbor
  | some value =>
    if cbor.intoWriter value ≠ input then .error .nonCanonical
    else match value with
      | .map entries => do
        let fields ← readFields none [] entries
        let t ← fieldText fields "t"
        let version ← fieldUint fields "v"
        dispatch nfc fields t version
      | _ => .error (.wrongType "payload")

end Prismoire
