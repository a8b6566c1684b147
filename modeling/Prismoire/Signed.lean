import Mathlib.Algebra.Group.Int.Defs
import Mathlib.Algebra.Group.Nat.Defs
import Mathlib.Data.List.Basic

namespace Prismoire

abbrev Bytes := List UInt8

/-- The payloads that may occur in a run. -/
abbrev Corpus := Bytes → Prop

abbrev Key := BitVec 256

abbrev Hash := BitVec 256

abbrev Uuid := BitVec 128

instance : LawfulBEq Key := inferInstance

instance : LawfulBEq Uuid := inferInstance

abbrev Text := String

/-- `i64::MAX`, the value that `i64::try_from(x).unwrap_or(i64::MAX)` saturates at. -/
def i64Max : Nat := 2 ^ 63 - 1

/-- `i64::try_from(x).unwrap_or(i64::MAX)` for an unsigned wire integer. -/
def clampI64 (x : Nat) : Nat :=
  min x i64Max

/-- `x as i64` for an unsigned wire integer, which wraps. -/
def asI64 (x : Nat) : Int :=
  if x % 2 ^ 64 < 2 ^ 63 then (x % 2 ^ 64 : Nat) else (x % 2 ^ 64 : Nat) - 2 ^ 64

def asU64 (x : Int) : UInt64 :=
  UInt64.ofNat (x % 2 ^ 64).toNat

theorem asU64_asI64_ofNat (x : Nat) : asU64 (asI64 x) = UInt64.ofNat x := by
  apply UInt64.toNat_inj.mp
  rw [asU64, UInt64.toNat_ofNat', UInt64.toNat_ofNat', asI64]
  split <;> omega

def maxAttachmentsPerOp : Nat := 3

def maxAttachmentSize : Nat := 500 * 1024

structure AttachmentRef where
  contentHash : Hash
  mime : Text
  size : Nat
  filename : Text
  sizeFits : size ≤ maxAttachmentSize := by decide
  deriving DecidableEq

theorem noRefs : ([] : List AttachmentRef).length ≤ maxAttachmentsPerOp := by
  decide

/-- A `post-rev`. The parser refuses a longer attachment list, so no value has one. -/
structure PostRevision where
  postId : Uuid
  author : Key
  threadId : Uuid
  parentId : Option Uuid
  revision : Nat
  body : Text
  createdAt : Nat
  attachments : List AttachmentRef
  attachmentsFit : attachments.length ≤ maxAttachmentsPerOp := by first | exact noRefs | decide
  deriving DecidableEq

structure Retraction where
  postId : Uuid
  author : Key
  createdAt : Nat
  deriving DecidableEq

inductive TrustStance where
  | trust
  | distrust
  | neutral
  deriving DecidableEq

structure TrustEdge where
  fromKey : Key
  toKey : Key
  stance : TrustStance
  createdAt : Nat
  priorEdgeHash : Option Hash
  deriving DecidableEq

structure ProfileRevision where
  user : Key
  displayName : Text
  bio : Text
  avatarAttachmentHash : Option Hash
  createdAt : Nat
  priorProfileHash : Option Hash
  deriving DecidableEq

structure GenesisAttestation where
  key : Key
  genesisAt : Nat
  birthInstanceKey : Key
  sig : Bytes
  deriving DecidableEq

structure Move where
  key : Key
  fromInstanceKey : Option Key
  fromInstance : Option Text
  toInstanceKey : Key
  toInstance : Text
  createdAt : Nat
  genesisAt : Nat
  genesisAttestation : GenesisAttestation
  priorMoveHash : Option Hash
  deriving DecidableEq

structure AdminRemoval where
  postId : Uuid
  targetAuthor : Key
  signingInstance : Text
  createdAt : Nat
  reason : Option Text
  deriving DecidableEq

structure FedEnvelope where
  sender : Key
  receiver : Key
  method : Text
  path : Text
  bodyHash : Option Hash
  createdAt : Nat
  nonce : Uuid
  deriving DecidableEq

structure RegistrationChallenge where
  userKey : Key
  destInstanceKey : Key
  destDomain : Text
  nonce : Hash
  createdAt : Nat
  deriving DecidableEq

structure PriorHomeChallenge where
  responderInstanceKey : Key
  subjectKey : Key
  nonce : Hash
  createdAt : Nat
  expiresAt : Nat
  deriving DecidableEq

structure PriorHomeResponse where
  subjectKey : Key
  challengeHash : Hash
  createdAt : Nat
  deriving DecidableEq

structure ThreadCreate where
  threadId : Uuid
  author : Key
  roomSlug : Text
  title : Text
  linkUrl : Option Text
  opPostId : Uuid
  createdAt : Nat
  deriving DecidableEq

inductive UserStatusKind where
  | active
  | suspended
  | banned
  deriving DecidableEq

structure UserStatus where
  subject : Key
  status : UserStatusKind
  suspendedUntil : Option Nat
  signingInstance : Text
  reason : Option Text
  createdAt : Nat
  priorStatusHash : Option Hash
  deriving DecidableEq

structure Deactivation where
  user : Key
  createdAt : Nat
  deriving DecidableEq

inductive ThreadStatusKind where
  | open
  | locked
  deriving DecidableEq

structure ThreadStatus where
  threadId : Uuid
  status : ThreadStatusKind
  signingInstance : Text
  reason : Option Text
  createdAt : Nat
  priorStatusHash : Option Hash
  deriving DecidableEq

inductive ReportReason where
  | spam
  | rulesViolation
  | illegalContent
  | other
  deriving DecidableEq

structure Report where
  postId : Uuid
  targetAuthor : Key
  reporter : Key
  reason : ReportReason
  detail : Option Text
  createdAt : Nat
  deriving DecidableEq

/-- The fifteen classes a canonical payload can decode to. -/
inductive SignedPayload where
  | postRevision (p : PostRevision)
  | retraction (r : Retraction)
  | trustEdge (e : TrustEdge)
  | profileRevision (p : ProfileRevision)
  | move (m : Move)
  | adminRemoval (a : AdminRemoval)
  | fedEnvelope (e : FedEnvelope)
  | registrationChallenge (c : RegistrationChallenge)
  | priorHomeChallenge (c : PriorHomeChallenge)
  | priorHomeResponse (r : PriorHomeResponse)
  | threadCreate (t : ThreadCreate)
  | userStatus (s : UserStatus)
  | deactivation (d : Deactivation)
  | threadStatus (s : ThreadStatus)
  | report (r : Report)
  deriving DecidableEq

/-- The identity field that must equal the verifier's claimed key, where the class has one. -/
def identityBinding : SignedPayload → Option Key
  | .postRevision p => some p.author
  | .retraction r => some r.author
  | .trustEdge e => some e.fromKey
  | .profileRevision p => some p.user
  | .move m => some m.key
  | .deactivation d => some d.user
  | .threadCreate t => some t.author
  | .report r => some r.reporter
  | .registrationChallenge c => some c.userKey
  | .priorHomeResponse r => some r.subjectKey
  | .fedEnvelope e => some e.sender
  | .priorHomeChallenge c => some c.responderInstanceKey
  | .adminRemoval _ => none
  | .userStatus _ => none
  | .threadStatus _ => none

/--
What the server takes from its libraries: the WireFormat and CBOR readers, SHA-256, Ed25519,
the timestamp formatter and the Unicode confusable skeleton. Every result holds for any choice.
-/
structure Platform where
  decodeSignedObject : Bytes → Option (Bytes × Bytes)
  parse : Bytes → Option SignedPayload
  sha256 : Bytes → Hash
  verifyingKeyFromBytes : Key → Bool
  ed25519Verify : Key → Bytes → Bytes → Bool
  genesisAttestationSigningBytes : Key → Nat → Key → Bytes
  formatTimestamp : Nat → Option Text
  displayNameSkeleton : Text → Text
  /-- Where `parse` fails: the payload names a class that the source does not have. -/
  unknownClass : Bytes → Bool := fun _ => false
  nfc : Text → Text := id

/-- Decimal digits of a small number, at a fixed width so that text order is number order. -/
def decimal (width n : Nat) : Text :=
  String.ofList ((List.range width).reverse.map fun i => Char.ofNat ('0'.toNat + n / 10 ^ i % 10))

/--
A platform on which the model can be run by hand: the one-byte string `i` is the wire form and the
canonical form of the `i`th payload of a table, every signature is genuine, and hashes spell the bytes.
-/
def Platform.ofTable (table : List SignedPayload) : Platform where
  decodeSignedObject wire :=
    match wire with
    | [i] => some ([i], List.replicate 64 0)
    | _ => none
  parse payload :=
    match payload with
    | [i] => table[i.toNat]?
    | _ => none
  sha256 bytes := BitVec.ofNat 256 (bytes.foldl (fun acc byte => 257 * acc + byte.toNat + 1) 0)
  verifyingKeyFromBytes _ := true
  ed25519Verify _ _ _ := true
  genesisAttestationSigningBytes _ _ _ := []
  formatTimestamp secs := if secs < 100000 then some (decimal 5 secs) else none
  displayNameSkeleton name := name

inductive VerifyError where
  | badSignatureLength
  | parse
  | authorMismatch
  | signatureFailed

def verify (platform : Platform) (payloadBytes signatureBytes : Bytes) (claimedKey : Key) :
    Except VerifyError SignedPayload :=
  if signatureBytes.length ≠ 64 then
    .error .badSignatureLength
  else
    match platform.parse payloadBytes with
    | none => .error .parse
    | some payload =>
      if identityBinding payload ≠ none ∧ identityBinding payload ≠ some claimedKey then
        .error .authorMismatch
      else if platform.ed25519Verify claimedKey payloadBytes signatureBytes then
        .ok payload
      else
        .error .signatureFailed

/-- The check every receive path makes before it trusts a payload: the key decodes and verifies. -/
def signatureOk (platform : Platform) (payloadBytes signatureBytes : Bytes) (key : Key) : Bool :=
  platform.verifyingKeyFromBytes key && (verify platform payloadBytes signatureBytes key).isOk

variable {platform : Platform} {payloadBytes signatureBytes : Bytes} {key : Key}

theorem verify_ok {payload : SignedPayload} (run : verify platform payloadBytes signatureBytes key = .ok payload) :
    signatureBytes.length = 64 ∧ platform.parse payloadBytes = some payload ∧
      (identityBinding payload = none ∨ identityBinding payload = some key) := by
  unfold verify at run
  split at run
  · cases run
  · rename_i len
    split at run
    · cases run
    · rename_i decoded parsed
      split at run
      · cases run
      · rename_i bound
        split at run
        · cases run
          refine ⟨by omega, parsed, ?_⟩
          by_cases unbound : identityBinding payload = none
          · exact .inl unbound
          · exact .inr (by_contra fun other => bound ⟨unbound, other⟩)
        · cases run

theorem signatureOk_length (ok : signatureOk platform payloadBytes signatureBytes key = true) :
    signatureBytes.length = 64 := by
  simp only [signatureOk, Bool.and_eq_true] at ok
  cases run : verify platform payloadBytes signatureBytes key with
  | error e => simp [run, Except.isOk, Except.toBool] at ok
  | ok payload => exact (verify_ok run).1

end Prismoire
