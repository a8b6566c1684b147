import Prismoire.Homes

namespace Prismoire

open Lib

/-- An instance together with the domain that it signs as. -/
structure Host extends AppState where
  instanceDomain : Text

inductive StatusRejectReason where
  | schemaInvalid
  | unknownSubjectHome
  | invalidSignature
  | unauthorizedSigner
  | unknownClass
  deriving DecidableEq

inductive StatusAnswer where
  | applied
  | superseded
  | duplicate
  | deferred
  | rejected (reason : StatusRejectReason)
  deriving DecidableEq

structure UserStatusRow where
  subject : Key
  status : UserStatusKind
  suspendedUntil : Option Int
  signingInstance : Text
  reason : Option Text
  currentCreatedAt : Int
  currentStatusHash : Hash

structure ThreadStatusRow where
  threadId : Uuid
  status : ThreadStatusKind
  signingInstance : Text
  reason : Option Text
  currentCreatedAt : Int
  currentStatusHash : Hash

/-- The database with the tables of statuses, and `users.status` with `users.suspended_until`. -/
structure StatusDb where
  db : Db
  userStatuses : List UserStatusRow := []
  threadStatuses : List ThreadStatusRow := []
  userColumns : Key → UserStatusKind × Option Int := fun _ => (.active, none)

/-- `INSERT … ON CONFLICT(key) DO UPDATE`. -/
def upsertBy {ρ κ : Type} [DecidableEq κ] (key : ρ → κ) (rows : List ρ) (row : ρ) : List ρ :=
  if rows.any (key · = key row) then updateWhere (key · = key row) (fun _ => row) rows else rows ++ [row]

/-- The later time wins, and on a tie the smaller hash; the stored time is read with `unwrap_or(0)`. -/
def statusWins (head : Option (Int × Hash)) (createdAt : Nat) (canonicalHash : Hash) : Bool :=
  match head with
  | none => true
  | some (currentCreatedAt, currentStatusHash) =>
    let priorTs := currentCreatedAt.toNat
    if priorTs < createdAt then
      true
    else if createdAt < priorTs then
      false
    else
      canonicalHash < currentStatusHash

def resolveSubjectHomeAtT (state : AppState) (db : Db) (subject : Key) (t : Nat) : Option Key :=
  if db.userMoves.any (·.userKey = subject) then
    let home := resolveHomeAtT state db subject t 0
    if home = 0 then none else some home
  else
    (db.user? subject).map fun row => row.homeInstance.getD state.instanceKey

/-- The domain that is known here for an instance key: the own one, or a peer's. -/
def resolveDomainForKey (host : Host) (db : Db) (key : Key) : Option Text :=
  if key = host.instanceKey then some host.instanceDomain
  else (db.peers.find? (·.instancePubkey = key)).map (·.instanceDomain)

/-- What the two classes of statuses differ in: the payload, whose key must have signed it, and the rows. -/
structure StatusClass (ι σ ρ : Type) where
  innerClass : InnerClass
  select : SignedPayload → Option σ
  subject : σ → ι
  createdAt : σ → Nat
  signingInstance : σ → Text
  priorStatusHash : σ → Option Hash
  home : Host → Db → σ → Except StatusAnswer Key
  row : StatusDb → ι → Option ρ
  head : ρ → Int × Hash
  rowOf : Hash → σ → ρ
  upsert : Hash → σ → StatusDb → StatusDb

section

variable {ι σ ρ : Type} (cls : StatusClass ι σ ρ) (host : Host)

/-- A stored predecessor of the class, or none to look for. -/
def grounded (db : Db) (status : σ) : Bool :=
  (cls.priorStatusHash status).all fun prior => db.signedObjects.any fun row =>
    row.canonicalHash = prior ∧ row.innerClass = cls.innerClass ∧ row.payload.isSome

/-- Why a payload that is no status of the class is refused. -/
def unreadReason (platform : Platform) (payload : Bytes) : StatusRejectReason :=
  if (platform.parse payload).isNone && platform.unknownClass payload then .unknownClass else .schemaInvalid

/-- The checks on an object that is not stored yet, up to the signature and its label. -/
def admitStatus (db : Db) (payload signature : Bytes) : Except StatusAnswer σ := do
  let status ← ((host.platform.parse payload).bind cls.select).elim (.error (.rejected (unreadReason host.platform payload))) .ok
  let home ← cls.home host db status
  if !signatureOk host.platform payload signature home then
    .error (.rejected .invalidSignature)
  else if (resolveDomainForKey host db home).any (· ≠ cls.signingInstance status) then
    .error (.rejected .unauthorizedSigner)
  else if !grounded cls db status then
    .error .deferred
  else
    .ok status

def storeStatus (s : StatusDb) (payload signature : Bytes) : StatusDb :=
  { s with
    db := s.db.storeSignedObject cls.innerClass payload signature (host.platform.sha256 payload) }

def applyOneStatus (s : StatusDb) (wireBytes : Bytes) : Sql (StatusAnswer × StatusDb) :=
  match host.platform.decodeSignedObject wireBytes with
  | none => .ok (.rejected .schemaInvalid, s)
  | some (payload, signature) =>
    let canonicalHash := host.platform.sha256 payload
    match s.db.signedObjects.find? (·.canonicalHash = canonicalHash) with
    | some row => .ok (if row.payload.isNone then .rejected .schemaInvalid else .duplicate, s)
    | none =>
      match admitStatus cls host s.db payload signature with
      | .error answer => .ok (answer, s)
      | .ok status =>
        let wins := statusWins ((cls.row s (cls.subject status)).map cls.head) (cls.createdAt status) canonicalHash
        let s := storeStatus cls host s payload signature
        if wins then do
          require (cls.signingInstance status ≠ "") .check
          return (.applied, cls.upsert canonicalHash status s)
        else
          .ok (.superseded, s)

/-- A failed transaction rolls back, and the handler answers 500. -/
def deliverStatus (s : StatusDb) (wireBytes : Bytes) : StatusDb :=
  match applyOneStatus cls host s wireBytes with
  | .ok (_, after) => after
  | .error _ => s

/-- The signing layer: the canonical bytes of an object and the signature of the instance key. -/
def dispatchLocalStatus (sign : σ → SigningOutput) (s : StatusDb) (status : σ) : SigningOutput × StatusDb :=
  let signed := sign status
  (signed, cls.upsert (host.platform.sha256 signed.payload) status
    (storeStatus cls host s signed.payload signed.signature))

end

def userStatusRow (canonicalHash : Hash) (status : UserStatus) : UserStatusRow where
  subject := status.subject
  status := status.status
  suspendedUntil := status.suspendedUntil.map asI64
  signingInstance := status.signingInstance
  reason := status.reason
  currentCreatedAt := asI64 status.createdAt
  currentStatusHash := canonicalHash

def userStatusClass : StatusClass Key UserStatus UserStatusRow where
  innerClass := .userStatus
  select
    | .userStatus s => some s
    | _ => none
  subject := UserStatus.subject
  createdAt := UserStatus.createdAt
  signingInstance := UserStatus.signingInstance
  priorStatusHash := UserStatus.priorStatusHash
  home host db status := (resolveSubjectHomeAtT host.toAppState db status.subject status.createdAt).elim
    (.error (.rejected .unknownSubjectHome)) .ok
  row s subject := s.userStatuses.find? (·.subject = subject)
  head row := (row.currentCreatedAt, row.currentStatusHash)
  rowOf := userStatusRow
  upsert canonicalHash status s := { s with
    userStatuses := upsertBy UserStatusRow.subject s.userStatuses (userStatusRow canonicalHash status) }

def applyOneUserStatus (host : Host) (s : StatusDb) (wireBytes : Bytes) : Sql (StatusAnswer × StatusDb) :=
  applyOneStatus userStatusClass host s wireBytes

def dispatchLocalUserStatus (host : Host) (sign : UserStatus → SigningOutput) (s : StatusDb) (subject : Key)
    (status : UserStatusKind) (suspendedUntil : Option Nat) (reason : Option Text) (now : Nat) :
    SigningOutput × StatusDb :=
  dispatchLocalStatus userStatusClass host sign s
    { subject, status, suspendedUntil, signingInstance := host.instanceDomain, reason, createdAt := now,
      priorStatusHash := (userStatusClass.row s subject).map (·.currentStatusHash) }

def threadStatusRow (canonicalHash : Hash) (status : ThreadStatus) : ThreadStatusRow where
  threadId := status.threadId
  status := status.status
  signingInstance := status.signingInstance
  reason := status.reason
  currentCreatedAt := asI64 status.createdAt
  currentStatusHash := canonicalHash

def joinedThread (db : Db) (threadId : Uuid) : Option ThreadRow :=
  db.threads.find? fun row => row.id = threadId ∧ db.hasUser row.author

def setLocked (db : Db) (threadId : Uuid) (locked : Bool) : Db :=
  { db with threads := updateWhere (·.id = threadId) (fun row => { row with locked }) db.threads }

/-- The upsert is the one of the issuer, which leaves `threads.locked` to its admin handlers; the
receiver writes the lock as well. -/
def threadStatusClass (mirrors : Bool) : StatusClass Uuid ThreadStatus ThreadStatusRow where
  innerClass := .threadStatus
  select
    | .threadStatus s => some s
    | _ => none
  subject := ThreadStatus.threadId
  createdAt := ThreadStatus.createdAt
  signingInstance := ThreadStatus.signingInstance
  priorStatusHash := ThreadStatus.priorStatusHash
  home host db status := (joinedThread db status.threadId).elim (.error .deferred)
    fun row => .ok (row.homeInstance.getD host.instanceKey)
  row s threadId := s.threadStatuses.find? (·.threadId = threadId)
  head row := (row.currentCreatedAt, row.currentStatusHash)
  rowOf := threadStatusRow
  upsert canonicalHash status s := { s with
    threadStatuses := upsertBy ThreadStatusRow.threadId s.threadStatuses (threadStatusRow canonicalHash status)
    db := if mirrors then setLocked s.db status.threadId (status.status = .locked) else s.db }

def applyOneThreadStatus (host : Host) (s : StatusDb) (wireBytes : Bytes) : Sql (StatusAnswer × StatusDb) :=
  applyOneStatus (threadStatusClass true) host s wireBytes

def dispatchLocalThreadStatus (host : Host) (sign : ThreadStatus → SigningOutput) (s : StatusDb) (threadId : Uuid)
    (status : ThreadStatusKind) (reason : Option Text) (now : Nat) : Option SigningOutput × StatusDb :=
  match joinedThread s.db threadId with
  | none => (none, s)
  | some row =>
    if row.homeInstance.isSome then
      (none, s)
    else
      let (signed, s) := dispatchLocalStatus (threadStatusClass false) host sign s
        { threadId, status, signingInstance := host.instanceDomain, reason, createdAt := now,
          priorStatusHash := ((threadStatusClass false).row s threadId).map (·.currentStatusHash) }
      (some signed, s)

end Prismoire
