import Prismoire.RemoteUsers

namespace Prismoire

open Lib

inductive ContentRejectReason where
  | invalidSignature
  | schemaInvalid
  | unknownAuthorKey
  | objectTooLarge
  | wrongRoute
  | wrongClass
  | unknownClass
  | threadLocked
  | deactivatedAuthor
  | adminRemoved
  | erased
  | unauthorizedSigner
  deriving DecidableEq

inductive ContentStatus where
  | applied
  | duplicate
  | deferred
  | rejected (reason : ContentRejectReason)
  deriving DecidableEq

structure ContentResult where
  canonicalHash : Hash
  status : ContentStatus
  deriving DecidableEq

inductive ProjectionOutcome where
  | projected
  | stubMissing
  | fkMissing
  | localAuthoritative
  deriving DecidableEq

def maxPostrevSize : Nat := 512 * 1024

/-- A time out of range becomes the epoch, never the receiving clock. -/
def iso8601FromMs (platform : Platform) (ms : Nat) : Text :=
  (platform.formatTimestamp (ms / 1000)).getD "1970-01-01T00:00:00Z"

section

variable (db : Db)

def peerDomainFor (pubkey : Key) : Option Text :=
  (db.peers.find? (·.instancePubkey = pubkey)).map (·.instanceDomain)

def adminRmBlocks (postId : Uuid) : Bool :=
  db.adminRmAuthorities.any (·.postId = postId)

def insertAdminRmAuthority (row : AdminRmAuthorityRow) : Db :=
  { db with
    adminRmAuthorities :=
      if adminRmBlocks db row.postId then db.adminRmAuthorities else db.adminRmAuthorities ++ [row] }

def applyAdminRm (state : AppState) (db : Db) (arrivedFrom : Key) (payload signature : Bytes)
    (a : AdminRemoval) : Sql (ContentStatus × Db) :=
  let canonicalHash := state.platform.sha256 payload
  -- the wrong-route test: any `users` row counts as hosting the author, a federated stub included
  if db.hasUser a.targetAuthor then
    .ok (.rejected .wrongRoute, db)
  else if peerDomainFor db arrivedFrom ≠ some a.signingInstance then
    .ok (.rejected .unauthorizedSigner, db)
  else if !signatureOk state.platform payload signature arrivedFrom then
    .ok (.rejected .invalidSignature, db)
  else do
    let db := db.storeSignedObject .adminRm payload signature canonicalHash
    let db ← db.erasePostRevPayloads a.postId (some canonicalHash)
    let db := insertAdminRmAuthority db
      { postId := a.postId, targetAuthor := a.targetAuthor, signingInstance := a.signingInstance,
        createdAt := asI64 a.createdAt, canonicalHash }
    return (.applied, db)

/-- The posts a user's erasure reaches, by their `author` column. -/
def authored (user : Key) (post : Uuid) : Bool :=
  db.posts.any fun row => row.id = post ∧ row.author = user

def eraseAllForUserKey (user : Key) (authority : Hash) : Sql Db :=
  if db.hasUser user then do
    let db ← db.eraseUserTrustEdgePayloads user (some authority)
    let db ← db.eraseUserProfileRevisionPayloads user (some authority)
    let db ← db.eraseUserPostRevPayloads user (some authority)
    let db ← db.deletePostAttachments fun row => authored db user row.postId
    let db := db.retractPosts fun post => post.author = user
    let db := db.blankBodies (authored db user)
    return db.setDeleted user
  else
    .ok db

theorem eraseAllForUserKey_statements {db after : Db} {user : Key} {authority : Hash}
    (run : eraseAllForUserKey db user authority = .ok after) :
    (∃ edged profiled posted unbound, db.eraseUserTrustEdgePayloads user (some authority) = .ok edged ∧
      edged.eraseUserProfileRevisionPayloads user (some authority) = .ok profiled ∧
      profiled.eraseUserPostRevPayloads user (some authority) = .ok posted ∧
      (posted.deletePostAttachments fun row => authored posted user row.postId) = .ok unbound ∧
      after = ((unbound.retractPosts fun post => post.author = user).blankBodies (authored
        (unbound.retractPosts fun post => post.author = user) user)).setDeleted user) ∨
    (¬ db.hasUser user = true ∧ after = db) := by
  unfold eraseAllForUserKey at run
  split at run
  · obtain ⟨edged, edgesRun, run⟩ := bind_ok.mp run
    obtain ⟨profiled, profilesRun, run⟩ := bind_ok.mp run
    obtain ⟨posted, postsRun, run⟩ := bind_ok.mp run
    obtain ⟨unbound, unboundRun, run⟩ := bind_ok.mp run
    cases run
    exact .inl ⟨edged, profiled, posted, unbound, edgesRun, profilesRun, postsRun, unboundRun, rfl⟩
  · rename_i unknown
    cases run
    exact .inr ⟨unknown, rfl⟩

/-- One iteration of `project_post_attachments`: a fetch-pending blob, then the binding. -/
def projectPostAttachment (postId : Uuid) (revision : Nat) (db : Db) (ref : AttachmentRef × Nat) : Sql Db :=
  (db.insertAttachmentBlob ref.1).insertPostAttachment
    { postId, revision, position := ref.2, contentHash := ref.1.contentHash, filename := ref.1.filename }

def projectPostAttachments (postId : Uuid) (revision : Nat) (refs : List AttachmentRef) : Sql Db :=
  refs.zipIdx.foldlM (projectPostAttachment postId revision) db

def homeForContent (state : AppState) (db : Db) (author : Key) (createdAt : Nat) (arrivedFrom : Key) : Option Key :=
  let homeAtT := resolveHomeAtT state db author createdAt arrivedFrom
  if homeAtT = state.instanceKey then none else some homeAtT

def remotePostRow (state : AppState) (db : Db) (p : PostRevision) (arrivedFrom : Key) : PostRow :=
  { id := p.postId, author := p.author, thread := p.threadId, parent := p.parentId,
    createdAt := iso8601FromMs state.platform p.createdAt,
    homeInstance := homeForContent state db p.author p.createdAt arrivedFrom }

def remoteRevisionRow (state : AppState) (p : PostRevision) (signature : Bytes) (canonicalHash : Hash) :
    PostRevisionRow :=
  { postId := p.postId, revision := clampI64 p.revision, body := p.body, signature, canonicalHash,
    createdAt := iso8601FromMs state.platform p.createdAt }

def landRevision (state : AppState) (db : Db) (p : PostRevision) (signature : Bytes)
    (canonicalHash : Hash) : Sql (ProjectionOutcome × Db) := do
  let db ← db.insertPostRevision (remoteRevisionRow state p signature canonicalHash)
  let db ← projectPostAttachments db p.postId (clampI64 p.revision) p.attachments
  return (.projected, db)

def projectRemotePostRevision (state : AppState) (db : Db) (p : PostRevision) (signature : Bytes)
    (canonicalHash : Hash) (arrivedFrom : Key) : Sql (ProjectionOutcome × Db) :=
  if isLocalAuthoritative state db p.author arrivedFrom then
    .ok (.localAuthoritative, db)
  else if !db.hasUser p.author then
    .ok (.stubMissing, db)
  else if p.revision = 0 then
    if !db.hasThread p.threadId || p.parentId.any fun parent => !db.hasPost parent then
      .ok (.fkMissing, db)
    else do
      let db ← db.insertPost (remotePostRow state db p arrivedFrom)
      landRevision state db p signature canonicalHash
  else if !db.hasPost p.postId then
    .ok (.fkMissing, db)
  else
    -- `MAX(revision_count, revision + 1)`, where the addition saturates
    landRevision state (db.raiseRevisionCount p.postId (clampI64 (clampI64 p.revision + 1))) p signature canonicalHash

/-- A stored object that a sweep tries again, with what its row and its payload say. -/
structure Orphan (α : Type) where
  object : α
  canonicalHash : Hash
  signature : Bytes

def orphanPostRev (state : AppState) (db : Db) (threadId : Uuid) (row : SignedObjectRow) :
    Option (Orphan PostRevision) :=
  if row.innerClass = .postRev ∧ !db.postRevisions.any (·.canonicalHash = row.canonicalHash) then
    match row.payload.bind state.platform.parse with
    | some (.postRevision p) =>
      if p.threadId = threadId then some ⟨p, row.canonicalHash, row.signature⟩ else none
    | _ => none
  else
    none

def orphanAttempt (state : AppState) (arrivedFrom : Key) (db : Db) (orphan : Orphan PostRevision) :
    Sql (Outcome × Db) := do
  let (outcome, db) ← projectRemotePostRevision state db orphan.object orphan.signature
    orphan.canonicalHash arrivedFrom
  return (if outcome = .projected then .landed else .waiting, db)

def reprojectOrphanPostRevsForThread (state : AppState) (db : Db) (threadId : Uuid) (arrivedFrom : Key) : Sql Db :=
  let pending := db.signedObjects.filterMap (orphanPostRev state db threadId)
  settle (orphanAttempt state arrivedFrom) (pending.length + 1) db pending

def getOrCreateRoom (slug : Text) (createdBy : Key) : Sql Db :=
  if db.rooms.any fun room => room.slug = slug ∧ room.mergedInto = none then
    .ok db
  else
    db.insertRoom { slug, createdBy }

def remoteThreadRow (state : AppState) (db : Db) (t : ThreadCreate) (canonicalHash : Hash)
    (arrivedFrom : Key) : ThreadRow :=
  { id := t.threadId, title := t.title, author := t.author, room := t.roomSlug,
    createdAt := iso8601FromMs state.platform t.createdAt,
    lastActivity := iso8601FromMs state.platform t.createdAt, linkUrl := t.linkUrl,
    homeInstance := homeForContent state db t.author t.createdAt arrivedFrom,
    threadCreateHash := some canonicalHash }

def projectRemoteThreadCreate (state : AppState) (db : Db) (t : ThreadCreate) (canonicalHash : Hash)
    (arrivedFrom : Key) : Sql (ProjectionOutcome × Db) :=
  if isLocalAuthoritative state db t.author arrivedFrom then
    .ok (.localAuthoritative, db)
  else if !db.hasUser t.author then
    .ok (.stubMissing, db)
  else do
    let db ← getOrCreateRoom db t.roomSlug t.author
    let db ← db.insertThread (remoteThreadRow state db t canonicalHash arrivedFrom)
    return (.projected, db)

def projectThreadAndOrphans (state : AppState) (db : Db) (t : ThreadCreate) (canonicalHash : Hash)
    (arrivedFrom : Key) : Sql Db := do
  let (outcome, db) ← projectRemoteThreadCreate state db t canonicalHash arrivedFrom
  if outcome = .projected then
    reprojectOrphanPostRevsForThread state db t.threadId arrivedFrom
  else
    return db

def orphanThread (state : AppState) (db : Db) (author : Key) (row : SignedObjectRow) : Option (Orphan ThreadCreate) :=
  if row.innerClass = .threadCreate ∧ !db.threads.any (·.threadCreateHash = some row.canonicalHash) then
    match row.payload.bind state.platform.parse with
    | some (.threadCreate t) =>
      if t.author = author then some ⟨t, row.canonicalHash, row.signature⟩ else none
    | _ => none
  else
    none

def reprojectOrphanThreadsForAuthor (state : AppState) (db : Db) (author arrivedFrom : Key) : Sql Db :=
  (db.signedObjects.filterMap (orphanThread state db author)).foldlM
    (fun db orphan => projectThreadAndOrphans state db orphan.object orphan.canonicalHash arrivedFrom) db

def remoteProfileRow (p : ProfileRevision) (signature : Bytes) (canonicalHash : Hash) : ProfileRevisionRow :=
  { user := p.user, displayName := p.displayName, bio := p.bio,
    avatarAttachmentHash := p.avatarAttachmentHash, createdAt := clampI64 p.createdAt, signature,
    priorProfileHash := p.priorProfileHash, canonicalHash }

def insertProfileRevision (row : ProfileRevisionRow) : Sql Db := do
  require (db.hasUser row.user) .foreignKey
  return { db with
    profileRevisions := db.profileRevisions ++ [row] }

/-- The flag tells whether the sweep projected a trust-edge. -/
def projectRemoteProfile (state : AppState) (db : Db) (p : ProfileRevision) (signature : Bytes)
    (canonicalHash : Hash) (arrivedFrom : Key) : Sql (ProjectionOutcome × Db × Bool) :=
  if isLocalAuthoritative state db p.user arrivedFrom then
    .ok (.localAuthoritative, db, false)
  else do
    let db := hydrateStubUser state db p.user p.displayName (resolveCurrentHome db p.user arrivedFrom)
    let db ← insertProfileRevision db (remoteProfileRow p signature canonicalHash)
    let (db, projectedEdges) ← sweepPendingProjections state db p.user
    let db ← reprojectOrphanThreadsForAuthor state db p.user arrivedFrom
    return (.projected, db, projectedEdges)

/-- The class dispatch: the class to store under and the key that must have signed, which an
admin-rm, signed by an instance, resolves later. -/
def contentClass : SignedPayload → Except ContentRejectReason (InnerClass × Option Key)
  | .postRevision p => .ok (.postRev, some p.author)
  | .retraction r => .ok (.retract, some r.author)
  | .adminRemoval _ => .ok (.adminRm, none)
  | .profileRevision p => .ok (.profile, some p.user)
  | .threadCreate t => .ok (.threadCreate, some t.author)
  | .deactivation d => .ok (.deactivate, some d.user)
  | .trustEdge _ => .error .wrongClass
  | .move _ => .error .wrongClass
  | .userStatus _ => .error .wrongClass
  | .threadStatus _ => .error .wrongClass
  | .report _ => .error .wrongClass
  | .fedEnvelope _ => .error .unknownClass
  | .registrationChallenge _ => .error .unknownClass
  | .priorHomeChallenge _ => .error .unknownClass
  | .priorHomeResponse _ => .error .unknownClass

/-- Parse, class dispatch and signature: what an object must pass without a look at the database. -/
def admitObject (platform : Platform) (payload signature : Bytes) : Except ContentRejectReason SignedPayload :=
  match platform.parse payload with
  | none => .error .schemaInvalid
  | some object =>
    match contentClass object with
    | .error reason => .error reason
    | .ok (_, none) => .ok object
    | .ok (_, some author) =>
      if signatureOk platform payload signature author then .ok object else .error .invalidSignature

/-- The first read of the database: bytes that are stored already. -/
def knownStatus (canonicalHash : Hash) : Option ContentStatus :=
  (db.signedObjects.find? (·.canonicalHash = canonicalHash)).map fun row =>
    if row.erased || row.payload.isNone then .rejected .erased else .duplicate

def adminRemoved : SignedPayload → Bool
  | .postRevision p => adminRmBlocks db p.postId
  | .retraction r => adminRmBlocks db r.postId
  | _ => false

end

variable (state : AppState) (db : Db)

/-- The write transaction, one branch for each class that has passed the checks. -/
def ingestObject (payload signature : Bytes) (arrivedFrom : Key) : SignedPayload → Sql (ContentStatus × Db)
  | .adminRemoval a => applyAdminRm state db arrivedFrom payload signature a
  | .retraction r => do
    let canonicalHash := state.platform.sha256 payload
    let db := db.storeSignedObject .retract payload signature canonicalHash
    let db ← db.erasePostRevPayloads r.postId (some canonicalHash)
    return (.applied, db)
  | .deactivation d => do
    let canonicalHash := state.platform.sha256 payload
    let db := db.storeSignedObject .deactivate payload signature canonicalHash
    let db ← eraseAllForUserKey db d.user canonicalHash
    return (.applied, db)
  | .profileRevision p => do
    let canonicalHash := state.platform.sha256 payload
    let db := db.storeSignedObject .profile payload signature canonicalHash
    let (_, db, _) ← projectRemoteProfile state db p signature canonicalHash arrivedFrom
    return (.applied, db)
  | .postRevision p => do
    let canonicalHash := state.platform.sha256 payload
    let db := db.storeSignedObject .postRev payload signature canonicalHash
    let (_, db) ← projectRemotePostRevision state db p signature canonicalHash arrivedFrom
    return (.applied, db)
  | .threadCreate t => do
    let canonicalHash := state.platform.sha256 payload
    let db := db.storeSignedObject .threadCreate payload signature canonicalHash
    let db ← projectThreadAndOrphans state db t canonicalHash arrivedFrom
    return (.applied, db)
  | _ => .ok (.rejected .schemaInvalid, db)

def applyOneObject (wireBytes : Bytes) (arrivedFrom : Key) : Sql (ContentResult × Db) :=
  if maxPostrevSize < wireBytes.length then
    .ok (⟨state.platform.sha256 wireBytes, .rejected .objectTooLarge⟩, db)
  else
    match state.platform.decodeSignedObject wireBytes with
    | none => .ok (⟨state.platform.sha256 wireBytes, .rejected .schemaInvalid⟩, db)
    | some (payload, signature) =>
      let canonicalHash := state.platform.sha256 payload
      match knownStatus db canonicalHash with
      | some status => .ok (⟨canonicalHash, status⟩, db)
      | none =>
        match admitObject state.platform payload signature with
        | .error reason => .ok (⟨canonicalHash, .rejected reason⟩, db)
        | .ok object =>
          if adminRemoved db object then
            .ok (⟨canonicalHash, .rejected .adminRemoved⟩, db)
          else do
            let (status, db) ← ingestObject state db payload signature arrivedFrom object
            return (⟨canonicalHash, status⟩, db)

/-- A failed transaction rolls back, and the handler answers 500 for the whole batch. -/
def deliverObject (wireBytes : Bytes) (arrivedFrom : Key) : Db :=
  match applyOneObject state db wireBytes arrivedFrom with
  | .ok (_, after) => after
  | .error _ => db

/-- A sequence of deliveries, each with the peer it comes from. -/
def deliverObjects (deliveries : List (Bytes × Key)) : Db :=
  deliveries.foldl (fun db delivery => deliverObject state db delivery.1 delivery.2) db

end Prismoire
