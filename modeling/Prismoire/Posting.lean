import Prismoire.Content
import Prismoire.Homes
import Prismoire.SignedCbor

namespace Prismoire

open Lib

inductive PostingError where
  | announcementsAdminOnly
  | badRequest
  | threadNotFound
  | threadLocked
  | postNotFound
  | parentThreadMismatch
  | parentRetracted
  | notPostAuthor
  | postRetracted
  | postAlreadyRetracted
  | attachmentDuplicateHash
  | attachmentFilenameInvalid
  | attachmentDuplicateFilename
  | attachmentNotFound
  | attachmentMimeRejected
  | noKey
  | database (error : SqlError)
  deriving DecidableEq

abbrev Posting := Except PostingError

def runSql {α : Type} : Sql α → Posting α
  | .ok result => .ok result
  | .error error => .error (.database error)

/-- A check of a handler that answers with its own error. -/
def ensure (holds : Bool) (refusal : PostingError) : Posting Unit :=
  if holds then .ok () else .error refusal

def announcementsSlug : Text := "announcements"

def isAnnouncements (slug : Text) : Bool :=
  slug = announcementsSlug

section

variable (db : Db)

def hasActiveKey (user : Key) : Bool :=
  db.signingKeys.any fun row => row.user = user ∧ row.active

/-- The references of one revision, never more than the signed array may hold. -/
abbrev AttachmentRefs := { refs : List AttachmentRef // refs.length ≤ maxAttachmentsPerOp }

/-- A reference takes its type and its size from the row of the blob. -/
def blobDescribed (ref : AttachmentRef) : Bool :=
  db.attachmentBlobs.any fun blob =>
    blob.contentHash = ref.contentHash ∧ blob.contentType = ref.mime ∧ blob.size = ref.size

def attachmentUsable (user : Key) (ref : AttachmentRef) : Bool :=
  blobDescribed db ref &&
  ((db.attachmentStaging.any fun row => row.contentHash = ref.contentHash ∧ row.uploader = user) ||
    db.postAttachments.any fun row => row.contentHash = ref.contentHash ∧ authored db user row.postId)

def validateRefs (nfc : Text → Text) (db : Db) (user : Key) : List AttachmentRef → List AttachmentRef → Posting Unit
  | _, [] => .ok ()
  | seen, ref :: refs =>
    if seen.any (·.contentHash = ref.contentHash) then
      .error .attachmentDuplicateHash
    else if sanitizeAttachmentFilename nfc ref.filename ≠ some ref.filename then
      .error .attachmentFilenameInvalid
    else if seen.any (·.filename = ref.filename) then
      .error .attachmentDuplicateFilename
    else if !blobDescribed db ref then
      .error .attachmentNotFound
    else if ref.mime ∉ allowedMimes then
      .error .attachmentMimeRejected
    else if !attachmentUsable db user ref then
      .error .attachmentNotFound
    else
      validateRefs nfc db user (ref :: seen) refs

def validateAttachments (nfc : Text → Text) (db : Db) (user : Key) (refs : List AttachmentRef) : Posting AttachmentRefs :=
  if fits : refs.length ≤ maxAttachmentsPerOp then do
    validateRefs nfc db user [] refs
    return ⟨refs, fits⟩
  else
    .error .badRequest

def persistAttachmentBinding (postId : Uuid) (revision : Nat) (db : Db) (ref : AttachmentRef × Nat) : Sql Db := do
  let db ← db.insertPostAttachment
    { postId, revision, position := ref.2, contentHash := ref.1.contentHash, filename := ref.1.filename }
  return { db with
    attachmentStaging := db.attachmentStaging.filter (·.contentHash ≠ ref.1.contentHash) }

def persistAttachmentBindings (postId : Uuid) (revision : Nat) (refs : List AttachmentRef) : Sql Db :=
  refs.zipIdx.foldlM (persistAttachmentBinding postId revision) db

def gcOrphanBlobs : Sql Db := do
  let orphan := fun blob : AttachmentBlobRow => blob.refcount = 0 ∧
    !db.attachmentStaging.any (·.contentHash = blob.contentHash)
  require (db.attachmentBlobs.all fun blob =>
    !orphan blob || !db.postAttachments.any (·.contentHash = blob.contentHash)) .foreignKey
  return { db with
    attachmentBlobs := db.attachmentBlobs.filter fun blob => !orphan blob }

def uploadAttachment (user : Key) (ref : AttachmentRef) : Sql Db := do
  require (db.hasUser user) .foreignKey
  let db := db.insertAttachmentBlob ref
  return { db with
    attachmentStaging :=
      if db.attachmentStaging.any (·.contentHash = ref.contentHash) then db.attachmentStaging
      else db.attachmentStaging ++ [⟨ref.contentHash, user⟩] }

def sweepStaging (expired : AttachmentStagingRow → Bool) : Sql Db :=
  gcOrphanBlobs { db with
    attachmentStaging := db.attachmentStaging.filter fun row => !expired row }

/-- A thread request whose texts passed validation, with the ids and the clock it is served under. -/
structure ThreadRequest where
  room : Text
  title : Text
  body : Text
  link : Option Text
  attachments : List AttachmentRef
  isAdmin : Bool
  now : Nat
  threadId : Uuid
  postId : Uuid

structure ReplyRequest where
  threadId : Uuid
  parentId : Uuid
  body : Text
  attachments : List AttachmentRef
  now : Nat
  postId : Uuid

structure EditRequest where
  postId : Uuid
  body : Text
  attachments : List AttachmentRef
  now : Nat

def localRevisionRow (state : AppState) (p : PostRevision) (signed : SigningOutput) : PostRevisionRow :=
  { postId := p.postId, revision := clampI64 p.revision, body := p.body, signature := signed.signature,
    canonicalHash := state.platform.sha256 signed.payload,
    createdAt := iso8601FromMs state.platform p.createdAt }

def localPostRow (state : AppState) (p : PostRevision) : PostRow :=
  { id := p.postId, author := p.author, thread := p.threadId, parent := p.parentId,
    createdAt := iso8601FromMs state.platform p.createdAt, homeInstance := none }

def localThreadRow (state : AppState) (t : ThreadCreate) : ThreadRow :=
  { id := t.threadId, title := t.title, author := t.author, room := t.roomSlug,
    createdAt := iso8601FromMs state.platform t.createdAt,
    lastActivity := iso8601FromMs state.platform t.createdAt, linkUrl := t.linkUrl,
    homeInstance := none, threadCreateHash := none }

def stampThread (threadId : Uuid) (hash : Hash) : Db :=
  { db with
    threads := updateWhere (·.id = threadId) (fun row => { row with threadCreateHash := some hash }) db.threads }

def touchThread (threadId : Uuid) (at' : Text) : Db :=
  { db with
    threads := updateWhere (·.id = threadId)
      (fun row => { row with replyCount := row.replyCount + 1, lastActivity := at' }) db.threads }

def setRevisionCount (postId : Uuid) (count : Nat) : Db :=
  { db with
    posts := updateWhere (·.id = postId) (fun row => { row with revisionCount := count }) db.posts }

end

/-- What the requests sign: the opening post-rev and the thread-create name each other. -/
def ThreadRequest.thread (req : ThreadRequest) (user : Key) : ThreadCreate :=
  { threadId := req.threadId, author := user, roomSlug := req.room, title := req.title,
    linkUrl := req.link, opPostId := req.postId, createdAt := req.now * 1000 }

def ThreadRequest.opening (req : ThreadRequest) (user : Key) (refs : AttachmentRefs) : PostRevision :=
  { postId := req.postId, author := user, threadId := req.threadId, parentId := none, revision := 0,
    body := req.body, createdAt := req.now * 1000, attachments := refs.1, attachmentsFit := refs.2 }

def ReplyRequest.reply (req : ReplyRequest) (user : Key) : PostRevision :=
  { postId := req.postId, author := user, threadId := req.threadId, parentId := some req.parentId,
    revision := 0, body := req.body, createdAt := req.now * 1000, attachments := [] }

def EditRequest.revision (req : EditRequest) (user : Key) (post : PostRow) (refs : AttachmentRefs) : PostRevision :=
  { postId := req.postId, author := user, threadId := post.thread, parentId := post.parent,
    revision := post.revisionCount, body := req.body, createdAt := req.now * 1000,
    attachments := refs.1, attachmentsFit := refs.2 }

variable (state : AppState) (sign : Signer)

variable (db : Db) (user : Key)

/-- The transaction of `create_thread`. -/
def writeThread (req : ThreadRequest) : Posting Db := do
  let thread := req.thread user
  let db ← runSql (db.insertThread (localThreadRow state thread))
  let db ← runSql (db.insertPost (localPostRow state (req.opening user ⟨[], noRefs⟩)))
  let refs ← validateAttachments state.platform.nfc db user req.attachments
  ensure (hasActiveKey db user) .noKey
  let opening := req.opening user refs
  let signed := sign (.postRevision opening)
  let db ← runSql (db.insertPostRevision (localRevisionRow state opening signed))
  let db ← runSql (persistAttachmentBindings db req.postId 0 refs.1)
  let db := db.storeSignedObject .postRev signed.payload signed.signature (state.platform.sha256 signed.payload)
  let signedThread := sign (.threadCreate thread)
  let threadHash := state.platform.sha256 signedThread.payload
  let db := db.storeSignedObject .threadCreate signedThread.payload signedThread.signature threadHash
  return stampThread db req.threadId threadHash

/-- The room is created before the transaction, and stays when the transaction fails. -/
def createThread (req : ThreadRequest) : Posting Unit × Db :=
  if isAnnouncements req.room && !req.isAdmin then
    (.error .announcementsAdminOnly, db)
  else
    match getOrCreateRoom db req.room user with
    | .error error => (.error (.database error), db)
    | .ok db =>
      match writeThread state sign db user req with
      | .error error => (.error error, db)
      | .ok after => (.ok (), after)

def createReply (req : ReplyRequest) : Posting Db :=
  if !req.attachments.isEmpty then
    .error .badRequest
  else
    match db.threads.find? (·.id = req.threadId) with
    | none => .error .threadNotFound
    | some thread =>
      if thread.locked then
        .error .threadLocked
      else
        match db.posts.find? (·.id = req.parentId) with
        | none => .error .postNotFound
        | some parent =>
          if parent.thread ≠ req.threadId then
            .error .parentThreadMismatch
          else if parent.retracted then
            .error .parentRetracted
          else do
            let reply := req.reply user
            ensure (hasActiveKey db user) .noKey
            let signed := sign (.postRevision reply)
            let db ← runSql (db.insertPost (localPostRow state reply))
            let db ← runSql (db.insertPostRevision (localRevisionRow state reply signed))
            let db := db.storeSignedObject .postRev signed.payload signed.signature
              (state.platform.sha256 signed.payload)
            return touchThread db req.threadId (iso8601FromMs state.platform (req.now * 1000))

def dropRemoved (db : Db) (postId : Uuid) (prior : Nat) (refs : List AttachmentRef) : Sql Db :=
  let priorHashes := (db.postAttachments.filter fun row => row.postId = postId ∧ row.revision = prior).map
    (·.contentHash)
  let removed := priorHashes.filter fun hash => !refs.any (·.contentHash = hash)
  removed.foldlM (fun db hash => db.deletePostAttachments fun row => row.postId = postId ∧ row.contentHash = hash) db

def editPost (req : EditRequest) : Posting Db :=
  match db.posts.find? (·.id = req.postId) with
  | none => .error .postNotFound
  | some post =>
    if post.parent.isSome && !req.attachments.isEmpty then
      .error .badRequest
    else if post.author ≠ user then
      .error .notPostAuthor
    else if post.retracted then
      .error .postRetracted
    else do
      let db ← runSql (dropRemoved db req.postId (post.revisionCount - 1) req.attachments)
      let refs ← validateAttachments state.platform.nfc db user req.attachments
      ensure (hasActiveKey db user) .noKey
      let revision := req.revision user post refs
      let signed := sign (.postRevision revision)
      let db ← runSql (db.insertPostRevision (localRevisionRow state revision signed))
      let db ← runSql (persistAttachmentBindings db req.postId (clampI64 post.revisionCount) refs.1)
      let db ← runSql (gcOrphanBlobs db)
      let db := db.storeSignedObject .postRev signed.payload signed.signature (state.platform.sha256 signed.payload)
      return setRevisionCount db req.postId (post.revisionCount + 1)

def retractPost (postId : Uuid) (now : Nat) : Posting Db :=
  match db.posts.find? (·.id = postId) with
  | none => .error .postNotFound
  | some post =>
    if post.author ≠ user then
      .error .notPostAuthor
    else if post.retracted then
      .error .postAlreadyRetracted
    else do
      ensure (hasActiveKey db user) .noKey
      let signed := sign (.retraction { postId, author := user, createdAt := now * 1000 })
      let canonicalHash := state.platform.sha256 signed.payload
      let db := db.retractPosts (·.id = postId)
      let db := db.blankBodies (· = postId)
      let db ← runSql (db.deletePostAttachments (·.postId = postId))
      let db ← runSql (gcOrphanBlobs db)
      let db := db.storeSignedObject .retract signed.payload signed.signature canonicalHash
      runSql (db.erasePostRevPayloads postId (some canonicalHash))

end Prismoire
