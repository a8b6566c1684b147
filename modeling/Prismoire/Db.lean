import Prismoire.Signed
import Prismoire.Lib.Rows

namespace Prismoire

open Lib List

inductive SignupMethod where
  | steamKey
  | invite
  | admin
  | crossInstanceRegister
  | federated
  deriving DecidableEq

/-- `users`; the row id is a fresh UUID chosen per public key, so the key stands for it. -/
structure UserRow where
  publicKey : Key
  displayName : Text
  displayNameSkeleton : Text
  signupMethod : SignupMethod
  homeInstance : Option Key
  deleted : Bool := false
  deriving DecidableEq

structure SigningKeyRow where
  user : Key
  active : Bool := true
  deriving DecidableEq

structure ProfileRevisionRow where
  user : Key
  displayName : Text
  bio : Text
  avatarAttachmentHash : Option Hash
  createdAt : Nat
  signature : Bytes
  priorProfileHash : Option Hash
  canonicalHash : Hash
  deriving DecidableEq

inductive InnerClass where
  | postRev
  | retract
  | adminRm
  | trustEdge
  | profile
  | threadCreate
  | threadStatus
  | deactivate
  | move
  | userStatus
  deriving DecidableEq

structure SignedObjectRow where
  canonicalHash : Hash
  innerClass : InnerClass
  payload : Option Bytes
  signature : Bytes
  erased : Bool := false
  erasedBy : Option Hash := none
  deriving DecidableEq

/-- `rooms`, identified by their unique slug. -/
structure RoomRow where
  slug : Text
  createdBy : Key
  mergedInto : Option Text := none
  deriving DecidableEq

structure ThreadRow where
  id : Uuid
  title : Text
  author : Key
  room : Text
  createdAt : Text
  replyCount : Nat := 0
  lastActivity : Text
  locked : Bool := false
  linkUrl : Option Text
  homeInstance : Option Key
  threadCreateHash : Option Hash
  deriving DecidableEq

structure PostRow where
  id : Uuid
  author : Key
  thread : Uuid
  parent : Option Uuid
  createdAt : Text
  retracted : Bool := false
  revisionCount : Nat := 1
  homeInstance : Option Key
  deriving DecidableEq

structure PostRevisionRow where
  postId : Uuid
  revision : Nat
  body : Text
  signature : Bytes
  canonicalHash : Hash
  createdAt : Text
  deriving DecidableEq

structure PostAttachmentRow where
  postId : Uuid
  revision : Nat
  position : Nat
  contentHash : Hash
  filename : Text
  deriving DecidableEq

structure AttachmentBlobRow where
  contentHash : Hash
  contentType : Text
  size : Nat
  refcount : Nat := 0
  deriving DecidableEq

structure AttachmentStagingRow where
  contentHash : Hash
  uploader : Key
  deriving DecidableEq

structure AdminRmAuthorityRow where
  postId : Uuid
  targetAuthor : Key
  signingInstance : Text
  createdAt : Int
  canonicalHash : Hash
  deriving DecidableEq

structure TrustEdgeRow where
  id : Uuid
  sourceUser : Key
  targetUser : Key
  trustType : TrustStance
  createdAt : Text
  signature : Bytes
  priorEdgeHash : Option Hash
  canonicalHash : Hash
  deriving DecidableEq

structure PendingTrustEdgeRow where
  sourcePubkey : Key
  targetPubkey : Key
  priorEdgeHash : Hash
  canonicalHash : Hash
  payload : Bytes
  signature : Bytes
  deriving DecidableEq

structure FrontierEdgeRow where
  canonicalHash : Hash
  sourcePubkey : Key
  targetPubkey : Key
  priorEdgeHash : Option Hash
  stance : TrustStance
  createdAt : Nat
  payload : Bytes
  signature : Bytes
  generation : Nat
  deriving DecidableEq

structure FrontierUserRow where
  userKey : Key
  generation : Nat
  reverseHop : Nat
  deriving DecidableEq

structure UserHomeRow where
  userKey : Key
  currentHomeKey : Key
  currentHomeDomain : Text
  currentMoveHash : Option Hash
  currentCreatedAt : Option Int
  deriving DecidableEq

structure UserMoveRow where
  userKey : Key
  canonicalHash : Hash
  createdAt : Int
  deriving DecidableEq

structure UserGenesisRow where
  userKey : Key
  genesisAt : Int
  birthInstanceKey : Key
  attestationSig : Bytes
  deriving DecidableEq

structure PeerRow where
  instancePubkey : Key
  instanceDomain : Text
  deriving DecidableEq

structure PostsFtsRow where
  postId : Uuid
  body : Text
  deriving DecidableEq

/-- `threads_fts`; `opPost` records which post's revision wrote the indexed `opBody`. -/
structure ThreadsFtsRow where
  threadId : Uuid
  title : Text
  opBody : Text
  opPost : Option Uuid
  deriving DecidableEq

structure Db where
  users : List UserRow := []
  signingKeys : List SigningKeyRow := []
  profileRevisions : List ProfileRevisionRow := []
  signedObjects : List SignedObjectRow := []
  rooms : List RoomRow := []
  threads : List ThreadRow := []
  posts : List PostRow := []
  postRevisions : List PostRevisionRow := []
  postAttachments : List PostAttachmentRow := []
  attachmentBlobs : List AttachmentBlobRow := []
  attachmentStaging : List AttachmentStagingRow := []
  adminRmAuthorities : List AdminRmAuthorityRow := []
  trustEdges : List TrustEdgeRow := []
  pendingTrustEdges : List PendingTrustEdgeRow := []
  frontierEdges : List FrontierEdgeRow := []
  frontierUsers : List FrontierUserRow := []
  frontierGeneration : Nat := 0
  userHomes : List UserHomeRow := []
  userMoves : List UserMoveRow := []
  userGenesis : List UserGenesisRow := []
  peers : List PeerRow := []
  postsFts : List PostsFtsRow := []
  threadsFts : List ThreadsFtsRow := []
  deriving DecidableEq

/-- The constraint classes an INSERT or UPDATE can violate. -/
inductive SqlError where
  | primaryKey
  | unique
  | check
  | foreignKey
  deriving DecidableEq

abbrev Sql := Except SqlError

/-- A constraint that must hold for the statement to go through. -/
def require (holds : Bool) (violated : SqlError) : Sql Unit :=
  if holds then .ok () else .error violated

theorem require_bind_ok {α : Type} {holds : Bool} {violated : SqlError} {next : Unit → Sql α} {result : α} :
    (require holds violated >>= next) = .ok result ↔ holds = true ∧ next () = .ok result := by
  cases holds <;> simp [require, bind, Except.bind]

theorem bind_ok {ε α β : Type} {step : Except ε α} {next : α → Except ε β} {result : β} :
    (step >>= next) = .ok result ↔ ∃ mid, step = .ok mid ∧ next mid = .ok result := by
  cases step <;> simp [bind, Except.bind]

namespace Db

def user? (db : Db) (key : Key) : Option UserRow :=
  db.users.find? (·.publicKey = key)

def hasUser (db : Db) (key : Key) : Bool :=
  db.users.any (·.publicKey = key)

def hasObject (db : Db) (hash : Hash) : Bool :=
  db.signedObjects.any (·.canonicalHash = hash)

variable {db after : Db} {hash : Hash} {innerClass : InnerClass} {payload signature : Bytes} {targeted : Hash → Bool}
  {authority : Option Hash}

theorem find?_none_of_hasObject (absent : db.hasObject hash = false) :
    db.signedObjects.find? (·.canonicalHash = hash) = none := by
  rw [find?_eq_none]
  intro row mem same
  have present : db.hasObject hash = true := any_eq_true.mpr ⟨row, mem, same⟩
  rw [absent] at present
  cases present

theorem hasObject_of_find?_none (none_ : db.signedObjects.find? (·.canonicalHash = hash) = none) :
    db.hasObject hash = false := by
  rw [hasObject, any_eq_false]
  exact fun row mem => find?_eq_none.mp none_ row mem

def hasThread (db : Db) (thread : Uuid) : Bool :=
  db.threads.any (·.id = thread)

def hasPost (db : Db) (post : Uuid) : Bool :=
  db.posts.any (·.id = post)

def hasRevision (db : Db) (post : Uuid) (revision : Nat) : Bool :=
  db.postRevisions.any fun row => row.postId = post ∧ row.revision = revision

def storeSignedObject (db : Db) (innerClass : InnerClass) (payload signature : Bytes) (canonicalHash : Hash) : Db :=
  { db with
    signedObjects :=
      if db.hasObject canonicalHash then db.signedObjects
      else db.signedObjects ++ [{ canonicalHash, innerClass, payload := some payload, signature }] }

theorem storeSignedObject_of_present (present : db.hasObject hash = true) :
    db.storeSignedObject innerClass payload signature hash = db := by
  simp [storeSignedObject, present]

theorem storeSignedObject_of_absent (absent : db.hasObject hash = false) :
    db.storeSignedObject innerClass payload signature hash = { db with
      signedObjects := db.signedObjects ++
        [{ canonicalHash := hash, innerClass, payload := some payload, signature }] } := by
  simp [storeSignedObject, absent]

theorem hasObject_storeSignedObject {stored : Hash} :
    (db.storeSignedObject innerClass payload signature stored).hasObject hash = true ↔
      hash = stored ∨ db.hasObject hash = true := by
  cases present : db.hasObject stored with
  | true =>
    rw [storeSignedObject_of_present present]
    constructor
    · exact .inr
    · rintro (rfl | known)
      · exact present
      · exact known
  | false =>
    rw [storeSignedObject_of_absent present]
    simp only [hasObject, any_append, any_cons, any_nil, Bool.or_false, Bool.or_eq_true,
      decide_eq_true_eq]
    rw [or_comm, eq_comm]

theorem hasObject_stored : (db.storeSignedObject innerClass payload signature hash).hasObject hash = true :=
  hasObject_storeSignedObject.mpr (.inl rfl)

def eraseRow (authority : Option Hash) (row : SignedObjectRow) : SignedObjectRow :=
  { row with payload := none, erased := true, erasedBy := row.erasedBy.or authority }

def erasable (targeted : Hash → Bool) (row : SignedObjectRow) : Bool :=
  row.payload.isSome && targeted row.canonicalHash

/--
The UPDATE shared by the erasure helpers: NULLs the live payloads whose hash is targeted and
stamps `erased_by`. The stamp is a foreign key on `signed_objects` itself, checked at once.
-/
def erasePayloads (db : Db) (targeted : Hash → Bool) (authority : Option Hash) : Sql Db := do
  require (db.signedObjects.all fun row =>
    !erasable targeted row || (row.erasedBy.or authority).all db.hasObject) .foreignKey
  return { db with
    signedObjects := updateWhere (erasable targeted) (eraseRow authority) db.signedObjects }

theorem erasePayloads_frame (run : db.erasePayloads targeted authority = .ok after) : after = { db with
      signedObjects := updateWhere (erasable targeted) (eraseRow authority) db.signedObjects } := by
  simp only [erasePayloads, require_bind_ok] at run
  obtain ⟨-, run⟩ := run
  cases run
  rfl

theorem hasObject_erasePayloads (run : db.erasePayloads targeted authority = .ok after) (hash : Hash) :
    after.hasObject hash = db.hasObject hash := by
  rw [erasePayloads_frame run]
  exact any_updateWhere (by intro row; rfl) _

theorem erasePayloads_ok (allowed : ∀ row ∈ db.signedObjects, erasable targeted row = true →
      (row.erasedBy.or authority).all db.hasObject = true) :
    db.erasePayloads targeted authority = .ok { db with
      signedObjects := updateWhere (erasable targeted) (eraseRow authority) db.signedObjects } := by
  have holds : (db.signedObjects.all fun row =>
      !erasable targeted row || (row.erasedBy.or authority).all db.hasObject) = true := by
    rw [all_eq_true]
    intro row mem
    cases hit : erasable targeted row with
    | false => simp
    | true => simpa using allowed row mem hit
  simp only [erasePayloads, holds, require, if_true]
  rfl

theorem erasePayloads_error {authority : Hash}
    {row : SignedObjectRow} (mem : row ∈ db.signedObjects) (hit : erasable targeted row = true)
    (unstamped : row.erasedBy = none) (absent : db.hasObject authority = false) :
    db.erasePayloads targeted (some authority) = .error .foreignKey := by
  have fails : (db.signedObjects.all fun row =>
      !erasable targeted row || (row.erasedBy.or (some authority)).all db.hasObject) = false := by
    rw [all_eq_false]
    exact ⟨row, mem, by simp [hit, unstamped, absent]⟩
  simp only [erasePayloads, fails, require, Bool.false_eq_true, if_false]
  rfl

def erasePostRevPayloads (db : Db) (post : Uuid) (authority : Option Hash) : Sql Db :=
  db.erasePayloads
    (fun hash => db.postRevisions.any fun row => row.canonicalHash = hash ∧ row.postId = post) authority

/-- The neutral edge is both the exempted object and the authority recorded for the others. -/
def eraseTrustEdgeChain (db : Db) (source target : Key) (exceptHash : Hash) : Sql Db :=
  db.erasePayloads (fun hash => hash ≠ exceptHash ∧ db.trustEdges.any fun row =>
      row.canonicalHash = hash ∧ row.sourceUser = source ∧ row.targetUser = target)
    (some exceptHash)

section

variable (db : Db) (user : Key) (authority : Option Hash)

def eraseUserTrustEdgePayloads : Sql Db :=
  db.erasePayloads
    (fun hash => db.trustEdges.any fun row => row.canonicalHash = hash ∧ row.sourceUser = user) authority

def eraseUserProfileRevisionPayloads : Sql Db :=
  db.erasePayloads
    (fun hash => db.profileRevisions.any fun row => row.canonicalHash = hash ∧ row.user = user) authority

def eraseUserPostRevPayloads : Sql Db :=
  db.erasePayloads (fun hash => db.postRevisions.any fun row => row.canonicalHash = hash ∧
      db.posts.any fun post => post.id = row.postId ∧ post.author = user) authority

end

def insertRoom (db : Db) (room : RoomRow) : Sql Db := do
  require (!db.rooms.any (·.slug = room.slug)) .unique
  require (db.hasUser room.createdBy) .foreignKey
  return { db with
    rooms := db.rooms ++ [room] }

theorem insertRoom_ok {room : RoomRow} : db.insertRoom room = .ok after ↔ db.rooms.any (·.slug = room.slug) = false ∧
      db.hasUser room.createdBy = true ∧ after = { db with
        rooms := db.rooms ++ [room] } := by
  simp only [insertRoom, require_bind_ok, Bool.not_eq_true', pure, Except.pure, Except.ok.injEq]
  tauto

/-- INSERT INTO threads with its trigger, which indexes the title under an empty body. -/
def insertThread (db : Db) (thread : ThreadRow) : Sql Db := do
  require (!db.hasThread thread.id) .primaryKey
  require (db.hasUser thread.author) .foreignKey
  require (db.rooms.any (·.slug = thread.room)) .foreignKey
  return { db with
    threads := db.threads ++ [thread]
    threadsFts := db.threadsFts ++ [{ threadId := thread.id, title := thread.title, opBody := "", opPost := none }] }

theorem insertThread_ok {thread : ThreadRow} : db.insertThread thread = .ok after ↔ db.hasThread thread.id = false ∧
      db.hasUser thread.author = true ∧ db.rooms.any (·.slug = thread.room) = true ∧
      after = { db with
        threads := db.threads ++ [thread]
        threadsFts := db.threadsFts ++
          [{ threadId := thread.id, title := thread.title, opBody := "", opPost := none }] } := by
  simp only [insertThread, require_bind_ok, Bool.not_eq_true', pure, Except.pure, Except.ok.injEq]
  tauto

def insertPost (db : Db) (post : PostRow) : Sql Db := do
  require (!db.hasPost post.id) .primaryKey
  require (db.hasUser post.author) .foreignKey
  require (db.hasThread post.thread) .foreignKey
  require (post.parent.all db.hasPost) .foreignKey
  return { db with
    posts := db.posts ++ [post] }

theorem insertPost_ok {post : PostRow} :
    db.insertPost post = .ok after ↔ db.hasPost post.id = false ∧ db.hasUser post.author = true ∧
      db.hasThread post.thread = true ∧ post.parent.all db.hasPost = true ∧
      after = { db with
        posts := db.posts ++ [post] } := by
  simp only [insertPost, require_bind_ok, Bool.not_eq_true', pure, Except.pure, Except.ok.injEq]
  tauto

def replacePostsFts (fts : List PostsFtsRow) (row : PostsFtsRow) : List PostsFtsRow :=
  fts.filter (·.postId ≠ row.postId) ++ [row]

def replaceThreadsFts (threads : List ThreadRow) (fts : List ThreadsFtsRow) (thread : Uuid)
    (opBody : Text) (opPost : Option Uuid) : List ThreadsFtsRow :=
  match threads.find? (·.id = thread) with
  | none => fts
  | some row => fts.filter (·.threadId ≠ thread) ++
      [{ threadId := thread, title := row.title, opBody, opPost }]

def maxRevision (db : Db) (post : Uuid) (revision : Nat) : Bool :=
  db.postRevisions.all fun row => row.postId ≠ post ∨ row.revision ≤ revision

section

variable (db : Db) (row : PostRevisionRow)

def postsFtsAfterRevision : List PostsFtsRow :=
  match db.posts.find? (·.id = row.postId) with
  | none => db.postsFts
  | some post =>
    if !post.retracted && db.maxRevision row.postId row.revision then
      replacePostsFts db.postsFts { postId := row.postId, body := row.body }
    else
      db.postsFts

def threadsFtsOpBodyAfterRevision : List ThreadsFtsRow :=
  match db.posts.find? (·.id = row.postId) with
  | none => db.threadsFts
  | some post =>
    if post.parent.isNone && db.maxRevision row.postId row.revision then
      replaceThreadsFts db.threads db.threadsFts post.thread row.body (some row.postId)
    else
      db.threadsFts

/-- The row with the index entries its two triggers write. -/
def withPostRevision : Db :=
  let db := { db with postRevisions := db.postRevisions ++ [row] }
  { db with
    postsFts := db.postsFtsAfterRevision row
    threadsFts := db.threadsFtsOpBodyAfterRevision row }

def insertPostRevision : Sql Db := do
  require (!db.hasRevision row.postId row.revision) .primaryKey
  require (db.hasPost row.postId) .foreignKey
  return db.withPostRevision row

end

theorem insertPostRevision_ok {row : PostRevisionRow} :
    db.insertPostRevision row = .ok after ↔ db.hasRevision row.postId row.revision = false ∧
      db.hasPost row.postId = true ∧ after = db.withPostRevision row := by
  simp only [insertPostRevision, require_bind_ok, Bool.not_eq_true', pure, Except.pure, Except.ok.injEq]
  tauto

def hasBlob (db : Db) (hash : Hash) : Bool :=
  db.attachmentBlobs.any (·.contentHash = hash)

def insertAttachmentBlob (db : Db) (ref : AttachmentRef) : Db :=
  { db with
    attachmentBlobs :=
      if db.hasBlob ref.contentHash then db.attachmentBlobs
      else db.attachmentBlobs ++ [{ contentHash := ref.contentHash, contentType := ref.mime, size := ref.size }] }

/-- The binding together with its trigger, which counts the new reference. -/
def bound (db : Db) (row : PostAttachmentRow) : Db :=
  { db with
    postAttachments := db.postAttachments ++ [row]
    attachmentBlobs := updateWhere (·.contentHash = row.contentHash)
      (fun blob => { blob with refcount := blob.refcount + 1 }) db.attachmentBlobs }

def insertPostAttachment (db : Db) (row : PostAttachmentRow) : Sql Db := do
  require (row.position ≤ 2) .check
  require (!db.postAttachments.any fun old =>
    old.postId = row.postId ∧ old.revision = row.revision ∧ old.position = row.position) .primaryKey
  require (!db.postAttachments.any fun old =>
    old.postId = row.postId ∧ old.revision = row.revision ∧ old.contentHash = row.contentHash) .unique
  require (db.hasBlob row.contentHash) .foreignKey
  require (db.hasRevision row.postId row.revision) .foreignKey
  return db.bound row

theorem insertPostAttachment_ok {row : PostAttachmentRow} : db.insertPostAttachment row = .ok after ↔ row.position ≤ 2 ∧
      (∀ old ∈ db.postAttachments, old.postId = row.postId → old.revision = row.revision →
        old.position ≠ row.position ∧ old.contentHash ≠ row.contentHash) ∧
      db.hasBlob row.contentHash = true ∧ db.hasRevision row.postId row.revision = true ∧
      after = db.bound row := by
  simp only [insertPostAttachment, require_bind_ok, Bool.not_eq_true', any_eq_false,
    decide_eq_true_eq, pure, Except.pure, Except.ok.injEq]
  constructor
  · rintro ⟨position, positions, hashes, blob, revision, rfl⟩
    exact ⟨position, fun old mem samePost sameRevision =>
      ⟨fun same => positions old mem ⟨samePost, sameRevision, same⟩,
        fun same => hashes old mem ⟨samePost, sameRevision, same⟩⟩, blob, revision, rfl⟩
  · rintro ⟨position, fresh, blob, revision, rfl⟩
    exact ⟨position, fun old mem same => (fresh old mem same.1 same.2.1).1 same.2.2,
      fun old mem same => (fresh old mem same.1 same.2.1).2 same.2.2, blob, revision, rfl⟩

/-- The trigger of DELETE FROM post_attachments; the column's CHECK forbids a negative count. -/
def releaseBlob (blobs : List AttachmentBlobRow) (hash : Hash) : Sql (List AttachmentBlobRow) := do
  require (blobs.all fun blob => blob.contentHash ≠ hash ∨ 0 < blob.refcount) .check
  return updateWhere (·.contentHash = hash) (fun blob => { blob with refcount := blob.refcount - 1 }) blobs

def deletePostAttachments (db : Db) (doomed : PostAttachmentRow → Bool) : Sql Db := do
  let blobs ← ((db.postAttachments.filter doomed).map (·.contentHash)).foldlM releaseBlob db.attachmentBlobs
  return { db with
    postAttachments := db.postAttachments.filter fun row => !doomed row
    attachmentBlobs := blobs }

def threadsFtsOpAfterRetract (threads : List ThreadRow) (fts : List ThreadsFtsRow) (post : PostRow) :
    List ThreadsFtsRow :=
  if post.parent.isNone then replaceThreadsFts threads fts post.thread "" none else fts

/-- `UPDATE posts SET retracted_at = now WHERE … AND retracted_at IS NULL`, with both triggers. -/
def retractPosts (db : Db) (selected : PostRow → Bool) : Db :=
  let hit := fun post : PostRow => selected post && !post.retracted
  { db with
    posts := updateWhere hit (fun post => { post with retracted := true }) db.posts
    postsFts := db.postsFts.filter fun row => !(db.posts.filter hit).any (·.id = row.postId)
    threadsFts := (db.posts.filter hit).foldl (threadsFtsOpAfterRetract db.threads) db.threadsFts }

def blankBodies (db : Db) (selected : Uuid → Bool) : Db :=
  { db with
    postRevisions := updateWhere (fun row => selected row.postId) (fun row => { row with body := "" })
      db.postRevisions }

def raiseRevisionCount (db : Db) (post : Uuid) (count : Nat) : Db :=
  { db with
    posts := updateWhere (·.id = post)
      (fun row => { row with revisionCount := max row.revisionCount count }) db.posts }

def setDeleted (db : Db) (user : Key) : Db :=
  { db with
    users := updateWhere (·.publicKey = user) (fun row => { row with deleted := true }) db.users }

end Db

/-- What an instance is given besides its database: its key and what the libraries compute. -/
structure AppState where
  platform : Platform
  instanceKey : Key
  edgeRowId : Hash → Uuid
  edgeClock : Hash → Text

def AppState.ofTable (table : List SignedPayload) : AppState where
  platform := Platform.ofTable table
  instanceKey := 9
  edgeRowId _ := 0
  edgeClock _ := ""

end Prismoire
