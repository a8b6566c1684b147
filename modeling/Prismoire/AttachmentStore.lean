import Prismoire.Refcounts
import Prismoire.SignedCbor
import Prismoire.Lib.Run

namespace Prismoire

open Lib Function

/-- What the classifier and the image pipeline take from their libraries: the MIME of a recognised
signature, the UTF-8 check, the dimensions in the header of an image, and its decoding, downscale and
re-encoding. -/
structure UploadCodec where
  inferGet : Bytes → Option Text
  isUtf8 : Bytes → Bool
  intoDimensions : Text → Bytes → Option (Nat × Nat)
  reencode : Text → Bytes → Option Bytes
  maxPxDecode : Nat

inductive ClassifyOutcome where
  | binaryAllowed (mime : Text)
  | binaryRejected
  | textPlain
  | invalidUtf8

inductive UploadError where
  | attachmentEmpty
  | attachmentTooLarge
  | attachmentMimeRejected
  | attachmentImageDecode
  | attachmentImageDimensions
  | budgetExceeded
  | database (error : SqlError)

def imageMimes : List Text :=
  ["image/png", "image/jpeg", "image/webp"]

def classify (codec : UploadCodec) (bytes : Bytes) : ClassifyOutcome :=
  match codec.inferGet bytes with
  | some mime => if mime ∈ allowedMimes then .binaryAllowed mime else .binaryRejected
  | none => if codec.isUtf8 bytes then .textPlain else .invalidUtf8

def ClassifyOutcome.mime : ClassifyOutcome → Option Text
  | .binaryAllowed mime => some mime
  | .textPlain => some "text/plain"
  | .binaryRejected | .invalidUtf8 => none

def processImage (codec : UploadCodec) (mime : Text) (input : Bytes) : Except UploadError Bytes :=
  match codec.intoDimensions mime input with
  | none => .error .attachmentImageDecode
  | some (w, h) =>
    if codec.maxPxDecode < w ∨ codec.maxPxDecode < h then .error .attachmentImageDimensions
    else (codec.reencode mime input).elim (.error .attachmentImageDecode) .ok

def processBytes (codec : UploadCodec) (input : Bytes) : Except UploadError (Bytes × Text) :=
  match (classify codec input).mime with
  | none => .error .attachmentMimeRejected
  | some mime =>
    if mime ∈ imageMimes then
      match processImage codec mime input with
      | .ok stored => .ok (stored, mime)
      | .error error => .error error
    else
      .ok (input, mime)

structure StorageBudget where
  availableBytes : Nat
  lastRefillAt : Nat
  lifetimeSpent : Nat
  deriving DecidableEq

/-- The admin's budget for every user, and the time an upload may wait for its post. -/
structure UploadConfig where
  capBytes : Nat
  refillBytesPerDay : Nat
  stagingTtlSeconds : Nat

def u64Top : Nat := 2 ^ 64 - 1

def debitBudget (config : UploadConfig) (budget : Option StorageBudget) (now bytes : Nat) : Option StorageBudget :=
  match budget with
  | some row =>
    let refilled := min (config.refillBytesPerDay * (now - row.lastRefillAt) / 86400) u64Top
    let afterRefill := min (min (row.availableBytes + refilled) u64Top) config.capBytes
    if afterRefill < bytes then
      none
    else
      some ⟨clampI64 (afterRefill - bytes), now, clampI64 (min (row.lifetimeSpent + bytes) u64Top)⟩
  | none =>
    if config.capBytes < bytes then none else some ⟨clampI64 (config.capBytes - bytes), now, clampI64 bytes⟩

/-- A `run_eviction` between two of its batches. -/
structure EvictionPass where
  maxBytes : Nat
  bytesUsed : Int

/--
The database with the columns that the tables above leave out: `attachment_blobs.blob` and
`accessed_at` by content hash, `attachment_staging.expires_at`, the storage budgets; the sweep's
running eviction; and, as history, which hashes were uploaded here.
-/
structure BlobStore where
  db : Db := {}
  blob : Hash → Option Bytes := fun _ => none
  accessedAt : Hash → Nat := fun _ => 0
  expiresAt : Hash → Nat := fun _ => 0
  budgets : Key → Option StorageBudget := fun _ => none
  eviction : Option EvictionPass := none
  uploaded : Hash → Bool := fun _ => false

namespace BlobStore

section

variable (s : BlobStore)

/-- A transaction on the tables: a deleted row takes its bytes along, a new row has none yet. -/
def withDb (after : Db) (now : Nat) : BlobStore :=
  { s with
    db := after
    blob := fun hash => if after.hasBlob hash then s.blob hash else none
    accessedAt := fun hash => if s.db.hasBlob hash then s.accessedAt hash else now }

/-- Bound to a current revision of a standing local post: the files this instance has to keep. -/
def originBound (hash : Hash) : Bool :=
  s.db.postAttachments.any fun pa => pa.contentHash = hash ∧
    s.db.posts.any fun p => p.id = pa.postId ∧ pa.revision + 1 = p.revisionCount ∧ !p.retracted ∧
      p.homeInstance = none ∧ s.db.users.any fun u => u.publicKey = p.author ∧ !u.deleted

/-- The predicate of `eligible_bytes_used`, shared by the statements of a batch. -/
def eligible (row : AttachmentBlobRow) : Bool :=
  (s.blob row.contentHash).isSome && !s.originBound row.contentHash

def eligibleBytesUsed : Nat :=
  ((s.db.attachmentBlobs.filter s.eligible).map (·.size)).sum

def batchSize : Nat := 32

def candidates : List AttachmentBlobRow :=
  ((s.db.attachmentBlobs.filter s.eligible).insertionSort fun a b =>
    s.accessedAt a.contentHash ≤ s.accessedAt b.contentHash).take batchSize

/-- `UPDATE attachment_blobs SET blob = NULL WHERE content_hash = …`. -/
def dropBytes (hash : Hash) : BlobStore :=
  { s with
    blob := update s.blob hash none }

end

/-- The loop of a batch over its candidates, with the rows and the bytes it has reclaimed. -/
def evictRows (target : Int) : List AttachmentBlobRow → Nat × Int → BlobStore → (Nat × Int) × BlobStore
  | [], tally, s => (tally, s)
  | row :: rows, tally, s =>
    if s.eligible row then
      let tally := (tally.1 + 1, tally.2 + row.size)
      let s := s.dropBytes row.contentHash
      if target ≤ tally.2 then (tally, s) else evictRows target rows tally s
    else
      evictRows target rows tally s

def evictOneBatch (s : BlobStore) (target : Int) : (Nat × Int) × BlobStore :=
  evictRows target s.candidates (0, 0) s

/-- The loop test of `run_eviction`, where the cast makes a negative tally a large one. -/
def EvictionPass.overBudget (pass : EvictionPass) : Bool :=
  pass.maxBytes < (pass.bytesUsed % 2 ^ 64).toNat

/-- The first statement of `run_eviction`. -/
def beginEviction (s : BlobStore) (maxBytes : Nat) : BlobStore :=
  { s with
    eviction := some ⟨maxBytes, s.eligibleBytesUsed⟩ }

/-- One round of the loop of `run_eviction`, or its end. -/
def evictBatch (s : BlobStore) : BlobStore :=
  match s.eviction with
  | none => s
  | some running =>
    if EvictionPass.overBudget running then
      let (tally, after) := s.evictOneBatch (max 0 (running.bytesUsed - running.maxBytes))
      { after with
        eviction := if tally.1 = 0 then none else some { running with bytesUsed := running.bytesUsed - tally.2 } }
    else
      { s with eviction := none }

/-- A whole pass that nothing interrupts; each batch but the last takes a row. -/
def runEviction (s : BlobStore) (maxBytes : Nat) : BlobStore :=
  BlobStore.evictBatch^[s.db.attachmentBlobs.length + 1] (s.beginEviction maxBytes)

def uploadBytes (platform : Platform) (codec : UploadCodec) (config : UploadConfig) (s : BlobStore) (user : Key)
    (input : Bytes) (now : Nat) : Except UploadError BlobStore :=
  if input.isEmpty then
    .error .attachmentEmpty
  else if maxAttachmentSize < input.length then
    .error .attachmentTooLarge
  else do
    let (stored, mime) ← processBytes codec input
    if fits : stored.length ≤ maxAttachmentSize then
      let hash := platform.sha256 stored
      match debitBudget config (s.budgets user) now stored.length with
      | none => .error .budgetExceeded
      | some budget =>
        match uploadAttachment s.db user { contentHash := hash, mime, size := stored.length, filename := "",
                                           sizeFits := fits } with
        | .error error => .error (.database error)
        | .ok after =>
          return { s with
            db := after
            -- COALESCE(attachment_blobs.blob, excluded.blob)
            blob := update s.blob hash ((s.blob hash).or (some stored))
            accessedAt := fun other => if s.db.hasBlob other then s.accessedAt other else now
            expiresAt :=
              if s.db.attachmentStaging.any (·.contentHash = hash) then s.expiresAt
              else update s.expiresAt hash (now + config.stagingTtlSeconds)
            budgets := update s.budgets user (some budget)
            uploaded := update s.uploaded hash true }
    else
      .error .attachmentTooLarge

/-- The end of `fetch_from_candidate`: bytes with another hash are refused, resident bytes are kept. -/
def storeFetched (platform : Platform) (s : BlobStore) (hash : Hash) (body : Bytes) : BlobStore :=
  if platform.sha256 body = hash ∧ s.db.hasBlob hash ∧ s.blob hash = none then
    { s with
      blob := update s.blob hash (some body) }
  else
    s

def bumpAccessedAt (s : BlobStore) (hash : Hash) (now : Nat) : BlobStore :=
  if 60 ≤ now - s.accessedAt hash then
    { s with
      accessedAt := update s.accessedAt hash now }
  else
    s

end BlobStore

/-- What can happen to the store: a delivery, a request with the signer of its author, an upload, the
answer to a fetch, a served file, a staging sweep, or a statement of an eviction. -/
inductive StoreAction where
  | content (wireBytes : Bytes) (arrivedFrom : Key)
  | birth (birth : LocalUserBirth) (genesis : Move)
  | thread (sign : Signer) (user : Key) (req : ThreadRequest)
  | reply (sign : Signer) (user : Key) (req : ReplyRequest)
  | edit (sign : Signer) (user : Key) (req : EditRequest)
  | retract (sign : Signer) (user : Key) (postId : Uuid) (at' : Nat)
  | upload (user : Key) (input : Bytes)
  | fetched (hash : Hash) (body : Bytes)
  | served (hash : Hash)
  | sweep
  | beginEviction (maxBytes : Nat)
  | evictBatch

structure StoreEvent where
  now : Nat
  action : StoreAction

/-- `session_middleware`: a session of a user whose account is not deleted. -/
def authenticated (db : Db) (user : Key) : Bool :=
  (db.user? user).any fun row => !row.deleted

/-- The bytes of an event belong to the run and its signers sign; a request comes with a session. -/
def StoreEvent.Honest (state : AppState) (corpus : Corpus) (s : BlobStore) (event : StoreEvent) : Prop :=
  match event.action with
  | .content wireBytes _ => Occurs state corpus wireBytes
  | .birth birth genesis =>
    Filed state.platform corpus birth.profile.payload birth.profile.signature
        (.profileRevision birth.genesisProfile) ∧
      Filed state.platform corpus birth.move.payload birth.move.signature (.move genesis)
  | .thread sign user req => authenticated s.db user ∧
      (∀ refs : AttachmentRefs, refs.1 = req.attachments →
        Signs state corpus sign (.postRevision (req.opening user refs))) ∧
      Signs state corpus sign (.threadCreate (req.thread user))
  | .reply sign user req => authenticated s.db user ∧ Signs state corpus sign (.postRevision (req.reply user))
  | .edit sign user req => authenticated s.db user ∧
      ∀ post refs, s.db.posts.find? (·.id = req.postId) = some post → refs.1 = req.attachments →
        Signs state corpus sign (.postRevision (req.revision user post refs))
  | .retract sign user postId at' => authenticated s.db user ∧
      Signs state corpus sign (.retraction { postId, author := user, createdAt := at' * 1000 })
  | .upload .. | .fetched .. | .served .. | .sweep | .beginEviction .. | .evictBatch => True

namespace BlobStore

section Step

variable (state : AppState) (codec : UploadCodec) (config : UploadConfig)

/-- A transaction that fails leaves the store as it was. -/
def commit {ε : Type} (s : BlobStore) (now : Nat) : Except ε Db → BlobStore
  | .ok after => s.withDb after now
  | .error _ => s

def step (s : BlobStore) (event : StoreEvent) : BlobStore :=
  match event.action with
  | .content wireBytes arrivedFrom => s.withDb (deliverObject state s.db wireBytes arrivedFrom) event.now
  | .birth birth _ => s.commit event.now (completeLocalUserBirth state s.db birth)
  | .thread sign user req => s.withDb (createThread state sign s.db user req).2 event.now
  | .reply sign user req => s.commit event.now (createReply state sign s.db user req)
  | .edit sign user req => s.commit event.now (editPost state sign s.db user req)
  | .retract sign user postId at' => s.commit event.now (retractPost state sign s.db user postId at')
  | .upload user input =>
    match s.uploadBytes state.platform codec config user input event.now with
    | .ok after => after
    | .error _ => s
  | .fetched hash body => s.storeFetched state.platform hash body
  | .served hash => s.bumpAccessedAt hash event.now
  | .sweep => s.commit event.now (sweepStaging s.db fun row => s.expiresAt row.contentHash < event.now)
  | .beginEviction maxBytes => s.beginEviction maxBytes
  | .evictBatch => s.evictBatch

end Step

variable {state : AppState} {codec : UploadCodec} {config : UploadConfig} {corpus : Corpus} {s : BlobStore}

theorem uploadBytes_ok {platform : Platform} {user : Key} {input : Bytes} {now : Nat} {after : BlobStore}
    (run : s.uploadBytes platform codec config user input now = .ok after) :
    ∃ stored mime, ∃ fits : stored.length ≤ maxAttachmentSize, ∃ db budget,
      processBytes codec input = .ok (stored, mime) ∧
      uploadAttachment s.db user { contentHash := platform.sha256 stored, mime, size := stored.length,
                                   filename := "", sizeFits := fits } = .ok db ∧
      after = { s with
        db := db
        blob := update s.blob (platform.sha256 stored) ((s.blob (platform.sha256 stored)).or (some stored))
        accessedAt := fun other => if s.db.hasBlob other then s.accessedAt other else now
        expiresAt :=
          if s.db.attachmentStaging.any (·.contentHash = platform.sha256 stored) then s.expiresAt
          else update s.expiresAt (platform.sha256 stored) (now + config.stagingTtlSeconds)
        budgets := update s.budgets user budget
        uploaded := update s.uploaded (platform.sha256 stored) true } := by
  unfold uploadBytes at run
  split at run
  · cases run
  · split at run
    · cases run
    · obtain ⟨⟨stored, mime⟩, processed, run⟩ := bind_ok.mp run
      dsimp only at run
      split at run
      · rename_i fits
        split at run
        · cases run
        · rename_i budget debited
          split at run
          · cases run
          · rename_i db uploaded
            cases run
            exact ⟨stored, mime, fits, db, some budget, processed, uploaded, rfl⟩
      · cases run

theorem evictRows_frame {target : Int} {rows : List AttachmentBlobRow} {tally : Nat × Int} :
    ∃ blob, (evictRows target rows tally s).2 = { s with blob := blob } := by
  induction rows generalizing tally s with
  | nil => exact ⟨s.blob, rfl⟩
  | cons row rows ih =>
    rw [evictRows]
    split
    · dsimp only
      split
      · exact ⟨_, rfl⟩
      · obtain ⟨blob, eq⟩ := @ih (s.dropBytes row.contentHash) (tally.1 + 1, tally.2 + row.size)
        exact ⟨blob, eq⟩
    · exact ih

theorem evictBatch_frame : ∃ blob eviction, s.evictBatch = { s with
    blob := blob
    eviction := eviction } := by
  unfold evictBatch
  split
  · exact ⟨s.blob, s.eviction, rfl⟩
  · split
    · obtain ⟨blob, eq⟩ := @evictRows_frame s _ s.candidates (0, 0)
      refine ⟨blob, ?_⟩
      dsimp only [evictOneBatch]
      exact ⟨_, by rw [eq]⟩
    · exact ⟨s.blob, none, rfl⟩

theorem storeFetched_db {platform : Platform} {hash : Hash} {body : Bytes} :
    (s.storeFetched platform hash body).db = s.db := by
  unfold storeFetched
  split <;> rfl

theorem bumpAccessedAt_frame {hash : Hash} {now : Nat} :
    ∃ accessedAt, s.bumpAccessedAt hash now = { s with accessedAt := accessedAt } := by
  unfold bumpAccessedAt
  split
  · exact ⟨_, rfl⟩
  · exact ⟨s.accessedAt, rfl⟩

theorem commit_db {ε : Type} {now : Nat} {reached : Db → Prop} {result : Except ε Db} (start : reached s.db)
    (run : ∀ after, result = .ok after → reached after) : reached (s.commit now result).db := by
  cases result with
  | ok after => exact run after rfl
  | error => exact start

theorem step_reachable {event : StoreEvent} (reached : Reachable state corpus (fun _ _ _ => True) s.db)
    (honest : event.Honest state corpus s) :
    Reachable state corpus (fun _ _ _ => True) (s.step state codec config event).db := by
  obtain ⟨now, action⟩ := event
  cases action with
  | content wireBytes arrivedFrom => exact reached.step (.content wireBytes arrivedFrom honest trivial)
  | birth birth genesis =>
    exact commit_db reached fun after run => reached.step (.birth birth genesis honest.1 honest.2 run)
  | thread sign user req => exact reached.step (.thread sign user req honest.2.1 honest.2.2)
  | reply sign user req => exact commit_db reached fun after run => reached.step (.reply sign user req honest.2 run)
  | edit sign user req => exact commit_db reached fun after run => reached.step (.edit sign user req honest.2 run)
  | retract sign user postId at' =>
    exact commit_db reached fun after run => reached.step (.retract sign user postId at' honest.2 run)
  | upload user input =>
    simp only [step]
    split
    · rename_i after run
      obtain ⟨stored, mime, fits, db, budget, -, uploaded, rfl⟩ := uploadBytes_ok run
      exact reached.step (.upload user _ uploaded)
    · exact reached
  | fetched hash body =>
    simp only [step, storeFetched_db]
    exact reached
  | served hash =>
    obtain ⟨accessedAt, eq⟩ := @bumpAccessedAt_frame s hash now
    simp only [step, eq]
    exact reached
  | sweep => exact commit_db reached fun after run => reached.step (.sweep _ run)
  | beginEviction maxBytes => exact reached
  | evictBatch =>
    obtain ⟨blob, eviction, eq⟩ := @evictBatch_frame s
    simp only [step, eq]
    exact reached

end BlobStore

def fileBirth : LocalUserBirth where
  publicKey := 5
  displayName := "e"
  skeleton := "e"
  signupMethod := .invite
  createdAtMs := 1000
  instanceDomain := "here"
  genesisAttestation := ⟨5, 1000, 9, []⟩
  profile := ⟨[0], List.replicate 64 0⟩
  move := ⟨[1], List.replicate 64 0⟩

def fileGenesis : Move :=
  ⟨5, none, none, 9, "here", 1000, 1000, ⟨5, 1000, 9, []⟩, none⟩

def fileThread : ThreadRequest where
  room := "room"
  title := "title"
  body := "text"
  link := none
  attachments := [⟨7, "text/plain", 1, "a.txt", by decide⟩]
  isAdmin := false
  now := 3
  threadId := 11
  postId := 21

theorem fileThread_fits : fileThread.attachments.length ≤ maxAttachmentsPerOp := by
  decide

theorem note_fits : 1 ≤ maxAttachmentSize := by
  decide

theorem image_fits : 3 ≤ maxAttachmentSize := by
  decide

theorem imageList_fits : [(⟨7, "image/png", 3, "a.png", image_fits⟩ : AttachmentRef)].length ≤ maxAttachmentsPerOp := by
  decide

/-- User 5 is born here and opens a thread with the file of hash 7. -/
def fileTable : List SignedPayload :=
  [.profileRevision fileBirth.genesisProfile, .move fileGenesis,
    .profileRevision ⟨1, "a", "", none, 1000, none⟩, .threadCreate ⟨10, 1, "room", "title", none, 20, 2000⟩,
    .postRevision { postId := 20, author := 1, threadId := 10, parentId := none, revision := 0, body := "text",
                    createdAt := 2000, attachments := [⟨7, "image/png", 3, "a.png", image_fits⟩], attachmentsFit := imageList_fits },
    .postRevision (fileThread.opening 5 ⟨fileThread.attachments, fileThread_fits⟩), .threadCreate (fileThread.thread 5),
    .postRevision { postId := 21, author := 1, threadId := 11, parentId := none, revision := 1, body := "mine",
                    createdAt := 4000, attachments := [] }]

def fileState : AppState :=
  AppState.ofTable fileTable

def signFile : Signer :=
  signByTable fileTable

/-- Where every file is plain text. -/
def textCodec : UploadCodec where
  inferGet _ := none
  isUtf8 _ := true
  intoDimensions _ _ := none
  reencode _ _ := none
  maxPxDecode := 8000

def fileConfig : UploadConfig where
  capBytes := 1000
  refillBytesPerDay := 0
  stagingTtlSeconds := 3600

theorem fileBirth_honest (s : BlobStore) (now : Nat) :
    StoreEvent.Honest fileState (fun _ => True) s ⟨now, .birth fileBirth fileGenesis⟩ := by
  have profile : signatureOk fileState.platform [0] (List.replicate 64 0) 5 = true := by decide
  have move : signatureOk fileState.platform [1] (List.replicate 64 0) 5 = true := by decide
  exact ⟨⟨trivial, rfl, 5, profile⟩, trivial, rfl, 5, move⟩

/-- The stranger's profile, thread and post. -/
def declaredEvents : List StoreEvent :=
  [⟨1000, .content [2] 8⟩, ⟨1001, .content [3] 8⟩, ⟨1002, .content [4] 8⟩]

end Prismoire
