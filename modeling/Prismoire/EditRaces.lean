import Prismoire.Bindings
import Prismoire.Lib.Run

namespace Prismoire

open Lib List Db

/-- A request about one post: the body of `edit_post`, or `retract_post`. -/
inductive PostRequest where
  | edit (user : Key) (body : Text) (attachments : List AttachmentRef) (now : Nat)
  | retract (user : Key) (now : Nat)

/-- How far a handler has got: nothing read, the `posts` row read and checked, the retraction signed
(a retraction only), or answered. -/
inductive PostStage where
  | started
  | checked (seen : PostRow)
  | signed
  | answered

structure PostCall where
  request : PostRequest
  stage : PostStage

/-- The database with the handlers that are running on one of its posts. -/
structure PostRaces where
  db : Db
  calls : List PostCall

/-- A request arrives, or a handler runs its next statement or its transaction, or fails at it. -/
inductive PostEvent where
  | arrive (request : PostRequest)
  | run (i : Nat)
  | fail (i : Nat)

section Handlers

variable (state : AppState) (sign : Signer)

section

variable (db : Db) (user : Key)

def checkEdit (req : EditRequest) : Posting PostRow :=
  match db.posts.find? (·.id = req.postId) with
  | none => .error .postNotFound
  | some post =>
    if post.parent.isSome && !req.attachments.isEmpty then
      .error .badRequest
    else if post.author ≠ user then
      .error .notPostAuthor
    else if post.retracted then
      .error .postRetracted
    else
      .ok post

def commitEdit (req : EditRequest) (seen : PostRow) : Posting Db :=
  match db.posts.find? (·.id = req.postId) with
  | none => .error .postNotFound
  | some post => do
    let db ← runSql (dropRemoved db req.postId (post.revisionCount - 1) req.attachments)
    let refs ← validateAttachments state.platform.nfc db user req.attachments
    ensure (hasActiveKey db user) .noKey
    let revision := req.revision user { seen with revisionCount := post.revisionCount } refs
    let signed := sign (.postRevision revision)
    let db ← runSql (db.insertPostRevision (localRevisionRow state revision signed))
    let db ← runSql (persistAttachmentBindings db req.postId (clampI64 post.revisionCount) refs.1)
    let db ← runSql (gcOrphanBlobs db)
    let db := db.storeSignedObject .postRev signed.payload signed.signature (state.platform.sha256 signed.payload)
    return setRevisionCount db req.postId (post.revisionCount + 1)

def checkRetract (postId : Uuid) : Posting PostRow :=
  match db.posts.find? (·.id = postId) with
  | none => .error .postNotFound
  | some post =>
    if post.author ≠ user then
      .error .notPostAuthor
    else if post.retracted then
      .error .postAlreadyRetracted
    else
      .ok post

def commitRetract (db : Db) (postId : Uuid) (signed : SigningOutput) : Posting Db := do
  let canonicalHash := state.platform.sha256 signed.payload
  let db := db.retractPosts (·.id = postId)
  let db := db.blankBodies (· = postId)
  let db ← runSql (db.deletePostAttachments (·.postId = postId))
  let db ← runSql (gcOrphanBlobs db)
  let db := db.storeSignedObject .retract signed.payload signed.signature canonicalHash
  runSql (db.erasePostRevPayloads postId (some canonicalHash))

theorem editPost_eq (req : EditRequest) :
    editPost state sign db user req = checkEdit db user req >>= commitEdit state sign db user req := by
  unfold editPost checkEdit
  cases found : db.posts.find? (·.id = req.postId) with
  | none => rfl
  | some post =>
    dsimp only
    split
    · rfl
    · split
      · rfl
      · split
        · rfl
        · show _ = commitEdit state sign db user req post
          simp only [commitEdit, found]

theorem retractPost_eq (postId : Uuid) (now : Nat) : retractPost state sign db user postId now = (do
      let _ ← checkRetract db user postId
      ensure (hasActiveKey db user) .noKey
      commitRetract state db postId (sign (.retraction { postId, author := user, createdAt := now * 1000 }))) := by
  unfold retractPost checkRetract
  cases db.posts.find? (·.id = postId) with
  | none => rfl
  | some post =>
    dsimp only
    split
    · rfl
    · split
      · rfl
      · rfl

end

variable (postId : Uuid)

def PostRequest.editRequest (body : Text) (attachments : List AttachmentRef) (now : Nat) : EditRequest :=
  { postId, body, attachments, now }

/-- The next statement of a handler: what the database is after it and where the handler stands. -/
def PostCall.next (db : Db) (call : PostCall) : Db × PostStage :=
  match call.request, call.stage with
  | .edit user body attachments now, .started =>
    match checkEdit db user (PostRequest.editRequest postId body attachments now) with
    | .ok seen => (db, .checked seen)
    | .error _ => (db, .answered)
  | .edit user body attachments now, .checked seen =>
    match commitEdit state sign db user (PostRequest.editRequest postId body attachments now) seen with
    | .ok after => (after, .answered)
    | .error _ => (db, .answered)
  | .retract user _, .started =>
    match checkRetract db user postId with
    | .ok seen => (db, .checked seen)
    | .error _ => (db, .answered)
  | .retract user _, .checked _ => (db, if hasActiveKey db user then .signed else .answered)
  | .retract user now, .signed =>
    match commitRetract state db postId (sign (.retraction { postId, author := user, createdAt := now * 1000 })) with
    | .ok after => (after, .answered)
    | .error _ => (db, .answered)
  | .edit .., .signed => (db, .answered)
  | _, .answered => (db, .answered)

def PostRaces.setStage (races : PostRaces) (i : Nat) (call : PostCall) (stage : PostStage) : PostRaces :=
  { races with calls := races.calls.set i { call with stage } }

def PostRaces.step (races : PostRaces) : PostEvent → PostRaces
  | .arrive request => { races with calls := races.calls ++ [⟨request, .started⟩] }
  | .run i =>
    match races.calls[i]? with
    | none => races
    | some call =>
      let (db, stage) := call.next state sign postId races.db
      { races.setStage i call stage with db }
  | .fail i =>
    match races.calls[i]? with
    | none => races
    | some call => races.setStage i call .answered

end Handlers

def SignedObjectRow.LivePostRev (platform : Platform) (postId : Uuid) (row : SignedObjectRow) : Prop :=
  row.innerClass = .postRev ∧ ∃ p, row.payload.bind platform.parse = some (.postRevision p) ∧ p.postId = postId

/-- What a retraction promises: no text, no signed bytes and no attachment of the post is left. -/
structure PostErased (platform : Platform) (postId : Uuid) (db : Db) : Prop where
  bodies : ∀ row ∈ db.postRevisions, row.postId = postId → row.body = ""
  payloads : ∀ row ∈ db.signedObjects, ¬ row.LivePostRev platform postId
  bindings : ∀ row ∈ db.postAttachments, row.postId ≠ postId

def Db.retracted (db : Db) (postId : Uuid) : Prop :=
  ∃ post ∈ db.posts, post.id = postId ∧ post.retracted = true

instance (db : Db) (postId : Uuid) : Decidable (db.retracted postId) :=
  inferInstanceAs (Decidable (∃ post ∈ db.posts, post.id = postId ∧ post.retracted = true))

def RevisionsExact (postId : Uuid) (db : Db) : Prop :=
  ∀ post ∈ db.posts, post.id = postId → ∀ r, db.hasRevision postId r = true ↔ r < post.revisionCount

/-- The state of a post between transactions; its live post-revs are the recorded ones. -/
structure PostKept (platform : Platform) (postId : Uuid) (db : Db) : Prop where
  revisions : RevisionsExact postId db
  recorded : ∀ row ∈ db.signedObjects, row.LivePostRev platform postId →
    ∃ revision ∈ db.postRevisions, revision.postId = postId ∧ revision.canonicalHash = row.canonicalHash
  erased : db.retracted postId → PostErased platform postId db

section Transactions

variable {state : AppState} {sign : Signer} {db after : Db} {user : Key} {signed : SigningOutput} {req : EditRequest}
  {seen : PostRow}

theorem commitEdit_ok (run : commitEdit state sign db user req seen = .ok after) :
    ∃ post dropped refs payload signature row, db.posts.find? (·.id = req.postId) = some post ∧
      dropRemoved db req.postId (post.revisionCount - 1) req.attachments = .ok dropped ∧
      validateAttachments state.platform.nfc dropped user req.attachments = .ok refs ∧
      row.postId = req.postId ∧ row.revision = clampI64 post.revisionCount ∧ row.body = req.body ∧
      row.canonicalHash = state.platform.sha256 payload ∧
      db.hasRevision req.postId (clampI64 post.revisionCount) = false ∧
      after.postRevisions = db.postRevisions ++ [row] ∧
      after.signedObjects = (db.storeSignedObject .postRev payload signature
        (state.platform.sha256 payload)).signedObjects ∧
      after.posts = updateWhere (·.id = req.postId)
        (fun old => { old with revisionCount := post.revisionCount + 1 }) db.posts ∧
      after.users = db.users ∧
      after.postAttachments = dropped.postAttachments ++
        refs.1.zipIdx.map (bindingRow req.postId (clampI64 post.revisionCount)) := by
  unfold commitEdit at run
  cases found : db.posts.find? (·.id = req.postId) with
  | none => simp [found] at run
  | some post =>
    rw [found] at run
    obtain ⟨dropped, dropRun, run⟩ := bind_ok.mp run
    obtain ⟨refs, validated, run⟩ := bind_ok.mp run
    obtain ⟨-, run⟩ := ensure_bind_ok.mp run
    obtain ⟨recorded, revisionRun, run⟩ := bind_ok.mp run
    obtain ⟨bound, boundRun, run⟩ := bind_ok.mp run
    obtain ⟨collected, gcRun, run⟩ := bind_ok.mp run
    cases run
    rw [runSql_ok] at dropRun revisionRun boundRun gcRun
    refine ⟨post, dropped, refs, ?_⟩
    rw [dropRun, validated]
    obtain ⟨blobs, rfl⟩ := dropRemoved_frame dropRun
    obtain ⟨fresh, -, rfl⟩ := insertPostRevision_ok.mp revisionRun
    obtain ⟨blobs', rfl⟩ := persistAttachmentBindings_frame boundRun
    obtain ⟨blobs'', rfl⟩ := gcOrphanBlobs_frame gcRun
    exact ⟨_, _, _, rfl, rfl, rfl, rfl, rfl, rfl, rfl, fresh, rfl, rfl, rfl, rfl, rfl⟩

theorem commitRetract_ok {postId : Uuid}
    (run : commitRetract state db postId signed = .ok after) :
    after.posts = updateWhere (fun post => decide (post.id = postId) && !post.retracted)
        (fun post => { post with retracted := true }) db.posts ∧
      after.postRevisions = updateWhere (fun row => decide (row.postId = postId))
        (fun row => { row with body := "" }) db.postRevisions ∧
      after.postAttachments = (db.postAttachments.filter fun row => !decide (row.postId = postId)) ∧
      after.users = db.users ∧
      after.signedObjects = updateWhere (erasable fun hash => after.postRevisions.any fun row =>
          row.canonicalHash = hash ∧ row.postId = postId)
        (eraseRow (some (state.platform.sha256 signed.payload)))
        (db.storeSignedObject .retract signed.payload signed.signature
          (state.platform.sha256 signed.payload)).signedObjects := by
  obtain ⟨unbound, unboundRun, run⟩ := bind_ok.mp run
  obtain ⟨collected, gcRun, run⟩ := bind_ok.mp run
  rw [runSql_ok] at unboundRun gcRun run
  obtain ⟨blobs, rfl⟩ := deletePostAttachments_frame unboundRun
  obtain ⟨blobs', rfl⟩ := gcOrphanBlobs_frame gcRun
  rw [erasePostRevPayloads] at run
  have frame := erasePayloads_frame run
  subst frame
  exact ⟨rfl, rfl, rfl, rfl, rfl⟩

theorem mem_storeSignedObject {cls : InnerClass} {payload signature : Bytes} {hash : Hash} {row : SignedObjectRow}
    (mem : row ∈ (db.storeSignedObject cls payload signature hash).signedObjects) :
    row ∈ db.signedObjects ∨ row.canonicalHash = hash ∧ row.innerClass = cls := by
  cases present : db.hasObject hash with
  | true =>
    rw [storeSignedObject_of_present present] at mem
    exact .inl mem
  | false =>
    rw [storeSignedObject_of_absent present] at mem
    rcases mem_concat.mp mem with old | new
    · exact .inl old
    · rw [new]
      exact .inr ⟨rfl, rfl⟩

section

variable (ints : ∀ row ∈ db.postRevisions, db.hasPost row.postId = true)
include ints

theorem PostKept.opened {platform : Platform} {postId : Uuid} {post : PostRow} {row : PostRevisionRow}
    (fresh : db.hasPost postId = false)
    (posts : after.posts = db.posts ++ [post]) (standing : post.retracted = false) (counted : post.revisionCount = 1)
    (revisions : after.postRevisions = db.postRevisions ++ [row]) (samePost : row.postId = postId)
    (first : row.revision = 0)
    (signed : ∀ object ∈ after.signedObjects, object.LivePostRev platform postId →
      object.canonicalHash = row.canonicalHash) : PostKept platform postId after := by
  have isNew : ∀ other ∈ after.posts, other.id = postId → other = post := by
    intro other mem sameId
    rw [posts] at mem
    rcases mem_concat.mp mem with old | new
    · have known : db.hasPost postId = true := any_eq_true.mpr ⟨other, old, decide_eq_true sameId⟩
      rw [fresh] at known
      cases known
    · exact new
  have unrevised : ∀ r, db.hasRevision postId r = false := by
    intro r
    rw [hasRevision, any_eq_false]
    intro old mem same
    have known := ints old mem
    rw [(of_decide_eq_true same).1, fresh] at known
    cases known
  constructor
  · intro other mem sameId r
    have has : after.hasRevision postId r = (db.hasRevision postId r || decide (0 = r)) := by
      simp [hasRevision, revisions, samePost, first]
    rw [isNew other mem sameId, counted, has, unrevised, Bool.false_or, decide_eq_true_iff]
    omega
  · intro object mem live
    refine ⟨row, ?_, samePost, (signed object mem live).symm⟩
    rw [revisions]
    exact mem_append_right _ (mem_singleton.mpr rfl)
  · rintro ⟨other, mem, sameId, gone⟩
    rw [isNew other mem sameId, standing] at gone
    cases gone

theorem PostKept.writeThread {req : ThreadRequest}
    (unsigned : ∀ object ∈ db.signedObjects, ¬ object.LivePostRev state.platform req.postId)
    (run : writeThread state sign db user req = .ok after) : PostKept state.platform req.postId after := by
  obtain ⟨threaded, opened, refs, recorded, bound, threadRun, postRun, validated, -, revisionRun, boundRun, rfl⟩ :=
    writeThread_statements run
  obtain ⟨-, -, -, rfl⟩ := insertThread_ok.mp threadRun
  obtain ⟨fresh, -, -, -, rfl⟩ := insertPost_ok.mp postRun
  obtain ⟨-, -, rfl⟩ := insertPostRevision_ok.mp revisionRun
  obtain ⟨blobs, rfl⟩ := persistAttachmentBindings_frame boundRun
  refine .opened ints fresh rfl rfl rfl rfl rfl rfl ?_
  intro object mem live
  rcases mem_storeSignedObject mem with stored | ⟨-, cls⟩
  · rcases mem_storeSignedObject stored with old | ⟨hash, -⟩
    · exact absurd live (unsigned object old)
    · exact hash
  · exact absurd (live.1.symm.trans cls) nofun

end

theorem PostKept.commitEdit (kept : PostKept state.platform req.postId db) (standing : ¬ db.retracted req.postId)
    (run : commitEdit state sign db user req seen = .ok after) :
    PostKept state.platform req.postId after := by
  obtain ⟨post, -, -, payload, signature, row, found, -, -, rowPost, rowRevision, -, rowHash, fresh, revisions,
    objects, posts, -, -⟩ := commitEdit_ok run
  have mem := mem_of_find?_eq_some found
  have samePost : post.id = req.postId := by simpa using find?_some found
  have exact_ := kept.revisions post mem samePost
  constructor
  · -- the count was free as a revision, so it is not beyond what the column holds
    have unclamped : clampI64 post.revisionCount = post.revisionCount := by
      have free : ¬ clampI64 post.revisionCount < post.revisionCount := by
        rw [← exact_, fresh]
        exact Bool.false_ne_true
      have below : clampI64 post.revisionCount ≤ post.revisionCount := Nat.min_le_left _ _
      omega
    intro other inPosts sameId r
    rw [posts] at inPosts
    have has : after.hasRevision req.postId r = true ↔
        db.hasRevision req.postId r = true ∨ post.revisionCount = r := by
      simp only [hasRevision, revisions, any_append, any_cons, any_nil, Bool.or_false,
        Bool.or_eq_true, decide_eq_true_eq, rowPost, rowRevision, unclamped, true_and]
    rw [has, exact_]
    obtain ⟨old, -, ⟨-, rfl⟩ | ⟨miss, rfl⟩⟩ := mem_updateWhere.mp inPosts
    · show _ ↔ r < post.revisionCount + 1
      omega
    · exact absurd sameId (by simpa using miss)
  · intro object inObjects live
    rw [objects] at inObjects
    rcases mem_storeSignedObject inObjects with old | ⟨hash, -⟩
    · obtain ⟨revision, inRevisions, names⟩ := kept.recorded object old live
      exact ⟨revision, revisions ▸ mem_append_left _ inRevisions, names⟩
    · exact ⟨row, revisions ▸ mem_append_right _ (mem_singleton.mpr rfl), rowPost, rowHash.trans hash.symm⟩
  · intro gone
    rw [Db.retracted, posts] at gone
    refine absurd ((exists_mem_updateWhere ?_).mp gone) standing
    exact fun _ => Iff.rfl

theorem PostKept.commitRetract {postId : Uuid} (kept : PostKept state.platform postId db)
    (run : commitRetract state db postId signed = .ok after) : PostKept state.platform postId after := by
  obtain ⟨posts, revisions, bindings, -, objects⟩ := commitRetract_ok run
  have recorded : ∀ row ∈ after.signedObjects, row.LivePostRev state.platform postId →
      ∃ revision ∈ after.postRevisions, revision.postId = postId ∧ revision.canonicalHash = row.canonicalHash := by
    intro row mem live
    rw [objects] at mem
    obtain ⟨old, inStored, ⟨-, rfl⟩ | ⟨-, rfl⟩⟩ := mem_updateWhere.mp mem
    · obtain ⟨-, p, bytes, -⟩ := live
      cases bytes
    · rcases mem_storeSignedObject inStored with known | ⟨-, cls⟩
      · obtain ⟨revision, inRevisions, samePost, sameHash⟩ := kept.recorded row known live
        refine ⟨{ revision with body := "" }, ?_, samePost, sameHash⟩
        rw [revisions]
        exact mem_updateWhere.mpr ⟨revision, inRevisions, .inl ⟨decide_eq_true samePost, rfl⟩⟩
      · exact absurd (live.1.symm.trans cls) nofun
  constructor
  · intro other inPosts sameId r
    have has : after.hasRevision postId r = db.hasRevision postId r := by
      rw [hasRevision, revisions]
      exact any_updateWhere (by intro row; rfl) _
    rw [posts] at inPosts
    rw [has]
    refine forall_mem_updateWhere kept.revisions ?_ other inPosts sameId r
    exact fun _ => id
  · exact recorded
  · intro _
    constructor
    · intro row mem samePost
      rw [revisions] at mem
      obtain ⟨old, -, ⟨-, rfl⟩ | ⟨miss, rfl⟩⟩ := mem_updateWhere.mp mem
      · rfl
      · exact absurd samePost (by simpa using miss)
    · intro row mem live
      obtain ⟨revision, inRevisions, samePost, sameHash⟩ := recorded row mem live
      obtain ⟨-, p, bytes, -⟩ := live
      rw [objects] at mem
      obtain ⟨old, -, ⟨-, rfl⟩ | ⟨miss, rfl⟩⟩ := mem_updateWhere.mp mem
      · cases bytes
      · have present : row.payload.isSome = true := by
          cases payload : row.payload with
          | none => simp [payload] at bytes
          | some _ => rfl
        have targeted : (after.postRevisions.any fun revision =>
            revision.canonicalHash = row.canonicalHash ∧ revision.postId = postId) = true :=
          any_eq_true.mpr ⟨revision, inRevisions, decide_eq_true ⟨sameHash, samePost⟩⟩
        rw [erasable, present, targeted] at miss
        cases miss
    · intro row mem samePost
      rw [bindings] at mem
      have other := (mem_filter.mp mem).2
      simp [samePost] at other

end Transactions

section Races

variable {state : AppState} {sign : Signer} {postId : Uuid}

/-- A handler whose next step is the transaction of an edit. -/
def PostCall.committing (call : PostCall) : Bool :=
  match call.request, call.stage with
  | .edit .., .checked _ => true
  | _, _ => false

def EditsStanding (postId : Uuid) (races : PostRaces) : PostEvent → Prop
  | .run i => races.calls[i]?.any PostCall.committing = true → ¬ races.db.retracted postId
  | _ => True

instance (races : PostRaces) : (event : PostEvent) → Decidable (EditsStanding postId races event)
  | .run i =>
    inferInstanceAs (Decidable (races.calls[i]?.any PostCall.committing = true → ¬ races.db.retracted postId))
  | .arrive _ | .fail _ => isTrue trivial

theorem PostKept.next {db : Db} {call : PostCall} (kept : PostKept state.platform postId db)
    (standing : call.committing = true → ¬ db.retracted postId) :
    PostKept state.platform postId (call.next state sign postId db).1 := by
  obtain ⟨request, stage⟩ := call
  cases request with
  | edit user body attachments now =>
    cases stage with
    | started =>
      simp only [PostCall.next]
      split <;> exact kept
    | checked seen =>
      simp only [PostCall.next]
      split
      · rename_i after run
        have edited : PostKept state.platform (PostRequest.editRequest postId body attachments now).postId after :=
          PostKept.commitEdit kept (standing rfl) run
        exact edited
      · exact kept
    | signed | answered => exact kept
  | retract user now =>
    cases stage with
    | started =>
      simp only [PostCall.next]
      split <;> exact kept
    | checked seen => exact kept
    | signed =>
      simp only [PostCall.next]
      split
      · rename_i after run
        exact kept.commitRetract run
      · exact kept
    | answered => exact kept

theorem PostKept.step {races : PostRaces} (kept : PostKept state.platform postId races.db) {event : PostEvent}
    (standing : EditsStanding postId races event) :
    PostKept state.platform postId (races.step state sign postId event).db := by
  cases event with
  | arrive request => exact kept
  | run i =>
    rw [PostRaces.step]
    split
    · exact kept
    · rename_i call found
      refine kept.next ?_
      intro committing
      exact standing (by rw [found]; exact committing)
  | fail i =>
    rw [PostRaces.step]
    split
    · exact kept
    · exact kept

end Races

/-- While edits commit only on a standing post, its revisions stay exact and a retraction is final. -/
theorem retraction_erases {state : AppState} {sign : Signer} {postId : Uuid} {db : Db}
    {events : List PostEvent} (kept : PostKept state.platform postId db)
    (meets : MeetAlong (PostRaces.step state sign postId) (EditsStanding postId) ⟨db, []⟩ events) :
    let final := (events.foldl (PostRaces.step state sign postId) ⟨db, []⟩).db
    RevisionsExact postId final ∧ (final.retracted postId → PostErased state.platform postId final) := by
  have keeps : ∀ races event, PostKept state.platform postId (PostRaces.db races) → EditsStanding postId races event →
      PostKept state.platform postId (races.step state sign postId event).db :=
    fun _ _ kept standing => kept.step standing
  have final := meets.invariant keeps kept
  exact ⟨final.revisions, final.erased⟩

def racedThread : ThreadRequest where
  room := "room"
  title := "title"
  body := "text"
  link := none
  attachments := []
  isAdmin := false
  now := 2
  threadId := 10
  postId := 20

def racedTable : List SignedPayload :=
  [.postRevision (racedThread.opening 1 ⟨[], noRefs⟩), .threadCreate (racedThread.thread 1),
    .postRevision { racedThread.opening 1 ⟨[], noRefs⟩ with
      revision := 1
      body := "edited"
      createdAt := 3000 },
    .retraction { postId := 20, author := 1, createdAt := 4000 }]

def racedState : AppState :=
  AppState.ofTable racedTable

def signRaced : Signer :=
  signByTable racedTable

def homedDb : Db :=
  { users := [{ publicKey := 1, displayName := "a", displayNameSkeleton := "a", signupMethod := .invite,
                homeInstance := none }]
    signingKeys := [{ user := 1 }]
    rooms := [{ slug := "room", createdBy := 1 }] }

/-- User 1 has opened the thread. -/
def racedDb : Db :=
  (createThread racedState signRaced homedDb 1 racedThread).2

theorem racedDb_kept : PostKept racedState.platform 20 racedDb := by
  have written : writeThread racedState signRaced homedDb 1 racedThread = .ok racedDb := by decide +kernel
  exact PostKept.writeThread (by decide) (by simp [homedDb]) written

def editRequest : PostRequest :=
  .edit 1 "edited" [] 3

def retractRequest : PostRequest :=
  .retract 1 4

/-- An edit, then a retraction, then an edit that finds the post retracted. -/
theorem retraction_erases_in_order :
    let final := ([.arrive editRequest, .run 0, .run 0, .arrive retractRequest, .run 1, .run 1, .run 1,
      .arrive editRequest, .run 2].foldl (PostRaces.step racedState signRaced 20) ⟨racedDb, []⟩).db
    final.retracted 20 ∧ RevisionsExact 20 final ∧ (final.retracted 20 → PostErased racedState.platform 20 final) :=
  ⟨by decide +kernel, retraction_erases racedDb_kept (by decide +kernel)⟩

/-- The edit has passed its checks when the retraction commits, and writes its text after it. -/
theorem late_edit_survives : PostKept racedState.platform 20 racedDb ∧
      let final := ([.arrive editRequest, .run 0, .arrive retractRequest, .run 1, .run 1, .run 1, .run 0].foldl
        (PostRaces.step racedState signRaced 20) ⟨racedDb, []⟩).db
      final.retracted 20 ∧ (∃ row ∈ final.postRevisions, row.postId = 20 ∧ row.body = "edited") ∧
        ¬ PostErased racedState.platform 20 final := by
  refine ⟨racedDb_kept, by decide +kernel, by decide +kernel, ?_⟩
  intro erased
  have text : ∃ row ∈ (([.arrive editRequest, .run 0, .arrive retractRequest, .run 1, .run 1, .run 1,
      .run 0].foldl (PostRaces.step racedState signRaced 20) ⟨racedDb, []⟩).db).postRevisions,
      row.postId = 20 ∧ row.body ≠ "" := by decide +kernel
  obtain ⟨row, mem, post, body⟩ := text
  exact body (erased.bodies row mem post)

end Prismoire
