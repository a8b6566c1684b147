import Prismoire.ContentEffects
import Prismoire.LocalTrust

namespace Prismoire

open Lib List Db

theorem runSql_ok {α : Type} {step : Sql α} {result : α} : runSql step = .ok result ↔ step = .ok result := by
  cases step <;> simp [runSql]

theorem ensure_bind_ok {α : Type} {holds : Bool} {refusal : PostingError} {next : Unit → Posting α} {result : α} :
    (ensure holds refusal >>= next) = .ok result ↔ holds = true ∧ next () = .ok result := by
  cases holds <;> simp [ensure, bind, Except.bind]

/-- The bytes a call has signed, in the order the handler stores them. -/
def storeSigned (state : AppState) (sign : Signer) (db : Db)
    (object : SignedPayload) (cls : InnerClass) : Db :=
  db.storeSignedObject cls (sign object).payload (sign object).signature (state.platform.sha256 (sign object).payload)

variable {after db : Db} {sign : Signer} {state : AppState} {user : Key}

section Statements

theorem writeThread_statements {req : ThreadRequest} (run : writeThread state sign db user req = .ok after) :
    ∃ threaded opened refs recorded bound, db.insertThread (localThreadRow state (req.thread user)) = .ok threaded ∧
      threaded.insertPost (localPostRow state (req.opening user ⟨[], by decide⟩)) = .ok opened ∧
      validateAttachments state.platform.nfc opened user req.attachments = .ok refs ∧ hasActiveKey opened user = true ∧
      opened.insertPostRevision (localRevisionRow state (req.opening user refs)
        (sign (.postRevision (req.opening user refs)))) = .ok recorded ∧
      persistAttachmentBindings recorded req.postId 0 refs.1 = .ok bound ∧
      after = stampThread (storeSigned state sign
        (storeSigned state sign bound (.postRevision (req.opening user refs)) .postRev)
        (.threadCreate (req.thread user)) .threadCreate) req.threadId
        (state.platform.sha256 (sign (.threadCreate (req.thread user))).payload) := by
  unfold writeThread at run
  obtain ⟨threaded, threadRun, run⟩ := bind_ok.mp run
  obtain ⟨opened, postRun, run⟩ := bind_ok.mp run
  obtain ⟨refs, validated, run⟩ := bind_ok.mp run
  obtain ⟨keyed, run⟩ := ensure_bind_ok.mp run
  obtain ⟨recorded, revisionRun, run⟩ := bind_ok.mp run
  obtain ⟨bound, boundRun, run⟩ := bind_ok.mp run
  cases run
  rw [runSql_ok] at threadRun postRun revisionRun boundRun
  exact ⟨threaded, opened, refs, recorded, bound, threadRun, postRun, validated, keyed, revisionRun, boundRun, rfl⟩

theorem createReply_statements {req : ReplyRequest} (run : createReply state sign db user req = .ok after) :
    ∃ opened recorded, hasActiveKey db user = true ∧
      db.insertPost (localPostRow state (req.reply user)) = .ok opened ∧
      opened.insertPostRevision (localRevisionRow state (req.reply user)
        (sign (.postRevision (req.reply user)))) = .ok recorded ∧
      after = touchThread (storeSigned state sign recorded (.postRevision (req.reply user)) .postRev) req.threadId
        (iso8601FromMs state.platform (req.now * 1000)) := by
  unfold createReply at run
  repeat' split at run
  all_goals try cases run
  obtain ⟨keyed, run⟩ := ensure_bind_ok.mp run
  obtain ⟨opened, postRun, run⟩ := bind_ok.mp run
  obtain ⟨recorded, revisionRun, run⟩ := bind_ok.mp run
  cases run
  rw [runSql_ok] at postRun revisionRun
  exact ⟨opened, recorded, keyed, postRun, revisionRun, rfl⟩

theorem editPost_statements {req : EditRequest} (run : editPost state sign db user req = .ok after) :
    ∃ post dropped refs recorded bound collected, db.posts.find? (·.id = req.postId) = some post ∧
      dropRemoved db req.postId (post.revisionCount - 1) req.attachments = .ok dropped ∧
      validateAttachments state.platform.nfc dropped user req.attachments = .ok refs ∧
      dropped.insertPostRevision (localRevisionRow state (req.revision user post refs)
        (sign (.postRevision (req.revision user post refs)))) = .ok recorded ∧
      persistAttachmentBindings recorded req.postId (clampI64 post.revisionCount) refs.1 = .ok bound ∧
      gcOrphanBlobs bound = .ok collected ∧
      after = setRevisionCount (storeSigned state sign collected (.postRevision (req.revision user post refs)) .postRev)
        req.postId (post.revisionCount + 1) := by
  unfold editPost at run
  split at run
  · cases run
  · rename_i post found
    repeat' split at run
    all_goals try cases run
    obtain ⟨dropped, dropRun, run⟩ := bind_ok.mp run
    obtain ⟨refs, validated, run⟩ := bind_ok.mp run
    obtain ⟨-, run⟩ := ensure_bind_ok.mp run
    obtain ⟨recorded, revisionRun, run⟩ := bind_ok.mp run
    obtain ⟨bound, boundRun, run⟩ := bind_ok.mp run
    obtain ⟨collected, gcRun, run⟩ := bind_ok.mp run
    cases run
    rw [runSql_ok] at dropRun revisionRun boundRun gcRun
    exact ⟨post, dropped, refs, recorded, bound, collected, found, dropRun, validated, revisionRun, boundRun, gcRun,
      rfl⟩

theorem retractPost_statements {postId : Uuid} {now : Nat}
    (run : retractPost state sign db user postId now = .ok after) :
    ∃ unbound collected,
      ((db.retractPosts (·.id = postId)).blankBodies (· = postId)).deletePostAttachments (·.postId = postId) =
        .ok unbound ∧
      gcOrphanBlobs unbound = .ok collected ∧
      (storeSigned state sign collected (.retraction { postId, author := user, createdAt := now * 1000 })
        .retract).erasePostRevPayloads postId (some (state.platform.sha256
          (sign (.retraction { postId, author := user, createdAt := now * 1000 })).payload)) = .ok after := by
  unfold retractPost at run
  repeat' split at run
  all_goals try cases run
  obtain ⟨-, run⟩ := ensure_bind_ok.mp run
  obtain ⟨unbound, unboundRun, run⟩ := bind_ok.mp run
  obtain ⟨collected, gcRun, run⟩ := bind_ok.mp run
  rw [runSql_ok] at unboundRun gcRun run
  exact ⟨unbound, collected, unboundRun, gcRun, run⟩

end Statements

variable {corpus : Corpus} {refs : List AttachmentRef}

section Shift

/--
A handler stores its signed bytes, and stamps its thread row, after the inserts. `shift` puts both
in front: the inserts in between do not look at them.
-/
def shift (objects : List SignedObjectRow) (threads : List ThreadRow) (db : Db) : Db :=
  { db with
    signedObjects := objects
    threads := threads }

variable {objects : List SignedObjectRow} {threads : List ThreadRow}

theorem insertPost_shift {post : PostRow} (sameIds : threads.any (·.id = post.thread) = db.hasThread post.thread)
    (run : db.insertPost post = .ok after) :
    (shift objects threads db).insertPost post = .ok (shift objects threads after) := by
  obtain ⟨fresh, author, thread, parent, rfl⟩ := insertPost_ok.mp run
  exact insertPost_ok.mpr ⟨fresh, author, sameIds.trans thread, parent, rfl⟩

theorem replaceThreadsFts_congr {fts : List ThreadsFtsRow} {thread : Uuid} {opBody : Text}
    {opPost : Option Uuid} {old new : List ThreadRow}
    (same : (new.find? (·.id = thread)).map (·.title) = (old.find? (·.id = thread)).map (·.title)) :
    replaceThreadsFts new fts thread opBody opPost = replaceThreadsFts old fts thread opBody opPost := by
  unfold replaceThreadsFts
  cases before : old.find? (·.id = thread) with
  | none =>
    cases now : new.find? (·.id = thread) with
    | none => rfl
    | some row => simp [before, now] at same
  | some oldRow =>
    cases now : new.find? (·.id = thread) with
    | none => simp [before, now] at same
    | some row =>
      have title : row.title = oldRow.title := by simpa [before, now] using same
      simp only [title]

theorem withPostRevision_shift {row : PostRevisionRow}
    (sameTitles : ∀ thread, (threads.find? (·.id = thread)).map (·.title) =
      (db.threads.find? (·.id = thread)).map (·.title)) :
    (shift objects threads db).withPostRevision row = shift objects threads (db.withPostRevision row) := by
  have indexed : threadsFtsOpBodyAfterRevision
      { shift objects threads db with postRevisions := db.postRevisions ++ [row] } row =
      threadsFtsOpBodyAfterRevision { db with postRevisions := db.postRevisions ++ [row] } row := by
    unfold threadsFtsOpBodyAfterRevision
    dsimp only [shift]
    cases db.posts.find? (·.id = row.postId) with
    | none => rfl
    | some post =>
      simp only [replaceThreadsFts_congr (sameTitles post.thread)]
      rfl
  simp only [withPostRevision, shift] at indexed ⊢
  rw [indexed]
  rfl

theorem insertPostAttachment_shift {row : PostAttachmentRow} (run : db.insertPostAttachment row = .ok after) :
    (shift objects threads db).insertPostAttachment row = .ok (shift objects threads after) := by
  obtain ⟨position, fresh, blob, revision, rfl⟩ := insertPostAttachment_ok.mp run
  exact insertPostAttachment_ok.mpr ⟨position, fresh, blob, revision, rfl⟩

theorem deletePostAttachments_shift {doomed : PostAttachmentRow → Bool}
    (run : db.deletePostAttachments doomed = .ok after) :
    (shift objects threads db).deletePostAttachments doomed = .ok (shift objects threads after) := by
  obtain ⟨blobs, released, returned⟩ := bind_ok.mp run
  cases returned
  exact bind_ok.mpr ⟨blobs, released, rfl⟩

theorem gcOrphanBlobs_shift (run : gcOrphanBlobs db = .ok after) :
    gcOrphanBlobs (shift objects threads db) = .ok (shift objects threads after) := by
  simp only [gcOrphanBlobs, require_bind_ok] at run ⊢
  obtain ⟨unbound, returned⟩ := run
  cases returned
  exact ⟨unbound, rfl⟩

variable {postId : Uuid}

def ShiftedEffects (state : AppState) (corpus : Corpus) (objects : List SignedObjectRow) (threads : List ThreadRow)
    (db after : Db) : Prop :=
  Effects state corpus false (shift objects threads db) (shift objects threads after) ∧
    after.signedObjects = db.signedObjects ∧ after.threads = db.threads

theorem persistAttachmentBindings_shift {revision : Nat}
    (run : persistAttachmentBindings db postId revision refs = .ok after) :
    ShiftedEffects state corpus objects threads db after := by
  refine foldlM_invariant (ShiftedEffects state corpus objects threads db) ?_ ⟨.refl, rfl, rfl⟩ run
  rintro ref _ mid final ⟨reached, sameObjects, sameThreads⟩ persisted
  obtain ⟨bound, boundRun, returned⟩ := bind_ok.mp persisted
  cases returned
  have bind : Effect state corpus false (shift objects threads mid) (shift objects threads bound) :=
    .bind (insertPostAttachment_shift boundRun)
  obtain ⟨-, -, -, -, rfl⟩ := insertPostAttachment_ok.mp boundRun
  exact ⟨(reached.tail bind).tail (.aside _ _ _ _ _ _), sameObjects, sameThreads⟩

theorem dropRemoved_shift {prior : Nat} (run : dropRemoved db postId prior refs = .ok after) :
    ShiftedEffects state corpus objects threads db after := by
  refine foldlM_invariant (ShiftedEffects state corpus objects threads db) ?_ ⟨.refl, rfl, rfl⟩ run
  rintro hash _ mid final ⟨reached, sameObjects, sameThreads⟩ dropped
  have unbind : Effect state corpus false (shift objects threads mid) (shift objects threads final) :=
    .unbind (deletePostAttachments_shift dropped)
  obtain ⟨blobs, rfl⟩ := deletePostAttachments_frame dropped
  exact ⟨reached.tail unbind, sameObjects, sameThreads⟩

end Shift

/-- The signer returns bytes of the run that parse back to the object and verify. -/
def Signs (state : AppState) (corpus : Corpus) (sign : Signer)
    (object : SignedPayload) : Prop :=
  Filed state.platform corpus (sign object).payload (sign object).signature object

variable {object : SignedPayload} {cls : InnerClass} {rows : List ThreadRow} {row : ThreadRow} {hash : Hash}
    {req : ThreadRequest}

theorem validateAttachments_ok {nfc : Text → Text} {result : AttachmentRefs}
    (run : validateAttachments nfc db user refs = .ok result) : result.1 = refs := by
  unfold validateAttachments at run
  split at run
  · obtain ⟨-, -, returned⟩ := bind_ok.mp run
    cases returned
    rfl
  · cases run

theorem Signs.store (signs : Signs state corpus sign object) (isClass : object.innerClass = some cls) :
    Effect state corpus false db (db.storeSignedObject cls (sign object).payload (sign object).signature
      (state.platform.sha256 (sign object).payload)) :=
  .store signs isClass

def stamped (hash : Hash) (row : ThreadRow) : ThreadRow :=
  { row with threadCreateHash := some hash }

theorem updateWhere_stamped (fresh : rows.any (·.id = row.id) = false) :
    updateWhere (·.id = row.id) (stamped hash) (rows ++ [row]) = rows ++ [stamped hash row] := by
  have others : ∀ other ∈ rows, decide (other.id = row.id) = false := by
    simpa using fresh
  have kept : updateWhere (·.id = row.id) (stamped hash) rows = rows := updateWhere_eq_self others
  simp only [updateWhere, map_append, map_cons, map_nil, decide_true, if_true] at kept ⊢
  rw [kept]

theorem storeSigned_congr {other : Db} (same : other.signedObjects = db.signedObjects) :
    (storeSigned state sign other object cls).signedObjects =
      (storeSigned state sign db object cls).signedObjects := by
  unfold storeSigned storeSignedObject hasObject
  rw [same]

theorem stamped_reads (id : Uuid) : (rows ++ [stamped hash row]).any (·.id = id) = (rows ++ [row]).any (·.id = id) ∧
      ((rows ++ [stamped hash row]).find? (·.id = id)).map (·.title) =
        ((rows ++ [row]).find? (·.id = id)).map (·.title) := by
  constructor
  · simp [stamped]
  · simp only [find?_append, find?_singleton]
    cases rows.find? (·.id = id) with
    | none =>
      by_cases same : row.id = id <;> simp [stamped, same]
    | some old => rfl

section

variable
  (signsOpening : ∀ refs : AttachmentRefs, refs.1 = req.attachments → Signs state corpus sign (.postRevision (req.opening user refs)))
  (signsThread : Signs state corpus sign (.threadCreate (req.thread user)))
include signsOpening signsThread

theorem writeThread_effects
    (run : writeThread state sign db user req = .ok after) : Effects state corpus false db after := by
  obtain ⟨threaded, opened, refs, recorded, bound, threadRun, postRun, validated, -, revisionRun, boundRun, rfl⟩ :=
    writeThread_statements run
  have signsOpening := signsOpening refs (validateAttachments_ok validated)
  obtain ⟨fresh, author, room, threadedEq⟩ := insertThread_ok.mp threadRun
  obtain ⟨-, -, -, -, openedEq⟩ := insertPost_ok.mp postRun
  obtain ⟨unrevised, hasPost, recordedEq⟩ := insertPostRevision_ok.mp revisionRun
  -- the bytes first, then the thread row under its stamp, then the post as the handler inserts it
  let hash := state.platform.sha256 (sign (.threadCreate (req.thread user))).payload
  let row := localThreadRow state (req.thread user)
  let post := localPostRow state (req.opening user refs)
  let revision := localRevisionRow state (req.opening user refs) (sign (.postRevision (req.opening user refs)))
  let stored := storeSigned state sign (storeSigned state sign db (.postRevision (req.opening user refs)) .postRev)
    (.threadCreate (req.thread user)) .threadCreate
  let lift := shift stored.signedObjects (db.threads ++ [stamped hash row])
  have opening : Effect state corpus false db _ := signsOpening.store rfl
  have storing : Effects state corpus false db stored :=
    (Relation.ReflTransGen.single opening).tail (signsThread.store rfl)
  have holdsThread : stored.hasObject hash = true := hasObject_stored
  have holdsOpening : stored.hasObject
      (state.platform.sha256 (sign (.postRevision (req.opening user refs))).payload) = true :=
    hasObject_storeSignedObject.mpr (.inr hasObject_stored)
  have inserted : stored.insertThread (stamped hash row) = .ok (lift threaded) := by
    refine insertThread_ok.mpr ⟨fresh, author, room, ?_⟩
    rw [threadedEq]
    rfl
  have threading : Effect state corpus false stored (lift threaded) :=
    .thread ⟨signsThread, holdsThread, nofun⟩ ⟨rfl, rfl, rfl⟩ inserted
  have postOpened : (lift threaded).insertPost post = .ok (lift opened) := by
    refine insertPost_shift ?_ postRun
    rw [threadedEq]
    exact (stamped_reads _).1
  have revisionOpened : (lift opened).insertPostRevision revision = .ok (lift recorded) := by
    refine insertPostRevision_ok.mpr ⟨unrevised, hasPost, ?_⟩
    rw [recordedEq]
    refine (withPostRevision_shift ?_).symm
    intro id
    rw [openedEq, threadedEq]
    exact (stamped_reads id).2
  have posting : Effect state corpus false (lift threaded) (lift recorded) :=
    .openPost ⟨signsOpening, holdsOpening, nofun⟩ rfl ⟨rfl, rfl, rfl, rfl, Nat.le_refl 1⟩ ⟨rfl, rfl, rfl⟩ postOpened
      revisionOpened
  obtain ⟨binding, sameObjects, sameThreads⟩ := persistAttachmentBindings_shift boundRun
  have final : lift bound = stampThread (storeSigned state sign
      (storeSigned state sign bound (.postRevision (req.opening user refs)) .postRev)
      (.threadCreate (req.thread user)) .threadCreate) req.threadId hash := by
    rw [recordedEq, openedEq, threadedEq] at sameObjects sameThreads
    have oneRow : updateWhere (·.id = req.threadId) (stamped hash) bound.threads =
        db.threads ++ [stamped hash row] := sameThreads ▸ updateWhere_stamped fresh
    have sameStored : (storeSigned state sign
        (storeSigned state sign bound (.postRevision (req.opening user refs)) .postRev)
        (.threadCreate (req.thread user)) .threadCreate).signedObjects = stored.signedObjects :=
      storeSigned_congr (storeSigned_congr sameObjects)
    simp only [lift, shift, ← oneRow, ← sameStored]
    rfl
  exact final ▸ ((storing.tail threading).tail posting).trans binding

theorem createThread_effects : Effects state corpus false db (createThread state sign db user req).2 := by
  unfold createThread
  split
  · exact .refl
  · split
    · exact .refl
    · rename_i roomed roomRun
      have room : Effects state corpus false db roomed :=
        (getOrCreateRoom_projects roomRun).effects.stored
      split
      · exact room
      · rename_i final written
        exact room.trans (writeThread_effects signsOpening signsThread written)

end

theorem createReply_effects {req : ReplyRequest} (signsReply : Signs state corpus sign (.postRevision (req.reply user)))
    (run : createReply state sign db user req = .ok after) : Effects state corpus false db after := by
  obtain ⟨opened, recorded, -, postRun, revisionRun, rfl⟩ := createReply_statements run
  obtain ⟨fresh, author, thread, parent, rfl⟩ := insertPost_ok.mp postRun
  obtain ⟨unrevised, hasPost, rfl⟩ := insertPostRevision_ok.mp revisionRun
  have storing : Effect state corpus false db _ := signsReply.store rfl
  have posting : Effect state corpus false (storeSigned state sign db (.postRevision (req.reply user)) .postRev) _ :=
    .openPost ⟨signsReply, hasObject_stored, nofun⟩ rfl
      ⟨rfl, rfl, rfl, rfl, Nat.le_refl 1⟩ ⟨rfl, rfl, rfl⟩
      (insertPost_ok.mpr ⟨fresh, author, thread, parent, rfl⟩)
      (insertPostRevision_ok.mpr ⟨unrevised, hasPost, rfl⟩)
  exact ((Relation.ReflTransGen.single storing).tail posting).tail (.touch _ _)

theorem editTransaction_effects {p : PostRevision} {prior count : Nat}
    {dropped recorded bound collected : Db} (signs : Signs state corpus sign (.postRevision p))
    (later : p.revision ≠ 0) (dropRun : dropRemoved db p.postId prior refs = .ok dropped)
    (revisionRun : dropped.insertPostRevision (localRevisionRow state p (sign (.postRevision p))) = .ok recorded)
    (boundRun : persistAttachmentBindings recorded p.postId (clampI64 p.revision) p.attachments = .ok bound)
    (gcRun : gcOrphanBlobs bound = .ok collected) :
    Effects state corpus false db
      (setRevisionCount (storeSigned state sign collected (.postRevision p) .postRev) p.postId (count + 1)) := by
  let stored := storeSigned state sign db (.postRevision p) .postRev
  let lift := shift stored.signedObjects db.threads
  have storing : Effect state corpus false db (lift db) := signs.store rfl
  obtain ⟨dropping, sameObjects, sameThreads⟩ :
      ShiftedEffects state corpus stored.signedObjects db.threads db dropped := dropRemoved_shift dropRun
  obtain ⟨unrevised, hasPost, recordedEq⟩ := insertPostRevision_ok.mp revisionRun
  have revised : (lift dropped).insertPostRevision
      (localRevisionRow state p (sign (.postRevision p))) = .ok (lift recorded) := by
    refine insertPostRevision_ok.mpr ⟨unrevised, hasPost, ?_⟩
    rw [recordedEq]
    refine (withPostRevision_shift ?_).symm
    intro id
    rw [sameThreads]
  have revising : Effect state corpus false (lift dropped) (lift recorded) :=
    .revise ⟨signs, hasObject_stored, nofun⟩ later ⟨rfl, rfl, rfl⟩ revised
  obtain ⟨binding, sameObjects', sameThreads'⟩ :
      ShiftedEffects state corpus stored.signedObjects db.threads recorded bound := persistAttachmentBindings_shift boundRun
  have collecting : Effect state corpus false (lift bound) (lift collected) :=
    .gc (gcOrphanBlobs_shift gcRun)
  have final : lift collected = storeSigned state sign collected (.postRevision p) .postRev := by
    obtain ⟨blobs, rfl⟩ := gcOrphanBlobs_frame gcRun
    rw [recordedEq] at sameObjects' sameThreads'
    have objects : bound.signedObjects = db.signedObjects := sameObjects'.trans sameObjects
    have threads : bound.threads = db.threads := sameThreads'.trans sameThreads
    have sameStored : (storeSigned state sign bound (.postRevision p) .postRev).signedObjects =
        stored.signedObjects := storeSigned_congr objects
    simp only [lift, shift, ← threads, ← sameStored]
    rfl
  have counting := ((((Relation.ReflTransGen.single storing).trans dropping).tail revising).trans
    binding).tail collecting
  rw [final] at counting
  exact counting.tail (.recount _ _ fun row counted => Nat.le_add_left 1 count)

theorem editPost_effects {req : EditRequest} (sound : Sound state corpus db)
    (signsRevision : ∀ post refs, db.posts.find? (·.id = req.postId) = some post →
      refs.1 = req.attachments → Signs state corpus sign (.postRevision (req.revision user post refs)))
    (run : editPost state sign db user req = .ok after) : Effects state corpus false db after := by
  obtain ⟨post, dropped, refs, recorded, bound, collected, found, dropRun, validated, revisionRun, boundRun, gcRun, rfl⟩ :=
    editPost_statements run
  have signsRevision := signsRevision post refs found (validateAttachments_ok validated)
  have counted : 1 ≤ post.revisionCount := by
    obtain ⟨_, _, p, _, _, opens⟩ := sound.posts post (mem_of_find?_eq_some found)
    exact opens.counted
  exact editTransaction_effects signsRevision (by show post.revisionCount ≠ 0; omega) dropRun revisionRun boundRun gcRun

theorem retractPost_effects {postId : Uuid} {now : Nat} (signsRetraction : Signs state corpus sign
      (.retraction { postId, author := user, createdAt := now * 1000 }))
    (run : retractPost state sign db user postId now = .ok after) : Effects state corpus false db after := by
  obtain ⟨unbound, collected, unboundRun, gcRun, run⟩ := retractPost_statements run
  have blanked : Effects state corpus false db _ :=
    (Relation.ReflTransGen.single (.retract (·.id = postId))).tail (.blank (· = postId))
  have stored : Effects state corpus false db _ :=
    ((blanked.tail (.unbind unboundRun)).tail (.gc gcRun)).tail (signsRetraction.store rfl)
  have erased : Effect state corpus true _ after := erasePostRevPayloads_effect run
  exact stored.tail erased.stored

end Prismoire
