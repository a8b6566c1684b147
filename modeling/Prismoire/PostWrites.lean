import Prismoire.EditRaces
import Prismoire.Ingest

namespace Prismoire

open Lib Db

section Validation

variable {db : Db} {user : Key} {nfc : Text → Text}

theorem validateRefs_usable {seen refs : List AttachmentRef} (run : validateRefs nfc db user seen refs = .ok ()) :
    ∀ ref ∈ refs, attachmentUsable db user ref = true := by
  induction refs generalizing seen with
  | nil => simp
  | cons ref refs ih =>
    rw [validateRefs] at run
    repeat' split at run
    all_goals try cases run
    rename_i usable
    intro other mem
    rcases List.mem_cons.mp mem with rfl | later
    · simpa using usable
    · exact ih run other later

/-- A reference passes only where a stored file is what it says and the user has the file staged or on a post of their own. -/
theorem validateAttachments_usable {refs : List AttachmentRef} {result : AttachmentRefs}
    (run : validateAttachments nfc db user refs = .ok result) : ∀ ref ∈ refs,
    (∃ row ∈ db.attachmentBlobs,
      row.contentHash = ref.contentHash ∧ row.contentType = ref.mime ∧ row.size = ref.size) ∧
    ((∃ row ∈ db.attachmentStaging, row.contentHash = ref.contentHash) ∨
      ∃ row ∈ db.postAttachments, row.contentHash = ref.contentHash ∧ authored db user row.postId = true) := by
  unfold validateAttachments at run
  split at run
  · obtain ⟨checked, validated, -⟩ := bind_ok.mp run
    intro ref mem
    have usable := validateRefs_usable validated ref mem
    simp only [attachmentUsable, blobDescribed, Bool.and_eq_true, Bool.or_eq_true, List.any_eq_true, decide_eq_true_eq] at usable
    obtain ⟨repeats, ⟨row, staged, same, -⟩ | bound⟩ := usable
    · exact ⟨repeats, .inl ⟨row, staged, same⟩⟩
    · exact ⟨repeats, .inr bound⟩
  · cases run

end Validation

variable {state : AppState} {sign : Signer} {db after : Db} {user : Key} {req : EditRequest}

theorem createThread_ok (req : ThreadRequest) : SameContent db (createThread state sign db user req).2 ∨
      ∃ roomed, SameContent db roomed ∧
        writeThread state sign roomed user req = .ok (createThread state sign db user req).2 := by
  unfold createThread
  split
  · exact .inl .refl
  · split
    · exact .inl .refl
    · rename_i roomed roomRun
      have room := getOrCreateRoom_sameContent roomRun
      split
      · exact .inl room
      · rename_i final run
        exact .inr ⟨roomed, room, run⟩

theorem writeThread_ok {req : ThreadRequest} (run : writeThread state sign db user req = .ok after) :
    ∃ opened refs row, db.hasPost req.postId = false ∧ db.hasUser user = true ∧
      opened.posts = db.posts ++ [localPostRow state (req.opening user ⟨[], by decide⟩)] ∧
      opened.attachmentStaging = db.attachmentStaging ∧ opened.postAttachments = db.postAttachments ∧
      validateAttachments state.platform.nfc opened user req.attachments = .ok refs ∧
      row.postId = req.postId ∧ row.revision = 0 ∧
      after.users = db.users ∧ after.posts = opened.posts ∧ after.postRevisions = db.postRevisions ++ [row] ∧
      after.postAttachments = db.postAttachments ++ refs.1.zipIdx.map (bindingRow req.postId 0) := by
  obtain ⟨threaded, opened, refs, recorded, bound, threadRun, postRun, validated, -, revisionRun, boundRun, rfl⟩ :=
    writeThread_statements run
  refine ⟨opened, refs, ?_⟩
  rw [validated]
  obtain ⟨-, known, -, rfl⟩ := insertThread_ok.mp threadRun
  obtain ⟨fresh, -, -, -, rfl⟩ := insertPost_ok.mp postRun
  obtain ⟨-, -, rfl⟩ := insertPostRevision_ok.mp revisionRun
  obtain ⟨blobs, rfl⟩ := persistAttachmentBindings_frame boundRun
  exact ⟨_, fresh, known, rfl, rfl, rfl, rfl, rfl, rfl, rfl, rfl, rfl, rfl⟩

/-- What a reply leaves behind: one post row, its first revision, and no binding. -/
theorem createReply_ok {req : ReplyRequest} (run : createReply state sign db user req = .ok after) :
    ∃ row, db.hasPost req.postId = false ∧ db.hasUser user = true ∧ row.postId = req.postId ∧ row.revision = 0 ∧
      after.users = db.users ∧ after.posts = db.posts ++ [localPostRow state (req.reply user)] ∧
      after.postRevisions = db.postRevisions ++ [row] ∧ after.postAttachments = db.postAttachments := by
  obtain ⟨opened, recorded, -, postRun, revisionRun, rfl⟩ := createReply_statements run
  obtain ⟨fresh, known, -, -, rfl⟩ := insertPost_ok.mp postRun
  obtain ⟨-, -, rfl⟩ := insertPostRevision_ok.mp revisionRun
  exact ⟨_, fresh, known, rfl, rfl, rfl, rfl, rfl, rfl⟩

theorem checkEdit_ok {post : PostRow} (run : checkEdit db user req = .ok post) :
    db.posts.find? (·.id = req.postId) = some post ∧ post.author = user ∧ post.retracted = false := by
  unfold checkEdit at run
  split at run
  · cases run
  · rename_i found
    split at run
    · cases run
    · split at run
      · cases run
      · rename_i mine
        split at run
        · cases run
        · rename_i standing
          cases run
          exact ⟨found, not_not.mp mine, by simpa using standing⟩

/-- An edit adds the next revision, and what the post dropped is gone before the new references are checked. -/
theorem editPost_ok (run : editPost state sign db user req = .ok after) :
    ∃ post dropped refs row, db.posts.find? (·.id = req.postId) = some post ∧ post.author = user ∧
      post.retracted = false ∧
      dropRemoved db req.postId (post.revisionCount - 1) req.attachments = .ok dropped ∧
      validateAttachments state.platform.nfc dropped user req.attachments = .ok refs ∧
      row.postId = req.postId ∧ row.revision = clampI64 post.revisionCount ∧
      db.hasRevision req.postId (clampI64 post.revisionCount) = false ∧
      after.users = db.users ∧
      after.posts = updateWhere (·.id = req.postId)
        (fun old => { old with revisionCount := post.revisionCount + 1 }) db.posts ∧
      after.postRevisions = db.postRevisions ++ [row] ∧
      after.postAttachments = dropped.postAttachments ++
        refs.1.zipIdx.map (bindingRow req.postId (clampI64 post.revisionCount)) := by
  rw [editPost_eq] at run
  obtain ⟨seen, checked, run⟩ := bind_ok.mp run
  obtain ⟨found, mine, standing⟩ := checkEdit_ok checked
  obtain ⟨post, dropped, refs, payload, signature, row, again, dropRun, validated, rowPost, rowRevision, -, -, fresh,
    revisions, -, posts, users, bindings⟩ := commitEdit_ok run
  cases again.symm.trans found
  exact ⟨seen, dropped, refs, row, found, mine, standing, dropRun, validated, rowPost, rowRevision, fresh, users,
    posts, revisions, bindings⟩

/-- A retraction blanks each revision of the post and takes all its bindings. -/
theorem retractPost_ok {postId : Uuid} {now : Nat} (run : retractPost state sign db user postId now = .ok after) :
    after.users = db.users ∧ after.posts = updateWhere (fun post => decide (post.id = postId) && !post.retracted)
        (fun post => { post with retracted := true }) db.posts ∧
      after.postRevisions = updateWhere (fun row => decide (row.postId = postId))
        (fun row => { row with body := "" }) db.postRevisions ∧
      after.postAttachments = db.postAttachments.filter fun row => !decide (row.postId = postId) := by
  rw [retractPost_eq] at run
  obtain ⟨seen, -, run⟩ := bind_ok.mp run
  obtain ⟨-, run⟩ := ensure_bind_ok.mp run
  obtain ⟨posts, revisions, bindings, users, -⟩ := commitRetract_ok run
  exact ⟨users, posts, revisions, bindings⟩

end Prismoire
