import Prismoire.AccountErasure

namespace Prismoire

open Lib List Db

/-- What a row says about its file, whatever it counts. -/
def AttachmentBlobRow.label (row : AttachmentBlobRow) : Hash × Text × Nat :=
  (row.contentHash, row.contentType, row.size)

def Db.labels (db : Db) : List (Hash × Text × Nat) :=
  db.attachmentBlobs.map AttachmentBlobRow.label

/--
A change of the two tables of files: the blob rows keep what they say and staged uploads may end, a file of a peer
gets its row, or the collection runs.
-/
inductive FileStep (ends : Hash → Prop) : (inserts : Bool) → Db → Db → Prop
  | keep {inserts db after} : after.labels = db.labels →
      (∀ row ∈ after.attachmentStaging, row ∈ db.attachmentStaging) →
      (∀ row ∈ db.attachmentStaging, ¬ ends row.contentHash → row ∈ after.attachmentStaging) →
      FileStep ends inserts db after
  | insert {db} (ref : AttachmentRef) : FileStep ends true db (db.insertAttachmentBlob ref)
  | collect {db after} : gcOrphanBlobs db = .ok after → FileStep ends false db after

abbrev FileSteps (inserts : Bool) (ends : Hash → Prop) := Relation.ReflTransGen (FileStep ends inserts)

/-- No upload is staged anew, and the file of a staged upload stays. -/
structure KeepsStaged (db after : Db) : Prop where
  staged : ∀ row ∈ after.attachmentStaging, row ∈ db.attachmentStaging
  blobs : ∀ row ∈ after.attachmentStaging, db.hasBlob row.contentHash = true → after.hasBlob row.contentHash = true

/-- The staged upload of this file does not end. -/
def HoldsStaged (hash : Hash) (db after : Db) : Prop :=
  ∀ row ∈ db.attachmentStaging, row.contentHash = hash → row ∈ after.attachmentStaging

variable {after db : Db} {ends : Hash → Prop} {inserts : Bool}

section Rules

variable {hash : Hash}

theorem hasBlob_iff_label : db.hasBlob hash = true ↔ hash ∈ db.labels.map Prod.fst := by
  simp [hasBlob, Db.labels, AttachmentBlobRow.label]

theorem hasBlob_of_labels (same : after.labels = db.labels) : after.hasBlob hash = db.hasBlob hash := by
  rw [Bool.eq_iff_iff, hasBlob_iff_label, hasBlob_iff_label, same]

theorem labels_insertAttachmentBlob {ref : AttachmentRef} {label : Hash × Text × Nat}
    (mem : label ∈ (db.insertAttachmentBlob ref).labels) :
    label ∈ db.labels ∨ label = (ref.contentHash, ref.mime, ref.size) ∧ db.hasBlob ref.contentHash = false := by
  cases present : db.hasBlob ref.contentHash with
  | true =>
    simp only [Db.labels, insertAttachmentBlob, present, if_true] at mem
    exact .inl mem
  | false =>
    simp only [Db.labels, insertAttachmentBlob, present, Bool.false_eq_true, if_false, map_append,
      map_singleton] at mem
    exact (mem_append.mp mem).imp_right fun new => ⟨mem_singleton.mp new, rfl⟩

theorem FileSteps.of_labels (labels : after.labels = db.labels)
    (staging : after.attachmentStaging = db.attachmentStaging) : FileSteps inserts ends db after :=
  .single (.keep labels (fun _ mem => staging ▸ mem) fun _ mem _ => staging ▸ mem)

theorem FileSteps.of_same (blobs : after.attachmentBlobs = db.attachmentBlobs)
    (staging : after.attachmentStaging = db.attachmentStaging) : FileSteps inserts ends db after :=
  .of_labels (congrArg (List.map AttachmentBlobRow.label) blobs) staging

theorem gcOrphanBlobs_labels (run : gcOrphanBlobs db = .ok after) : after.labels.Sublist db.labels := by
  simp only [gcOrphanBlobs, require_bind_ok] at run
  obtain ⟨-, returned⟩ := run
  cases returned
  exact List.Sublist.map _ filter_sublist

theorem gcOrphanBlobs_keepsStaged (run : gcOrphanBlobs db = .ok after) : KeepsStaged db after := by
  simp only [gcOrphanBlobs, require_bind_ok] at run
  obtain ⟨-, returned⟩ := run
  cases returned
  refine ⟨fun _ mem => mem, ?_⟩
  intro row mem known
  obtain ⟨blob, inBlobs, same⟩ := any_eq_true.mp known
  have held : db.attachmentStaging.any (·.contentHash = blob.contentHash) = true :=
    any_eq_true.mpr ⟨row, mem, by simpa [eq_comm] using same⟩
  exact any_eq_true.mpr ⟨blob, mem_filter.mpr ⟨inBlobs, by simp [held]⟩, same⟩

section

variable (steps : FileSteps inserts ends db after)
include steps

/-- Nothing but an upload stages a file, and the collection spares what is staged. -/
theorem FileSteps.keepsStaged : KeepsStaged db after := by
  induction steps with
  | refl => exact ⟨fun _ mem => mem, fun _ _ known => known⟩
  | @tail between final _ step ih =>
    have kept : KeepsStaged between final := by
      cases step with
      | keep labels staged => exact ⟨staged, fun row _ known => (hasBlob_of_labels labels).trans known⟩
      | insert ref => exact ⟨fun _ mem => mem, fun _ _ known => hasBlob_insertAttachmentBlob.mpr (.inl known)⟩
      | collect run => exact gcOrphanBlobs_keepsStaged run
    exact ⟨fun row mem => ih.staged row (kept.staged row mem),
      fun row mem known => kept.blobs row mem (ih.blobs row (kept.staged row mem) known)⟩

theorem FileSteps.holds (lasts : ¬ ends hash) : HoldsStaged hash db after := by
  induction steps with
  | refl => exact fun _ mem _ => mem
  | tail _ step ih =>
    intro row mem same
    have held := ih row mem same
    cases step with
    | keep _ _ stays => exact stays row held (same ▸ lasts)
    | insert => exact held
    | collect run =>
      obtain ⟨blobs, rfl⟩ := gcOrphanBlobs_frame run
      exact held

end

/-- Without inserts the rows of files only go. -/
theorem FileSteps.labels (steps : FileSteps false ends db after) : after.labels.Sublist db.labels := by
  induction steps with
  | refl => exact .refl _
  | tail _ step ih =>
    cases step with
    | keep labels => exact labels ▸ ih
    | collect run => exact (gcOrphanBlobs_labels run).trans ih

/-- A row keeps what it says; a new one is for a file that had none. -/
theorem FileSteps.keepsLabels (steps : FileSteps true ends db after) :
    (∀ label ∈ after.labels, label ∈ db.labels ∨ db.hasBlob label.1 = false) ∧
      ∀ hash, db.hasBlob hash = true → after.hasBlob hash = true := by
  induction steps with
  | refl => exact ⟨fun _ => .inl, fun _ => id⟩
  | tail _ step ih =>
    obtain ⟨labels, blobs⟩ := ih
    cases step with
    | keep same =>
      exact ⟨fun label mem => labels label (same ▸ mem), fun hash known =>
        (hasBlob_of_labels same).trans (blobs hash known)⟩
    | insert ref =>
      refine ⟨fun label mem => ?_, fun hash known => hasBlob_insertAttachmentBlob.mpr (.inl (blobs hash known))⟩
      rcases labels_insertAttachmentBlob mem with old | ⟨rfl, absent⟩
      · exact labels label old
      · refine .inr (Bool.eq_false_iff.mpr fun known => ?_)
        rw [blobs _ known] at absent
        cases absent

end Rules

variable {state : AppState}

section Statements

variable {mid : Db} {postId : Uuid} {refs : List AttachmentRef} {revision : Nat}

theorem SameContent.files (same : SameContent db after) : FileSteps inserts ends db after :=
  .of_same same.blobs same.staging

theorem deletePostAttachments_files {doomed : PostAttachmentRow → Bool}
    (run : db.deletePostAttachments doomed = .ok after) : FileSteps inserts ends db after := by
  obtain ⟨blobs, released, returned⟩ := bind_ok.mp run
  cases returned
  refine .of_labels ?_ rfl
  refine foldlM_invariant (fun mid => mid.map AttachmentBlobRow.label = db.labels) ?_ rfl released
  intro hash _ mid final reached released
  obtain ⟨-, rfl⟩ := releaseBlob_ok.mp released
  rw [map_updateWhere AttachmentBlobRow.label (by intro blob; rfl), reached]

theorem insertPostAttachment_labels {row : PostAttachmentRow} (run : db.insertPostAttachment row = .ok after) :
    after.labels = db.labels ∧ after.attachmentStaging = db.attachmentStaging := by
  obtain ⟨-, -, -, -, rfl⟩ := insertPostAttachment_ok.mp run
  exact ⟨map_updateWhere AttachmentBlobRow.label (by intro blob; rfl) _, rfl⟩

theorem projectPostAttachments_files
    (run : projectPostAttachments db postId revision refs = .ok after) : FileSteps true ends db after := by
  refine foldlM_invariant (fun mid => FileSteps true ends db mid) ?_ .refl run
  intro ref _ mid final reached projected
  obtain ⟨labels, staging⟩ := insertPostAttachment_labels projected
  exact (reached.tail (.insert ref.1)).trans (FileSteps.of_labels labels staging)

theorem persistAttachmentBindings_files (run : persistAttachmentBindings db postId revision refs = .ok after) :
    FileSteps inserts (fun hash => refs.any (·.contentHash = hash) = true) db after := by
  have labels : after.labels = db.labels := by
    refine foldlM_invariant (fun mid => Db.labels mid = db.labels) ?_ rfl run
    intro ref _ mid final reached persisted
    obtain ⟨bound, boundRun, returned⟩ := bind_ok.mp persisted
    cases returned
    exact (insertPostAttachment_labels boundRun).1.trans reached
  obtain ⟨blobs, rfl⟩ := persistAttachmentBindings_frame run
  exact .single (.keep labels (fun _ mem => mem_of_mem_filter mem)
    fun row mem lasts => mem_filter.mpr ⟨mem, by simpa using lasts⟩)

theorem dropRemoved_files {prior : Nat} (run : dropRemoved db postId prior refs = .ok after) :
    FileSteps inserts ends db after := by
  refine foldlM_invariant (fun mid => FileSteps inserts ends db mid) ?_ .refl run
  intro hash _ mid final reached dropped
  exact reached.trans (deletePostAttachments_files dropped)

theorem sweepStaging_files {expired : AttachmentStagingRow → Bool} (run : sweepStaging db expired = .ok after) :
    FileSteps false (fun hash => ∃ row ∈ db.attachmentStaging, row.contentHash = hash ∧ expired row = true) db after := by
  have expiring : FileSteps false (fun hash => ∃ row ∈ db.attachmentStaging, row.contentHash = hash ∧ expired row = true)
      db { db with attachmentStaging := db.attachmentStaging.filter fun row => !expired row } := by
    refine .single (.keep rfl (fun _ mem => mem_of_mem_filter mem) fun row mem lasts => ?_)
    refine mem_filter.mpr ⟨mem, ?_⟩
    by_contra gone
    exact lasts ⟨row, mem, rfl, by simpa using gone⟩
  exact expiring.tail (.collect run)

variable {corpus : Corpus} {arrivedFrom : Key}

theorem eraseAllForUserKey_files {user : Key} {authority : Hash}
    (run : eraseAllForUserKey db user authority = .ok after) : FileSteps inserts ends db after := by
  obtain ⟨edged, profiled, posted, unbound, edges, profiles, posts, deleted, rfl⟩ | ⟨-, rfl⟩ :=
    eraseAllForUserKey_statements run
  · have payloads : SameContent db posted := ((erasePayloads_sameContent edges).trans
      (erasePayloads_sameContent profiles)).trans (erasePayloads_sameContent posts)
    exact (payloads.files.trans (deletePostAttachments_files deleted)).trans (FileSteps.of_same rfl rfl)
  · exact .refl

theorem Ingest.files (change : Ingest state corpus arrivedFrom db after) : FileSteps true (fun _ => False) db after := by
  cases change with
  | aside same => exact same.files
  | hydrate => exact .of_same rfl rfl
  | project filed run =>
    obtain ⟨-, -, -, opened, recorded, opening, recordedRun, boundRun⟩ :=
      (projectRemotePostRevision_ok run).resolve_left fun waits => waits.2 rfl
    have opens : FileSteps true (fun _ => False) db opened := by
      rcases opening with ⟨-, openedRun⟩ | ⟨-, -, rfl⟩
      · obtain ⟨-, -, -, -, rfl⟩ := insertPost_ok.mp openedRun
        exact .of_same rfl rfl
      · exact .of_same rfl rfl
    have records : FileSteps true (fun _ => False) opened recorded := by
      obtain ⟨-, -, rfl⟩ := insertPostRevision_ok.mp recordedRun
      exact .of_same rfl rfl
    exact (opens.trans records).trans (projectPostAttachments_files boundRun)
  | erase user authority run => exact eraseAllForUserKey_files run

theorem Ingests.files (changes : Ingests state corpus arrivedFrom db after) : FileSteps true (fun _ => False) db after := by
  induction changes with
  | refl => exact .refl
  | tail _ step ih => exact ih.trans step.files

end Statements

variable {sign : Signer} {user : Key}

theorem createThread_files (req : ThreadRequest) :
    FileSteps false (fun hash => (createThread state sign db user req).1 = .ok () ∧
      req.attachments.any (·.contentHash = hash) = true) db (createThread state sign db user req).2 := by
  unfold createThread
  split
  · exact .refl
  · split
    · exact .refl
    · rename_i roomed roomRun
      split
      · exact (getOrCreateRoom_sameContent roomRun).files
      · rename_i final run
        simp only [true_and]
        obtain ⟨threaded, opened, refs, recorded, bound, threadRun, postRun, validated, -, revisionRun, boundRun, rfl⟩ :=
          writeThread_statements run
        rw [← validateAttachments_ok validated]
        refine (Relation.ReflTransGen.trans (Relation.ReflTransGen.trans (getOrCreateRoom_sameContent roomRun).files ?_)
          (persistAttachmentBindings_files boundRun)).trans (FileSteps.of_same rfl rfl)
        obtain ⟨-, -, -, rfl⟩ := insertThread_ok.mp threadRun
        obtain ⟨-, -, -, -, rfl⟩ := insertPost_ok.mp postRun
        obtain ⟨-, -, rfl⟩ := insertPostRevision_ok.mp revisionRun
        exact FileSteps.of_same rfl rfl

theorem createReply_files {req : ReplyRequest} (run : createReply state sign db user req = .ok after) :
    FileSteps false (fun _ => False) db after := by
  obtain ⟨opened, recorded, -, postRun, revisionRun, rfl⟩ := createReply_statements run
  obtain ⟨-, -, -, -, rfl⟩ := insertPost_ok.mp postRun
  obtain ⟨-, -, rfl⟩ := insertPostRevision_ok.mp revisionRun
  exact .of_same rfl rfl

theorem editPost_files {req : EditRequest} (run : editPost state sign db user req = .ok after) :
    FileSteps false (fun hash => req.attachments.any (·.contentHash = hash) = true) db after := by
  obtain ⟨post, dropped, refs, recorded, bound, collected, -, dropRun, validated, revisionRun, boundRun, gcRun, rfl⟩ :=
    editPost_statements run
  rw [← validateAttachments_ok validated]
  refine (((Relation.ReflTransGen.trans (dropRemoved_files dropRun) ?_).trans
    (persistAttachmentBindings_files boundRun)).tail (.collect gcRun)).trans (FileSteps.of_same rfl rfl)
  obtain ⟨-, -, rfl⟩ := insertPostRevision_ok.mp revisionRun
  exact FileSteps.of_same rfl rfl

theorem retractPost_files {postId : Uuid} {now : Nat}
    (run : retractPost state sign db user postId now = .ok after) : FileSteps false (fun _ => False) db after := by
  obtain ⟨unbound, collected, unboundRun, gcRun, run⟩ := retractPost_statements run
  have blanked : FileSteps false (fun _ => False) db ((db.retractPosts (·.id = postId)).blankBodies (· = postId)) := .of_same rfl rfl
  have same := erasePayloads_sameContent run
  exact ((blanked.trans (deletePostAttachments_files unboundRun)).tail (.collect gcRun)).trans
    (FileSteps.of_same same.blobs same.staging)

theorem completeLocalUserBirth_files {birth : LocalUserBirth}
    (run : completeLocalUserBirth state db birth = .ok after) : FileSteps false (fun _ => False) db after := by
  simp only [completeLocalUserBirth, require_bind_ok] at run
  obtain ⟨-, -, run⟩ := run
  cases run
  exact .of_same rfl rfl

end Prismoire
