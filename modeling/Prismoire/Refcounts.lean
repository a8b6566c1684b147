import Prismoire.FileTables

namespace Prismoire

open Lib List Db

structure Counted (db : Db) : Prop where
  blobHashes : UniqueBy AttachmentBlobRow.contentHash db.attachmentBlobs
  counts : ∀ blob ∈ db.attachmentBlobs,
    blob.refcount = db.postAttachments.countP fun row => row.contentHash = blob.contentHash
  boundBlob : ∀ row ∈ db.postAttachments, db.hasBlob row.contentHash = true

section Statements

variable {db after : Db}

theorem Counted.empty : Counted {} where
  blobHashes := .nil
  counts := by simp
  boundBlob := by simp

variable (counted : Counted db)
include counted

theorem Counted.of_same (bindings : after.postAttachments = db.postAttachments)
    (blobs : after.attachmentBlobs = db.attachmentBlobs) : Counted after where
  blobHashes := blobs ▸ counted.blobHashes
  counts := by
    rw [blobs, bindings]
    exact counted.counts
  boundBlob := by
    rw [bindings]
    simp only [hasBlob, blobs]
    exact counted.boundBlob

theorem Counted.insertAttachmentBlob (ref : AttachmentRef) : Counted (db.insertAttachmentBlob ref) := by
  cases present : db.hasBlob ref.contentHash with
  | true => exact counted.of_same rfl (by simp [Db.insertAttachmentBlob, present])
  | false =>
    have blobs : (db.insertAttachmentBlob ref).attachmentBlobs = db.attachmentBlobs ++
        [{ contentHash := ref.contentHash, contentType := ref.mime, size := ref.size }] := by
      simp [Db.insertAttachmentBlob, present]
    constructor
    · rw [blobs]
      refine counted.blobHashes.insert ?_
      simpa [hasBlob] using present
    · intro blob mem
      rw [blobs] at mem
      rcases mem_concat.mp mem with old | new
      · exact counted.counts blob old
      · -- nothing is bound to a blob that was not there
        rw [new, eq_comm, countP_eq_zero]
        intro row bound same
        have known := counted.boundBlob row bound
        rw [of_decide_eq_true same, present] at known
        cases known
    · intro row mem
      exact hasBlob_insertAttachmentBlob.mpr (.inl (counted.boundBlob row mem))

theorem Counted.bound {row : PostAttachmentRow} (blob : db.hasBlob row.contentHash = true) :
    Counted (db.bound row) where
  blobHashes := counted.blobHashes.update fun _ => rfl
  counts := by
    intro other mem
    simp only [Db.bound, countP_append, countP_singleton]
    obtain ⟨old, inBlobs, ⟨hit, rfl⟩ | ⟨miss, rfl⟩⟩ := mem_updateWhere.mp mem
    · have before := counted.counts old inBlobs
      have same : row.contentHash = old.contentHash := (by simpa using hit : old.contentHash = _).symm
      simp only [same, decide_true, if_true]
      omega
    · have before := counted.counts other inBlobs
      have apart : ¬ row.contentHash = other.contentHash := by simpa [eq_comm] using miss
      simpa [apart] using before
  boundBlob := by
    intro other mem
    rw [hasBlob_bound]
    rcases mem_concat.mp mem with old | new
    · exact counted.boundBlob other old
    · rw [new]
      exact blob

theorem Counted.deletePostAttachments {doomed : PostAttachmentRow → Bool}
    (run : db.deletePostAttachments doomed = .ok after) : Counted after := by
  obtain ⟨blobs, released, returned⟩ := bind_ok.mp run
  cases returned
  obtain ⟨columns, origin⟩ := releaseBlobs_ok released
  constructor
  · show (blobs.map _).Nodup
    rw [columns]
    exact counted.blobHashes
  · intro blob mem
    obtain ⟨old, inBlobs, same, count⟩ := origin blob mem
    have before := counted.counts old inBlobs
    have split := countP_bindings db.postAttachments doomed blob.contentHash
    rw [same] at before
    simp only
    omega
  · intro row mem
    have known := counted.boundBlob row (mem_of_mem_filter mem)
    rw [hasBlob, hasBlob_eq_mem] at known ⊢
    rwa [columns]

theorem Counted.unbound {blob : AttachmentBlobRow} (mem : blob ∈ db.attachmentBlobs) :
    blob.refcount = 0 ↔ db.postAttachments.any (·.contentHash = blob.contentHash) = false := by
  rw [counted.counts blob mem, countP_eq_zero, any_eq_false]

theorem Counted.gcOrphanBlobs_eq : gcOrphanBlobs db = .ok { db with
      attachmentBlobs := db.attachmentBlobs.filter fun blob =>
        db.postAttachments.any (·.contentHash = blob.contentHash) ||
          db.attachmentStaging.any (·.contentHash = blob.contentHash) } := by
  have orphan : ∀ blob ∈ db.attachmentBlobs,
      (!decide (blob.refcount = 0 ∧ (!db.attachmentStaging.any (·.contentHash = blob.contentHash)) = true)) =
        (db.postAttachments.any (·.contentHash = blob.contentHash) ||
          db.attachmentStaging.any (·.contentHash = blob.contentHash)) := by
    intro blob mem
    rw [Bool.eq_iff_iff, Bool.not_eq_true', decide_eq_false_iff_not, counted.unbound mem]
    cases db.postAttachments.any (·.contentHash = blob.contentHash) <;>
      cases db.attachmentStaging.any (·.contentHash = blob.contentHash) <;> simp
  have allowed : (db.attachmentBlobs.all fun blob =>
      !decide (blob.refcount = 0 ∧ (!db.attachmentStaging.any (·.contentHash = blob.contentHash)) = true) ||
        !db.postAttachments.any (·.contentHash = blob.contentHash)) = true := by
    rw [all_eq_true]
    intro blob mem
    rw [orphan blob mem]
    cases db.postAttachments.any (·.contentHash = blob.contentHash) <;> simp
  simp only [gcOrphanBlobs, allowed, require, if_true, filter_congr orphan]
  rfl

theorem Counted.gcOrphanBlobs (run : gcOrphanBlobs db = .ok after) : Counted after := by
  rw [counted.gcOrphanBlobs_eq] at run
  cases run
  constructor
  · exact counted.blobHashes.sublist (filter_sublist.map _)
  · exact fun blob mem => counted.counts blob (mem_of_mem_filter mem)
  · intro row mem
    obtain ⟨blob, inBlobs, same⟩ := any_eq_true.mp (counted.boundBlob row mem)
    have taken : db.postAttachments.any (·.contentHash = blob.contentHash) = true :=
      any_eq_true.mpr ⟨row, mem, by simpa [eq_comm] using same⟩
    exact any_eq_true.mpr ⟨blob, mem_filter.mpr ⟨inBlobs, by simp [taken]⟩, same⟩

end Statements

section Effects

variable {state : AppState} {corpus : Corpus} {live : Bool} {db after : Db}

theorem Effect.counted (effect : Effect state corpus live db after) (counted : Counted db) : Counted after := by
  cases effect with
  | edge effect =>
    obtain ⟨objects, edges, pending, frontier, rfl⟩ := effect.frame
    exact { counted with }
  | erase projected run =>
    rw [erasePayloads_frame run]
    exact { counted with }
  | room unmerged run =>
    obtain ⟨-, -, rfl⟩ := insertRoom_ok.mp run
    exact { counted with }
  | thread landing opens run =>
    obtain ⟨-, -, -, rfl⟩ := insertThread_ok.mp run
    exact { counted with }
  | openPost landing first opens records opened landed =>
    obtain ⟨-, -, -, -, rfl⟩ := insertPost_ok.mp opened
    obtain ⟨-, -, rfl⟩ := insertPostRevision_ok.mp landed
    exact { counted with }
  | revise landing later records landed =>
    obtain ⟨-, -, rfl⟩ := insertPostRevision_ok.mp landed
    exact { counted with }
  | blob ref => exact counted.insertAttachmentBlob ref
  | bind run =>
    obtain ⟨-, -, blob, -, rfl⟩ := insertPostAttachment_ok.mp run
    exact counted.bound blob
  | unbind run => exact counted.deletePostAttachments run
  | gc run => exact counted.gcOrphanBlobs run
  | ownEdge | store | users | profile | recount | touch | retract | blank | authority | aside =>
    exact { counted with }

theorem Effects.counted (effects : Effects state corpus live db after) (counted : Counted db) : Counted after := by
  induction effects with
  | refl => exact counted
  | tail _ step ih => exact step.counted ih

end Effects

section Handlers

variable {state : AppState} {sign : Signer} {db after : Db} {user : Key} {now : Nat}
  {status : MoveStatus}

theorem FileSteps.of_erased {inserts : Bool} {ends : Hash → Prop} {mid : Db} {targeted : Hash → Bool}
    {authority : Option Hash}
    (run : mid.erasePayloads targeted authority = .ok after)
    (staging : mid.attachmentStaging = db.attachmentStaging)
    (blobs : mid.attachmentBlobs = db.attachmentBlobs) : FileSteps inserts ends db after := by
  rw [erasePayloads_frame run]
  exact .of_same blobs staging

theorem applyOneMove_files {wireBytes : Bytes} {nowMs : Nat}
    (run : applyOneMove state db wireBytes nowMs = .ok (status, after)) : FileSteps false (fun _ => False) db after := by
  rcases applyOneMove_ok run with ⟨rfl, -, -⟩ | ⟨payload, signature, m, -, -, -, -, -, single, committed⟩
  · exact .refl
  · obtain ⟨-, rfl⟩ := commitMove_moved single committed
    exact .of_same rfl rfl

theorem mutateTrustEdge_files {signEdge : TrustEdge → Bytes × Bytes} {target : Key} {call : TrustCall}
    {signed : SignedMutation}
    (run : mutateTrustEdge state signEdge db user target call = .ok (signed, after)) : FileSteps false
    (fun _ => False) db after := by
  obtain ⟨-, -, -, nowIso, written, -, writes, erases⟩ := mutateTrustEdge_writes run
  obtain rfl := writeTrustEdge_ok writes
  rcases erases with rfl | ⟨-, erases⟩
  · exact .of_same rfl rfl
  · exact FileSteps.of_erased erases rfl rfl

theorem seedTrustCode_files (code : TrustCode) : FileSteps false (fun _ => False) db (seedTrustCode state db code) := by
  unfold seedTrustCode
  split
  · exact .refl
  · exact .of_same rfl rfl

theorem softDeleteUser_files {anonName : Text}
    (run : softDeleteUser state sign db user anonName now = .ok after) : FileSteps false (fun _ => True) db after := by
  obtain ⟨retracted, retracting, run⟩ := bind_ok.mp run
  obtain ⟨collected, gcRun, run⟩ := bind_ok.mp run
  obtain ⟨edged, edgesRun, run⟩ := bind_ok.mp run
  obtain ⟨profiled, profilesRun, run⟩ := bind_ok.mp run
  cases run
  have retractions : FileSteps false (fun _ => True) db retracted := by
    refine foldlM_invariant (fun mid => FileSteps false (fun _ => True) db mid) ?_ .refl retracting
    intro post _ mid final reached ran
    refine reached.trans ?_
    unfold softDeletePost at ran
    dsimp only at ran
    split at ran
    · exact FileSteps.of_erased ran rfl rfl
    · exact FileSteps.of_erased ran rfl rfl
  have deactivated : FileSteps false (fun _ => True) retracted
      (storeDeactivation state sign retracted user now (hasActiveKey db user)).2 := by
    unfold storeDeactivation
    dsimp only
    split
    · exact .of_same rfl rfl
    · exact .refl
  have unstaged : FileStep (fun _ => True) false (storeDeactivation state sign retracted user now (hasActiveKey db user)).2
      { clearAccountFts (storeDeactivation state sign retracted user now (hasActiveKey db user)).2 user with
        attachmentStaging := (storeDeactivation state sign retracted user now
          (hasActiveKey db user)).2.attachmentStaging.filter (·.uploader ≠ user) } :=
    .keep rfl (fun _ mem => mem_of_mem_filter mem) fun _ _ lasts => absurd trivial lasts
  have edges : FileSteps false (fun _ => True) collected edged := .of_erased edgesRun rfl rfl
  have profiles : FileSteps false (fun _ => True) edged profiled := .of_erased profilesRun rfl rfl
  have erased : FileSteps false (fun _ => True) collected (dropAccountRows profiled user) :=
    (edges.trans profiles).trans (FileSteps.of_same rfl rfl)
  exact (((retractions.trans deactivated).tail unstaged).tail (.collect gcRun)).trans erased

end Handlers

/-- An operation of the instance, the deletion of an account, or a collection of its own. -/
inductive BlobStep (state : AppState) (corpus : Corpus) : Db → Db → Prop
  | operate {db after} : InstanceStep state corpus (fun _ _ _ => True) db after → BlobStep state corpus db after
  | delete {db after} (sign : Signer) (user : Key) (anonName : Text) (now : Nat) :
      (∀ post ∈ db.posts, Signs state corpus sign
        (.retraction { postId := post.id, author := user, createdAt := now * 1000 })) →
      Signs state corpus sign (.deactivation { user, createdAt := now * 1000 }) →
      softDeleteUser state sign db user anonName now = .ok after → BlobStep state corpus db after
  | collect {db after} : gcOrphanBlobs db = .ok after → BlobStep state corpus db after

abbrev BlobReachable (state : AppState) (corpus : Corpus) (db : Db) : Prop :=
  Relation.ReflTransGen (BlobStep state corpus) {} db

section Runs

variable {state : AppState} {corpus : Corpus} {db after : Db}

def StagedHaveBlobs (db : Db) : Prop :=
  ∀ row ∈ db.attachmentStaging, db.hasBlob row.contentHash = true

theorem FileSteps.staged_blobs {inserts : Bool} {ends : Hash → Prop} (steps : FileSteps inserts ends db after)
    (staged : StagedHaveBlobs db) : StagedHaveBlobs after :=
  fun row mem => steps.keepsStaged.blobs row mem (staged row (steps.keepsStaged.staged row mem))

theorem uploadAttachment_staged {user : Key} {ref : AttachmentRef} (staged : StagedHaveBlobs db)
    (run : uploadAttachment db user ref = .ok after) : StagedHaveBlobs after := by
  simp only [uploadAttachment, require_bind_ok] at run
  obtain ⟨-, run⟩ := run
  cases run
  have old : ∀ row ∈ db.attachmentStaging, (db.insertAttachmentBlob ref).hasBlob row.contentHash = true :=
    fun row mem => hasBlob_insertAttachmentBlob.mpr (.inl (staged row mem))
  intro row mem
  dsimp only at mem
  split at mem
  · exact old row mem
  · rcases mem_concat.mp mem with before | new
    · exact old row before
    · rw [new]
      exact hasBlob_insertAttachmentBlob.mpr (.inr rfl)

theorem InstanceStep.staged (step : InstanceStep state corpus (fun _ _ _ => True) db after)
    (sound : Sound state corpus db) (staged : StagedHaveBlobs db) : StagedHaveBlobs after := by
  cases step with
  | content wireBytes arrivedFrom occurs => exact (deliverObject_ingests sound occurs).files.staged_blobs staged
  | edge wireBytes peer occurs =>
    have files : FileSteps false (fun _ => False) db (deliverEdge state db wireBytes peer) :=
      (deliverEdge_effects sound.toEdgeSound occurs).sameContent.files
    exact files.staged_blobs staged
  | thread sign user req => exact (createThread_files req).staged_blobs staged
  | reply sign user req signs run => exact (createReply_files run).staged_blobs staged
  | edit sign user req signs run => exact (editPost_files run).staged_blobs staged
  | retract sign user postId now signs run => exact (retractPost_files run).staged_blobs staged
  | upload user ref run => exact uploadAttachment_staged staged run
  | sweep expired run => exact (sweepStaging_files run).staged_blobs staged
  | birth birth m profile move run => exact (completeLocalUserBirth_files run).staged_blobs staged
  | seed code => exact (seedTrustCode_files code).staged_blobs staged
  | move wireBytes nowMs occurs run => exact (applyOneMove_files run).staged_blobs staged
  | trust sign user target call filed run => exact (mutateTrustEdge_files run).staged_blobs staged
  | peers rows => exact staged

theorem softDeleteUser_counted {sign : Signer} {user : Key} {anonName : Text} {now : Nat}
    (signsRetractions : ∀ post ∈ db.posts, Signs state corpus sign
      (.retraction { postId := post.id, author := user, createdAt := now * 1000 }))
    (signsDeactivation : Signs state corpus sign (.deactivation { user, createdAt := now * 1000 }))
    (run : softDeleteUser state sign db user anonName now = .ok after) (counted : Counted db) : Counted after := by
  refine softDeleteUser_keeps (fun _ _ effects counted => effects.counted counted) ?_ ?_ ?_ signsRetractions
    signsDeactivation run counted
  · intro db counted
    exact { counted with }
  · intro db counted
    exact { counted with }
  · intro db counted
    exact { counted with }

/-- What every reachable state has: provenance, exact counts, and a blob behind each staged upload. -/
structure BlobsKept (state : AppState) (corpus : Corpus) (db : Db) : Prop where
  sound : Sound state corpus db
  counted : Counted db
  staged : StagedHaveBlobs db

theorem BlobStep.kept (step : BlobStep state corpus db after) (kept : BlobsKept state corpus db) :
    BlobsKept state corpus after := by
  cases step with
  | operate step =>
    have effects := step.effects kept.sound
    exact ⟨effects.sound kept.sound, effects.counted kept.counted, step.staged kept.sound kept.staged⟩
  | delete sign user anonName now signsRetractions signsDeactivation run =>
    exact ⟨softDeleteUser_sound kept.sound signsRetractions signsDeactivation run,
      softDeleteUser_counted signsRetractions signsDeactivation run kept.counted,
      (softDeleteUser_files run).staged_blobs kept.staged⟩
  | collect run =>
    have effect : Effect state corpus false db after := .gc run
    have collected : FileSteps false (fun _ => False) db after := .single (.collect run)
    exact ⟨effect.sound kept.sound, effect.counted kept.counted, collected.staged_blobs kept.staged⟩

theorem BlobReachable.kept (reached : BlobReachable state corpus db) : BlobsKept state corpus db := by
  induction reached with
  | refl => exact ⟨.empty, .empty, by simp [StagedHaveBlobs]⟩
  | tail _ step ih => exact step.kept ih

end Runs

/--
In every reachable state each count is exact, every binding and every staged upload has its blob, and
a collection takes exactly the blobs that have neither.
-/
theorem refcounts_exact {state : AppState} {corpus : Corpus} {db : Db} (reached : BlobReachable state corpus db) :
    (∀ blob ∈ db.attachmentBlobs,
      blob.refcount = (db.postAttachments.filter fun row => row.contentHash = blob.contentHash).length) ∧
    (∀ row ∈ db.postAttachments, db.hasBlob row.contentHash = true) ∧
    (∀ row ∈ db.attachmentStaging, db.hasBlob row.contentHash = true) ∧
    ∃ after, gcOrphanBlobs db = .ok after ∧ after = { db with attachmentBlobs := after.attachmentBlobs } ∧
      ∀ blob, blob ∈ after.attachmentBlobs ↔ blob ∈ db.attachmentBlobs ∧
        ((∃ row ∈ db.postAttachments, row.contentHash = blob.contentHash) ∨
          ∃ row ∈ db.attachmentStaging, row.contentHash = blob.contentHash) := by
  obtain ⟨-, counted, staged⟩ := reached.kept
  refine ⟨?_, counted.boundBlob, staged, _, counted.gcOrphanBlobs_eq, rfl, ?_⟩
  · intro blob mem
    rw [counted.counts blob mem, countP_eq_length_filter]
  · intro blob
    simp only [mem_filter, Bool.or_eq_true, any_eq_true, decide_eq_true_eq]

def attachedTable : List SignedPayload :=
  [.profileRevision ⟨1, "a", "", none, 1000, none⟩, .threadCreate ⟨10, 1, "room", "title", none, 20, 2000⟩,
    .postRevision { postId := 20, author := 1, threadId := 10, parentId := none, revision := 0, body := "text",
                    createdAt := 2000, attachments := [⟨7, "image/png", 3, "a.png", by decide⟩] }]

def attachedState : AppState :=
  AppState.ofTable attachedTable

def stagedRef : AttachmentRef where
  contentHash := 5
  filename := "b"
  mime := "text/plain"
  size := 2

/-- The post has arrived from a peer, and the user has a second file staged. -/
def attachedDb : Db :=
  match uploadAttachment (deliverObjects attachedState {} [([0], 8), ([1], 8), ([2], 8)]) 1 stagedRef with
  | .ok after => after
  | .error _ => {}

theorem attachedDb_reachable : BlobReachable attachedState (fun _ => True) attachedDb := by
  have deliver : ∀ db wire, BlobStep attachedState (fun _ => True) db (deliverObject attachedState db wire 8) :=
    fun db wire => .operate (.content wire 8 (fun _ _ _ => trivial) trivial)
  have delivered : BlobReachable attachedState (fun _ => True)
      (deliverObjects attachedState {} [([0], 8), ([1], 8), ([2], 8)]) :=
    ((Relation.ReflTransGen.single (deliver {} [0])).tail (deliver _ [1])).tail (deliver _ [2])
  have upload : uploadAttachment (deliverObjects attachedState {} [([0], 8), ([1], 8), ([2], 8)]) 1
      stagedRef = .ok attachedDb := by decide +kernel
  exact delivered.tail (.operate (.upload 1 _ upload))

/-- One blob is bound, one is staged, and a collection leaves both. -/
theorem attachedDb_exact :
    attachedDb.attachmentBlobs.map (fun blob => (blob.contentHash, blob.refcount)) = [(7, 1), (5, 0)] ∧
    (∀ blob ∈ attachedDb.attachmentBlobs,
      blob.refcount = (attachedDb.postAttachments.filter fun row => row.contentHash = blob.contentHash).length) ∧
    (∀ row ∈ attachedDb.postAttachments, attachedDb.hasBlob row.contentHash = true) ∧
    (∀ row ∈ attachedDb.attachmentStaging, attachedDb.hasBlob row.contentHash = true) ∧
    ∃ after, gcOrphanBlobs attachedDb = .ok after ∧
      after = { attachedDb with attachmentBlobs := after.attachmentBlobs } ∧
      ∀ blob, blob ∈ after.attachmentBlobs ↔ blob ∈ attachedDb.attachmentBlobs ∧
        ((∃ row ∈ attachedDb.postAttachments, row.contentHash = blob.contentHash) ∨
          ∃ row ∈ attachedDb.attachmentStaging, row.contentHash = blob.contentHash) :=
  ⟨by decide +kernel, refcounts_exact attachedDb_reachable⟩

end Prismoire
