import Prismoire.Integrity

namespace Prismoire

open Lib List Db

/-- What the tables keep beyond their own keys, so that the checks of later statements pass. -/
structure Orderly (db : Db) : Prop where
  objectHashes : UniqueBy SignedObjectRow.canonicalHash db.signedObjects
  liveUnstamped : ∀ row ∈ db.signedObjects, row.payload.isSome = true → row.erasedBy = none
  roomsOpen : ∀ room ∈ db.rooms, room.mergedInto = none
  threadsStored : ∀ row ∈ db.threads, ∀ hash, row.threadCreateHash = some hash → db.hasObject hash = true
  revisionsStored : ∀ row ∈ db.postRevisions, db.hasObject row.canonicalHash = true
  boundRevision : ∀ row ∈ db.postAttachments, db.hasRevision row.postId row.revision = true
  boundBlob : ∀ row ∈ db.postAttachments, db.hasBlob row.contentHash = true
  counted : ∀ blob ∈ db.attachmentBlobs,
    (db.postAttachments.countP fun row => row.contentHash = blob.contentHash) ≤ blob.refcount

section Blobs

variable {blobs after : List AttachmentBlobRow} {hashes : List Hash}

theorem releaseBlob_ok {hash : Hash} : releaseBlob blobs hash = .ok after ↔
      (∀ blob ∈ blobs, blob.contentHash = hash → 0 < blob.refcount) ∧
      after = updateWhere (·.contentHash = hash) (fun blob => { blob with refcount := blob.refcount - 1 }) blobs := by
  simp only [releaseBlob, require_bind_ok, all_eq_true, decide_eq_true_eq, pure, Except.pure,
    Except.ok.injEq, ne_eq, ← imp_iff_not_or]
  tauto

/-- A file loses one count for each time that it is named. -/
theorem releaseBlobs_ok (run : hashes.foldlM releaseBlob blobs = .ok after) :
    after.map (·.contentHash) = blobs.map (·.contentHash) ∧
      ∀ blob ∈ after, ∃ old ∈ blobs, old.contentHash = blob.contentHash ∧
        old.refcount = blob.refcount + hashes.countP (· = blob.contentHash) := by
  induction hashes generalizing blobs with
  | nil =>
    cases run
    exact ⟨rfl, fun blob mem => ⟨blob, mem, rfl, by simp⟩⟩
  | cons hash hashes ih =>
    obtain ⟨mid, released, rest⟩ := bind_ok.mp run
    obtain ⟨positive, rfl⟩ := releaseBlob_ok.mp released
    obtain ⟨columns, origin⟩ := ih rest
    refine ⟨columns.trans (map_updateWhere (·.contentHash) (by intro blob; rfl) blobs), ?_⟩
    intro blob mem
    obtain ⟨old, inMid, same, count⟩ := origin blob mem
    obtain ⟨first, inBlobs, ⟨hit, rfl⟩ | ⟨miss, rfl⟩⟩ := mem_updateWhere.mp inMid
    · have hashed : first.contentHash = hash := by simpa using hit
      have := positive first inBlobs hashed
      refine ⟨first, inBlobs, same, ?_⟩
      rw [countP_cons_of_pos (by simpa [hashed] using same)]
      simp only at count
      omega
    · have other : ¬ old.contentHash = hash := by simpa using miss
      refine ⟨old, inBlobs, same, ?_⟩
      rw [countP_cons_of_neg (by simpa [← same, eq_comm] using other)]
      exact count

theorem releaseBlobs_total (enough : ∀ blob ∈ blobs, hashes.countP (· = blob.contentHash) ≤ blob.refcount) :
    ∃ after, hashes.foldlM releaseBlob blobs = .ok after := by
  induction hashes generalizing blobs with
  | nil => exact ⟨blobs, rfl⟩
  | cons hash hashes ih =>
    have positive : ∀ blob ∈ blobs, blob.contentHash = hash → 0 < blob.refcount := by
      intro blob mem same
      have := enough blob mem
      rw [countP_cons_of_pos (by simp [same])] at this
      omega
    have released := releaseBlob_ok.mpr ⟨positive, rfl⟩
    have rest : ∃ after, hashes.foldlM releaseBlob (updateWhere (·.contentHash = hash)
        (fun blob => { blob with refcount := blob.refcount - 1 }) blobs) = .ok after := by
      refine ih ?_
      intro blob mem
      obtain ⟨old, inBlobs, ⟨hit, rfl⟩ | ⟨miss, rfl⟩⟩ := mem_updateWhere.mp mem
      · have := enough old inBlobs
        rw [countP_cons_of_pos (by simpa [eq_comm] using hit)] at this
        simp only
        omega
      · have := enough blob inBlobs
        rw [countP_cons] at this
        omega
    obtain ⟨after, ran⟩ := rest
    exact ⟨after, bind_ok.mpr ⟨_, released, ran⟩⟩

end Blobs

section Statements

variable {db after : Db}

variable {hash : Hash} {targeted : Hash → Bool} {row : PostRevisionRow}

theorem Orderly.storeSignedObject {cls : InnerClass} {payload signature : Bytes}
    (ord : Orderly db) : Orderly (db.storeSignedObject cls payload signature hash) := by
  cases present : db.hasObject hash with
  | true => rwa [storeSignedObject_of_present present]
  | false =>
    have absent : ∀ row ∈ db.signedObjects, row.canonicalHash ≠ hash := by
      simpa [Db.hasObject] using present
    exact { ord with
      objectHashes := by
        rw [storeSignedObject_of_absent present]
        exact ord.objectHashes.insert absent
      liveUnstamped := by
        rw [storeSignedObject_of_absent present]
        exact forall_mem_concat.mpr ⟨ord.liveUnstamped, fun _ => rfl⟩
      threadsStored := fun row mem hash same =>
        hasObject_storeSignedObject.mpr (.inr (ord.threadsStored row mem hash same))
      revisionsStored := fun row mem => hasObject_storeSignedObject.mpr (.inr (ord.revisionsStored row mem)) }

theorem Orderly.erasePayloads {authority : Option Hash} (ord : Orderly db)
    (run : db.erasePayloads targeted authority = .ok after) : Orderly after := by
  have same := hasObject_erasePayloads run
  rw [erasePayloads_frame run] at same ⊢
  exact { ord with
    objectHashes := ord.objectHashes.update fun _ => rfl
    liveUnstamped := forall_mem_updateWhere ord.liveUnstamped fun _ _ live => by cases live
    threadsStored := fun row mem hash stamped => (same _).trans (ord.threadsStored row mem hash stamped)
    revisionsStored := fun row mem => (same _).trans (ord.revisionsStored row mem) }

/-- An erasure with a stored authority cannot fail. -/
theorem Orderly.erasePayloads_total {authority : Hash} (ord : Orderly db) (stored : db.hasObject authority = true) :
    ∃ after, db.erasePayloads targeted (some authority) = .ok after := by
  refine ⟨_, erasePayloads_ok ?_⟩
  intro row mem hit
  simp only [erasable, Bool.and_eq_true] at hit
  simp [ord.liveUnstamped row mem hit.1, stored]

theorem hasRevision_withPostRevision {post : Uuid} {revision : Nat} :
    (db.withPostRevision row).hasRevision post revision = true ↔
      db.hasRevision post revision = true ∨ (row.postId = post ∧ row.revision = revision) := by
  simp [Db.withPostRevision, hasRevision]

theorem Orderly.withPostRevision (ord : Orderly db)
    (stored : db.hasObject row.canonicalHash = true) : Orderly (db.withPostRevision row) :=
  { ord with
    revisionsStored := by
      exact forall_mem_append.mpr ⟨ord.revisionsStored, forall_mem_singleton.mpr stored⟩
    boundRevision := by
      intro bound mem
      exact hasRevision_withPostRevision.mpr (.inl (ord.boundRevision bound mem)) }

theorem hasBlob_insertAttachmentBlob {ref : AttachmentRef} :
    (db.insertAttachmentBlob ref).hasBlob hash = true ↔ db.hasBlob hash = true ∨ ref.contentHash = hash := by
  cases present : db.hasBlob ref.contentHash with
  | true =>
    simp only [Db.insertAttachmentBlob, present, if_true]
    constructor
    · exact .inl
    · rintro (known | rfl)
      · exact known
      · exact present
  | false =>
    simp only [Db.insertAttachmentBlob, present, Bool.false_eq_true, if_false]
    simp [hasBlob]

theorem Orderly.insertAttachmentBlob (ord : Orderly db) (ref : AttachmentRef) : Orderly (db.insertAttachmentBlob ref) :=
  { ord with
    boundBlob := by
      intro row mem
      exact hasBlob_insertAttachmentBlob.mpr (.inl (ord.boundBlob row mem))
    counted := by
      intro blob mem
      simp only [Db.insertAttachmentBlob] at mem ⊢
      split at mem
      · exact ord.counted blob mem
      · rename_i absent
        rcases mem_concat.mp mem with old | new
        · exact ord.counted blob old
        · -- nothing is bound to a blob that was not there
          rw [new, Nat.le_zero, countP_eq_zero]
          intro row bound same
          have known := ord.boundBlob row bound
          rw [of_decide_eq_true same] at known
          exact absent known }

theorem hasBlob_bound {row : PostAttachmentRow} (hash : Hash) : (db.bound row).hasBlob hash = db.hasBlob hash :=
  any_updateWhere (by intro blob; rfl) _

theorem Orderly.bound {row : PostAttachmentRow} (ord : Orderly db)
    (revision : db.hasRevision row.postId row.revision = true) (blob : db.hasBlob row.contentHash = true) :
    Orderly (db.bound row) :=
  { ord with
    boundRevision := by
      exact forall_mem_append.mpr ⟨ord.boundRevision, forall_mem_singleton.mpr revision⟩
    boundBlob := by
      intro other mem
      rw [hasBlob_bound]
      rcases mem_concat.mp mem with old | new
      · exact ord.boundBlob other old
      · rw [new]
        exact blob
    counted := by
      intro blob mem
      simp only [Db.bound, countP_append]
      obtain ⟨old, inBlobs, ⟨hit, rfl⟩ | ⟨miss, rfl⟩⟩ := mem_updateWhere.mp mem
      · have := ord.counted old inBlobs
        have one : [row].countP (fun row => row.contentHash = old.contentHash) ≤ 1 := countP_le_length
        simp only
        omega
      · have := ord.counted blob inBlobs
        have other : ¬ row.contentHash = blob.contentHash := by simpa [eq_comm] using miss
        simpa [other] using this }

theorem hasBlob_eq_mem (blobs : List AttachmentBlobRow) (hash : Hash) :
    blobs.any (·.contentHash = hash) = true ↔ hash ∈ blobs.map (·.contentHash) := by
  simp

/-- The bindings of a file are those that go and those that stay. -/
theorem countP_bindings (rows : List PostAttachmentRow) (doomed : PostAttachmentRow → Bool) (hash : Hash) :
    (rows.countP fun row => row.contentHash = hash) = ((rows.filter doomed).map (·.contentHash)).countP (· = hash) +
        (rows.filter fun row => !doomed row).countP fun row => row.contentHash = hash := by
  rw [countP_map]
  exact countP_eq_countP_filter_add _ _ _

variable (ord : Orderly db)
include ord

theorem Orderly.deletePostAttachments {doomed : PostAttachmentRow → Bool}
    (run : db.deletePostAttachments doomed = .ok after) : Orderly after := by
  obtain ⟨blobs, released, returned⟩ := bind_ok.mp run
  cases returned
  obtain ⟨columns, origin⟩ := releaseBlobs_ok released
  exact { ord with
    boundRevision := fun row mem => ord.boundRevision row (mem_of_mem_filter mem)
    boundBlob := by
      intro row mem
      have known := ord.boundBlob row (mem_of_mem_filter mem)
      rw [hasBlob, hasBlob_eq_mem] at known ⊢
      rwa [columns]
    counted := by
      intro blob mem
      obtain ⟨old, inBlobs, same, count⟩ := origin blob mem
      have before := ord.counted old inBlobs
      have split := countP_bindings db.postAttachments doomed blob.contentHash
      rw [same] at before
      simp only
      omega }

theorem Orderly.deletePostAttachments_total (doomed : PostAttachmentRow → Bool) :
    ∃ after, db.deletePostAttachments doomed = .ok after := by
  have released : ∃ blobs, ((db.postAttachments.filter doomed).map (·.contentHash)).foldlM releaseBlob
      db.attachmentBlobs = .ok blobs := by
    refine releaseBlobs_total ?_
    intro blob mem
    rw [countP_map]
    exact (filter_sublist.countP_le).trans (ord.counted blob mem)
  obtain ⟨blobs, released⟩ := released
  exact ⟨_, bind_ok.mpr ⟨blobs, released, rfl⟩⟩

/-- The collection spares a file that is bound. -/
theorem Orderly.gcOrphanBlobs (run : gcOrphanBlobs db = .ok after) : Orderly after := by
  simp only [Prismoire.gcOrphanBlobs, require_bind_ok] at run
  obtain ⟨allowed, returned⟩ := run
  cases returned
  rw [all_eq_true] at allowed
  exact { ord with
    boundBlob := by
      intro row mem
      obtain ⟨blob, inBlobs, same⟩ := any_eq_true.mp (ord.boundBlob row mem)
      have taken : db.postAttachments.any (·.contentHash = blob.contentHash) = true :=
        any_eq_true.mpr ⟨row, mem, by simpa [eq_comm] using same⟩
      have kept := allowed blob inBlobs
      rw [taken, Bool.not_true, Bool.or_false] at kept
      exact any_eq_true.mpr ⟨blob, mem_filter.mpr ⟨inBlobs, kept⟩, same⟩
    counted := fun blob mem => ord.counted blob (mem_of_mem_filter mem) }

theorem Orderly.insertRoom {room : RoomRow} (unmerged : room.mergedInto = none)
    (run : db.insertRoom room = .ok after) : Orderly after := by
  obtain ⟨-, -, rfl⟩ := insertRoom_ok.mp run
  exact { ord with
    roomsOpen := by
      exact forall_mem_append.mpr ⟨ord.roomsOpen, forall_mem_singleton.mpr unmerged⟩ }

theorem Orderly.insertThread {row : ThreadRow}
    (stored : ∀ hash, row.threadCreateHash = some hash → db.hasObject hash = true)
    (run : db.insertThread row = .ok after) : Orderly after := by
  obtain ⟨-, -, -, rfl⟩ := insertThread_ok.mp run
  exact { ord with
    threadsStored := by
      exact forall_mem_append.mpr ⟨ord.threadsStored, forall_mem_singleton.mpr stored⟩ }

theorem Orderly.updateRevisions {keep : PostRevisionRow → Bool} {set : PostRevisionRow → PostRevisionRow}
    (samePost : ∀ row, (set row).postId = row.postId)
    (sameRevision : ∀ row, (set row).revision = row.revision)
    (sameHash : ∀ row, (set row).canonicalHash = row.canonicalHash) :
    Orderly { db with
      postRevisions := updateWhere keep set db.postRevisions } :=
  { ord with
    revisionsStored := forall_mem_updateWhere ord.revisionsStored fun _ stored => by rwa [sameHash]
    boundRevision := by
      intro row mem
      have known := ord.boundRevision row mem
      rw [hasRevision] at known ⊢
      rwa [any_updateWhere (by intro row; rw [samePost, sameRevision])] }

theorem Orderly.blankBodies (selected : Uuid → Bool) : Orderly (db.blankBodies selected) :=
  ord.updateRevisions (fun _ => rfl) (fun _ => rfl) fun _ => rfl

theorem Orderly.touchThread (threadId : Uuid) (at' : Text) : Orderly (touchThread db threadId at') :=
  { ord with
    threadsStored := forall_mem_updateWhere ord.threadsStored fun _ => id }

end Statements

variable {state : AppState} {corpus : Corpus} {live : Bool} {db after : Db}

theorem Orderly.empty : Orderly {} where
  objectHashes := .nil
  liveUnstamped := by simp
  roomsOpen := by simp
  threadsStored := by simp
  revisionsStored := by simp
  boundRevision := by simp
  boundBlob := by simp
  counted := by simp

theorem EdgeEffect.orderly (effect : EdgeEffect state corpus db after) (ord : Orderly db) : Orderly after := by
  cases effect with
  | store => exact ord.storeSignedObject
  | project => exact { ord with }
  | erase projected run => exact ord.erasePayloads run
  | enqueue => exact { ord with }
  | dequeue => exact { ord with }
  | frontier => exact { ord with }

/-- No statement of any handler breaks what a later one checks. -/
theorem Effect.orderly (effect : Effect state corpus live db after) (ord : Orderly db) : Orderly after := by
  cases effect with
  | edge effect => exact effect.orderly ord
  | ownEdge => exact { ord with }
  | store => exact ord.storeSignedObject
  | erase projected run => exact ord.erasePayloads run
  | users => exact { ord with }
  | profile => exact { ord with }
  | room unmerged run => exact ord.insertRoom unmerged run
  | thread landing opens run =>
    refine ord.insertThread ?_ run
    intro hash stamped
    obtain rfl := Option.some.inj (opens.hash.symm.trans stamped)
    exact landing.stored
  | @openPost mid _ _ _ p post row landing first opens records opened landed =>
    obtain ⟨-, -, -, -, rfl⟩ := insertPost_ok.mp opened
    obtain ⟨-, -, rfl⟩ := insertPostRevision_ok.mp landed
    have posted : Orderly { db with
        posts := db.posts ++ [post] } := { ord with }
    exact posted.withPostRevision (records.hash ▸ landing.stored)
  | revise landing later records landed =>
    obtain ⟨-, -, rfl⟩ := insertPostRevision_ok.mp landed
    exact ord.withPostRevision (records.hash ▸ landing.stored)
  | recount => exact { ord with }
  | touch threadId at' => exact ord.touchThread threadId at'
  | blob ref => exact ord.insertAttachmentBlob ref
  | bind run =>
    obtain ⟨-, -, blob, revision, rfl⟩ := insertPostAttachment_ok.mp run
    exact ord.bound revision blob
  | unbind run => exact ord.deletePostAttachments run
  | gc run => exact ord.gcOrphanBlobs run
  | retract => exact { ord with }
  | blank selected => exact ord.blankBodies selected
  | authority => exact { ord with }
  | aside => exact { ord with }

theorem Effects.orderly (effects : Effects state corpus live db after) (ord : Orderly db) : Orderly after := by
  induction effects with
  | refl => exact ord
  | tail _ step ih => exact step.orderly ih

theorem Reachable.orderly {meets : Db → Bytes → Key → Prop} (reached : Reachable state corpus meets db) :
    Orderly db := by
  induction reached with
  | start => exact .empty
  | step before step ih => exact (step.effects before.sound).orderly ih

end Prismoire
