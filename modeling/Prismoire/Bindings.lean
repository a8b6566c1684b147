import Prismoire.Constraints

namespace Prismoire

open Lib List

/-- The row of a reference at its place in the array. -/
def bindingRow (postId : Uuid) (revision : Nat) (ref : AttachmentRef × Nat) : PostAttachmentRow :=
  { postId, revision, position := ref.2, contentHash := ref.1.contentHash, filename := ref.1.filename }

/-- A binding of the post to a hash that an edit drops: it is bound to the prior revision and is not in
the new array. -/
def dropsBinding (db : Db) (postId : Uuid) (prior : Nat) (refs : List AttachmentRef) (row : PostAttachmentRow) : Bool :=
  row.postId = postId ∧ (db.postAttachments.any fun old =>
      old.postId = postId ∧ old.revision = prior ∧ old.contentHash = row.contentHash) ∧
    !refs.any (·.contentHash = row.contentHash)

variable {db after : Db} {postId : Uuid} {revision : Nat} {refs : List AttachmentRef}

theorem deleteEach_frame {hashes : List Hash} (run : hashes.foldlM (fun db hash =>
      db.deletePostAttachments fun row => row.postId = postId ∧ row.contentHash = hash) db = .ok after) :
    ∃ blobs, after = { db with
      postAttachments := db.postAttachments.filter fun row =>
        !(decide (row.postId = postId) && decide (row.contentHash ∈ hashes))
      attachmentBlobs := blobs } := by
  induction hashes generalizing db with
  | nil =>
    cases run
    exact ⟨after.attachmentBlobs, by simp⟩
  | cons hash hashes ih =>
    obtain ⟨mid, deleted, rest⟩ := bind_ok.mp run
    obtain ⟨blobs, rfl⟩ := deletePostAttachments_frame deleted
    obtain ⟨blobs', rfl⟩ := ih rest
    refine ⟨blobs', ?_⟩
    have rows : (db.postAttachments.filter fun row =>
          !decide (row.postId = postId ∧ row.contentHash = hash)).filter (fun row =>
            !(decide (row.postId = postId) && decide (row.contentHash ∈ hashes))) =
        db.postAttachments.filter fun row =>
          !(decide (row.postId = postId) && decide (row.contentHash ∈ hash :: hashes)) := by
      rw [filter_filter]
      refine filter_congr ?_
      intro row _
      by_cases post : row.postId = postId <;> by_cases first : row.contentHash = hash <;> simp [post, first]
    rw [rows]

theorem dropRemoved_frame {prior : Nat}
    (run : dropRemoved db postId prior refs = .ok after) :
    ∃ blobs, after = { db with
      postAttachments := db.postAttachments.filter fun row => !dropsBinding db postId prior refs row
      attachmentBlobs := blobs } := by
  obtain ⟨blobs, rfl⟩ := deleteEach_frame run
  refine ⟨blobs, ?_⟩
  congr 1
  refine filter_congr ?_
  intro row _
  rw [dropsBinding, Bool.eq_iff_iff]
  simp only [Bool.and_eq_false_iff, decide_eq_false_iff_not, mem_filter, mem_map,
    any_eq_true, decide_eq_true_eq, Bool.not_eq_eq_eq_not, Bool.not_true, any_eq_false]
  constructor
  · rintro (other | kept) ⟨post, ⟨old, mem, oldPost, oldRevision, same⟩, absent⟩
    · exact other post
    · exact kept ⟨⟨old, ⟨mem, oldPost, oldRevision⟩, same⟩, absent⟩
  · intro kept
    by_cases post : row.postId = postId
    · refine .inr ?_
      rintro ⟨⟨old, ⟨mem, oldPost, oldRevision⟩, same⟩, absent⟩
      exact kept ⟨post, ⟨old, mem, oldPost, oldRevision, same⟩, absent⟩
    · exact .inl post

theorem persistAttachmentBinding_frame {ref : AttachmentRef × Nat}
    (run : persistAttachmentBinding postId revision db ref = .ok after) :
    ∃ blobs, after = { db with
      postAttachments := db.postAttachments ++ [bindingRow postId revision ref]
      attachmentBlobs := blobs
      attachmentStaging := db.attachmentStaging.filter (·.contentHash ≠ ref.1.contentHash) } := by
  obtain ⟨bound, inserted, returned⟩ := bind_ok.mp run
  cases returned
  obtain ⟨-, -, -, -, rfl⟩ := Db.insertPostAttachment_ok.mp inserted
  exact ⟨_, rfl⟩

theorem persistEach_frame {refs : List (AttachmentRef × Nat)}
    (run : refs.foldlM (persistAttachmentBinding postId revision) db = .ok after) :
    ∃ blobs, after = { db with
      postAttachments := db.postAttachments ++ refs.map (bindingRow postId revision)
      attachmentBlobs := blobs
      attachmentStaging := db.attachmentStaging.filter fun row =>
        !refs.any (·.1.contentHash = row.contentHash) } := by
  induction refs generalizing db with
  | nil =>
    cases run
    exact ⟨after.attachmentBlobs, by simp⟩
  | cons ref refs ih =>
    obtain ⟨mid, persisted, rest⟩ := bind_ok.mp run
    obtain ⟨blobs, rfl⟩ := persistAttachmentBinding_frame persisted
    obtain ⟨blobs', rfl⟩ := ih rest
    refine ⟨blobs', ?_⟩
    have staging : (db.attachmentStaging.filter (·.contentHash ≠ ref.1.contentHash)).filter (fun row =>
          !refs.any (·.1.contentHash = row.contentHash)) =
        db.attachmentStaging.filter fun row => !(ref :: refs).any (·.1.contentHash = row.contentHash) := by
      rw [filter_filter]
      refine filter_congr ?_
      intro row _
      by_cases first : row.contentHash = ref.1.contentHash
      · simp [first]
      · simp [first, Ne.symm first]
    simp only [staging, append_assoc, map_cons, singleton_append]

theorem zipIdx_any_hash (refs : List AttachmentRef) (start : Nat) (hash : Hash) :
    (refs.zipIdx start).any (·.1.contentHash = hash) = refs.any (·.contentHash = hash) := by
  induction refs generalizing start with
  | nil => rfl
  | cons ref refs ih => simp only [zipIdx_cons, any_cons, ih]

theorem persistAttachmentBindings_frame (run : persistAttachmentBindings db postId revision refs = .ok after) :
    ∃ blobs, after = { db with
      postAttachments := db.postAttachments ++ refs.zipIdx.map (bindingRow postId revision)
      attachmentBlobs := blobs
      attachmentStaging := db.attachmentStaging.filter fun row =>
        !refs.any (·.contentHash = row.contentHash) } := by
  obtain ⟨blobs, rfl⟩ := persistEach_frame run
  refine ⟨blobs, ?_⟩
  simp only [zipIdx_any_hash]

end Prismoire
