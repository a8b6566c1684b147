import Prismoire.AttachmentStore
import Prismoire.PostWrites

namespace Prismoire

open Lib List Option Function

def UploadCodec.EncodesAs (codec : UploadCodec) : Prop :=
  ∀ mime ∈ imageMimes, ∀ input stored, processImage codec mime input = .ok stored → codec.inferGet stored = some mime

theorem processBytes_mime {codec : UploadCodec} (encodes : codec.EncodesAs) {input stored : Bytes} {mime : Text}
    (run : processBytes codec input = .ok (stored, mime)) : (classify codec stored).mime = some mime := by
  unfold processBytes at run
  split at run
  · cases run
  · rename_i found typed
    split at run
    · rename_i image
      split at run
      · rename_i encoded reencoded
        cases run
        have listed : mime ∈ allowedMimes := by
          simp only [imageMimes, mem_cons, not_mem_nil, or_false] at image
          rcases image with rfl | rfl | rfl <;> simp [allowedMimes]
        simp [classify, encodes mime image input stored reencoded, listed, ClassifyOutcome.mime]
      · cases run
    · cases run
      exact typed

namespace BlobStore

/-- Stored bytes lie under their own hash, in a row with their length and, for a file that was uploaded
here, the type that the upload classifier gives them. -/
structure TrueLabels (platform : Platform) (codec : UploadCodec) (s : BlobStore) : Prop where
  hashed : ∀ hash bytes, s.blob hash = some bytes → platform.sha256 bytes = hash
  sizes : ∀ row ∈ s.db.attachmentBlobs, ∀ bytes, s.blob row.contentHash = some bytes → row.size = bytes.length
  types : ∀ row ∈ s.db.attachmentBlobs, ∀ bytes, s.blob row.contentHash = some bytes →
    s.uploaded row.contentHash = true → (classify codec bytes).mime = some row.contentType

def Describes (codec : UploadCodec) (s : BlobStore) (hash : Hash) (bytes : Bytes) (typed : Bool) : Prop :=
  ∀ row ∈ s.db.attachmentBlobs, row.contentHash = hash →
    row.size = bytes.length ∧ (typed = true → (classify codec bytes).mime = some row.contentType)

def LandsDescribed (platform : Platform) (codec : UploadCodec) (s : BlobStore) (event : StoreEvent) : Prop :=
  match event.action with
  | .upload _ input => ∀ stored mime, processBytes codec input = .ok (stored, mime) →
      s.Describes codec (platform.sha256 stored) ((s.blob (platform.sha256 stored)).getD stored) true
  | .fetched hash body => platform.sha256 body = hash → s.blob hash = none →
      s.Describes codec hash body (s.uploaded hash)
  | _ => True

section Kept

variable {state : AppState} {codec : UploadCodec} {config : UploadConfig} {corpus : Corpus} {s : BlobStore}

def BytesHaveRows (s : BlobStore) : Prop :=
  ∀ hash, s.db.hasBlob hash = false → s.blob hash = none

variable {after : BlobStore} {now : Nat} {platform : Platform} {hash : Hash} {input : Bytes} {bytes : Bytes}

theorem withDb_rows {after : Db} : (s.withDb after now).BytesHaveRows := by
  intro hash absent
  have gone : after.hasBlob hash = false := absent
  simp [BlobStore.withDb, gone]

section

variable (rows : s.BytesHaveRows)
include rows

theorem BytesHaveRows.commit {ε : Type} {result : Except ε Db} : (s.commit now result).BytesHaveRows := by
  cases result with
  | ok after => exact withDb_rows
  | error => exact rows

theorem BytesHaveRows.of_fewer (db : after.db = s.db)
    (fewer : ∀ hash bytes, after.blob hash = some bytes → s.blob hash = some bytes) : after.BytesHaveRows := by
  intro hash absent
  cases held : after.blob hash with
  | none => rfl
  | some bytes =>
    have stored := fewer hash bytes held
    rw [rows hash (db ▸ absent)] at stored
    cases stored

theorem BytesHaveRows.uploadBytes {user : Key} (run : s.uploadBytes platform codec config user input now = .ok after) :
    after.BytesHaveRows := by
  obtain ⟨stored, mime, fits, db, budget, -, uploaded, rfl⟩ := uploadBytes_ok run
  simp only [uploadAttachment, require_bind_ok] at uploaded
  obtain ⟨-, uploaded⟩ := uploaded
  cases uploaded
  intro hash absent
  have known := hasBlob_insertAttachmentBlob.not.mp (by simpa [Db.hasBlob] using absent)
  push Not at known
  simp only [update_of_ne (Ne.symm known.2)]
  exact rows hash (by simpa using known.1)

theorem BytesHaveRows.storeFetched {body : Bytes} : (s.storeFetched platform hash body).BytesHaveRows := by
  unfold BlobStore.storeFetched
  split
  · rename_i landed
    obtain ⟨-, present, -⟩ := landed
    intro other absent
    have differs : other ≠ hash := by
      rintro rfl
      rw [present] at absent
      cases absent
    simp only [update_of_ne differs]
    exact rows other absent
  · exact rows

end

theorem evictRows_fewer {target : Int} {rows : List AttachmentBlobRow} {tally : Nat × Int}
    (held : (evictRows target rows tally s).2.blob hash = some bytes) :
    s.blob hash = some bytes := by
  induction rows generalizing tally s with
  | nil => exact held
  | cons row rows ih =>
    have dropped : ∀ {other : Hash}, (s.dropBytes row.contentHash).blob other = some bytes →
        s.blob other = some bytes := by
      intro other held
      by_cases same : other = row.contentHash
      · subst same
        simp [dropBytes] at held
      · simpa [dropBytes, same] using held
    rw [evictRows] at held
    split at held
    · dsimp only at held
      split at held
      · exact dropped held
      · exact dropped (ih held)
    · exact ih held

theorem evictBatch_fewer (held : s.evictBatch.blob hash = some bytes) : s.blob hash = some bytes := by
  unfold evictBatch at held
  split at held
  · exact held
  · split at held
    · exact evictRows_fewer held
    · exact held

theorem evictBatch_db : s.evictBatch.db = s.db := by
  obtain ⟨blob, eviction, eq⟩ := @evictBatch_frame s
  rw [eq]

theorem BytesHaveRows.step (event : StoreEvent) (rows : s.BytesHaveRows) :
    (s.step state codec config event).BytesHaveRows := by
  obtain ⟨now, action⟩ := event
  cases action with
  | content | thread => exact withDb_rows
  | birth | reply | edit | retract | sweep => exact rows.commit
  | upload user input =>
    simp only [BlobStore.step]
    split
    · rename_i after run
      exact rows.uploadBytes run
    · exact rows
  | fetched hash body => exact rows.storeFetched
  | served hash =>
    obtain ⟨accessedAt, eq⟩ := @bumpAccessedAt_frame s hash now
    simp only [BlobStore.step, eq]
    exact rows
  | beginEviction maxBytes => exact rows
  | evictBatch => exact rows.of_fewer evictBatch_db fun hash bytes held => evictBatch_fewer held

section

variable (labels : s.TrueLabels platform codec)
include labels

theorem TrueLabels.withDb {after : Db}
    (rows : s.BytesHaveRows) (kept : ∀ label ∈ after.labels, label ∈ s.db.labels ∨ s.db.hasBlob label.1 = false) :
    (s.withDb after now).TrueLabels platform codec := by
  have origin : ∀ row ∈ after.attachmentBlobs, ∀ bytes, (s.withDb after now).blob row.contentHash = some bytes →
      s.blob row.contentHash = some bytes ∧ ∃ old ∈ s.db.attachmentBlobs, old.label = row.label := by
    intro row mem bytes held
    have stored : s.blob row.contentHash = some bytes := by
      simp only [BlobStore.withDb] at held
      split at held
      · exact held
      · cases held
    refine ⟨stored, ?_⟩
    rcases kept row.label (List.mem_map_of_mem mem) with old | absent
    · obtain ⟨row', inRows, same⟩ := List.mem_map.mp old
      exact ⟨row', inRows, same⟩
    · have empty : s.blob row.contentHash = none := rows _ absent
      rw [empty] at stored
      cases stored
  constructor
  · intro hash bytes held
    simp only [BlobStore.withDb] at held
    split at held
    · exact labels.hashed hash bytes held
    · cases held
  · intro row mem bytes held
    obtain ⟨stored, old, inRows, same⟩ := origin row mem bytes held
    obtain ⟨sameHash, -, sameSize⟩ : old.contentHash = row.contentHash ∧ old.contentType = row.contentType ∧
        old.size = row.size := by simpa [AttachmentBlobRow.label] using same
    rw [← sameSize]
    exact labels.sizes old inRows bytes (sameHash ▸ stored)
  · intro row mem bytes held uploaded
    obtain ⟨stored, old, inRows, same⟩ := origin row mem bytes held
    obtain ⟨sameHash, sameType, -⟩ : old.contentHash = row.contentHash ∧ old.contentType = row.contentType ∧
        old.size = row.size := by simpa [AttachmentBlobRow.label] using same
    rw [← sameType]
    exact labels.types old inRows bytes (sameHash ▸ stored) (sameHash ▸ uploaded)

theorem TrueLabels.commit {ε : Type} {result : Except ε Db} (rows : s.BytesHaveRows)
    (kept : ∀ after, result = .ok after → after.labels.Sublist s.db.labels) :
    (s.commit now result).TrueLabels platform codec := by
  cases result with
  | ok after => exact labels.withDb rows fun label mem => .inl ((kept after rfl).subset mem)
  | error => exact labels

theorem TrueLabels.of_fewer (db : after.db = s.db) (uploaded : after.uploaded = s.uploaded)
    (fewer : ∀ hash bytes, after.blob hash = some bytes → s.blob hash = some bytes) :
    after.TrueLabels platform codec := by
  constructor
  · exact fun hash bytes held => labels.hashed hash bytes (fewer hash bytes held)
  · intro row mem bytes held
    exact labels.sizes row (db ▸ mem) bytes (fewer _ _ held)
  · intro row mem bytes held wasUploaded
    exact labels.types row (db ▸ mem) bytes (fewer _ _ held) (uploaded ▸ wasUploaded)

end

theorem TrueLabels.uploadBytes {user : Key}
    (encodes : codec.EncodesAs) (labels : s.TrueLabels platform codec) (rows : s.BytesHaveRows)
    (described : ∀ stored mime, processBytes codec input = .ok (stored, mime) →
      s.Describes codec (platform.sha256 stored) ((s.blob (platform.sha256 stored)).getD stored) true)
    (run : s.uploadBytes platform codec config user input now = .ok after) :
    after.TrueLabels platform codec := by
  obtain ⟨stored, mime, fits, db, budget, processed, uploaded, rfl⟩ := uploadBytes_ok run
  have described := described stored mime processed
  simp only [uploadAttachment, require_bind_ok] at uploaded
  obtain ⟨-, uploaded⟩ := uploaded
  cases uploaded
  have typed := processBytes_mime encodes processed
  -- a row of another hash, or of this one, whether it was there or is new
  have origin : ∀ row ∈ (s.db.insertAttachmentBlob
      ⟨platform.sha256 stored, mime, stored.length, "", fits⟩).attachmentBlobs,
      (row ∈ s.db.attachmentBlobs ∧ row.contentHash ≠ platform.sha256 stored) ∨
        row.contentHash = platform.sha256 stored ∧ row.size = ((s.blob (platform.sha256 stored)).getD stored).length ∧
          (classify codec ((s.blob (platform.sha256 stored)).getD stored)).mime = some row.contentType := by
    intro row mem
    cases present : s.db.hasBlob (platform.sha256 stored) with
    | true =>
      simp only [Db.insertAttachmentBlob, present, if_true] at mem
      by_cases same : row.contentHash = platform.sha256 stored
      · exact .inr ⟨same, (described row mem same).1, (described row mem same).2 rfl⟩
      · exact .inl ⟨mem, same⟩
    | false =>
      simp only [Db.insertAttachmentBlob, present, Bool.false_eq_true, if_false] at mem
      rcases mem_concat.mp mem with old | new
      · refine .inl ⟨old, ?_⟩
        intro same
        have known : s.db.hasBlob (platform.sha256 stored) = true :=
          List.any_eq_true.mpr ⟨row, old, decide_eq_true same⟩
        rw [present] at known
        cases known
      · rw [new, rows _ present]
        exact .inr ⟨rfl, rfl, typed⟩
  have held : ((s.blob (platform.sha256 stored)).or (some stored)) =
      some ((s.blob (platform.sha256 stored)).getD stored) := by
    cases s.blob (platform.sha256 stored) <;> rfl
  constructor
  · intro hash bytes holds
    by_cases same : hash = platform.sha256 stored
    · subst same
      simp only [update_self] at holds
      cases before : s.blob (platform.sha256 stored) with
      | none =>
        rw [before] at holds
        cases holds
        rfl
      | some old =>
        rw [before] at holds
        cases holds
        exact labels.hashed _ _ before
    · simp only [update_of_ne same] at holds
      exact labels.hashed hash bytes holds
  · intro row mem bytes holds
    rcases origin row mem with ⟨old, other⟩ | ⟨same, size, -⟩
    · simp only [update_of_ne other] at holds
      exact labels.sizes row old bytes holds
    · simp only [same, update_self, held, some.injEq] at holds
      rw [size, holds]
  · intro row mem bytes holds wasUploaded
    rcases origin row mem with ⟨old, other⟩ | ⟨same, -, type⟩
    · simp only [update_of_ne other] at holds wasUploaded
      exact labels.types row old bytes holds wasUploaded
    · simp only [same, update_self, held, some.injEq] at holds
      rw [← holds]
      exact type

theorem TrueLabels.storeFetched {body : Bytes} (labels : s.TrueLabels platform codec)
    (described : platform.sha256 body = hash → s.blob hash = none → s.Describes codec hash body (s.uploaded hash)) :
    (s.storeFetched platform hash body).TrueLabels platform codec := by
  unfold BlobStore.storeFetched
  split
  · rename_i landed
    obtain ⟨hashed, present, empty⟩ := landed
    have described := described hashed empty
    constructor
    · intro other bytes holds
      by_cases same : other = hash
      · subst same
        simp only [update_self, some.injEq] at holds
        rw [← holds, hashed]
      · simp only [update_of_ne same] at holds
        exact labels.hashed other bytes holds
    · intro row mem bytes holds
      by_cases same : row.contentHash = hash
      · simp only [same, update_self, some.injEq] at holds
        rw [← holds]
        exact (described row mem same).1
      · simp only [update_of_ne same] at holds
        exact labels.sizes row mem bytes holds
    · intro row mem bytes holds wasUploaded
      by_cases same : row.contentHash = hash
      · simp only [same, update_self, some.injEq] at holds wasUploaded
        rw [← holds]
        exact (described row mem same).2 wasUploaded
      · simp only [update_of_ne same] at holds
        exact labels.types row mem bytes holds wasUploaded
  · exact labels

theorem TrueLabels.step {event : StoreEvent} (encodes : codec.EncodesAs)
    (reached : Reachable state corpus (fun _ _ _ => True) s.db) (honest : event.Honest state corpus s)
    (labels : s.TrueLabels state.platform codec) (rows : s.BytesHaveRows)
    (described : s.LandsDescribed state.platform codec event) :
    (s.step state codec config event).TrueLabels state.platform codec := by
  obtain ⟨now, action⟩ := event
  cases action with
  | content wireBytes arrivedFrom =>
    exact labels.withDb rows (deliverObject_ingests reached.sound honest).files.keepsLabels.1
  | birth birth genesis =>
    exact labels.commit rows fun after run => (completeLocalUserBirth_files run).labels
  | thread sign user req => exact labels.withDb rows fun label mem => .inl ((createThread_files req).labels.subset mem)
  | reply sign user req => exact labels.commit rows fun after run => (createReply_files run).labels
  | edit sign user req => exact labels.commit rows fun after run => (editPost_files run).labels
  | retract sign user postId at' => exact labels.commit rows fun after run => (retractPost_files run).labels
  | upload user input =>
    simp only [BlobStore.step]
    split
    · rename_i after run
      exact labels.uploadBytes encodes rows described run
    · exact labels
  | fetched hash body => exact labels.storeFetched described
  | served hash =>
    obtain ⟨accessedAt, eq⟩ := @bumpAccessedAt_frame s hash now
    simp only [BlobStore.step, eq]
    exact labels.of_fewer rfl rfl fun _ _ held => held
  | sweep => exact labels.commit rows fun after run => (sweepStaging_files run).labels
  | beginEviction maxBytes => exact labels.of_fewer rfl rfl fun _ _ held => held
  | evictBatch =>
    refine labels.of_fewer evictBatch_db ?_ fun hash bytes held => evictBatch_fewer held
    obtain ⟨blob, eviction, eq⟩ := @evictBatch_frame s
    simp only [BlobStore.step, eq]

end Kept

/--
While bytes only land in rows that describe them, every row with bytes tells the truth about them: the
budget counts their true sizes, and a post that is signed here repeats what the row says.
-/
theorem labels_true {state : AppState} {codec : UploadCodec} {config : UploadConfig} {corpus : Corpus}
    {events reached : List StoreEvent} (encodes : codec.EncodesAs)
    (meets : MeetAlong (step state codec config)
      (fun s event => event.Honest state corpus s ∧ s.LandsDescribed state.platform codec event) {} events)
    (within : reached <+: events) :
    let final := reached.foldl (step state codec config) {}
    final.TrueLabels state.platform codec ∧
    final.eligibleBytesUsed = ((final.db.attachmentBlobs.filter final.eligible).map fun row =>
      ((final.blob row.contentHash).getD []).length).sum ∧
    ∀ nfc user refs signed, validateAttachments nfc final.db user refs = .ok signed → ∀ ref ∈ signed.1, ∀ bytes,
      final.blob ref.contentHash = some bytes → ref.size = bytes.length ∧
        (final.uploaded ref.contentHash = true → (classify codec bytes).mime = some ref.mime) := by
  have keeps : ∀ (s : BlobStore) (event : StoreEvent),
      Reachable state corpus (fun _ _ _ => True) s.db ∧ s.BytesHaveRows ∧ s.TrueLabels state.platform codec →
      event.Honest state corpus s ∧ s.LandsDescribed state.platform codec event →
      Reachable state corpus (fun _ _ _ => True) (s.step state codec config event).db ∧
        (s.step state codec config event).BytesHaveRows ∧
        (s.step state codec config event).TrueLabels state.platform codec := by
    rintro s event ⟨reachable, rows, labels⟩ ⟨honest, described⟩
    exact ⟨step_reachable reachable honest, rows.step event, labels.step encodes reachable honest rows described⟩
  have rows : BytesHaveRows {} := fun _ _ => rfl
  have labels : TrueLabels state.platform codec {} := by
    constructor <;> simp
  obtain ⟨-, -, kept⟩ := (meets.of_shorter within).invariant keeps ⟨.start, rows, labels⟩
  intro final
  refine ⟨kept, ?_, ?_⟩
  · rw [eligibleBytesUsed]
    congr 1
    refine map_congr_left fun row mem => ?_
    obtain ⟨inRows, eligible⟩ := mem_filter.mp mem
    obtain ⟨bytes, held⟩ := isSome_iff_exists.mp (Bool.and_eq_true_iff.mp eligible).1
    rw [held]
    exact kept.sizes row inRows bytes held
  · intro nfc user refs signed run ref mem bytes held
    obtain ⟨⟨row, inRows, sameHash, sameType, sameSize⟩, -⟩ :=
      validateAttachments_usable run ref (validateAttachments_ok run ▸ mem)
    rw [← sameHash] at held ⊢
    rw [← sameType, ← sameSize]
    exact ⟨kept.sizes row inRows bytes held, kept.types row inRows bytes held⟩

/-- User 5 uploads the file before the stranger declares it; it is evicted and fetched again. -/
def uploadFirst : List StoreEvent :=
  [⟨900, .birth fileBirth fileGenesis⟩, ⟨901, .upload 5 [6]⟩] ++ declaredEvents ++
    [⟨2000, .beginEviction 0⟩, ⟨2001, .evictBatch⟩, ⟨2002, .fetched 7 [6]⟩]

/-- The stranger's declaration comes first. -/
def declareFirst : List StoreEvent :=
  ⟨900, .birth fileBirth fileGenesis⟩ :: declaredEvents ++ [⟨2000, .upload 5 [6]⟩]

theorem textCodec_encodesAs : textCodec.EncodesAs := by
  intro mime image input stored run
  cases run

instance {codec : UploadCodec} {s : BlobStore} {hash : Hash} {bytes : Bytes} {typed : Bool} :
    Decidable (s.Describes codec hash bytes typed) :=
  inferInstanceAs (Decidable (∀ row ∈ s.db.attachmentBlobs, row.contentHash = hash → _))

theorem uploadFirst_meets : MeetAlong (step fileState textCodec fileConfig)
    (fun s event => event.Honest fileState (fun _ => True) s ∧ s.LandsDescribed fileState.platform textCodec event)
    {} uploadFirst := by
  have occurs : ∀ wire, Occurs fileState (fun _ => True) wire := fun _ _ _ _ => trivial
  refine ⟨⟨fileBirth_honest _ _, trivial⟩, ⟨trivial, ?_⟩, ⟨occurs _, trivial⟩, ⟨occurs _, trivial⟩,
    ⟨occurs _, trivial⟩, ⟨trivial, trivial⟩, ⟨trivial, trivial⟩, ⟨trivial, ?_⟩, trivial⟩
  · intro stored mime run
    cases run
    decide +kernel
  · intro _ _
    decide +kernel

theorem labels_true_uploadFirst :
    let final := uploadFirst.foldl (step fileState textCodec fileConfig) {}
    (final.blob 7 = some [6] ∧ final.db.attachmentBlobs.map AttachmentBlobRow.label = [(7, "text/plain", 1)]) ∧
    final.TrueLabels fileState.platform textCodec ∧
    final.eligibleBytesUsed = ((final.db.attachmentBlobs.filter final.eligible).map fun row =>
      ((final.blob row.contentHash).getD []).length).sum ∧
    ∀ nfc user refs signed, validateAttachments nfc final.db user refs = .ok signed → ∀ ref ∈ signed.1, ∀ bytes,
      final.blob ref.contentHash = some bytes → ref.size = bytes.length ∧
        (final.uploaded ref.contentHash = true → (classify textCodec bytes).mime = some ref.mime) :=
  ⟨by decide +kernel, labels_true textCodec_encodesAs uploadFirst_meets prefix_rfl⟩

/-- The row keeps the type and the size of the stranger, and a post of user 5 would sign them. -/
theorem stranger_labels_upload :
    MeetAlong (step fileState textCodec fileConfig) (fun s event => event.Honest fileState (fun _ => True) s) {}
      declareFirst ∧
    let final := declareFirst.foldl (step fileState textCodec fileConfig) {}
    ¬ final.TrueLabels fileState.platform textCodec ∧ final.blob 7 = some [6] ∧ final.uploaded 7 = true ∧
      ∃ row ∈ final.db.attachmentBlobs, row.contentHash = 7 ∧ row.contentType = "image/png" ∧ row.size = 3 ∧
        attachmentUsable final.db 5 ⟨7, "image/png", 3, "b.txt", by decide⟩ = true := by
  have occurs : ∀ wire, Occurs fileState (fun _ => True) wire := fun _ _ _ _ => trivial
  refine ⟨⟨fileBirth_honest _ _, occurs _, occurs _, occurs _, trivial, trivial⟩, ?_, by decide +kernel,
    by decide +kernel, by decide +kernel⟩
  intro labels
  have stored : (declareFirst.foldl (step fileState textCodec fileConfig) {}).blob 7 = some [6] := by decide +kernel
  have declared : ∃ row ∈ (declareFirst.foldl (step fileState textCodec fileConfig) {}).db.attachmentBlobs,
      row.contentHash = 7 ∧ row.size = 3 := by decide +kernel
  obtain ⟨row, mem, hash, size⟩ := declared
  have true := labels.sizes row mem [6] (hash ▸ stored)
  rw [size] at true
  cases true

end BlobStore

end Prismoire
