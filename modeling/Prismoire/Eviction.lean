import Prismoire.BlobLabels
import Prismoire.LocalIngest

namespace Prismoire

open Lib List Function

variable {corpus : Corpus} {state : AppState}

section Reached

variable {db : Db}

theorem Reachable.blobsKept (reached : Reachable state corpus (fun _ _ _ => True) db) : BlobsKept state corpus db := by
  induction reached with
  | start => exact ⟨.empty, .empty, by simp [StagedHaveBlobs]⟩
  | step _ step ih => exact (BlobStep.operate step).kept ih

theorem Reachable.postTables (reached : Reachable state corpus (fun _ _ _ => True) db) : PostTables db :=
  ⟨reached.integrity.postIds, reached.integrity.revisionPost, reached.orderly.boundRevision⟩

theorem active_of_authenticated {user : Key} (session : authenticated db user = true) : db.active user := by
  rw [authenticated] at session
  cases found : db.user? user with
  | none => simp [found] at session
  | some row =>
    have same : row.publicKey = user := by simpa using find?_some found
    exact ⟨row, mem_of_find?_eq_some found, same, by simpa [found] using session⟩

end Reached

namespace BlobStore

def BoundStanding (s : BlobStore) (hash : Hash) : Prop :=
  ∃ row ∈ s.db.postAttachments, row.contentHash = hash ∧
    ∃ post ∈ s.db.posts, post.id = row.postId ∧ post.retracted = false ∧ s.db.livesHere post.author = true

/-- What nobody else may have a copy of: staged and not yet expired, or bound by a local user. -/
def Covered (s : BlobStore) (now : Nat) (hash : Hash) : Prop :=
  (s.db.staged hash ∧ now ≤ s.expiresAt hash) ∨ s.BoundStanding hash

/-- A batch over the budget does not get to a staged file: older ones make up the whole overshoot. -/
def SparesStaged (s : BlobStore) : Prop :=
  ∀ pass, s.eviction = some pass → EvictionPass.overBudget pass = true →
    ∀ older row newer, s.candidates = older ++ row :: newer → s.db.staged row.contentHash →
      older ≠ [] ∧ max 0 (pass.bytesUsed - pass.maxBytes) ≤ ((older.map (·.size)).sum : Nat)

/-- No batch gets to a staged file, and no delivery comes while somebody else has signed a later revision of
a local user's post. -/
def Spares (platform : Platform) (corpus : Corpus) (s : BlobStore) (event : StoreEvent) : Prop :=
  match event.action with
  | .evictBatch => s.SparesStaged
  | .content .. => OwnRevisions platform corpus s.db
  | _ => True

variable {s : BlobStore} {event : StoreEvent}

section Batches

theorem evictRows_taken {target : Int} {rows : List AttachmentBlobRow} {tally : Nat × Int} {hash : Hash}
    (distinct : (rows.map (·.contentHash)).Nodup) (eligible : ∀ row ∈ rows, s.eligible row = true)
    (held : (s.blob hash).isSome = true) (gone : (evictRows target rows tally s).2.blob hash = none) :
    ∃ older row newer, rows = older ++ row :: newer ∧ row.contentHash = hash ∧
      (older = [] ∨ tally.2 + ((older.map (·.size)).sum : Nat) < target) := by
  induction rows generalizing tally s with
  | nil =>
    have gone : s.blob hash = none := gone
    simp [gone] at held
  | cons row rows ih =>
    obtain ⟨fresh, distinct⟩ := nodup_cons.mp distinct
    rw [evictRows, if_pos (eligible row mem_cons_self)] at gone
    by_cases hit : row.contentHash = hash
    · exact ⟨[], row, rows, rfl, hit, .inl rfl⟩
    · have still : (s.dropBytes row.contentHash).blob hash = s.blob hash := by
        simp [dropBytes, Ne.symm hit]
      dsimp only at gone
      split at gone
      · rw [still] at gone
        simp [gone] at held
      · rename_i short
        have others : ∀ other ∈ rows, (s.dropBytes row.contentHash).eligible other = true := by
          intro other mem
          have differs : other.contentHash ≠ row.contentHash := by
            intro same
            exact fresh (mem_map.mpr ⟨other, mem, same⟩)
          have before := eligible other (mem_cons_of_mem _ mem)
          simpa [BlobStore.eligible, originBound, dropBytes, differs] using before
        obtain ⟨older, taken, newer, split, same, budget⟩ := ih distinct others (still ▸ held) gone
        refine ⟨row :: older, taken, newer, by rw [split]; rfl, same, .inr ?_⟩
        rcases budget with rfl | budget
        · simp only [map_cons, map_nil, sum_cons, sum_nil]
          omega
        · simp only [map_cons, sum_cons]
          omega

theorem mem_candidates {row : AttachmentBlobRow} (mem : row ∈ s.candidates) : s.eligible row = true := by
  have sorted := mem_of_mem_take mem
  exact (mem_filter.mp ((perm_insertionSort _ _).mem_iff.mp sorted)).2

theorem sorted_distinct (distinct : (s.db.attachmentBlobs.map (·.contentHash)).Nodup) :
    (((s.db.attachmentBlobs.filter s.eligible).insertionSort fun a b =>
      s.accessedAt a.contentHash ≤ s.accessedAt b.contentHash).map (·.contentHash)).Nodup :=
  ((perm_insertionSort _ _).map _).nodup_iff.mpr (distinct.sublist (filter_sublist.map _))

theorem candidates_distinct (distinct : (s.db.attachmentBlobs.map (·.contentHash)).Nodup) :
    (s.candidates.map (·.contentHash)).Nodup :=
  (sorted_distinct distinct).sublist ((take_sublist _ _).map _)

theorem evictBatch_keeps {hash : Hash} (distinct : (s.db.attachmentBlobs.map (·.contentHash)).Nodup)
    (spares : s.SparesStaged) (covered : s.originBound hash = true ∨ s.db.staged hash)
    (held : (s.blob hash).isSome = true) : (s.evictBatch.blob hash).isSome = true := by
  cases gone : s.evictBatch.blob hash with
  | some bytes => rfl
  | none =>
    exfalso
    unfold evictBatch at gone
    split at gone
    · simp [gone] at held
    · rename_i pass running
      split at gone
      · rename_i exceeds
        obtain ⟨older, row, newer, split, rfl, budget⟩ := evictRows_taken (candidates_distinct distinct)
          (fun row mem => mem_candidates mem) held gone
        have mem : row ∈ s.candidates := split ▸ mem_append_right _ mem_cons_self
        rcases covered with origin | staged
        · have eligible := mem_candidates mem
          rw [BlobStore.eligible, origin] at eligible
          simp at eligible
        · obtain ⟨some, enough⟩ := spares pass running exceeds older row newer split staged
          rcases budget with none | short
          · exact some none
          · rw [zero_add] at short
            exact absurd enough (not_le.mpr short)
      · have gone : s.blob hash = none := gone
        simp [gone] at held

end Batches

/-- The local posts, and for every file that a local user has bound or anyone has staged the uploaded bytes. -/
structure FilesKept (s : BlobStore) : Prop where
  locals : LocalPosts s.db
  rows : s.BytesHaveRows
  resident : ∀ hash, s.db.boundHere hash ∨ s.db.staged hash → s.uploaded hash = true ∧ (s.blob hash).isSome = true

section Kept

variable {codec : UploadCodec} {config : UploadConfig}

variable {hash : Hash} {now : Nat} {platform : Platform}

section

variable (kept : s.FilesKept)
include kept

theorem FilesKept.originBound (bound : s.db.boundHere hash) : s.originBound hash = true := by
  obtain ⟨row, inRows, same, post, inPosts, isPost, lives⟩ := bound
  have ours := kept.locals.ours post inPosts lives
  obtain ⟨stands, now, inNow, samePost, sameHash, isCurrent⟩ := ours.current row inRows isPost.symm
  obtain ⟨user, inUsers, author, active⟩ := ours.standing stands
  simp only [BlobStore.originBound, any_eq_true, decide_eq_true_eq]
  exact ⟨now, inNow, sameHash.trans same, post, inPosts, samePost.symm, isCurrent, by simpa using stands, ours.home, user, inUsers,
    author, by simpa using active⟩

theorem FilesKept.withDb {after : Db} (locals : LocalPosts after)
    (bound : ∀ hash, after.boundHere hash → s.db.boundHere hash ∨ s.db.staged hash)
    (staged : KeepsStaged s.db after) (blobs : ∀ row ∈ after.postAttachments, after.hasBlob row.contentHash = true) :
    (s.withDb after now).FilesKept where
  locals := locals
  rows := withDb_rows
  resident := by
    intro hash covered
    have before : s.db.boundHere hash ∨ s.db.staged hash := by
      rcases covered with here | ⟨row, mem, same⟩
      · exact bound hash here
      · exact .inr ⟨row, staged.staged row mem, same⟩
    obtain ⟨uploaded, held⟩ := kept.resident hash before
    have present : after.hasBlob hash = true := by
      rcases covered with ⟨row, mem, rfl, -⟩ | ⟨row, mem, rfl⟩
      · exact blobs row mem
      · refine staged.blobs row mem ?_
        cases known : s.db.hasBlob row.contentHash with
        | true => rfl
        | false =>
          rw [kept.rows _ known] at held
          cases held
    refine ⟨uploaded, ?_⟩
    simpa only [BlobStore.withDb, present, if_true] using held

theorem FilesKept.commit {ε : Type} {result : Except ε Db} (locals : ∀ after, result = .ok after → LocalPosts after ∧
      ∀ hash, after.boundHere hash → s.db.boundHere hash ∨ s.db.staged hash)
    (staged : ∀ after, result = .ok after → KeepsStaged s.db after)
    (blobs : ∀ row ∈ (s.commit now result).db.postAttachments,
      (s.commit now result).db.hasBlob row.contentHash = true) : (s.commit now result).FilesKept := by
  cases result with
  | ok after => exact kept.withDb (locals after rfl).1 (locals after rfl).2 (staged after rfl) blobs
  | error => exact kept

theorem FilesKept.of_db {after : BlobStore} (db : after.db = s.db)
    (uploaded : after.uploaded = s.uploaded) (rows : after.BytesHaveRows)
    (bytes : ∀ hash, s.db.boundHere hash ∨ s.db.staged hash → (s.blob hash).isSome = true →
      (after.blob hash).isSome = true) : after.FilesKept where
  locals := db ▸ kept.locals
  rows := rows
  resident := by
    intro hash covered
    rw [db] at covered
    obtain ⟨was, held⟩ := kept.resident hash covered
    exact ⟨uploaded ▸ was, bytes hash covered held⟩

theorem FilesKept.uploadBytes {user : Key} {input : Bytes} {after : BlobStore}
    (run : s.uploadBytes platform codec config user input now = .ok after) :
    after.FilesKept := by
  have rows := kept.rows.uploadBytes run
  obtain ⟨stored, mime, fits, db, budget, -, uploaded, rfl⟩ := uploadBytes_ok run
  simp only [uploadAttachment, require_bind_ok] at uploaded
  obtain ⟨-, uploaded⟩ := uploaded
  cases uploaded
  constructor
  · exact kept.locals.of_same rfl rfl rfl rfl
  · exact rows
  · intro hash covered
    by_cases same : hash = platform.sha256 stored
    · subst same
      simp only [update_self]
      exact ⟨trivial, by cases s.blob (platform.sha256 stored) <;> rfl⟩
    · simp only [update_of_ne same]
      refine kept.resident hash ?_
      rcases covered with here | ⟨row, mem, rfl⟩
      · exact .inl ((boundHere_congr rfl rfl rfl).mp here)
      · right
        dsimp only at mem
        split at mem
        · exact ⟨row, mem, rfl⟩
        · rcases mem_concat.mp mem with old | new
          · exact ⟨row, old, rfl⟩
          · rw [new] at same
            exact absurd rfl same

end

theorem storeFetched_grows {other : Hash} {body : Bytes}
    (held : (s.blob other).isSome = true) : ((s.storeFetched platform hash body).blob other).isSome = true := by
  unfold BlobStore.storeFetched
  split
  · by_cases same : other = hash
    · subst same
      simp
    · simpa only [update_of_ne same] using held
  · exact held

theorem FilesKept.step (reached : Reachable state corpus (fun _ _ _ => True) s.db)
    (honest : event.Honest state corpus s) (kept : s.FilesKept) (spares : s.Spares state.platform corpus event) :
    (s.step state codec config event).FilesKept := by
  have blobs := (@step_reachable state codec config corpus s event reached honest).orderly.boundBlob
  have tables := reached.postTables
  obtain ⟨now, action⟩ := event
  cases action with
  | content wireBytes arrivedFrom =>
    have changes : Ingests state corpus arrivedFrom s.db (deliverObject state s.db wireBytes arrivedFrom) :=
      deliverObject_ingests reached.sound honest
    have ours := changes.keepsOurs tables kept.locals spares
    exact kept.withDb ours.locals (fun hash here => .inl (ours.bound hash here)) changes.files.keepsStaged blobs
  | birth birth genesis =>
    refine kept.commit (fun after run => ?_) (fun after run => (completeLocalUserBirth_files run).keepsStaged) blobs
    obtain ⟨locals, bound⟩ := kept.locals.completeLocalUserBirth run
    exact ⟨locals, fun hash here => .inl (bound hash here)⟩
  | thread sign user req =>
    have ours := @LocalPosts.createThread state sign s.db user req kept.locals tables (active_of_authenticated honest.1)
    exact kept.withDb ours.1 ours.2 (createThread_files req).keepsStaged blobs
  | reply sign user req =>
    refine kept.commit (fun after run => ?_) (fun after run => (createReply_files run).keepsStaged) blobs
    obtain ⟨locals, bound⟩ := kept.locals.createReply tables (active_of_authenticated honest.1) run
    exact ⟨locals, fun hash here => .inl (bound hash here)⟩
  | edit sign user req =>
    exact kept.commit (fun after run => kept.locals.editPost tables run) (fun after run => (editPost_files run).keepsStaged) blobs
  | retract sign user postId at' =>
    refine kept.commit (fun after run => ?_) (fun after run => (retractPost_files run).keepsStaged) blobs
    obtain ⟨locals, bound⟩ := kept.locals.retractPost run
    exact ⟨locals, fun hash here => .inl (bound hash here)⟩
  | upload user input =>
    simp only [BlobStore.step]
    split
    · rename_i after run
      exact kept.uploadBytes run
    · exact kept
  | fetched hash body =>
    refine kept.of_db storeFetched_db ?_ kept.rows.storeFetched fun other _ held => storeFetched_grows held
    simp only [BlobStore.step, BlobStore.storeFetched]
    split <;> rfl
  | served hash =>
    obtain ⟨accessedAt, eq⟩ := @bumpAccessedAt_frame s hash now
    simp only [BlobStore.step, eq]
    exact kept.of_db rfl rfl kept.rows fun _ _ held => held
  | sweep =>
    refine kept.commit (fun after run => ?_) (fun after run => (sweepStaging_files run).keepsStaged) blobs
    obtain ⟨blobs, rfl⟩ := gcOrphanBlobs_frame run
    exact ⟨kept.locals.of_same rfl rfl rfl rfl, fun hash here => .inl ((boundHere_congr rfl rfl rfl).mp here)⟩
  | beginEviction maxBytes => exact kept.of_db rfl rfl kept.rows fun _ _ held => held
  | evictBatch =>
    refine kept.of_db evictBatch_db ?_ (kept.rows.step ⟨now, .evictBatch⟩) fun hash covered held => ?_
    · obtain ⟨blob, eviction, eq⟩ := @evictBatch_frame s
      simp only [BlobStore.step, eq]
    · exact evictBatch_keeps reached.blobsKept.counted.blobHashes spares
        (covered.imp_left fun bound => kept.originBound bound) held

theorem BoundStanding.boundHere (bound : s.BoundStanding hash) : s.db.boundHere hash := by
  obtain ⟨row, inRows, same, post, inPosts, isPost, -, lives⟩ := bound
  exact ⟨row, inRows, same, post, inPosts, isPost, lives⟩

theorem Covered.resident (covered : s.Covered now hash) : s.db.boundHere hash ∨ s.db.staged hash := by
  rcases covered with ⟨staged, -⟩ | bound
  · exact .inr staged
  · exact .inl bound.boundHere

theorem step_keeps (other : event.action ≠ .evictBatch)
    (held : (s.blob hash).isSome = true) (present : (s.step state codec config event).db.hasBlob hash = true) :
    ((s.step state codec config event).blob hash).isSome = true := by
  have writes : ∀ after now, after.hasBlob hash = true → ((s.withDb after now).blob hash).isSome = true := by
    intro after now present
    simpa only [BlobStore.withDb, present, if_true] using held
  have commits : ∀ {ε : Type} (now : Nat) (result : Except ε Db), (s.commit now result).db.hasBlob hash = true →
      ((s.commit now result).blob hash).isSome = true := by
    intro ε now result present
    cases result with
    | ok after => exact writes after now present
    | error => exact held
  obtain ⟨now, action⟩ := event
  cases action with
  | content | thread => exact writes _ _ present
  | birth | reply | edit | retract | sweep => exact commits _ _ present
  | upload user input =>
    simp only [BlobStore.step]
    split
    · rename_i after run
      obtain ⟨stored, mime, fits, db, budget, -, -, rfl⟩ := uploadBytes_ok run
      by_cases same : hash = state.platform.sha256 stored
      · subst same
        simp
      · simpa only [update_of_ne same] using held
    · exact held
  | fetched hash body => exact storeFetched_grows held
  | served hash =>
    obtain ⟨accessedAt, eq⟩ := @bumpAccessedAt_frame s hash now
    simp only [BlobStore.step, eq]
    exact held
  | beginEviction maxBytes => exact held
  | evictBatch => exact absurd rfl other

end Kept

/--
While no batch gets to a staged file and nobody signs revisions of a local user's post, no step takes the bytes
of an upload that is staged or bound by a local user; whatever such a user has bound is there to be served.
-/
theorem files_kept {state : AppState} {codec : UploadCodec} {config : UploadConfig} {corpus : Corpus}
    {events reached : List StoreEvent}
    (meets : MeetAlong (step state codec config)
      (fun s event => event.Honest state corpus s ∧ s.Spares state.platform corpus event) {} events)
    (within : reached ++ [event] <+: events) :
    let s := reached.foldl (step state codec config) {}
    let after := s.step state codec config event
    (∀ hash, s.uploaded hash = true → s.Covered event.now hash → after.db.hasBlob hash = true →
      (after.blob hash).isSome = true) ∧
    ∀ hash, after.BoundStanding hash → (after.blob hash).isSome = true ∧ after.originBound hash = true := by
  have keeps : ∀ (s : BlobStore) (event : StoreEvent), Reachable state corpus (fun _ _ _ => True) s.db ∧ s.FilesKept →
      event.Honest state corpus s ∧ s.Spares state.platform corpus event →
      Reachable state corpus (fun _ _ _ => True) (s.step state codec config event).db ∧
        (s.step state codec config event).FilesKept := by
    rintro s event ⟨reachable, kept⟩ ⟨honest, spares⟩
    exact ⟨step_reachable reachable honest, kept.step reachable honest spares⟩
  have start : FilesKept {} := by
    refine ⟨⟨by simp, by simp⟩, fun _ _ => rfl, ?_⟩
    rintro hash (⟨row, mem, -⟩ | ⟨row, mem, -⟩) <;> cases mem
  obtain ⟨ours, next, -⟩ := meetAlong_append.mp (meets.of_shorter within)
  have before := ours.invariant keeps ⟨.start, start⟩
  obtain ⟨-, kept⟩ := keeps _ event before next
  intro s after
  constructor
  · intro hash _ covered present
    have held := (before.2.resident hash covered.resident).2
    by_cases batch : event.action = .evictBatch
    · obtain ⟨now, action⟩ := event
      subst batch
      refine (kept.resident hash ?_).2
      have db : after.db = s.db := evictBatch_db
      rw [db]
      exact covered.resident
    · exact step_keeps batch held present
  · intro hash bound
    exact ⟨(kept.resident hash (.inl bound.boundHere)).2, kept.originBound bound.boundHere⟩

instance (s : BlobStore) (hash : Hash) : Decidable (s.BoundStanding hash) :=
  inferInstanceAs (Decidable (∃ row ∈ s.db.postAttachments, row.contentHash = hash ∧
    ∃ post ∈ s.db.posts, post.id = row.postId ∧ post.retracted = false ∧ s.db.livesHere post.author = true))

instance (s : BlobStore) (now : Nat) (hash : Hash) : Decidable (s.Covered now hash) :=
  inferInstanceAs (Decidable ((s.db.staged hash ∧ now ≤ s.expiresAt hash) ∨ s.BoundStanding hash))

def uploadEvents : List StoreEvent :=
  [⟨900, .birth fileBirth fileGenesis⟩, ⟨901, .upload 5 [6]⟩]

/-- The whole cache is evicted. -/
def evictEvents : List StoreEvent :=
  [⟨2000, .beginEviction 0⟩, ⟨2001, .evictBatch⟩]

def threadEvent : StoreEvent where
  now := 902
  action := .thread signFile 5 fileThread

/-- User 1 signs a revision of the thread's post. -/
def intruderEvents : List StoreEvent :=
  [⟨1000, .content [2] 8⟩, ⟨1001, .content [7] 8⟩]

theorem threadEvent_honest {s : BlobStore} (session : authenticated s.db 5 = true) :
    threadEvent.Honest fileState (fun _ => True) s := by
  have opening : Signs fileState (fun _ => True) signFile
      (.postRevision (fileThread.opening 5 ⟨fileThread.attachments, by decide⟩)) :=
    ⟨trivial, by decide, 5, by decide⟩
  refine ⟨session, ?_, trivial, by decide, 5, by decide⟩
  rintro ⟨refs, fits⟩ same
  cases same
  exact opening

/-- The bound file outlives the eviction of everything that is evictable. -/
theorem files_kept_bound :
    let s := (uploadEvents ++ [threadEvent] ++ evictEvents.take 1).foldl (step fileState textCodec fileConfig) {}
    let after := s.step fileState textCodec fileConfig ⟨2001, .evictBatch⟩
    (s.uploaded 7 = true ∧ s.Covered 2001 7 ∧ after.blob 7 = some [6]) ∧
    (∀ hash, s.uploaded hash = true → s.Covered 2001 hash → after.db.hasBlob hash = true →
      (after.blob hash).isSome = true) ∧
    ∀ hash, after.BoundStanding hash → (after.blob hash).isSome = true ∧ after.originBound hash = true := by
  have meets : MeetAlong (step fileState textCodec fileConfig)
      (fun s event => event.Honest fileState (fun _ => True) s ∧ s.Spares fileState.platform (fun _ => True) event)
      {} (uploadEvents ++ [threadEvent] ++ evictEvents) := by
    refine ⟨⟨fileBirth_honest _ _, trivial⟩, ⟨trivial, trivial⟩, ⟨threadEvent_honest (by decide +kernel), trivial⟩,
      ⟨trivial, trivial⟩, ⟨trivial, ?_⟩, trivial⟩
    rintro pass - - older row newer - ⟨staged, mem, -⟩
    have none : ((uploadEvents ++ [threadEvent] ++ evictEvents.take 1).foldl
      (step fileState textCodec fileConfig) {}).db.attachmentStaging = [] := by decide +kernel
    exact absurd (none ▸ mem) not_mem_nil
  have within : (uploadEvents ++ [threadEvent] ++ evictEvents.take 1) ++ [⟨2001, .evictBatch⟩] <+:
      uploadEvents ++ [threadEvent] ++ evictEvents := ⟨[], rfl⟩
  exact ⟨by decide +kernel, files_kept meets within⟩

/-- An eviction takes the only copy of a staged upload; and that of a bound one, once a stranger has revised
its post. -/
theorem eviction_takes_upload :
    (let s := (uploadEvents ++ evictEvents.take 1).foldl (step fileState textCodec fileConfig) {}
    let after := s.step fileState textCodec fileConfig ⟨2001, .evictBatch⟩
    MeetAlong (step fileState textCodec fileConfig) (fun s event => event.Honest fileState (fun _ => True) s) {}
      (uploadEvents ++ evictEvents) ∧
    s.uploaded 7 = true ∧ s.blob 7 = some [6] ∧ s.db.staged 7 ∧ 2001 ≤ s.expiresAt 7 ∧
      after.db.hasBlob 7 = true ∧ after.blob 7 = none) ∧
    let s := (uploadEvents ++ [threadEvent] ++ intruderEvents ++ evictEvents.take 1).foldl
      (step fileState textCodec fileConfig) {}
    let after := s.step fileState textCodec fileConfig ⟨2001, .evictBatch⟩
    MeetAlong (step fileState textCodec fileConfig) (fun s event => event.Honest fileState (fun _ => True) s) {}
      (uploadEvents ++ [threadEvent] ++ intruderEvents ++ evictEvents) ∧
    s.uploaded 7 = true ∧ s.blob 7 = some [6] ∧ after.BoundStanding 7 ∧ after.db.hasBlob 7 = true ∧
      after.blob 7 = none := by
  have occurs : ∀ wire, Occurs fileState (fun _ => True) wire := fun _ _ _ _ => trivial
  refine ⟨⟨⟨fileBirth_honest _ _, trivial, trivial, trivial, trivial⟩, by decide +kernel⟩,
    ⟨fileBirth_honest _ _, trivial, threadEvent_honest (by decide +kernel), occurs _, occurs _, trivial, trivial,
      trivial⟩, by decide +kernel⟩

end BlobStore

end Prismoire
