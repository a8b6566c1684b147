import Prismoire.Eviction

namespace Prismoire

open Lib List Function

/-- Every blob row has a type that files may have, and a size. -/
def AllowedLabels (db : Db) : Prop :=
  ∀ label ∈ db.labels, label.2.1 ∈ allowedMimes ∧ label.2.2 ≤ maxAttachmentSize

/-- A reference that repeats the row of the file passes, under any name that the sanitizer leaves as it is. -/
def Db.bindable (db : Db) (user : Key) (hash : Hash) : Prop :=
  ∃ row ∈ db.attachmentBlobs, row.contentHash = hash ∧ row.contentType ∈ allowedMimes ∧
    ∃ fits : row.size ≤ maxAttachmentSize, ∀ nfc filename, sanitizeAttachmentFilename nfc filename = some filename →
      ∃ refs, validateAttachments nfc db user [⟨hash, row.contentType, row.size, filename, fits⟩] = .ok refs

section Bindable

variable {db : Db} {user : Key} {hash : Hash}

theorem bindable_of_usable (labels : AllowedLabels db) (known : db.hasBlob hash = true)
    (authorized : (db.attachmentStaging.any fun row => row.contentHash = hash ∧ row.uploader = user) = true ∨
      (db.postAttachments.any fun row => row.contentHash = hash ∧ authored db user row.postId) = true) :
    db.bindable user hash := by
  obtain ⟨row, mem, same⟩ := any_eq_true.mp known
  have same : row.contentHash = hash := by simpa using same
  obtain ⟨typed, fits⟩ := labels row.label (mem_map_of_mem mem)
  refine ⟨row, mem, same, typed, fits, fun nfc filename named => ?_⟩
  have repeats : blobDescribed db ⟨hash, row.contentType, row.size, filename, fits⟩ = true :=
    any_eq_true.mpr ⟨row, mem, by simp [same]⟩
  have usable : attachmentUsable db user ⟨hash, row.contentType, row.size, filename, fits⟩ = true := by
    rw [attachmentUsable, repeats, Bool.true_and, Bool.or_eq_true]
    exact authorized
  have checked : validateRefs nfc db user [] [⟨hash, row.contentType, row.size, filename, fits⟩] = .ok () := by
    simp [validateRefs, named, repeats, usable, show row.contentType ∈ allowedMimes from typed]
  have short : [(⟨hash, row.contentType, row.size, filename, fits⟩ : AttachmentRef)].length ≤ maxAttachmentsPerOp := by
    simp [maxAttachmentsPerOp]
  exact ⟨_, by rw [validateAttachments, dif_pos short, checked]; rfl⟩

end Bindable

namespace BlobStore

variable {state : AppState} {codec : UploadCodec} {config : UploadConfig} {corpus : Corpus} {after : BlobStore}
  {now : Nat} {input : Bytes} {mime : Text} {events : List StoreEvent} {event : StoreEvent}

def Binds (state : AppState) (s : BlobStore) (hash : Hash) (event : StoreEvent) : Prop :=
  match event.action with
  | .thread sign user req =>
    (createThread state sign s.db user req).1 = .ok () ∧ req.attachments.any (·.contentHash = hash) = true
  | .edit sign user req =>
    (∃ after, editPost state sign s.db user req = .ok after) ∧ req.attachments.any (·.contentHash = hash) = true
  | _ => False

/-- Anything but a delivery from another instance. -/
def HereOnly (event : StoreEvent) : Prop :=
  match event.action with
  | .content .. => False
  | _ => True

section Labels

variable {s : BlobStore}

theorem processBytes_allowed {input stored : Bytes}
    (run : processBytes codec input = .ok (stored, mime)) : mime ∈ allowedMimes := by
  have listed : ∀ mime, (classify codec input).mime = some mime → mime ∈ allowedMimes := by
    intro mime typed
    unfold classify at typed
    split at typed
    · split at typed
      · rename_i found
        cases typed
        exact found
      · cases typed
    · split at typed
      · cases typed
        simp [allowedMimes]
      · cases typed
  unfold processBytes at run
  split at run
  · cases run
  · rename_i found typed
    split at run
    · split at run
      · cases run
        exact listed _ typed
      · cases run
    · cases run
      exact listed _ typed

theorem allowedLabels_of_fewer {db after : Db} (labels : AllowedLabels db) (fewer : after.labels.Sublist db.labels) :
    AllowedLabels after :=
  fun label mem => labels label (fewer.subset mem)

theorem uploadBytes_tables {user : Key}
    (run : s.uploadBytes state.platform codec config user input now = .ok after) :
    ∃ ref : AttachmentRef, ∃ stored mime, processBytes codec input = .ok (stored, mime) ∧ ref.mime = mime ∧
      ref.contentHash = state.platform.sha256 stored ∧
      after.db.attachmentBlobs = (s.db.insertAttachmentBlob ref).attachmentBlobs ∧
      after.db.attachmentStaging =
        (if s.db.attachmentStaging.any (·.contentHash = ref.contentHash) then s.db.attachmentStaging
         else s.db.attachmentStaging ++ [⟨ref.contentHash, user⟩]) ∧
      after.expiresAt = (if s.db.attachmentStaging.any (·.contentHash = ref.contentHash) then s.expiresAt
         else update s.expiresAt ref.contentHash (now + config.stagingTtlSeconds)) := by
  obtain ⟨stored, mime, fits, db, budget, processed, uploaded, rfl⟩ := uploadBytes_ok run
  simp only [uploadAttachment, require_bind_ok] at uploaded
  obtain ⟨-, uploaded⟩ := uploaded
  cases uploaded
  exact ⟨⟨state.platform.sha256 stored, mime, stored.length, "", fits⟩, stored, mime, processed, rfl, rfl, rfl, rfl, rfl⟩

theorem allowedLabels_upload {user : Key}
    (labels : AllowedLabels s.db) (run : s.uploadBytes state.platform codec config user input now = .ok after) :
    AllowedLabels after.db := by
  obtain ⟨ref, stored, mime, processed, typed, -, blobs, -⟩ := uploadBytes_tables run
  intro label mem
  rw [Db.labels, blobs] at mem
  rcases labels_insertAttachmentBlob mem with old | ⟨rfl, -⟩
  · exact labels label old
  · exact ⟨by simpa only [typed] using processBytes_allowed processed, ref.sizeFits⟩

theorem allowedLabels_commit {ε : Type} {result : Except ε Db} (labels : AllowedLabels s.db)
    (fewer : ∀ after, result = .ok after → after.labels.Sublist s.db.labels) : AllowedLabels (s.commit now result).db := by
  cases result with
  | ok after => exact allowedLabels_of_fewer labels (fewer after rfl)
  | error => exact labels

theorem allowedLabels_step (labels : AllowedLabels s.db) (here : HereOnly event) :
    AllowedLabels (s.step state codec config event).db := by
  obtain ⟨now, action⟩ := event
  cases action with
  | content => exact here.elim
  | birth birth genesis =>
    exact allowedLabels_commit labels fun after run => (completeLocalUserBirth_files run).labels
  | thread sign user req => exact allowedLabels_of_fewer labels (createThread_files req).labels
  | reply sign user req => exact allowedLabels_commit labels fun after run => (createReply_files run).labels
  | edit sign user req => exact allowedLabels_commit labels fun after run => (editPost_files run).labels
  | retract sign user postId at' => exact allowedLabels_commit labels fun after run => (retractPost_files run).labels
  | upload user input =>
    simp only [BlobStore.step]
    split
    · rename_i after run
      exact allowedLabels_upload labels run
    · exact labels
  | fetched hash body =>
    simp only [BlobStore.step, storeFetched_db]
    exact labels
  | served hash =>
    obtain ⟨accessedAt, eq⟩ := @bumpAccessedAt_frame s hash now
    simp only [BlobStore.step, eq]
    exact labels
  | sweep => exact allowedLabels_commit labels fun after run => (sweepStaging_files run).labels
  | beginEviction maxBytes => exact labels
  | evictBatch =>
    have same : s.evictBatch.db = s.db := evictBatch_db
    simp only [BlobStore.step, same]
    exact labels

end Labels

structure HeldUntil (s : BlobStore) (user : Key) (hash : Hash) (expiry : Nat) : Prop where
  staged : ⟨hash, user⟩ ∈ s.db.attachmentStaging
  known : s.db.hasBlob hash = true
  expires : s.expiresAt hash = expiry

section Held

variable {s : BlobStore} {user : Key} {hash : Hash} {expiry : Nat}

section

variable (held : s.HeldUntil user hash expiry)
include held

theorem HeldUntil.withDb {ends : Hash → Prop} {after : Db} (files : FileSteps false ends s.db after)
    (lasts : ¬ ends hash) : (s.withDb after now).HeldUntil user hash expiry where
  staged := files.holds lasts _ held.staged rfl
  known := files.keepsStaged.blobs _ (files.holds lasts _ held.staged rfl) held.known
  expires := held.expires

theorem HeldUntil.commit {ε : Type} {ends : Hash → Prop} {result : Except ε Db}
    (files : ∀ after, result = .ok after → FileSteps false ends s.db after)
    (lasts : ∀ after, result = .ok after → ¬ ends hash) : (s.commit now result).HeldUntil user hash expiry := by
  cases result with
  | ok after => exact held.withDb (files after rfl) (lasts after rfl)
  | error => exact held

theorem HeldUntil.of_db (db : after.db = s.db)
    (expires : after.expiresAt = s.expiresAt) : after.HeldUntil user hash expiry :=
  ⟨db ▸ held.staged, db ▸ held.known, expires ▸ held.expires⟩

theorem HeldUntil.uploadBytes {uploader : Key}
    (run : s.uploadBytes state.platform codec config uploader input now = .ok after) :
    after.HeldUntil user hash expiry := by
  obtain ⟨ref, stored, mime, -, -, -, blobs, staging, expires⟩ := uploadBytes_tables run
  refine ⟨?_, ?_, ?_⟩
  · rw [staging]
    split
    · exact held.staged
    · exact mem_append_left _ held.staged
  · have known := (@hasBlob_insertAttachmentBlob s.db hash ref).mpr (.inl held.known)
    rw [Db.hasBlob] at known ⊢
    rwa [blobs]
  · rw [expires]
    split
    · exact held.expires
    · rename_i fresh
      have other : hash ≠ ref.contentHash := by
        rintro rfl
        exact fresh (any_eq_true.mpr ⟨_, held.staged, by simp⟩)
      rw [update_of_ne other]
      exact held.expires

end

theorem HeldUntil.step (held : s.HeldUntil user hash expiry) (here : HereOnly event)
    (live : event.now ≤ expiry) (unbound : ¬Binds state s hash event) :
    (s.step state codec config event).HeldUntil user hash expiry := by
  obtain ⟨now, action⟩ := event
  cases action with
  | content => exact here.elim
  | birth => exact held.commit (fun after run => completeLocalUserBirth_files run) fun _ _ => id
  | thread sign author req => exact held.withDb (createThread_files req) unbound
  | reply => exact held.commit (fun after run => createReply_files run) fun _ _ => id
  | edit sign author req =>
    exact held.commit (fun after run => editPost_files run) fun after run listed => unbound ⟨⟨after, run⟩, listed⟩
  | retract => exact held.commit (fun after run => retractPost_files run) fun _ _ => id
  | upload uploader input =>
    simp only [BlobStore.step]
    split
    · rename_i after run
      exact held.uploadBytes run
    · exact held
  | fetched other body =>
    refine held.of_db storeFetched_db ?_
    simp only [BlobStore.step, storeFetched]
    split <;> rfl
  | served other =>
    obtain ⟨accessedAt, eq⟩ := @bumpAccessedAt_frame s other now
    simp only [BlobStore.step, eq]
    exact held.of_db rfl rfl
  | sweep =>
    refine held.commit (fun after run => sweepStaging_files run) ?_
    rintro after - ⟨row, -, rfl, expired⟩
    have standing := held.expires
    simp only [decide_eq_true_eq, standing] at expired
    exact Nat.not_lt_of_le live expired
  | beginEviction maxBytes => exact held.of_db rfl rfl
  | evictBatch =>
    obtain ⟨blob, eviction, eq⟩ := @evictBatch_frame s
    simp only [BlobStore.step, eq]
    exact held.of_db rfl rfl

theorem HeldUntil.run (held : s.HeldUntil user hash expiry)
    (meets : MeetAlong (BlobStore.step state codec config)
      (fun s event => event.Honest state corpus s ∧ HereOnly event) s events)
    (live : ∀ event ∈ events, event.now ≤ expiry)
    (unbound : MeetAlong (BlobStore.step state codec config) (fun s event => ¬Binds state s hash event) s events) :
    (events.foldl (BlobStore.step state codec config) s).HeldUntil user hash expiry := by
  induction events generalizing s with
  | nil => exact held
  | cons event events ih =>
    have stepped : (s.step state codec config event).HeldUntil user hash expiry :=
      held.step meets.1.2 (live event mem_cons_self) unbound.1
    exact ih stepped meets.2 (fun later mem => live later (mem_cons_of_mem _ mem)) unbound.2

end Held

theorem HeldUntil.bindable {s : BlobStore} {user : Key} {hash : Hash} {expiry : Nat}
    (held : s.HeldUntil user hash expiry) (labels : AllowedLabels s.db) : s.db.bindable user hash :=
  bindable_of_usable labels held.known (.inl (any_eq_true.mpr ⟨_, held.staged, by simp⟩))

theorem uploadBytes_held {s after : BlobStore} {user : Key} {input stored : Bytes}
    (processed : processBytes codec input = .ok (stored, mime))
    (run : s.uploadBytes state.platform codec config user input now = .ok after)
    (mine : ∀ row ∈ s.db.attachmentStaging, row.contentHash = state.platform.sha256 stored → row.uploader = user) :
    after.HeldUntil user (state.platform.sha256 stored) (after.expiresAt (state.platform.sha256 stored)) := by
  obtain ⟨ref, again, mime', processedAgain, -, same, blobs, staging, -⟩ := uploadBytes_tables run
  rw [processed] at processedAgain
  cases processedAgain
  refine ⟨?_, ?_, rfl⟩
  · rw [staging, same]
    split
    · rename_i old
      obtain ⟨row, mem, ours⟩ := any_eq_true.mp old
      have ours : row.contentHash = state.platform.sha256 stored := by simpa using ours
      have uploader := mine row mem ours
      rw [← ours, ← uploader]
      exact mem
    · exact mem_append_right _ mem_cons_self
  · have known := (@hasBlob_insertAttachmentBlob s.db (state.platform.sha256 stored) ref).mpr (.inr same)
    rw [Db.hasBlob] at known ⊢
    rwa [blobs]

/--
After an upload was answered with 201 and until its row expires the uploader can bind the file, where no other
user's row stood and while nobody binds it; and whoever has the file on a post can bind it again.
-/
theorem upload_lets_bind {before later reached : List StoreEvent} {user : Key} {input stored : Bytes}
    {uploaded : BlobStore}
    (meets : MeetAlong (step state codec config) (fun s event => event.Honest state corpus s ∧ HereOnly event) {}
      (before ++ ⟨now, .upload user input⟩ :: later))
    (processed : processBytes codec input = .ok (stored, mime))
    (answered : (before.foldl (step state codec config) {}).uploadBytes state.platform codec config user input now =
      .ok uploaded)
    (within : reached <+: later) :
    let s := before.foldl (step state codec config) {}
    let hash := state.platform.sha256 stored
    let final := reached.foldl (step state codec config) uploaded
    (uploaded.expiresAt hash = if s.db.attachmentStaging.any (·.contentHash = hash) then s.expiresAt hash
      else now + config.stagingTtlSeconds) ∧
    ((∀ row ∈ s.db.attachmentStaging, row.contentHash = hash → row.uploader = user) →
      (∀ event ∈ reached, event.now ≤ uploaded.expiresAt hash) →
      MeetAlong (step state codec config) (fun s event => ¬Binds state s hash event) uploaded reached →
      final.db.bindable user hash) ∧
    ∀ author file, (∃ row ∈ final.db.postAttachments, row.contentHash = file ∧
      authored final.db author row.postId = true) → final.db.bindable author file := by
  intro s hash final
  have keeps : ∀ (s : BlobStore) (event : StoreEvent),
      Reachable state corpus (fun _ _ _ => True) s.db ∧ AllowedLabels s.db →
      event.Honest state corpus s ∧ HereOnly event →
      Reachable state corpus (fun _ _ _ => True) (s.step state codec config event).db ∧
        AllowedLabels (s.step state codec config event).db := by
    rintro s event ⟨reachable, labels⟩ ⟨honest, here⟩
    exact ⟨step_reachable reachable honest, allowedLabels_step labels here⟩
  obtain ⟨ours, next, onward⟩ := meetAlong_append.mp meets
  have landed : s.step state codec config ⟨now, .upload user input⟩ = uploaded := by
    simp only [step]
    rw [answered]
  rw [landed] at onward
  have start := ours.invariant keeps ⟨.start, fun label mem => absurd mem not_mem_nil⟩
  have middle := landed ▸ keeps _ _ start next
  have onward := onward.of_shorter within
  obtain ⟨reachable, labels⟩ : Reachable state corpus (fun _ _ _ => True) final.db ∧ AllowedLabels final.db :=
    onward.invariant keeps middle
  refine ⟨?_, ?_, ?_⟩
  · obtain ⟨ref, again, mime', processedAgain, -, same, -, -, expires⟩ := uploadBytes_tables answered
    rw [processed] at processedAgain
    cases processedAgain
    rw [expires, same]
    split
    · rfl
    · exact update_self ..
  · intro mine live unbound
    have held := uploadBytes_held processed answered mine
    exact (held.run onward live unbound).bindable labels
  · rintro author file ⟨row, mem, rfl, wrote⟩
    exact bindable_of_usable labels (reachable.orderly.boundBlob row mem)
      (.inr (any_eq_true.mpr ⟨row, mem, by simp [wrote]⟩))

def neighbourBirth : LocalUserBirth :=
  { fileBirth with
    publicKey := 6
    displayName := "f"
    skeleton := "f"
    genesisAttestation := ⟨6, 1000, 9, []⟩
    profile := ⟨[2], List.replicate 64 0⟩
    move := ⟨[3], List.replicate 64 0⟩ }

def neighbourGenesis : Move :=
  ⟨6, none, none, 9, "here", 1000, 1000, ⟨6, 1000, 9, []⟩, none⟩

def againThread : ThreadRequest :=
  { fileThread with
    now := 5
    threadId := 12
    postId := 22 }

/-- Users 5 and 6 are born here; user 6 opens two threads with the file of hash 7. -/
def sharedTable : List SignedPayload :=
  [.profileRevision fileBirth.genesisProfile, .move fileGenesis, .profileRevision neighbourBirth.genesisProfile,
    .move neighbourGenesis, .postRevision (fileThread.opening 6 ⟨fileThread.attachments, fileThread_fits⟩),
    .threadCreate (fileThread.thread 6), .postRevision (againThread.opening 6 ⟨againThread.attachments, by decide⟩),
    .threadCreate (againThread.thread 6)]

def sharedState : AppState :=
  AppState.ofTable sharedTable

def signShared : Signer :=
  signByTable sharedTable

def sharedBirths : List StoreEvent :=
  [⟨900, .birth fileBirth fileGenesis⟩, ⟨901, .birth neighbourBirth neighbourGenesis⟩]

def neighbourPosts : List StoreEvent :=
  [⟨1000, .upload 6 [6]⟩, ⟨1001, .thread signShared 6 fileThread⟩]

theorem sharedBirths_honest (onward : MeetAlong (step sharedState textCodec fileConfig)
      (fun s event => event.Honest sharedState (fun _ => True) s ∧ HereOnly event)
      (sharedBirths.foldl (step sharedState textCodec fileConfig) {}) events) :
    MeetAlong (step sharedState textCodec fileConfig)
      (fun s event => event.Honest sharedState (fun _ => True) s ∧ HereOnly event) {} (sharedBirths ++ events) := by
  have profile5 : signatureOk sharedState.platform [0] (List.replicate 64 0) 5 = true := by decide
  have move5 : signatureOk sharedState.platform [1] (List.replicate 64 0) 5 = true := by decide
  have profile6 : signatureOk sharedState.platform [2] (List.replicate 64 0) 6 = true := by decide
  have move6 : signatureOk sharedState.platform [3] (List.replicate 64 0) 6 = true := by decide
  exact meetAlong_append.mpr ⟨⟨⟨⟨⟨trivial, rfl, 5, profile5⟩, trivial, rfl, 5, move5⟩, trivial⟩,
    ⟨⟨⟨trivial, rfl, 6, profile6⟩, trivial, rfl, 6, move6⟩, trivial⟩, trivial⟩, onward⟩

theorem sharedThread_honest {s : BlobStore} {req : ThreadRequest}
    (listed : req = fileThread ∨ req = againThread) (session : authenticated s.db 6 = true) :
    StoreEvent.Honest sharedState (fun _ => True) s ⟨now, .thread signShared 6 req⟩ := by
  have first : Signs sharedState (fun _ => True) signShared
      (.postRevision (fileThread.opening 6 ⟨fileThread.attachments, fileThread_fits⟩)) :=
    ⟨trivial, by decide, 6, by decide⟩
  have second : Signs sharedState (fun _ => True) signShared
      (.postRevision (againThread.opening 6 ⟨againThread.attachments, by decide⟩)) :=
    ⟨trivial, by decide, 6, by decide⟩
  obtain rfl | rfl := listed
  · refine ⟨session, ?_, trivial, by decide, 6, by decide⟩
    rintro ⟨refs, fits⟩ same
    cases same
    exact first
  · refine ⟨session, ?_, trivial, by decide, 6, by decide⟩
    rintro ⟨refs, fits⟩ same
    cases same
    exact second

/-- The neighbour uploads after user 5, and the file of user 5 is still there to bind. -/
theorem upload_lets_bind_shared :
    let uploads : List StoreEvent := [⟨1000, .upload 5 [6]⟩, ⟨1001, .upload 6 [6]⟩, ⟨1002, .sweep⟩]
    let final := (sharedBirths ++ uploads).foldl (step sharedState textCodec fileConfig) {}
    final.expiresAt 7 = 4600 ∧ final.db.bindable 5 7 := by
  intro uploads final
  let later : List StoreEvent := [⟨1001, .upload 6 [6]⟩, ⟨1002, .sweep⟩]
  have meets := @sharedBirths_honest (⟨1000, .upload 5 [6]⟩ :: later)
    ⟨⟨trivial, trivial⟩, ⟨trivial, trivial⟩, ⟨trivial, trivial⟩, trivial⟩
  cases answered : (sharedBirths.foldl (step sharedState textCodec fileConfig) {}).uploadBytes sharedState.platform
      textCodec fileConfig 5 [6] 1000 with
  | error e =>
    have ran : ((sharedBirths.foldl (step sharedState textCodec fileConfig) {}).uploadBytes sharedState.platform
      textCodec fileConfig 5 [6] 1000).isOk = true := by decide +kernel
    rw [answered] at ran
    cases ran
  | ok uploaded =>
    have landed : (sharedBirths.foldl (step sharedState textCodec fileConfig) {}).step sharedState textCodec fileConfig
        ⟨1000, .upload 5 [6]⟩ = uploaded := by
      simp only [step]
      rw [answered]
    have none : (sharedBirths.foldl (step sharedState textCodec fileConfig) {}).db.attachmentStaging = [] := by
      decide +kernel
    have within : later <+: later := prefix_rfl
    obtain ⟨expires, mine, -⟩ := upload_lets_bind meets rfl answered within
    rw [none] at expires mine
    have lives : uploaded.expiresAt 7 = 4600 := expires
    refine ⟨by decide +kernel, ?_⟩
    have bindable := mine (fun row mem => absurd mem not_mem_nil) ?_ ⟨id, id, trivial⟩
    · rw [← landed] at bindable
      exact bindable
    · intro event mem
      have early : event.now ≤ 4600 := by
        revert event
        decide
      exact early.trans_eq lives.symm

/-- The second uploader of a file cannot bind it; an upload that repeats an older one lasts as long as that one; and
user 5's upload ends with the next thread of user 6, who has the file on another. -/
theorem upload_without_right :
    (let s := (sharedBirths ++ ([⟨1000, .upload 5 [6]⟩] : List StoreEvent)).foldl (step sharedState textCodec fileConfig) {}
    let after := s.step sharedState textCodec fileConfig ⟨1001, .upload 6 [6]⟩
    MeetAlong (step sharedState textCodec fileConfig)
      (fun s event => event.Honest sharedState (fun _ => True) s ∧ HereOnly event) {}
      (sharedBirths ++ [⟨1000, .upload 5 [6]⟩, ⟨1001, .upload 6 [6]⟩]) ∧
    (s.uploadBytes sharedState.platform textCodec fileConfig 6 [6] 1001).isOk = true ∧
      (validateAttachments id after.db 6 fileThread.attachments).isOk = false) ∧
    (let s := (sharedBirths ++ ([⟨1000, .upload 5 [6]⟩] : List StoreEvent)).foldl (step sharedState textCodec fileConfig) {}
    let after := (s.step sharedState textCodec fileConfig ⟨2000, .upload 5 [6]⟩).step sharedState textCodec fileConfig
      ⟨5000, .sweep⟩
    MeetAlong (step sharedState textCodec fileConfig)
      (fun s event => event.Honest sharedState (fun _ => True) s ∧ HereOnly event) {}
      (sharedBirths ++ [⟨1000, .upload 5 [6]⟩, ⟨2000, .upload 5 [6]⟩, ⟨5000, .sweep⟩]) ∧
    (s.uploadBytes sharedState.platform textCodec fileConfig 5 [6] 2000).isOk = true ∧
      (validateAttachments id after.db 5 fileThread.attachments).isOk = false) ∧
    let s := (sharedBirths ++ neighbourPosts).foldl (step sharedState textCodec fileConfig) {}
    let uploaded := s.step sharedState textCodec fileConfig ⟨1002, .upload 5 [6]⟩
    let after := uploaded.step sharedState textCodec fileConfig ⟨1003, .thread signShared 6 againThread⟩
    MeetAlong (step sharedState textCodec fileConfig)
      (fun s event => event.Honest sharedState (fun _ => True) s ∧ HereOnly event) {}
      (sharedBirths ++ (neighbourPosts ++ [⟨1002, .upload 5 [6]⟩, ⟨1003, .thread signShared 6 againThread⟩])) ∧
    (s.uploadBytes sharedState.platform textCodec fileConfig 5 [6] 1002).isOk = true ∧
      (validateAttachments id uploaded.db 5 fileThread.attachments).isOk = true ∧
      (validateAttachments id after.db 5 fileThread.attachments).isOk = false := by
  refine ⟨⟨sharedBirths_honest ⟨⟨trivial, trivial⟩, ⟨trivial, trivial⟩, trivial⟩, by decide +kernel⟩,
    ⟨sharedBirths_honest ⟨⟨trivial, trivial⟩, ⟨trivial, trivial⟩, ⟨trivial, trivial⟩, trivial⟩, by decide +kernel⟩,
    sharedBirths_honest ⟨⟨trivial, trivial⟩, ⟨sharedThread_honest (.inl rfl) ?_, trivial⟩, ⟨trivial, trivial⟩,
      ⟨sharedThread_honest (.inr rfl) ?_, trivial⟩, trivial⟩, by decide +kernel⟩
  · decide +kernel
  · decide +kernel

end BlobStore

end Prismoire
