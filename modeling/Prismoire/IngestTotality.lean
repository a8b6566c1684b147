import Prismoire.Constraints
import Prismoire.ErasureAuthority
import Prismoire.PostOwnership

namespace Prismoire

open Lib List Db

/--
No two validly signed objects of the run claim one place: a revision slot (as SQLite stores it) or a
thread id belongs to one payload, and no post-rev lists an attachment twice.
-/
structure Harmless (platform : Platform) (corpus : Corpus) : Prop where
  injective : CollisionFree platform corpus
  slots : ∀ payload signature p payload' signature' p', Filed platform corpus payload signature (.postRevision p) →
    Filed platform corpus payload' signature' (.postRevision p') →
    p.postId = p'.postId → clampI64 p.revision = clampI64 p'.revision → payload = payload'
  threads : ∀ payload signature t payload' signature' t', Filed platform corpus payload signature (.threadCreate t) →
    Filed platform corpus payload' signature' (.threadCreate t') →
    t.threadId = t'.threadId → payload = payload'
  attachments : ∀ payload signature p, Filed platform corpus payload signature (.postRevision p) →
    (p.attachments.map (·.contentHash)).Nodup

/-- The three invariants of a reachable state. -/
structure Healthy (state : AppState) (corpus : Corpus) (db : Db) : Prop where
  sound : Sound state corpus db
  ints : Integrity state corpus db
  ord : Orderly db

variable {state : AppState} {corpus : Corpus} {db : Db} {hash : Hash}

theorem Effects.healthy {live : Bool} {after : Db}
    (effects : Effects state corpus live db after) (healthy : Healthy state corpus db) :
    Healthy state corpus after :=
  ⟨effects.sound healthy.sound, effects.integrity healthy.ints, effects.orderly healthy.ord⟩

theorem Reachable.healthy {meets : Db → Bytes → Key → Prop}
    (reached : Reachable state corpus meets db) : Healthy state corpus db :=
  ⟨reached.sound, reached.integrity, reached.orderly⟩

section Attachments

variable {db after : Db}

variable {postId : Uuid} {revision : Nat} {refs : List AttachmentRef}

theorem projectPostAttachments_frame (run : projectPostAttachments db postId revision refs = .ok after) :
    ∃ attachments blobs, after = { db with
      postAttachments := attachments
      attachmentBlobs := blobs } := by
  refine foldlM_invariant (fun mid => ∃ attachments blobs, mid = { db with
      postAttachments := attachments
      attachmentBlobs := blobs }) ?_ ⟨_, _, rfl⟩ run
  rintro ref - mid final ⟨attachments, blobs, rfl⟩ projected
  obtain ⟨-, -, -, -, rfl⟩ := insertPostAttachment_ok.mp projected
  exact ⟨_, _, rfl⟩

theorem zipIdx_apart (distinct : (refs.map (·.contentHash)).Nodup) :
    refs.zipIdx.Pairwise fun a b => a.2 ≠ b.2 ∧ a.1.contentHash ≠ b.1.contentHash := by
  refine List.Pairwise.and ?_ ?_
  · have positions : (refs.zipIdx.map Prod.snd).Nodup := by
      rw [zipIdx_map_snd]
      exact nodup_range'
    exact pairwise_map.mp positions
  · have hashes : (refs.zipIdx.map fun ref => ref.1.contentHash).Nodup := by
      rw [← zipIdx_map_fst 0 refs, map_map] at distinct
      exact distinct
    exact pairwise_map.mp hashes

theorem projectPostAttachments_total (recorded : db.hasRevision postId revision = true)
    (unbound : ∀ row ∈ db.postAttachments, ¬ (row.postId = postId ∧ row.revision = revision))
    (fits : refs.length ≤ maxAttachmentsPerOp) (distinct : (refs.map (·.contentHash)).Nodup) :
    ∃ after, projectPostAttachments db postId revision refs = .ok after := by
  let fresh := fun (ref : AttachmentRef × Nat) (mid : Db) => ∀ old ∈ mid.postAttachments,
    old.postId = postId → old.revision = revision → old.position ≠ ref.2 ∧ old.contentHash ≠ ref.1.contentHash
  have loop : ∃ final, refs.zipIdx.foldlM (projectPostAttachment postId revision) db = .ok final ∧
      final.hasRevision postId revision = true := by
    refine @foldlM_total _ _ _ _ _ _ (fun mid => mid.hasRevision postId revision = true) fresh _ ?_
      (zipIdx_apart distinct) recorded ?_
    · intro ref mem mid known isFresh
      have position : ref.2 ≤ 2 := by
        have := snd_lt_of_mem_zipIdx mem
        simp only [maxAttachmentsPerOp] at fits
        omega
      have blob : (mid.insertAttachmentBlob ref.1).hasBlob ref.1.contentHash = true :=
        hasBlob_insertAttachmentBlob.mpr (.inr rfl)
      refine ⟨_, insertPostAttachment_ok.mpr ⟨position, isFresh, blob, known, rfl⟩, known, ?_⟩
      intro other away otherFresh old inRows samePost sameRevision
      rcases mem_concat.mp inRows with before | new
      · exact otherFresh old before samePost sameRevision
      · rw [new]
        exact away
    · intro ref _ old inRows samePost sameRevision
      exact absurd ⟨samePost, sameRevision⟩ (unbound old inRows)
  obtain ⟨after, run, -⟩ := loop
  exact ⟨after, run⟩

end Attachments

section Projection

variable {state : AppState} {corpus : Corpus} {db after : Db} {payload signature : Bytes} {p : PostRevision}
  {t : ThreadCreate}

section

variable (harmless : Harmless state.platform corpus)
include harmless

theorem Harmless.slot_free (sound : Sound state corpus db)
    (filed : Filed state.platform corpus payload signature (.postRevision p))
    (fresh : db.postRevisions.any (·.canonicalHash = state.platform.sha256 payload) = false) :
    db.hasRevision p.postId (clampI64 p.revision) = false := by
  rw [hasRevision, any_eq_false]
  intro row mem same
  simp only [decide_eq_true_eq] at same
  obtain ⟨payload', signature', p', filed', records⟩ := sound.revisions row mem
  obtain rfl := harmless.slots _ _ _ _ _ _ filed' filed (records.post.symm.trans same.1)
    (records.revision.symm.trans same.2)
  rw [any_eq_false] at fresh
  exact fresh row mem (by simp [records.hash])

theorem Harmless.post_free (ints : Integrity state corpus db)
    (filed : Filed state.platform corpus payload signature (.postRevision p))
    (first : p.revision = 0)
    (fresh : db.postRevisions.any (·.canonicalHash = state.platform.sha256 payload) = false) :
    db.hasPost p.postId = false := by
  rw [hasPost, any_eq_false]
  intro post mem same
  obtain ⟨payload', signature', p', filed', first', opens, row, inRows, records⟩ := ints.opened post mem
  obtain rfl := harmless.slots _ _ _ _ _ _ filed' filed (opens.id.symm.trans (by simpa using same))
    (by rw [first, first'])
  rw [any_eq_false] at fresh
  exact fresh row inRows (by simp [records.hash])

theorem Harmless.thread_free (sound : Sound state corpus db)
    (filed : Filed state.platform corpus payload signature (.threadCreate t))
    (fresh : db.threads.any (·.threadCreateHash = some (state.platform.sha256 payload)) = false) :
    db.hasThread t.threadId = false := by
  rw [hasThread, any_eq_false]
  intro row mem same
  obtain ⟨payload', signature', t', filed', opens⟩ := sound.threads row mem
  obtain rfl := harmless.threads _ _ _ _ _ _ filed' filed (opens.id.symm.trans (by simpa using same))
  rw [any_eq_false] at fresh
  exact fresh row mem (by simp [opens.hash])

end

/-- A post-rev projection writes to the tables of posts and to the indexes over them. -/
def PostsOnly (hash : Hash) (db after : Db) : Prop :=
  ∃ posts revisions attachments blobs postsFts threadsFts, after = { db with
    posts := posts
    postRevisions := revisions
    postAttachments := attachments
    attachmentBlobs := blobs
    postsFts := postsFts
    threadsFts := threadsFts } ∧ ∀ row ∈ revisions, row ∈ db.postRevisions ∨ row.canonicalHash = hash

theorem landRevision_total (ord : Orderly db)
    (distinct : (p.attachments.map (·.contentHash)).Nodup) (posted : db.hasPost p.postId = true)
    (free : db.hasRevision p.postId (clampI64 p.revision) = false) :
    ∃ after, landRevision state db p signature hash = .ok (.projected, after) ∧ PostsOnly hash db after := by
  have inserted := insertPostRevision_ok.mpr
    ⟨show db.hasRevision (remoteRevisionRow state p signature hash).postId _ = false from free, posted, rfl⟩
  have unbound : ∀ row ∈ db.postAttachments, ¬ (row.postId = p.postId ∧ row.revision = clampI64 p.revision) := by
    rintro row mem ⟨samePost, sameRevision⟩
    have known := ord.boundRevision row mem
    rw [samePost, sameRevision, free] at known
    cases known
  have recorded : (db.withPostRevision (remoteRevisionRow state p signature hash)).hasRevision p.postId
      (clampI64 p.revision) = true := hasRevision_withPostRevision.mpr (.inr ⟨rfl, rfl⟩)
  obtain ⟨after, bound⟩ := projectPostAttachments_total recorded unbound p.attachmentsFit distinct
  refine ⟨after, bind_ok.mpr ⟨_, inserted, bind_ok.mpr ⟨after, bound, rfl⟩⟩, ?_⟩
  obtain ⟨attachments, blobs, rfl⟩ := projectPostAttachments_frame bound
  refine ⟨_, _, _, _, _, _, rfl, ?_⟩
  exact forall_mem_concat.mpr ⟨fun _ => .inl, .inr rfl⟩

theorem PostsOnly.fresh {hash other : Hash} (only : PostsOnly hash db after) (apart : hash ≠ other)
    (fresh : db.postRevisions.any (·.canonicalHash = other) = false) :
    after.postRevisions.any (·.canonicalHash = other) = false := by
  obtain ⟨posts, revisions, attachments, blobs, postsFts, threadsFts, rfl, only⟩ := only
  rw [any_eq_false] at fresh ⊢
  intro row mem same
  rcases only row mem with old | new
  · exact fresh row old same
  · exact apart (new.symm.trans (by simpa using same))

theorem PostsOnly.threads (only : PostsOnly hash db after) : after.threads = db.threads := by
  obtain ⟨posts, revisions, attachments, blobs, postsFts, threadsFts, rfl, -⟩ := only
  rfl

theorem orphans_apart {α : Type} {found : SignedObjectRow → Option (Orphan α)} (ord : Orderly db)
    (keeps : ∀ row orphan, found row = some orphan → orphan.canonicalHash = row.canonicalHash) :
    (db.signedObjects.filterMap found).Pairwise fun a b => a.canonicalHash ≠ b.canonicalHash := by
  refine List.Pairwise.filterMap found ?_ (pairwise_map.mp ord.objectHashes)
  intro row row' apart orphan isFound orphan' isFound'
  rw [keeps row orphan isFound, keeps row' orphan' isFound']
  exact apart

theorem orphanPostRev_hash {threadId : Uuid} {row : SignedObjectRow} {orphan : Orphan PostRevision}
    (found : orphanPostRev state db threadId row = some orphan) :
    orphan.canonicalHash = row.canonicalHash := by
  unfold orphanPostRev at found
  split at found
  · split at found
    · split at found
      · cases found
        rfl
      · cases found
    · cases found
  · cases found

theorem getOrCreateRoom_total {slug : Text} {createdBy : Key} (ord : Orderly db) (known : db.hasUser createdBy = true) :
    ∃ after, getOrCreateRoom db slug createdBy = .ok after ∧ after.users = db.users ∧
      after.threads = db.threads ∧ after.rooms.any (·.slug = slug) = true := by
  unfold getOrCreateRoom
  split
  · rename_i found
    simp only [any_eq_true, decide_eq_true_eq] at found
    obtain ⟨room, mem, same, -⟩ := found
    exact ⟨db, rfl, rfl, rfl, any_eq_true.mpr ⟨room, mem, by simpa using same⟩⟩
  · rename_i missing
    -- no room was ever merged, so a slug without a live room is free
    have free : db.rooms.any (·.slug = slug) = false := by
      rw [any_eq_false]
      intro room mem same
      refine missing (any_eq_true.mpr ⟨room, mem, ?_⟩)
      simpa [ord.roomsOpen room mem] using same
    exact ⟨_, insertRoom_ok.mpr ⟨free, known, rfl⟩, rfl, rfl, by simp⟩

theorem orphanThread_hash {author : Key} {row : SignedObjectRow} {orphan : Orphan ThreadCreate}
    (found : orphanThread state db author row = some orphan) :
    orphan.canonicalHash = row.canonicalHash := by
  unfold orphanThread at found
  split at found
  · split at found
    · split at found
      · cases found
        rfl
      · cases found
    · cases found
  · cases found

variable (harmless : Harmless state.platform corpus) (healthy : Healthy state corpus db)
include harmless healthy

theorem projectRemotePostRevision_total {arrivedFrom : Key}
    (filed : Filed state.platform corpus payload signature (.postRevision p))
    (fresh : db.postRevisions.any (·.canonicalHash = state.platform.sha256 payload) = false) :
    ∃ outcome after, projectRemotePostRevision state db p signature (state.platform.sha256 payload) arrivedFrom =
        .ok (outcome, after) ∧ PostsOnly (state.platform.sha256 payload) db after := by
  have distinct := harmless.attachments _ _ _ filed
  have slot := harmless.slot_free healthy.sound filed fresh
  have unchanged : PostsOnly (state.platform.sha256 payload) db db :=
    ⟨_, _, _, _, _, _, rfl, fun row mem => .inl mem⟩
  unfold projectRemotePostRevision
  split
  · exact ⟨_, _, rfl, unchanged⟩
  · split
    · exact ⟨_, _, rfl, unchanged⟩
    · rename_i known
      split
      · rename_i first
        split
        · exact ⟨_, _, rfl, unchanged⟩
        · rename_i references
          have free := harmless.post_free healthy.ints filed first fresh
          have references : db.hasThread p.threadId = true ∧ p.parentId.all db.hasPost = true := by
            cases parent : p.parentId <;> simp_all
          have opened := insertPost_ok.mpr ⟨show db.hasPost (remotePostRow state db p arrivedFrom).id = false
            from free, show db.hasUser p.author = true by simpa using known, references.1, references.2, rfl⟩
          have posted : Orderly { db with
              posts := db.posts ++ [remotePostRow state db p arrivedFrom] } := { healthy.ord with }
          obtain ⟨after, landed, posts, revisions, attachments, blobs, postsFts, threadsFts, rfl, only⟩ :=
            @landRevision_total (state.platform.sha256 payload) state _ signature p posted distinct
              ((hasPost_append _ _ _).mpr (.inr rfl)) slot
          exact ⟨_, _, bind_ok.mpr ⟨_, opened, landed⟩, _, _, _, _, _, _, rfl, only⟩
      · split
        · exact ⟨_, _, rfl, unchanged⟩
        · rename_i posted
          have raised : Orderly (db.raiseRevisionCount p.postId (clampI64 (clampI64 p.revision + 1))) :=
            { healthy.ord with }
          have kept : (db.raiseRevisionCount p.postId (clampI64 (clampI64 p.revision + 1))).hasPost p.postId =
              true := by
            have before : db.hasPost p.postId = true := by simpa using posted
            rw [hasPost] at before ⊢
            rwa [raiseRevisionCount, any_updateWhere (by intro row; rfl)]
          obtain ⟨after, landed, posts, revisions, attachments, blobs, postsFts, threadsFts, rfl, only⟩ :=
            @landRevision_total (state.platform.sha256 payload) state _ signature p raised distinct kept slot
          exact ⟨_, _, landed, _, _, _, _, _, _, rfl, only⟩

theorem reprojectOrphanPostRevsForThread_total {threadId : Uuid} {arrivedFrom : Key} :
    ∃ after, reprojectOrphanPostRevsForThread state db threadId arrivedFrom = .ok after ∧
      after.threads = db.threads := by
  let inv := fun mid : Db => Projects state corpus db mid ∧ mid.threads = db.threads
  let unprojected := fun (orphan : Orphan PostRevision) (mid : Db) =>
    mid.postRevisions.any (·.canonicalHash = orphan.canonicalHash) = false
  let pending := db.signedObjects.filterMap (orphanPostRev state db threadId)
  have safe : Safe (orphanAttempt state arrivedFrom) inv unprojected
      (fun a b => a.canonicalHash ≠ b.canonicalHash) pending := by
    rintro orphan mem mid ⟨projects, threads⟩ fresh
    obtain ⟨row, inObjects, found⟩ := mem_filterMap.mp mem
    obtain ⟨payload, landing, hashed, -, -⟩ := orphanPostRev_landing healthy.sound inObjects found
    obtain ⟨outcome, after, run, only⟩ := @projectRemotePostRevision_total state corpus mid payload
      orphan.signature orphan.object harmless (projects.effects.healthy healthy) arrivedFrom landing.filed
      (hashed ▸ fresh)
    obtain ⟨grown, idle⟩ := projectRemotePostRevision_projects (landing.of_objects projects.objects) run
    have attempt : orphanAttempt state arrivedFrom mid orphan =
        .ok (if outcome = .projected then .landed else .waiting, after) := by
      simp only [orphanAttempt, hashed, run]
      rfl
    refine ⟨_, after, attempt, ⟨projects.trans grown, only.threads.trans threads⟩, ?_, ?_⟩
    · intro waits
      have stays : outcome ≠ .projected := by
        rintro rfl
        simp at waits
      rw [idle stays]
      exact fresh
    · intro other apart otherFresh
      exact only.fresh (hashed ▸ apart) otherFresh
  have start : ∀ orphan ∈ pending, unprojected orphan db := by
    intro orphan mem
    obtain ⟨row, inObjects, found⟩ := mem_filterMap.mp mem
    obtain ⟨payload, -, -, -, fresh⟩ := orphanPostRev_landing healthy.sound inObjects found
    exact fresh
  have apart := orphans_apart healthy.ord fun _ _ => @orphanPostRev_hash state db threadId _ _
  obtain ⟨after, run, -, threads⟩ := settle_total (fun _ _ => Ne.symm) safe apart ⟨.refl, rfl⟩ start
  exact ⟨after, run, threads⟩

theorem projectRemoteThreadCreate_total {arrivedFrom : Key}
    (filed : Filed state.platform corpus payload signature (.threadCreate t))
    (fresh : db.threads.any (·.threadCreateHash = some (state.platform.sha256 payload)) = false) :
    ∃ outcome after, projectRemoteThreadCreate state db t (state.platform.sha256 payload) arrivedFrom =
        .ok (outcome, after) ∧
      ∀ row ∈ after.threads, row ∈ db.threads ∨ row.threadCreateHash = some (state.platform.sha256 payload) := by
  have free := harmless.thread_free healthy.sound filed fresh
  unfold projectRemoteThreadCreate
  split
  · exact ⟨_, db, rfl, fun row => .inl⟩
  · split
    · exact ⟨_, db, rfl, fun row => .inl⟩
    · rename_i author
      have author : db.hasUser t.author = true := by simpa using author
      obtain ⟨mid, roomed, users, threads, room⟩ := @getOrCreateRoom_total db t.roomSlug t.author healthy.ord author
      have unused : mid.hasThread t.threadId = false := by rwa [hasThread, threads]
      have known : mid.hasUser t.author = true := by rwa [hasUser, users]
      have inserted := insertThread_ok.mpr
        ⟨show mid.hasThread (remoteThreadRow state mid t (state.platform.sha256 payload) arrivedFrom).id = false
          from unused, known, room, rfl⟩
      refine ⟨_, _, bind_ok.mpr ⟨mid, roomed, bind_ok.mpr ⟨_, inserted, rfl⟩⟩, ?_⟩
      exact forall_mem_concat.mpr ⟨fun _ old => .inl (threads ▸ old), .inr rfl⟩

theorem projectThreadAndOrphans_total {arrivedFrom : Key}
    (landing : Landing state corpus true db payload signature (.threadCreate t))
    (fresh : db.threads.any (·.threadCreateHash = some (state.platform.sha256 payload)) = false) :
    ∃ after, projectThreadAndOrphans state db t (state.platform.sha256 payload) arrivedFrom = .ok after ∧
      ∀ row ∈ after.threads, row ∈ db.threads ∨ row.threadCreateHash = some (state.platform.sha256 payload) := by
  obtain ⟨outcome, mid, projected, only⟩ := @projectRemoteThreadCreate_total state corpus db payload signature
    t harmless healthy arrivedFrom landing.filed fresh
  have midHealthy := (projectRemoteThreadCreate_projects landing projected).effects.healthy healthy
  by_cases swept : outcome = .projected
  · obtain ⟨after, run, threads⟩ := @reprojectOrphanPostRevsForThread_total state corpus mid harmless midHealthy
      t.threadId arrivedFrom
    refine ⟨after, bind_ok.mpr ⟨_, projected, ?_⟩, ?_⟩
    · simp only [swept, if_true, run]
    · rw [threads]
      exact only
  · refine ⟨mid, bind_ok.mpr ⟨_, projected, ?_⟩, only⟩
    simp only [swept, if_false]
    rfl

theorem reprojectOrphanThreadsForAuthor_total {author arrivedFrom : Key} :
    ∃ after, reprojectOrphanThreadsForAuthor state db author arrivedFrom = .ok after := by
  let unprojected := fun (orphan : Orphan ThreadCreate) (mid : Db) =>
    mid.threads.any (·.threadCreateHash = some orphan.canonicalHash) = false
  let pending := db.signedObjects.filterMap (orphanThread state db author)
  have safe : ∀ orphan ∈ pending, ∀ mid, Projects state corpus db mid → unprojected orphan mid →
      ∃ after, projectThreadAndOrphans state mid orphan.object orphan.canonicalHash arrivedFrom = .ok after ∧
        Projects state corpus db after ∧
        ∀ other, orphan.canonicalHash ≠ other.canonicalHash → unprojected other mid → unprojected other after := by
    intro orphan mem mid projects fresh
    obtain ⟨row, inObjects, found⟩ := mem_filterMap.mp mem
    obtain ⟨payload, landing, hashed, -, -⟩ := orphanThread_landing healthy.sound inObjects found
    have landed := landing.of_objects projects.objects
    have midHealthy := projects.effects.healthy healthy
    obtain ⟨after, run, only⟩ := @projectThreadAndOrphans_total state corpus mid payload orphan.signature
      orphan.object harmless midHealthy arrivedFrom landed (hashed ▸ fresh)
    have grown := projectThreadAndOrphans_projects midHealthy.sound landed run
    refine ⟨after, by rw [hashed, run], projects.trans grown, ?_⟩
    intro other away otherFresh
    simp only [unprojected, any_eq_false, decide_eq_true_eq] at otherFresh ⊢
    intro thread inThreads same
    rcases only thread inThreads with old | new
    · exact otherFresh thread old same
    · exact away (hashed.trans (Option.some.inj (new.symm.trans same)))
  have start : ∀ orphan ∈ pending, unprojected orphan db := by
    intro orphan mem
    obtain ⟨row, inObjects, found⟩ := mem_filterMap.mp mem
    obtain ⟨payload, -, -, -, fresh⟩ := orphanThread_landing healthy.sound inObjects found
    exact fresh
  have apart := orphans_apart healthy.ord fun _ _ => @orphanThread_hash state db author _ _
  obtain ⟨after, run, -⟩ := foldlM_total safe apart .refl start
  exact ⟨after, run⟩

end Projection

/-- No revocation waits in `pending_trust_edges`: draining one erases its chain before it is stored. -/
def NoBufferedRevocation (platform : Platform) (db : Db) : Prop :=
  ∀ row ∈ db.pendingTrustEdges, ∀ edge, platform.parse row.payload = some (.trustEdge edge) → edge.stance ≠ .neutral

section Edges

variable {state : AppState} {start db : Db}

/-- What a sweep over trust-edges keeps from its start on. -/
structure Sweeping (state : AppState) (start db : Db) : Prop where
  ord : Orderly db
  calm : NoBufferedRevocation state.platform db
  objects : ∀ hash, start.hasObject hash = true → db.hasObject hash = true

theorem Sweeping.walk (start : Db) : EdgeWalk state
    (fun payload _ hash edge => state.platform.parse payload = some (.trustEdge edge) ∧
      (edge.stance = .neutral → start.hasObject hash = true))
    (fun db => Sweeping state start db) where
  buffered sweeping mem parses := ⟨parses, fun neutral => absurd neutral (sweeping.calm _ mem _ parses)⟩
  project sweeping _ _ _ _ _ := ⟨{ sweeping.ord with }, sweeping.calm, sweeping.objects⟩
  erase sweeping _ run := by
    refine ⟨sweeping.ord.erasePayloads run, ?_, fun hash known => ?_⟩
    · rw [erasePayloads_frame run]
      exact sweeping.calm
    · rw [hasObject_erasePayloads run]
      exact sweeping.objects hash known
  store sweeping _ := ⟨sweeping.ord.storeSignedObject, sweeping.calm,
    fun other known => hasObject_storeSignedObject.mpr (.inr (sweeping.objects other known))⟩
  dequeue _ _ sweeping := ⟨{ sweeping.ord with }, fun row mem => sweeping.calm row (mem_of_mem_filter mem),
    sweeping.objects⟩

theorem sweepPendingProjections_total {userKey : Key} (ord : Orderly db)
    (calm : NoBufferedRevocation state.platform db) :
    ∃ after flag, sweepPendingProjections state db userKey = .ok (after, flag) := by
  refine (Sweeping.walk db).sweep_total ?_ ⟨ord, calm, fun _ known => known⟩ ?_
  · intro mid payload signature hash edge sweeping fit
    have projected : Sweeping state db (withTrustEdge state mid edge hash signature payload) :=
      ⟨{ sweeping.ord with }, sweeping.calm, sweeping.objects⟩
    simp only [insertTrustEdge]
    split
    · rename_i neutral
      exact projected.ord.erasePayloads_total (sweeping.objects hash (fit.2 neutral))
    · exact ⟨_, rfl⟩
  · intro candidate mem
    obtain ⟨⟨row, stored, -, -, -, same⟩, parses, -⟩ := mem_sweepCandidates mem
    exact ⟨parses, fun _ => any_eq_true.mpr ⟨row, stored, decide_eq_true same⟩⟩

end Edges

section Ingest

variable {state : AppState} {corpus : Corpus} {db : Db} {payload signature : Bytes} {arrivedFrom : Key}

theorem eraseAllForUserKey_total {user : Key} {authority : Hash} (ord : Orderly db)
    (stored : db.hasObject authority = true) : ∃ after, eraseAllForUserKey db user authority = .ok after := by
  unfold eraseAllForUserKey
  split
  · obtain ⟨edged, edges⟩ : ∃ after, db.eraseUserTrustEdgePayloads user (some authority) = .ok after :=
      ord.erasePayloads_total stored
    have ord := ord.erasePayloads edges
    have stored : edged.hasObject authority = true := (hasObject_erasePayloads edges _).trans stored
    obtain ⟨profiled, profiles⟩ : ∃ after, edged.eraseUserProfileRevisionPayloads user (some authority) =
      .ok after := ord.erasePayloads_total stored
    have ord := ord.erasePayloads profiles
    have stored : profiled.hasObject authority = true := (hasObject_erasePayloads profiles _).trans stored
    obtain ⟨posted, posts⟩ : ∃ after, profiled.eraseUserPostRevPayloads user (some authority) = .ok after :=
      ord.erasePayloads_total stored
    have ord := ord.erasePayloads posts
    obtain ⟨unbound, deleted⟩ := ord.deletePostAttachments_total fun row => authored posted user row.postId
    exact ⟨_, bind_ok.mpr ⟨_, edges, bind_ok.mpr ⟨_, profiles, bind_ok.mpr ⟨_, posts,
      bind_ok.mpr ⟨_, deleted, rfl⟩⟩⟩⟩⟩
  · exact ⟨_, rfl⟩

theorem erasePostRevPayloads_total {post : Uuid} {authority : Hash} (ord : Orderly db)
    (stored : db.hasObject authority = true) :
    ∃ after, db.erasePostRevPayloads post (some authority) = .ok after :=
  ord.erasePayloads_total stored

theorem applyAdminRm_total {a : AdminRemoval} (ord : Orderly db) :
    ∃ result, applyAdminRm state db arrivedFrom payload signature a = .ok result := by
  unfold applyAdminRm
  dsimp only
  split
  · exact ⟨_, rfl⟩
  · split
    · exact ⟨_, rfl⟩
    · split
      · exact ⟨_, rfl⟩
      · obtain ⟨after, erased⟩ := @erasePostRevPayloads_total _ a.postId _ ord.storeSignedObject hasObject_stored
        exact ⟨_, bind_ok.mpr ⟨_, erased, rfl⟩⟩

theorem Orderly.unprojected {cls : InnerClass} (ord : Orderly db) (absent : db.hasObject hash = false) :
    (db.storeSignedObject cls payload signature hash).postRevisions.any (·.canonicalHash = hash) = false ∧
      (db.storeSignedObject cls payload signature hash).threads.any (·.threadCreateHash = some hash) = false := by
  simp only [any_eq_false, decide_eq_true_eq]
  constructor
  · rintro row mem rfl
    have known := ord.revisionsStored row mem
    rw [absent] at known
    cases known
  · intro row mem stamped
    have known := ord.threadsStored row mem hash stamped
    rw [absent] at known
    cases known

/-- A profile, whose sweep drains buffered trust-edges, arrives while no revocation is among them. -/
def CalmProfile (state : AppState) (db : Db) (wireBytes : Bytes) : Prop :=
  ∀ payload signature p, state.platform.decodeSignedObject wireBytes = some (payload, signature) →
    state.platform.parse payload = some (.profileRevision p) → NoBufferedRevocation state.platform db

variable (harmless : Harmless state.platform corpus) (healthy : Healthy state corpus db)
include harmless healthy

theorem projectRemoteProfile_total {p : ProfileRevision} (calm : NoBufferedRevocation state.platform db)
    (landing : Landing state corpus true db payload signature (.profileRevision p))
    (fresh : ∀ row ∈ db.profileRevisions, row.canonicalHash ≠ state.platform.sha256 payload) :
    ∃ result, projectRemoteProfile state db p signature (state.platform.sha256 payload) arrivedFrom = .ok result := by
  unfold projectRemoteProfile
  split
  · exact ⟨_, rfl⟩
  · let hydrated := hydrateStubUser state db p.user p.displayName (resolveCurrentHome db p.user arrivedFrom)
    have known : hydrated.hasUser p.user = true := hasUser_hydrateStubUser.mpr (.inl rfl)
    have inserted := insertProfileRevision_ok.mpr
      ⟨show hydrated.hasUser (remoteProfileRow p signature (state.platform.sha256 payload)).user = true
        from known, rfl⟩
    have profile : Effects state corpus true db { hydrated with
        profileRevisions := hydrated.profileRevisions ++
          [remoteProfileRow p signature (state.platform.sha256 payload)] } :=
      .tail (.single (hydrateStubUser_effect _ _ _)) (.profile (landing.of_objects rfl) rfl rfl known
        fun row mem _ => fresh row mem)
    have profiled := profile.healthy healthy
    obtain ⟨mid, flag, swept⟩ := @sweepPendingProjections_total state _ p.user profiled.ord calm
    have edges : Effects state corpus true _ mid :=
      (sweepPendingProjections_effects profiled.sound.toEdgeSound swept).effects
    obtain ⟨after, reprojected⟩ := @reprojectOrphanThreadsForAuthor_total state corpus mid harmless
      (edges.healthy profiled) p.user arrivedFrom
    exact ⟨_, bind_ok.mpr ⟨_, inserted, bind_ok.mpr ⟨_, swept, bind_ok.mpr ⟨_, reprojected, rfl⟩⟩⟩⟩

theorem ingestObject_total {object : SignedPayload} (occurs : corpus payload)
    (admitted : admitObject state.platform payload signature = .ok object)
    (absent : db.hasObject (state.platform.sha256 payload) = false)
    (calm : ∀ p, object = .profileRevision p → NoBufferedRevocation state.platform db) :
    ∃ result, ingestObject state db payload signature arrivedFrom object = .ok result := by
  cases object with
  | adminRemoval a => exact applyAdminRm_total healthy.ord
  | retraction r =>
    obtain ⟨after, erased⟩ := @erasePostRevPayloads_total _ r.postId _ healthy.ord.storeSignedObject hasObject_stored
    exact ⟨_, bind_ok.mpr ⟨_, erased, rfl⟩⟩
  | deactivation d =>
    obtain ⟨after, erased⟩ := @eraseAllForUserKey_total _ d.user _ healthy.ord.storeSignedObject hasObject_stored
    exact ⟨_, bind_ok.mpr ⟨_, erased, rfl⟩⟩
  | profileRevision p =>
    have filed := Filed.of_admitted occurs admitted rfl
    have storing : Effects state corpus true db _ := .single (.store filed rfl)
    obtain ⟨result, run⟩ := @projectRemoteProfile_total state corpus _ payload signature arrivedFrom harmless
      (storing.healthy healthy) p (calm p rfl) (filed.landing absent) (healthy.sound.profile_fresh absent)
    exact ⟨_, bind_ok.mpr ⟨_, run, rfl⟩⟩
  | postRevision p =>
    have filed := Filed.of_admitted occurs admitted rfl
    have storing : Effects state corpus true db _ := .single (.store filed rfl)
    obtain ⟨outcome, after, run, -⟩ := @projectRemotePostRevision_total state corpus _ payload signature p harmless
      (storing.healthy healthy) arrivedFrom filed (healthy.ord.unprojected absent).1
    exact ⟨_, bind_ok.mpr ⟨_, run, rfl⟩⟩
  | threadCreate t =>
    have filed := Filed.of_admitted occurs admitted rfl
    have storing : Effects state corpus true db _ := .single (.store filed rfl)
    obtain ⟨after, run, -⟩ := @projectThreadAndOrphans_total state corpus _ payload signature t harmless
      (storing.healthy healthy) arrivedFrom (filed.landing absent) (healthy.ord.unprojected absent).2
    exact ⟨_, bind_ok.mpr ⟨_, run, rfl⟩⟩
  | _ => exact ⟨_, rfl⟩

theorem applyOneObject_total {wireBytes : Bytes} (occurs : Occurs state corpus wireBytes)
    (calm : CalmProfile state db wireBytes) :
    ∃ result after, applyOneObject state db wireBytes arrivedFrom = .ok (result, after) := by
  unfold applyOneObject
  split
  · exact ⟨_, _, rfl⟩
  · split
    · exact ⟨_, _, rfl⟩
    · rename_i payload signature decodes
      dsimp only
      split
      · exact ⟨_, _, rfl⟩
      · rename_i unknown
        split
        · exact ⟨_, _, rfl⟩
        · rename_i object admitted
          split
          · exact ⟨_, _, rfl⟩
          · obtain ⟨⟨status, after⟩, run⟩ := @ingestObject_total state corpus db payload signature arrivedFrom
              harmless healthy object (occurs payload signature decodes) admitted (knownStatus_none unknown)
              (by
                rintro p rfl
                exact calm payload signature p decodes (admitObject_ok admitted).1)
            exact ⟨_, _, bind_ok.mpr ⟨_, run, rfl⟩⟩

end Ingest

/-- In every reachable state of a harmless run, every delivered byte string gets a status. -/
theorem every_delivery_answered {state : AppState} {corpus : Corpus} {db : Db} {wireBytes : Bytes}
    {arrivedFrom : Key} (reached : Reachable state corpus (fun _ _ _ => True) db)
    (harmless : Harmless state.platform corpus) (occurs : Occurs state corpus wireBytes)
    (calm : CalmProfile state db wireBytes) :
    ∃ result after, applyOneObject state db wireBytes arrivedFrom = .ok (result, after) :=
  applyOneObject_total harmless reached.healthy occurs calm

/-- A revision planted by another key takes the slot, and the author's own edit then fails. -/
theorem taken_slot_fails : ∃ state db wireBytes arrivedFrom, Reachable state (fun _ => True) (fun _ _ _ => True) db ∧
    applyOneObject state db wireBytes arrivedFrom = .error .primaryKey :=
  ⟨revisionState, revisedDb [0, 1, 2, 3, 4], [5], 8, revisedDb_reachable fun _ _ => trivial, rfl⟩

/-- Two objects that claim no common place. -/
def objectsApart : SignedPayload → SignedPayload → Bool
  | .postRevision p, .postRevision p' => p.postId ≠ p'.postId ∨ clampI64 p.revision ≠ clampI64 p'.revision
  | .threadCreate t, .threadCreate t' => t.threadId ≠ t'.threadId
  | _, _ => true

def bareRevision : SignedPayload → Bool
  | .postRevision p => p.attachments = []
  | _ => true

theorem own_edit_answered : ∃ result after,
    applyOneObject revisionState (revisedDb [0, 1, 2]) [5] 8 = .ok (result, after) := by
  have apart : ∀ a ∈ ownRevisionRun, ∀ b ∈ ownRevisionRun, a ≠ b →
      ((revisionState.platform.parse a).all fun x => (revisionState.platform.parse b).all fun y =>
        objectsApart x y) = true := by decide
  have harmless : Harmless revisionState.platform (· ∈ ownRevisionRun) := by
    refine ⟨?_, ?_, ?_, ?_⟩
    · have distinct : ∀ a ∈ ownRevisionRun, ∀ b ∈ ownRevisionRun,
          revisionState.platform.sha256 a = revisionState.platform.sha256 b → a = b := by decide
      exact fun a b inA inB => distinct a inA b inB
    · intro payload signature p payload' signature' p' filed filed' samePost sameRevision
      by_contra other
      have both := apart payload filed.occurs payload' filed'.occurs other
      rw [filed.parses, filed'.parses] at both
      simp [objectsApart, samePost, sameRevision] at both
    · intro payload signature t payload' signature' t' filed filed' sameThread
      by_contra other
      have both := apart payload filed.occurs payload' filed'.occurs other
      rw [filed.parses, filed'.parses] at both
      simp [objectsApart, sameThread] at both
    · intro payload signature p filed
      have bare : ∀ a ∈ ownRevisionRun, ((revisionState.platform.parse a).all bareRevision) = true := by decide
      have none := bare payload filed.occurs
      rw [filed.parses] at none
      simp only [Option.all_some, bareRevision, decide_eq_true_eq] at none
      simp [none]
  have occurs : Occurs revisionState (· ∈ ownRevisionRun) [5] := by
    intro payload signature decodes
    obtain ⟨rfl, -⟩ := Prod.mk.inj (Option.some.inj decodes)
    decide
  have idle : (revisedDb [0, 1, 2]).pendingTrustEdges = [] := by decide
  have calm : CalmProfile revisionState (revisedDb [0, 1, 2]) [5] := by
    intro _ _ _ _ _ row mem
    rw [idle] at mem
    cases mem
  exact every_delivery_answered (revisedDb_reachable (by simp [ownRevisionRun])) harmless occurs calm

end Prismoire
