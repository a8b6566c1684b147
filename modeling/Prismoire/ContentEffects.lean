import Prismoire.Effects

namespace Prismoire

open Lib List Option Db

variable {after db : Db} {arrivedFrom : Key} {outcome : ProjectionOutcome} {state : AppState}
    {payload signature : Bytes} {t : ThreadCreate}

section Runs

variable {hash : Hash}

section

variable {slug : Text} {author : Key} (run : getOrCreateRoom db slug author = .ok after)
include run

theorem getOrCreateRoom_ok : after = db ∨ db.insertRoom { slug, createdBy := author } = .ok after := by
  unfold getOrCreateRoom at run
  split at run
  · cases run
    exact .inl rfl
  · exact .inr run

theorem getOrCreateRoom_frame : ∃ rooms, after = { db with
      rooms := rooms } := by
  obtain rfl | run := getOrCreateRoom_ok run
  · exact ⟨_, rfl⟩
  · obtain ⟨-, -, rfl⟩ := insertRoom_ok.mp run
    exact ⟨_, rfl⟩

end

theorem projectRemotePostRevision_ok {p : PostRevision}
    (run : projectRemotePostRevision state db p signature hash arrivedFrom = .ok (outcome, after)) :
    (after = db ∧ outcome ≠ .projected) ∨
      outcome = .projected ∧ isLocalAuthoritative state db p.author arrivedFrom = false ∧
      db.hasUser p.author = true ∧ ∃ opened recorded,
        (p.revision = 0 ∧ db.insertPost (remotePostRow state db p arrivedFrom) = .ok opened ∨
          p.revision ≠ 0 ∧ db.hasPost p.postId = true ∧
            opened = db.raiseRevisionCount p.postId (clampI64 (clampI64 p.revision + 1))) ∧
        opened.insertPostRevision (remoteRevisionRow state p signature hash) = .ok recorded ∧
        projectPostAttachments recorded p.postId (clampI64 p.revision) p.attachments = .ok after := by
  unfold projectRemotePostRevision at run
  split at run
  · cases run
    exact .inl ⟨rfl, nofun⟩
  · rename_i foreign
    split at run
    · cases run
      exact .inl ⟨rfl, nofun⟩
    · rename_i known
      have landed : ∀ opened, landRevision state opened p signature hash = .ok (outcome, after) →
          outcome = .projected ∧ ∃ recorded,
            opened.insertPostRevision (remoteRevisionRow state p signature hash) = .ok recorded ∧
            projectPostAttachments recorded p.postId (clampI64 p.revision) p.attachments = .ok after := by
        intro opened run
        obtain ⟨recorded, recordedRun, rest⟩ := bind_ok.mp run
        obtain ⟨final, boundRun, returned⟩ := bind_ok.mp rest
        cases returned
        exact ⟨rfl, recorded, recordedRun, boundRun⟩
      split at run
      · rename_i first
        split at run
        · cases run
          exact .inl ⟨rfl, nofun⟩
        · obtain ⟨opened, openedRun, rest⟩ := bind_ok.mp run
          obtain ⟨projected, recorded, landing⟩ := landed opened rest
          exact .inr ⟨projected, by simpa using foreign, by simpa using known, opened, recorded,
            .inl ⟨first, openedRun⟩, landing⟩
      · rename_i later
        split at run
        · cases run
          exact .inl ⟨rfl, nofun⟩
        · rename_i posted
          obtain ⟨projected, recorded, landing⟩ := landed _ run
          exact .inr ⟨projected, by simpa using foreign, by simpa using known, _, recorded,
            .inr ⟨later, by simpa using posted, rfl⟩, landing⟩

theorem projectRemoteThreadCreate_ok
    (run : projectRemoteThreadCreate state db t hash arrivedFrom = .ok (outcome, after)) :
    (after = db ∧ outcome ≠ .projected) ∨
      isLocalAuthoritative state db t.author arrivedFrom = false ∧ db.hasUser t.author = true ∧
      ∃ roomed, getOrCreateRoom db t.roomSlug t.author = .ok roomed ∧
        roomed.insertThread (remoteThreadRow state roomed t hash arrivedFrom) = .ok after := by
  unfold projectRemoteThreadCreate at run
  split at run
  · cases run
    exact .inl ⟨rfl, nofun⟩
  · rename_i foreign
    split at run
    · cases run
      exact .inl ⟨rfl, nofun⟩
    · rename_i known
      obtain ⟨roomed, roomRun, rest⟩ := bind_ok.mp run
      obtain ⟨threaded, inserted, returned⟩ := bind_ok.mp rest
      cases returned
      exact .inr ⟨by simpa using foreign, by simpa using known, roomed, roomRun, inserted⟩

theorem insertProfileRevision_ok {row : ProfileRevisionRow} :
    insertProfileRevision db row = .ok after ↔ db.hasUser row.user = true ∧ after = { db with
      profileRevisions := db.profileRevisions ++ [row] } := by
  simp only [insertProfileRevision, require_bind_ok, pure, Except.pure, Except.ok.injEq]
  tauto

def profiledDb (state : AppState) (db : Db) (p : ProfileRevision) (signature : Bytes) (hash : Hash)
    (arrivedFrom : Key) : Db :=
  let hydrated := hydrateStubUser state db p.user p.displayName (resolveCurrentHome db p.user arrivedFrom)
  { hydrated with profileRevisions := hydrated.profileRevisions ++ [remoteProfileRow p signature hash] }

theorem projectRemoteProfile_run {p : ProfileRevision} {swept : Bool}
    (run : projectRemoteProfile state db p signature hash arrivedFrom = .ok (outcome, after, swept)) :
    after = db ∨ isLocalAuthoritative state db p.user arrivedFrom = false ∧
      (hydrateStubUser state db p.user p.displayName (resolveCurrentHome db p.user arrivedFrom)).hasUser p.user = true ∧
      ∃ mid flag, sweepPendingProjections state (profiledDb state db p signature hash arrivedFrom) p.user =
          .ok (mid, flag) ∧
        reprojectOrphanThreadsForAuthor state mid p.user arrivedFrom = .ok after := by
  unfold projectRemoteProfile at run
  split at run
  · cases run
    exact .inl rfl
  · rename_i foreign
    obtain ⟨profiled, inserted, rest⟩ := bind_ok.mp run
    obtain ⟨⟨mid, flag⟩, sweptRun, rest⟩ := bind_ok.mp rest
    obtain ⟨final, reprojected, returned⟩ := bind_ok.mp rest
    cases returned
    obtain ⟨known, rfl⟩ := insertProfileRevision_ok.mp inserted
    exact .inr ⟨by simpa using foreign, known, mid, _, sweptRun, reprojected⟩

theorem applyAdminRm_ok {a : AdminRemoval} {status : ContentStatus}
    (run : applyAdminRm state db arrivedFrom payload signature a = .ok (status, after)) :
    (after = db ∧ status ≠ .applied) ∨ status = .applied ∧ db.hasUser a.targetAuthor = false ∧
      peerDomainFor db arrivedFrom = some a.signingInstance ∧
      signatureOk state.platform payload signature arrivedFrom = true ∧
      ∃ erased, (db.storeSignedObject .adminRm payload signature
          (state.platform.sha256 payload)).erasePostRevPayloads a.postId
          (some (state.platform.sha256 payload)) = .ok erased ∧
        after = insertAdminRmAuthority erased
          { postId := a.postId, targetAuthor := a.targetAuthor, signingInstance := a.signingInstance,
            createdAt := asI64 a.createdAt, canonicalHash := state.platform.sha256 payload } := by
  unfold applyAdminRm at run
  dsimp only at run
  split at run
  · cases run
    exact .inl ⟨rfl, nofun⟩
  · rename_i unknown
    split at run
    · cases run
      exact .inl ⟨rfl, nofun⟩
    · rename_i domain
      split at run
      · cases run
        exact .inl ⟨rfl, nofun⟩
      · rename_i verified
        obtain ⟨erased, erasedRun, returned⟩ := bind_ok.mp run
        cases returned
        exact .inr ⟨rfl, by simpa using unknown, not_not.mp domain, by simpa using verified, erased, erasedRun, rfl⟩

end Runs

variable {corpus : Corpus}

section Projection

/-- Work that leaves the stored objects and the removals alone, as every projection of content does. -/
structure Projects (state : AppState) (corpus : Corpus) (db after : Db) : Prop where
  effects : Effects state corpus true db after
  objects : after.signedObjects = db.signedObjects
  authorities : after.adminRmAuthorities = db.adminRmAuthorities

theorem Projects.refl : Projects state corpus db db :=
  ⟨.refl, rfl, rfl⟩

theorem Projects.trans {mid : Db} (first : Projects state corpus db mid)
    (second : Projects state corpus mid after) : Projects state corpus db after :=
  ⟨first.effects.trans second.effects, second.objects.trans first.objects, second.authorities.trans first.authorities⟩

theorem Projects.single (effect : Effect state corpus true db after) (objects : after.signedObjects = db.signedObjects)
    (authorities : after.adminRmAuthorities = db.adminRmAuthorities) : Projects state corpus db after :=
  ⟨.single effect, objects, authorities⟩

theorem Landing.of_objects {live : Bool} {payload signature : Bytes} {object : SignedPayload}
    (landing : Landing state corpus live db payload signature object)
    (objects : after.signedObjects = db.signedObjects) :
    Landing state corpus live after payload signature object := by
  refine ⟨landing.filed, ?_, ?_⟩
  · have := landing.stored
    rwa [hasObject, ← objects] at this
  · intro isLive
    have := landing.held isLive
    rwa [HeldLive, ← objects] at this

theorem projectPostAttachment_projects {postId : Uuid} {revision : Nat} {ref : AttachmentRef × Nat}
    (run : projectPostAttachment postId revision db ref = .ok after) : Projects state corpus db after := by
  have bound : Effect state corpus true (db.insertAttachmentBlob ref.1) after := .bind run
  obtain ⟨-, -, -, -, rfl⟩ := insertPostAttachment_ok.mp run
  exact ⟨.tail (.single (.blob ref.1)) bound, rfl, rfl⟩

theorem projectPostAttachments_projects {postId : Uuid} {revision : Nat} {refs : List AttachmentRef}
    (run : projectPostAttachments db postId revision refs = .ok after) : Projects state corpus db after := by
  refine foldlM_invariant (Projects state corpus db) ?_ .refl run
  intro ref _ mid final reached tried
  exact reached.trans (projectPostAttachment_projects tried)

theorem remoteRevisionRow_records (p : PostRevision) (signature payload : Bytes) :
    (remoteRevisionRow state p signature (state.platform.sha256 payload)).Records state.platform payload p :=
  ⟨rfl, rfl, rfl⟩

theorem projectRemotePostRevision_projects {p : PostRevision} {signature payload : Bytes} {arrivedFrom : Key}
    {outcome : ProjectionOutcome}
    (landing : Landing state corpus true db payload signature (.postRevision p))
    (run : projectRemotePostRevision state db p signature (state.platform.sha256 payload) arrivedFrom =
      .ok (outcome, after)) :
    Projects state corpus db after ∧ (outcome ≠ .projected → after = db) := by
  obtain ⟨rfl, -⟩ | ⟨projected, -, -, opened, recorded, opening, recordedRun, boundRun⟩ := projectRemotePostRevision_ok run
  · exact ⟨.refl, fun _ => rfl⟩
  · have bound : Projects state corpus recorded after := projectPostAttachments_projects boundRun
    refine ⟨Projects.trans ?_ bound, fun other => absurd projected other⟩
    rcases opening with ⟨first, openedRun⟩ | ⟨later, -, rfl⟩
    · have effect : Effect state corpus true db recorded :=
        .openPost landing first ⟨rfl, rfl, rfl, rfl, Nat.le_refl 1⟩ (remoteRevisionRow_records p signature payload)
          openedRun recordedRun
      obtain ⟨-, -, -, -, rfl⟩ := insertPost_ok.mp openedRun
      obtain ⟨-, -, rfl⟩ := insertPostRevision_ok.mp recordedRun
      exact .single effect rfl rfl
    · have counted : Projects state corpus db (db.raiseRevisionCount p.postId (clampI64 (clampI64 p.revision + 1))) :=
        .single (.recount _ _ fun row counted => le_trans counted (le_max_left _ _)) rfl rfl
      have effect : Effect state corpus true _ recorded :=
        .revise (landing.of_objects counted.objects) later (remoteRevisionRow_records p signature payload) recordedRun
      obtain ⟨-, -, rfl⟩ := insertPostRevision_ok.mp recordedRun
      exact counted.trans (.single effect rfl rfl)

variable {orphan : Orphan PostRevision}

section

variable {row : SignedObjectRow} (sound : Sound state corpus db) (mem : row ∈ db.signedObjects)
include sound mem

theorem Sound.landing {payload : Bytes} {object : SignedPayload} (live : row.payload = some payload)
    (parses : state.platform.parse payload = some object) :
    Landing state corpus true db payload row.signature object ∧
      row.canonicalHash = state.platform.sha256 payload := by
  obtain ⟨payload', object', filed, hashed, -, kept⟩ := sound.objects row mem
  obtain rfl : payload' = payload := by simpa [live, eq_comm] using kept
  obtain rfl : object' = object := by simpa [filed.parses] using parses
  refine ⟨⟨filed, ?_, fun _ => ⟨row, mem, hashed, live⟩⟩, hashed⟩
  exact List.any_eq_true.mpr ⟨row, mem, by simpa using hashed⟩

/-- A parked post-rev was stored by a delivery, so it lands as it would have then. -/
theorem orphanPostRev_landing {threadId : Uuid}
    (found : orphanPostRev state db threadId row = some orphan) :
    ∃ payload, Landing state corpus true db payload orphan.signature (.postRevision orphan.object) ∧
      orphan.canonicalHash = state.platform.sha256 payload ∧ orphan.object.threadId = threadId ∧
      db.postRevisions.any (·.canonicalHash = orphan.canonicalHash) = false := by
  unfold orphanPostRev at found
  split at found
  · rename_i unprojected
    split at found
    · rename_i p parses
      split at found
      · rename_i sameThread
        cases found
        obtain ⟨payload, live, parses⟩ := bind_eq_some_iff.mp parses
        obtain ⟨landing, hashed⟩ := sound.landing mem live parses
        exact ⟨payload, landing, hashed, sameThread, by simpa using unprojected.2⟩
      · cases found
    · cases found
  · cases found

end

theorem orphanAttempt_projects {arrivedFrom : Key} {payload : Bytes} {outcome : Outcome}
    (landing : Landing state corpus true db payload orphan.signature (.postRevision orphan.object))
    (hashed : orphan.canonicalHash = state.platform.sha256 payload)
    (run : orphanAttempt state arrivedFrom db orphan = .ok (outcome, after)) :
    Projects state corpus db after := by
  simp only [orphanAttempt, hashed] at run
  obtain ⟨⟨projection, mid⟩, tried, returned⟩ := bind_ok.mp run
  cases returned
  exact (projectRemotePostRevision_projects landing tried).1

theorem reprojectOrphanPostRevsForThread_projects {threadId : Uuid} {arrivedFrom : Key} (sound : Sound state corpus db)
    (run : reprojectOrphanPostRevsForThread state db threadId arrivedFrom = .ok after) :
    Projects state corpus db after := by
  refine settle_invariant (fun mid => Projects state corpus db mid) ?_ .refl run
  intro orphan mem mid outcome final reached tried
  obtain ⟨row, inObjects, found⟩ := mem_filterMap.mp mem
  obtain ⟨payload, landing, hashed, -, -⟩ := orphanPostRev_landing sound inObjects found
  exact reached.trans (orphanAttempt_projects (landing.of_objects reached.objects) hashed tried)

theorem getOrCreateRoom_projects {slug : Text} {createdBy : Key}
    (run : getOrCreateRoom db slug createdBy = .ok after) : Projects state corpus db after := by
  obtain rfl | run := getOrCreateRoom_ok run
  · exact .refl
  · have effect : Effect state corpus true db after := .room rfl run
    obtain ⟨-, -, rfl⟩ := insertRoom_ok.mp run
    exact .single effect rfl rfl

theorem projectRemoteThreadCreate_projects {signature payload : Bytes} {arrivedFrom : Key}
    {outcome : ProjectionOutcome}
    (landing : Landing state corpus true db payload signature (.threadCreate t))
    (run : projectRemoteThreadCreate state db t (state.platform.sha256 payload) arrivedFrom =
      .ok (outcome, after)) : Projects state corpus db after := by
  obtain ⟨rfl, -⟩ | ⟨-, -, mid, roomed, inserted⟩ := projectRemoteThreadCreate_ok run
  · exact .refl
  · have room : Projects state corpus db mid := getOrCreateRoom_projects roomed
    have effect : Effect state corpus true mid after :=
      .thread (landing.of_objects room.objects) ⟨rfl, rfl, rfl⟩ inserted
    obtain ⟨-, -, -, rfl⟩ := insertThread_ok.mp inserted
    exact room.trans (.single effect rfl rfl)

theorem projectThreadAndOrphans_projects {signature payload : Bytes} {arrivedFrom : Key}
    (sound : Sound state corpus db)
    (landing : Landing state corpus true db payload signature (.threadCreate t))
    (run : projectThreadAndOrphans state db t (state.platform.sha256 payload) arrivedFrom = .ok after) :
    Projects state corpus db after := by
  obtain ⟨⟨outcome, mid⟩, projected, rest⟩ := bind_ok.mp run
  have thread := projectRemoteThreadCreate_projects landing projected
  dsimp only at rest
  split at rest
  · exact thread.trans (reprojectOrphanPostRevsForThread_projects (thread.effects.sound sound) rest)
  · cases rest
    exact thread

theorem orphanThread_landing (sound : Sound state corpus db) {author : Key} {row : SignedObjectRow}
    {orphan : Orphan ThreadCreate} (mem : row ∈ db.signedObjects)
    (found : orphanThread state db author row = some orphan) :
    ∃ payload, Landing state corpus true db payload orphan.signature (.threadCreate orphan.object) ∧
      orphan.canonicalHash = state.platform.sha256 payload ∧ orphan.object.author = author ∧
      db.threads.any (·.threadCreateHash = some orphan.canonicalHash) = false := by
  unfold orphanThread at found
  split at found
  · rename_i unprojected
    split at found
    · rename_i t parses
      split at found
      · rename_i sameAuthor
        cases found
        obtain ⟨payload, live, parses⟩ := bind_eq_some_iff.mp parses
        obtain ⟨landing, hashed⟩ := sound.landing mem live parses
        exact ⟨payload, landing, hashed, sameAuthor, by simpa using unprojected.2⟩
      · cases found
    · cases found
  · cases found

theorem reprojectOrphanThreadsForAuthor_projects {author arrivedFrom : Key} (sound : Sound state corpus db)
    (run : reprojectOrphanThreadsForAuthor state db author arrivedFrom = .ok after) :
    Projects state corpus db after := by
  refine foldlM_invariant (Projects state corpus db) ?_ .refl run
  intro orphan mem mid final reached projected
  obtain ⟨row, inObjects, found⟩ := mem_filterMap.mp mem
  obtain ⟨payload, landing, hashed, -, -⟩ := orphanThread_landing sound inObjects found
  rw [hashed] at projected
  exact reached.trans (projectThreadAndOrphans_projects (reached.effects.sound sound)
    (landing.of_objects reached.objects) projected)

theorem hydrateStubUser_effect (publicKey : Key) (displayName : Text) (homeInstance : Key) :
    Effect state corpus true db (hydrateStubUser state db publicKey displayName homeInstance) := by
  refine .users ?_
  intro key known
  exact hasUser_hydrateStubUser.mpr (.inr known)

end Projection

variable {user : Key} {authority : Option Hash} {a : AdminRemoval} {status : ContentStatus} {object : SignedPayload}
    {cls : InnerClass} {wireBytes : Bytes}

variable {p : ProfileRevision} {swept : Bool} {result : ContentResult} {key : Key} {platform : Platform}

section

variable (sound : Sound state corpus db)
  (landing : Landing state corpus true db payload signature (.profileRevision p))
  (fresh : ∀ row ∈ db.profileRevisions, row.canonicalHash ≠ state.platform.sha256 payload)
  (run : projectRemoteProfile state db p signature (state.platform.sha256 payload) arrivedFrom = .ok (outcome, after, swept))
include sound landing fresh run

theorem projectRemoteProfile_ok : after = db ∨ isLocalAuthoritative state db p.user arrivedFrom = false ∧ ∃ mid,
      let profiled := profiledDb state db p signature (state.platform.sha256 payload) arrivedFrom
      Effects state corpus true db profiled ∧ EdgeEffects state corpus profiled mid ∧
        reprojectOrphanThreadsForAuthor state mid p.user arrivedFrom = .ok after := by
  obtain rfl | ⟨foreign, known, mid, flag, sweptRun, reprojected⟩ := projectRemoteProfile_run run
  · exact .inl rfl
  · have hydrated : Effect state corpus true db (hydrateStubUser state db p.user p.displayName
        (resolveCurrentHome db p.user arrivedFrom)) := hydrateStubUser_effect _ _ _
    have profile : Effects state corpus true db (profiledDb state db p signature (state.platform.sha256 payload) arrivedFrom) :=
      .tail (.single hydrated) (.profile (landing.of_objects rfl) rfl rfl known fun row mem _ => fresh row mem)
    exact .inr ⟨foreign, mid, profile,
      sweepPendingProjections_effects (profile.sound sound).toEdgeSound sweptRun, reprojected⟩

/-- A profile adds its revision and then whatever its two sweeps bring in. -/
theorem projectRemoteProfile_effects : Effects state corpus true db after := by
  obtain rfl | ⟨-, mid, profile, edges, reprojected⟩ := projectRemoteProfile_ok sound landing fresh run
  · exact .refl
  · have edges : Effects state corpus true _ mid := edges.effects
    have soundEdges := edges.sound (profile.sound sound)
    exact (profile.trans edges).trans (reprojectOrphanThreadsForAuthor_projects soundEdges reprojected).effects

end

theorem erase_effect {α : Type} {rows : List α} {hashOf : α → Hash} {chosen : α → Prop} [DecidablePred chosen]
    (projects : ∀ hash, (rows.any fun row => hashOf row = hash) = true → db.projects hash = true)
    (run : db.erasePayloads (fun hash => rows.any fun row => hashOf row = hash ∧ chosen row) authority = .ok after) :
    Effect state corpus true db after := by
  refine .erase (fun hash targeted => projects hash ?_) run
  obtain ⟨row, mem, hit⟩ := List.any_eq_true.mp targeted
  exact List.any_eq_true.mpr ⟨row, mem, decide_eq_true (of_decide_eq_true hit).1⟩

theorem erasePostRevPayloads_effect {post : Uuid}
    (run : db.erasePostRevPayloads post authority = .ok after) : Effect state corpus true db after :=
  erase_effect (fun _ hit => by simp only [Db.projects, hit, Bool.true_or]) run

theorem eraseUserPostRevPayloads_effect
    (run : db.eraseUserPostRevPayloads user authority = .ok after) : Effect state corpus true db after :=
  erase_effect (fun _ hit => by simp only [Db.projects, hit, Bool.true_or]) run

theorem eraseUserProfileRevisionPayloads_effect (run : db.eraseUserProfileRevisionPayloads user authority = .ok after) :
    Effect state corpus true db after :=
  erase_effect (fun _ hit => by simp only [Db.projects, hit, Bool.or_true, Bool.true_or]) run

theorem eraseUserTrustEdgePayloads_effect (run : db.eraseUserTrustEdgePayloads user authority = .ok after) :
    Effect state corpus true db after :=
  erase_effect (fun _ hit => by simp only [Db.projects, hasEdge, hit, Bool.or_true]) run

theorem setDeleted_effect (user : Key) : Effect state corpus true db (db.setDeleted user) := by
  refine .users ?_
  intro key known
  rwa [any_updateWhere (by intro row; rfl)]

theorem eraseAllForUserKey_frame {authority : Hash} (run : eraseAllForUserKey db user authority = .ok after) :
    (∃ objects blobs owned, (∀ hash, (objects.any fun row => row.canonicalHash = hash) = db.hasObject hash) ∧
      after = ((retractPosts { db with
        signedObjects := objects
        postAttachments := db.postAttachments.filter fun row => !authored db user row.postId
        attachmentBlobs := blobs } fun post => post.author = user).blankBodies owned).setDeleted user) ∨ after = db := by
  obtain ⟨edged, profiled, posted, unbound, edgesRun, profilesRun, postsRun, unboundRun, rfl⟩ | ⟨-, rfl⟩ :=
    eraseAllForUserKey_statements run
  · have objects : ∀ hash, posted.hasObject hash = db.hasObject hash := by
      intro hash
      rw [hasObject_erasePayloads postsRun, hasObject_erasePayloads profilesRun, hasObject_erasePayloads edgesRun]
    obtain ⟨signedObjects, rfl⟩ : ∃ signedObjects, posted = { db with signedObjects } := ⟨posted.signedObjects, by
      rw [erasePayloads_frame postsRun, erasePayloads_frame profilesRun, erasePayloads_frame edgesRun]⟩
    obtain ⟨blobs, rfl⟩ := deletePostAttachments_frame unboundRun
    exact .inl ⟨signedObjects, blobs, _, objects, rfl⟩
  · exact .inr rfl

theorem eraseAllForUserKey_effects {authority : Hash}
    (run : eraseAllForUserKey db user authority = .ok after) : Effects state corpus true db after := by
  obtain ⟨edged, profiled, posted, unbound, edgesRun, profilesRun, postsRun, unboundRun, rfl⟩ | ⟨-, rfl⟩ :=
    eraseAllForUserKey_statements run
  · have edges : Effect state corpus true db edged := eraseUserTrustEdgePayloads_effect edgesRun
    have profiles : Effect state corpus true edged profiled :=
      eraseUserProfileRevisionPayloads_effect profilesRun
    have posts : Effect state corpus true profiled posted := eraseUserPostRevPayloads_effect postsRun
    have erased : Effects state corpus true db posted := ((Relation.ReflTransGen.single edges).tail profiles).tail posts
    exact ((erased.tail (.unbind unboundRun)).tail (.retract _)).tail (.blank _) |>.tail (setDeleted_effect user)
  · exact .refl

theorem applyAdminRm_applied (occurs : corpus payload) (parses : state.platform.parse payload = some (.adminRemoval a))
    (run : applyAdminRm state db arrivedFrom payload signature a = .ok (.applied, after)) :
    Filed state.platform corpus payload signature (.adminRemoval a) ∧ db.hasUser a.targetAuthor = false ∧
      ∃ erased, (db.storeSignedObject .adminRm payload signature
          (state.platform.sha256 payload)).erasePostRevPayloads a.postId
          (some (state.platform.sha256 payload)) = .ok erased ∧
        after = insertAdminRmAuthority erased
          { postId := a.postId, targetAuthor := a.targetAuthor, signingInstance := a.signingInstance,
            createdAt := asI64 a.createdAt, canonicalHash := state.platform.sha256 payload } := by
  obtain ⟨-, other⟩ | ⟨-, unknown, -, verified, erased, erasedRun, rfl⟩ := applyAdminRm_ok run
  · exact absurd rfl other
  · exact ⟨⟨occurs, parses, arrivedFrom, verified⟩, unknown, erased, erasedRun, rfl⟩

theorem applyAdminRm_refused (refused : status ≠ .applied)
    (run : applyAdminRm state db arrivedFrom payload signature a = .ok (status, after)) : after = db :=
  (applyAdminRm_ok run).elim And.left fun applied => absurd applied.1 refused

theorem applyAdminRm_effects (occurs : corpus payload) (parses : state.platform.parse payload = some (.adminRemoval a))
    (run : applyAdminRm state db arrivedFrom payload signature a = .ok (status, after)) :
    Effects state corpus true db after := by
  by_cases applied : status = .applied
  · subst applied
    obtain ⟨filed, -, erased, erasedRun, rfl⟩ := applyAdminRm_applied occurs parses run
    have stored : Effect state corpus true db _ := .store filed rfl
    exact ((Relation.ReflTransGen.single stored).tail (erasePostRevPayloads_effect erasedRun)).tail
      (.authority filed rfl rfl rfl)
  · rw [applyAdminRm_refused applied run]

theorem admitObject_ok (run : admitObject platform payload signature = .ok object) :
    platform.parse payload = some object ∧ ∃ cls signer, contentClass object = .ok (cls, signer) ∧
      ∀ key, signer = some key → signatureOk platform payload signature key = true := by
  unfold admitObject at run
  split at run
  · cases run
  · rename_i parsed parses
    split at run
    · cases run
    · rename_i cls classed
      cases run
      exact ⟨parses, cls, none, classed, nofun⟩
    · rename_i cls author classed
      split at run
      · rename_i ok
        cases run
        exact ⟨parses, cls, some author, classed, fun key same => some.inj same ▸ ok⟩
      · cases run

theorem Filed.of_admitted (occurs : corpus payload)
    (admitted : admitObject state.platform payload signature = .ok object)
    (classed : contentClass object = .ok (cls, some key)) :
    Filed state.platform corpus payload signature object := by
  obtain ⟨parses, cls', signer, classed', signs⟩ := admitObject_ok admitted
  rw [classed] at classed'
  cases classed'
  exact ⟨occurs, parses, key, signs key rfl⟩

theorem heldLive_storeSignedObject (absent : db.hasObject (state.platform.sha256 payload) = false) :
    HeldLive state.platform (db.storeSignedObject cls payload signature (state.platform.sha256 payload)) payload := by
  let row : SignedObjectRow :=
    { canonicalHash := state.platform.sha256 payload, innerClass := cls, payload := some payload, signature }
  have mem : row ∈ (db.storeSignedObject cls payload signature (state.platform.sha256 payload)).signedObjects := by
    simp [storeSignedObject_of_absent absent, row]
  exact ⟨row, mem, rfl, rfl⟩

theorem Filed.landing (filed : Filed state.platform corpus payload signature object)
    (absent : db.hasObject (state.platform.sha256 payload) = false) :
    Landing state corpus true (db.storeSignedObject cls payload signature (state.platform.sha256 payload))
      payload signature object :=
  ⟨filed, hasObject_stored, fun _ => heldLive_storeSignedObject absent⟩

theorem Sound.profile_fresh {hash : Hash} (sound : Sound state corpus db)
    (absent : db.hasObject hash = false) : ∀ row ∈ db.profileRevisions, row.canonicalHash ≠ hash := by
  rintro row mem rfl
  have known := sound.profilesStored row mem
  rw [absent] at known
  cases known

/-- What `ingest_object` does with an object once it has stored it. -/
inductive Handled (state : AppState) (arrivedFrom : Key) (signature : Bytes) (hash : Hash) (db after : Db) : SignedPayload → Prop
  | retraction {r} : db.erasePostRevPayloads r.postId (some hash) = .ok after →
      Handled state arrivedFrom signature hash db after (.retraction r)
  | deactivation {d} : eraseAllForUserKey db d.user hash = .ok after →
      Handled state arrivedFrom signature hash db after
      (.deactivation d)
  | profileRevision {p : ProfileRevision} {outcome : ProjectionOutcome} {swept : Bool} :
      projectRemoteProfile state db p signature hash arrivedFrom = .ok (outcome, after, swept) →
      Handled state arrivedFrom signature hash db after (.profileRevision p)
  | postRevision {p : PostRevision} {outcome : ProjectionOutcome} :
      projectRemotePostRevision state db p signature hash arrivedFrom = .ok (outcome, after) →
      Handled state arrivedFrom signature hash db after (.postRevision p)
  | threadCreate {t : ThreadCreate} : projectThreadAndOrphans state db t hash arrivedFrom = .ok after →
      Handled state arrivedFrom signature hash db after (.threadCreate t)

theorem ingestObject_ok (run : ingestObject state db payload signature arrivedFrom object = .ok (status, after)) :
    (after = db ∧ status = .rejected .schemaInvalid) ∨
      (∃ a, object = .adminRemoval a ∧ applyAdminRm state db arrivedFrom payload signature a = .ok (status, after)) ∨
      ∃ cls key, contentClass object = .ok (cls, some key) ∧ status = .applied ∧
        Handled state arrivedFrom signature (state.platform.sha256 payload)
          (db.storeSignedObject cls payload signature (state.platform.sha256 payload)) after object := by
  cases object with
  | adminRemoval a => exact .inr (.inl ⟨a, rfl, run⟩)
  | retraction r =>
    obtain ⟨erased, erasedRun, returned⟩ := bind_ok.mp run
    cases returned
    exact .inr (.inr ⟨_, _, rfl, rfl, .retraction erasedRun⟩)
  | deactivation d =>
    obtain ⟨erased, erasedRun, returned⟩ := bind_ok.mp run
    cases returned
    exact .inr (.inr ⟨_, _, rfl, rfl, .deactivation erasedRun⟩)
  | profileRevision p =>
    obtain ⟨⟨outcome, projected, swept⟩, projectedRun, returned⟩ := bind_ok.mp run
    cases returned
    exact .inr (.inr ⟨_, _, rfl, rfl, .profileRevision projectedRun⟩)
  | postRevision p =>
    obtain ⟨⟨outcome, projected⟩, projectedRun, returned⟩ := bind_ok.mp run
    cases returned
    exact .inr (.inr ⟨_, _, rfl, rfl, .postRevision projectedRun⟩)
  | threadCreate t =>
    obtain ⟨projected, projectedRun, returned⟩ := bind_ok.mp run
    cases returned
    exact .inr (.inr ⟨_, _, rfl, rfl, .threadCreate projectedRun⟩)
  | _ =>
    cases run
    exact .inl ⟨rfl, rfl⟩

theorem Filed.storing (filed : Filed state.platform corpus payload signature object)
    (classed : contentClass object = .ok (cls, some key)) :
    Effect state corpus true db (db.storeSignedObject cls payload signature (state.platform.sha256 payload)) := by
  refine .store filed ?_
  cases object <;> cases classed <;> rfl

/-- Every class is handled by the statements that `Effect` names. -/
theorem Handled.effects (sound : Sound state corpus db)
    (filed : Filed state.platform corpus payload signature object)
    (classed : contentClass object = .ok (cls, some key)) (absent : db.hasObject (state.platform.sha256 payload) = false)
    (handled : Handled state arrivedFrom signature (state.platform.sha256 payload)
      (db.storeSignedObject cls payload signature (state.platform.sha256 payload)) after object) :
    Effects state corpus true (db.storeSignedObject cls payload signature (state.platform.sha256 payload)) after := by
  have stored := (filed.storing classed).sound sound
  cases handled with
  | retraction ran => exact .single (erasePostRevPayloads_effect ran)
  | deactivation ran => exact eraseAllForUserKey_effects ran
  | profileRevision ran =>
    exact projectRemoteProfile_effects stored (filed.landing absent) (sound.profile_fresh absent) ran
  | postRevision ran => exact (projectRemotePostRevision_projects (filed.landing absent) ran).1.effects
  | threadCreate ran => exact (projectThreadAndOrphans_projects stored (filed.landing absent) ran).effects

theorem ingestObject_effects (sound : Sound state corpus db) (occurs : corpus payload)
    (admitted : admitObject state.platform payload signature = .ok object)
    (absent : db.hasObject (state.platform.sha256 payload) = false)
    (run : ingestObject state db payload signature arrivedFrom object = .ok (status, after)) :
    Effects state corpus true db after := by
  obtain ⟨rfl, -⟩ | ⟨a, rfl, applied⟩ | ⟨cls, key, classed, -, handled⟩ := ingestObject_ok run
  · exact .refl
  · exact applyAdminRm_effects occurs (admitObject_ok admitted).1 applied
  · have filed := Filed.of_admitted occurs admitted classed
    exact (handled.effects sound filed classed absent).head (filed.storing classed)

theorem knownStatus_none {canonicalHash : Hash} (unknown : knownStatus db canonicalHash = none) :
    db.hasObject canonicalHash = false := by
  simpa [knownStatus, hasObject] using unknown

theorem admitObject_reason : admitObject platform payload signature ≠ .error .adminRemoved := by
  intro run
  unfold admitObject at run
  split at run
  · cases run
  · rename_i object _
    split at run
    · rename_i reason classed
      cases run
      cases object <;> cases classed
    · cases run
    · split at run <;> cases run

/-- A delivery changes nothing, or brings an object that is new, admitted and then ingested. -/
theorem applyOneObject_ok (run : applyOneObject state db wireBytes arrivedFrom = .ok (result, after)) :
    (after = db ∧ result.status ≠ .applied ∧ (result.status = .rejected .adminRemoved → ∃ payload signature object,
        state.platform.decodeSignedObject wireBytes = some (payload, signature) ∧
        admitObject state.platform payload signature = .ok object ∧ adminRemoved db object = true)) ∨
      ∃ payload signature object,
        state.platform.decodeSignedObject wireBytes = some (payload, signature) ∧
        admitObject state.platform payload signature = .ok object ∧
        result.canonicalHash = state.platform.sha256 payload ∧
        db.hasObject (state.platform.sha256 payload) = false ∧ adminRemoved db object = false ∧
        ingestObject state db payload signature arrivedFrom object = .ok (result.status, after) := by
  unfold applyOneObject at run
  split at run
  · cases run
    exact .inl ⟨rfl, nofun, nofun⟩
  · split at run
    · cases run
      exact .inl ⟨rfl, nofun, nofun⟩
    · rename_i payload signature decodes
      dsimp only at run
      split at run
      · rename_i status known
        cases run
        obtain ⟨row, -, named⟩ := map_eq_some_iff.mp known
        split at named <;> cases named <;> exact .inl ⟨rfl, nofun, nofun⟩
      · rename_i unknown
        split at run
        · rename_i reason rejects
          cases run
          refine .inl ⟨rfl, nofun, ?_⟩
          rintro ⟨⟩
          exact absurd rejects admitObject_reason
        · rename_i object admitted
          split at run
          · rename_i removed
            cases run
            exact .inl ⟨rfl, nofun, fun _ => ⟨payload, signature, object, decodes, admitted, removed⟩⟩
          · rename_i unremoved
            obtain ⟨⟨status, final⟩, ingested, returned⟩ := bind_ok.mp run
            cases returned
            exact .inr ⟨payload, signature, object, decodes, admitted, rfl, knownStatus_none unknown,
              by simpa using unremoved, ingested⟩

theorem applyOneObject_applied {payload signature : Bytes} {object : SignedPayload}
    (run : applyOneObject state db wireBytes arrivedFrom = .ok (result, after)) (applied : result.status = .applied)
    (decodes : state.platform.decodeSignedObject wireBytes = some (payload, signature))
    (parses : state.platform.parse payload = some object) :
    admitObject state.platform payload signature = .ok object ∧ db.hasObject (state.platform.sha256 payload) = false ∧
      ingestObject state db payload signature arrivedFrom object = .ok (.applied, after) := by
  obtain ⟨-, other, -⟩ | ⟨payload', signature', object', decodes', admitted, -, absent, -, ingested⟩ :=
    applyOneObject_ok run
  · exact absurd applied other
  · obtain ⟨rfl, rfl⟩ := Prod.mk.inj (some.inj (decodes.symm.trans decodes'))
    obtain rfl := some.inj (parses.symm.trans (admitObject_ok admitted).1)
    exact ⟨admitted, absent, applied ▸ ingested⟩

variable (sound : Sound state corpus db)
  (occurs : ∀ payload signature, state.platform.decodeSignedObject wireBytes = some (payload, signature) → corpus payload)
include sound occurs

theorem applyOneObject_effects (run : applyOneObject state db wireBytes arrivedFrom = .ok (result, after)) :
    Effects state corpus true db after := by
  obtain ⟨rfl, -⟩ | ⟨payload, signature, object, decodes, admitted, -, absent, -, ingested⟩ :=
    applyOneObject_ok run
  · exact .refl
  · exact ingestObject_effects sound (occurs payload signature decodes) admitted absent ingested

theorem deliverObject_effects : Effects state corpus true db (deliverObject state db wireBytes arrivedFrom) := by
  unfold deliverObject
  split
  · rename_i result final run
    exact applyOneObject_effects sound occurs run
  · exact .refl

end Prismoire
