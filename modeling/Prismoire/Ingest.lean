import Prismoire.Bindings

namespace Prismoire

open Lib

structure SameContent (db after : Db) : Prop where
  users : after.users = db.users
  posts : after.posts = db.posts
  revisions : after.postRevisions = db.postRevisions
  bindings : after.postAttachments = db.postAttachments
  blobs : after.attachmentBlobs = db.attachmentBlobs
  staging : after.attachmentStaging = db.attachmentStaging

/-- What a content delivery does to the users, the posts and their attachments, each with what the
code has checked before it. -/
inductive Ingest (state : AppState) (corpus : Corpus) (arrivedFrom : Key) : Db → Db → Prop
  | aside {db after} : SameContent db after → Ingest state corpus arrivedFrom db after
  | hydrate {db} (key : Key) (displayName : Text) (home : Key) :
      isLocalAuthoritative state db key arrivedFrom = false →
      Ingest state corpus arrivedFrom db (hydrateStubUser state db key displayName home)
  | project {db after payload signature p} :
      Filed state.platform corpus payload signature (.postRevision p) →
      projectRemotePostRevision state db p signature (state.platform.sha256 payload) arrivedFrom =
        .ok (.projected, after) →
      Ingest state corpus arrivedFrom db after
  | erase {db after} (user : Key) (authority : Hash) :
      eraseAllForUserKey db user authority = .ok after → Ingest state corpus arrivedFrom db after

abbrev Ingests (state : AppState) (corpus : Corpus) (arrivedFrom : Key) :=
  Relation.ReflTransGen (Ingest state corpus arrivedFrom)

variable {after db : Db} {arrivedFrom : Key} {corpus : Corpus} {state : AppState} {status : ContentStatus}

section Frames

variable {mid : Db}

theorem SameContent.refl : SameContent db db :=
  ⟨rfl, rfl, rfl, rfl, rfl, rfl⟩

theorem SameContent.trans (first : SameContent db mid) (second : SameContent mid after) : SameContent db after where
  users := second.users.trans first.users
  posts := second.posts.trans first.posts
  revisions := second.revisions.trans first.revisions
  bindings := second.bindings.trans first.bindings
  blobs := second.blobs.trans first.blobs
  staging := second.staging.trans first.staging

theorem SameContent.ingests (same : SameContent db after) : Ingests state corpus arrivedFrom db after :=
  .single (.aside same)

theorem EdgeEffects.sameContent (effects : EdgeEffects state corpus db after) : SameContent db after := by
  induction effects with
  | refl => exact .refl
  | tail _ step ih =>
    obtain ⟨objects, edges, pending, frontier, rfl⟩ := step.frame
    exact ih.trans ⟨rfl, rfl, rfl, rfl, rfl, rfl⟩

theorem erasePayloads_sameContent {targeted : Hash → Bool} {authority : Option Hash}
    (run : db.erasePayloads targeted authority = .ok after) : SameContent db after := by
  rw [Db.erasePayloads_frame run]
  exact ⟨rfl, rfl, rfl, rfl, rfl, rfl⟩

theorem applyAdminRm_sameContent {a : AdminRemoval} {payload signature : Bytes}
    (run : applyAdminRm state db arrivedFrom payload signature a = .ok (status, after)) :
    SameContent db after := by
  obtain ⟨rfl, -⟩ | ⟨-, -, -, -, erased, erasedRun, rfl⟩ := applyAdminRm_ok run
  · exact .refl
  · have stored : SameContent db (db.storeSignedObject .adminRm payload signature
        (state.platform.sha256 payload)) := ⟨rfl, rfl, rfl, rfl, rfl, rfl⟩
    exact (stored.trans (erasePayloads_sameContent erasedRun)).trans ⟨rfl, rfl, rfl, rfl, rfl, rfl⟩

theorem getOrCreateRoom_sameContent {slug : Text} {author : Key} (run : getOrCreateRoom db slug author = .ok after) :
    SameContent db after := by
  obtain ⟨rooms, rfl⟩ := getOrCreateRoom_frame run
  exact ⟨rfl, rfl, rfl, rfl, rfl, rfl⟩

end Frames

variable {payload signature : Bytes} {outcome : ProjectionOutcome} {t : ThreadCreate}

theorem projectRemotePostRevision_ingests {p : PostRevision}
    (landing : Landing state corpus true db payload signature (.postRevision p))
    (run : projectRemotePostRevision state db p signature (state.platform.sha256 payload) arrivedFrom =
      .ok (outcome, after)) : Ingests state corpus arrivedFrom db after := by
  by_cases projected : outcome = .projected
  · subst projected
    exact .single (.project landing.filed run)
  · rw [(projectRemotePostRevision_projects landing run).2 projected]

theorem reprojectOrphanPostRevsForThread_ingests {threadId : Uuid} (sound : Sound state corpus db)
    (run : reprojectOrphanPostRevsForThread state db threadId arrivedFrom = .ok after) :
    Ingests state corpus arrivedFrom db after := by
  have both : Projects state corpus db after ∧ Ingests state corpus arrivedFrom db after := by
    refine settle_invariant (fun mid => Projects state corpus db mid ∧ Ingests state corpus arrivedFrom db mid)
      ?_ ⟨.refl, .refl⟩ run
    rintro orphan mem mid outcome final ⟨reached, ingested⟩ tried
    obtain ⟨row, inObjects, found⟩ := List.mem_filterMap.mp mem
    obtain ⟨payload, landing, hashed, -, -⟩ := orphanPostRev_landing sound inObjects found
    have landing := landing.of_objects reached.objects
    refine ⟨reached.trans (orphanAttempt_projects landing hashed tried), ingested.trans ?_⟩
    simp only [orphanAttempt, hashed] at tried
    obtain ⟨⟨projection, last⟩, attempted, returned⟩ := bind_ok.mp tried
    cases returned
    exact projectRemotePostRevision_ingests landing attempted
  exact both.2

theorem projectRemoteThreadCreate_sameContent {hash : Hash}
    (run : projectRemoteThreadCreate state db t hash arrivedFrom = .ok (outcome, after)) :
    SameContent db after := by
  obtain ⟨rfl, -⟩ | ⟨-, -, mid, roomed, inserted⟩ := projectRemoteThreadCreate_ok run
  · exact .refl
  · obtain ⟨-, -, -, rfl⟩ := Db.insertThread_ok.mp inserted
    exact (getOrCreateRoom_sameContent roomed).trans ⟨rfl, rfl, rfl, rfl, rfl, rfl⟩

variable (sound : Sound state corpus db)
include sound

theorem projectThreadAndOrphans_ingests (landing : Landing state corpus true db payload signature (.threadCreate t))
    (run : projectThreadAndOrphans state db t (state.platform.sha256 payload) arrivedFrom = .ok after) :
    Ingests state corpus arrivedFrom db after := by
  obtain ⟨⟨outcome, mid⟩, projected, rest⟩ := bind_ok.mp run
  have thread := projectRemoteThreadCreate_projects landing projected
  have same : Ingests state corpus arrivedFrom db mid := (projectRemoteThreadCreate_sameContent projected).ingests
  dsimp only at rest
  split at rest
  · exact same.trans (reprojectOrphanPostRevsForThread_ingests (thread.effects.sound sound) rest)
  · cases rest
    exact same

theorem reprojectOrphanThreadsForAuthor_ingests {author : Key}
    (run : reprojectOrphanThreadsForAuthor state db author arrivedFrom = .ok after) :
    Ingests state corpus arrivedFrom db after := by
  have both : Projects state corpus db after ∧ Ingests state corpus arrivedFrom db after := by
    refine foldlM_invariant (fun mid => Projects state corpus db mid ∧ Ingests state corpus arrivedFrom db mid)
      ?_ ⟨.refl, .refl⟩ run
    rintro orphan mem mid final ⟨reached, ingested⟩ projected
    obtain ⟨row, inObjects, found⟩ := List.mem_filterMap.mp mem
    obtain ⟨payload, landing, hashed, -, -⟩ := orphanThread_landing sound inObjects found
    have landing := landing.of_objects reached.objects
    have soundMid := reached.effects.sound sound
    rw [hashed] at projected
    exact ⟨reached.trans (projectThreadAndOrphans_projects soundMid landing projected),
      ingested.trans (projectThreadAndOrphans_ingests soundMid landing projected)⟩
  exact both.2

theorem projectRemoteProfile_ingests {p : ProfileRevision} {swept : Bool}
    (landing : Landing state corpus true db payload signature (.profileRevision p))
    (fresh : ∀ row ∈ db.profileRevisions, row.canonicalHash ≠ state.platform.sha256 payload)
    (run : projectRemoteProfile state db p signature (state.platform.sha256 payload) arrivedFrom =
      .ok (outcome, after, swept)) : Ingests state corpus arrivedFrom db after := by
  obtain rfl | ⟨foreign, mid, profile, edges, reprojected⟩ := projectRemoteProfile_ok sound landing fresh run
  · exact .refl
  · let hydratedDb := hydrateStubUser state db p.user p.displayName (resolveCurrentHome db p.user arrivedFrom)
    have hydrating : Ingest state corpus arrivedFrom db hydratedDb :=
      .hydrate p.user p.displayName (resolveCurrentHome db p.user arrivedFrom) foreign
    have recording : SameContent hydratedDb
        (profiledDb state db p signature (state.platform.sha256 payload) arrivedFrom) := ⟨rfl, rfl, rfl, rfl, rfl, rfl⟩
    have edgesEffects : Effects state corpus true _ mid := edges.effects
    exact ((Relation.ReflTransGen.single hydrating).trans (recording.trans edges.sameContent).ingests).trans
      (reprojectOrphanThreadsForAuthor_ingests (edgesEffects.sound (profile.sound sound)) reprojected)

theorem ingestObject_ingests {object : SignedPayload}
    (occurs : corpus payload) (admitted : admitObject state.platform payload signature = .ok object)
    (absent : db.hasObject (state.platform.sha256 payload) = false)
    (run : ingestObject state db payload signature arrivedFrom object = .ok (status, after)) :
    Ingests state corpus arrivedFrom db after := by
  obtain ⟨rfl, -⟩ | ⟨a, rfl, applied⟩ | ⟨cls, key, classed, -, handled⟩ := ingestObject_ok run
  · exact .refl
  · exact (applyAdminRm_sameContent applied).ingests
  · have filed := Filed.of_admitted occurs admitted classed
    have stored : Effect state corpus true db _ := filed.storing classed
    have storing : SameContent db (db.storeSignedObject cls payload signature (state.platform.sha256 payload)) :=
      ⟨rfl, rfl, rfl, rfl, rfl, rfl⟩
    refine storing.ingests.trans ?_
    cases handled with
    | retraction ran => exact (erasePayloads_sameContent ran).ingests
    | deactivation ran => exact .single (.erase _ _ ran)
    | profileRevision ran =>
      exact projectRemoteProfile_ingests (stored.sound sound) (filed.landing absent) (sound.profile_fresh absent) ran
    | postRevision ran => exact projectRemotePostRevision_ingests (filed.landing absent) ran
    | threadCreate ran => exact projectThreadAndOrphans_ingests (stored.sound sound) (filed.landing absent) ran

theorem deliverObject_ingests {wireBytes : Bytes} (occurs : Occurs state corpus wireBytes) :
    Ingests state corpus arrivedFrom db (deliverObject state db wireBytes arrivedFrom) := by
  unfold deliverObject
  split
  · rename_i result final run
    obtain ⟨rfl, -⟩ | ⟨payload, signature, object, decodes, admitted, -, absent, -, ingested⟩ :=
      applyOneObject_ok run
    · exact .refl
    · exact ingestObject_ingests sound (occurs payload signature decodes) admitted absent ingested
  · exact .refl

end Prismoire
