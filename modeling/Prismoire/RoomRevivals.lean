import Prismoire.ColumnRuns
import Prismoire.ErasureTerminal
import Prismoire.RoomDeletion
import Prismoire.ThreadLocks

namespace Prismoire

open Lib List Db

def ThreadRow.place (thread : ThreadRow) : Uuid × Text :=
  (thread.id, thread.room)

/-- No thread is in a deleted room, and nothing that a deletion removed is there. -/
structure Unrevived (graves : Graves) (db : Db) : Prop where
  threads : ∀ row ∈ db.threads, row.room ∉ graves.rooms ∧ row.id ∉ graves.threads
  posts : ∀ row ∈ db.posts, row.id ∉ graves.posts

/-- The threads keep their rooms, and no post comes or goes. -/
structure SamePlaces (db after : Db) : Prop where
  threads : after.threads.map ThreadRow.place = db.threads.map ThreadRow.place
  posts : after.posts.map (·.id) = db.posts.map (·.id)

/-- A thread whose projection, with the sweep over its posts, brings nothing back. -/
def ThreadCreate.StaysAway (state : AppState) (db : Db) (graves : Graves) (t : ThreadCreate) : Prop :=
  t.roomSlug ∉ graves.rooms ∧ t.threadId ∉ graves.threads ∧
    ∀ orphan ∈ db.signedObjects.filterMap (orphanPostRev state db t.threadId), orphan.object.revision = 0 →
      orphan.object.postId ∉ graves.posts

instance {state : AppState} {db : Db} {graves : Graves} {t : ThreadCreate} :
    Decidable (t.StaysAway state db graves) :=
  inferInstanceAs (Decidable (_ ∧ _ ∧ ∀ orphan ∈ _, _ → _))

/-- An object that is new here and brings nothing back, neither by itself nor by the sweeps that it starts. -/
def SignedPayload.RevivesNothing (state : AppState) (db : Db) (graves : Graves) (arrivedFrom : Key) :
    SignedPayload → Prop
  | .postRevision p => OpensHere state db p arrivedFrom → p.postId ∉ graves.posts
  | .threadCreate t => isLocalAuthoritative state db t.author arrivedFrom = false → db.hasUser t.author = true →
    db.hasThread t.threadId = false → t.StaysAway state db graves
  | .profileRevision p => isLocalAuthoritative state db p.user arrivedFrom = false →
    ∀ orphan ∈ db.signedObjects.filterMap (orphanThread state db p.user), db.hasThread orphan.object.threadId = false →
      orphan.object.StaysAway state db graves
  | _ => True

instance {state : AppState} {db : Db} {graves : Graves} {arrivedFrom : Key} (object : SignedPayload) :
    Decidable (object.RevivesNothing state db graves arrivedFrom) := by
  cases object <;> unfold SignedPayload.RevivesNothing <;> infer_instance

variable {state : AppState} {corpus : Corpus} {graves : Graves} {db mid after : Db} {arrivedFrom : Key}
  {payload signature : Bytes} {hash : Hash}

theorem SamePlaces.refl : SamePlaces db db :=
  ⟨rfl, rfl⟩

theorem SamePlaces.trans (first : SamePlaces db mid) (second : SamePlaces mid after) : SamePlaces db after :=
  ⟨second.threads.trans first.threads, second.posts.trans first.posts⟩

theorem SamePlaces.of_same (threads : after.threads = db.threads) (posts : after.posts = db.posts) :
    SamePlaces db after :=
  ⟨by rw [threads], by rw [posts]⟩

theorem Unrevived.of_places (gone : Unrevived graves db) (same : SamePlaces db after) : Unrevived graves after := by
  constructor
  · intro row mem
    obtain ⟨old, inThreads, place⟩ := mem_map.mp (same.threads ▸ mem_map_of_mem mem)
    obtain ⟨id, room⟩ := Prod.mk.inj place
    have away := gone.threads old inThreads
    exact ⟨room ▸ away.1, id ▸ away.2⟩
  · intro row mem
    obtain ⟨old, inPosts, id⟩ := mem_map.mp (same.posts ▸ mem_map_of_mem mem)
    exact id ▸ gone.posts old inPosts

theorem Unrevived.addPost {post : PostRow} (gone : Unrevived graves db) (threads : after.threads.map ThreadRow.place =
    db.threads.map ThreadRow.place) (posts : after.posts = db.posts ++ [post]) (away : post.id ∉ graves.posts) :
    Unrevived graves after := by
  have same : SamePlaces db { after with posts := db.posts } := ⟨threads, rfl⟩
  refine ⟨(gone.of_places same).threads, fun row mem => ?_⟩
  rcases mem_concat.mp (posts ▸ mem) with old | new
  · exact gone.posts row old
  · exact new ▸ away

variable {outcome : ProjectionOutcome} {threadId : Uuid} {author : Key} {t : ThreadCreate}

variable {p : PostRevision} {status : ContentStatus}

theorem Unrevived.projectRevision (gone : Unrevived graves db)
    (away : OpensHere state db p arrivedFrom → p.postId ∉ graves.posts)
    (run : projectRemotePostRevision state db p signature hash arrivedFrom = .ok (outcome, after)) : Unrevived graves after := by
  obtain ⟨threads, same | ⟨count, raised⟩ | ⟨opens, posts⟩⟩ := projectRemotePostRevision_tables run
  · exact gone.of_places (.of_same threads same)
  · refine gone.of_places ⟨by rw [threads], ?_⟩
    rw [raised]
    apply map_updateWhere
    exact fun _ => rfl
  · exact gone.addPost (by rw [threads]) posts (away opens)

theorem Unrevived.reprojectThread (gone : Unrevived graves db)
    (away : ∀ orphan ∈ db.signedObjects.filterMap (orphanPostRev state db threadId), orphan.object.revision = 0 →
      orphan.object.postId ∉ graves.posts)
    (run : reprojectOrphanPostRevsForThread state db threadId arrivedFrom = .ok after) : Unrevived graves after := by
  refine settle_invariant (Unrevived graves) ?_ gone run
  intro orphan mem mid outcome final kept tried
  obtain ⟨⟨projection, last⟩, attempted, returned⟩ := bind_ok.mp tried
  cases returned
  exact kept.projectRevision (fun opens => away orphan mem opens.1) attempted

/-- Further into a delivery: no post-rev has come to the stored objects, and projections have only been added. -/
structure SweptOn (db mid : Db) : Prop where
  stored : ∀ row ∈ mid.signedObjects, row.innerClass = .postRev → row.payload.isSome = true → row ∈ db.signedObjects
  threads : ∀ row ∈ db.threads, row ∈ mid.threads
  revisions : ∀ row ∈ db.postRevisions, row ∈ mid.postRevisions

theorem SweptOn.of_same (objects : mid.signedObjects = db.signedObjects) (threads : ∀ row ∈ db.threads, row ∈ mid.threads)
    (revisions : ∀ row ∈ db.postRevisions, row ∈ mid.postRevisions) : SweptOn db mid :=
  ⟨fun _ mem _ _ => objects ▸ mem, threads, revisions⟩

theorem SweptOn.refl : SweptOn db db :=
  .of_same rfl (fun _ => id) fun _ => id

theorem SweptOn.trans (first : SweptOn db mid) (second : SweptOn mid after) : SweptOn db after :=
  ⟨fun row mem cls live => first.stored row (second.stored row mem cls live) cls live,
    fun row mem => second.threads row (first.threads row mem),
    fun row mem => second.revisions row (first.revisions row mem)⟩

theorem SweptOn.store {cls : InnerClass} (other : cls ≠ .postRev) :
    SweptOn db (db.storeSignedObject cls payload signature hash) := by
  refine ⟨fun row mem isPost _ => ?_, fun _ => id, fun _ => id⟩
  dsimp only [storeSignedObject] at mem
  split at mem
  · exact mem
  · rcases mem_concat.mp mem with old | new
    · exact old
    · rw [new] at isPost
      exact absurd isPost other

theorem EdgeEffects.sweptOn (effects : EdgeEffects state corpus db after) : SweptOn db after := by
  induction effects with
  | refl => exact .refl
  | tail _ step ih =>
    refine ih.trans ⟨fun row mem cls live => step.foreign mem (by rw [cls]; decide) live, ?_, ?_⟩
    · obtain ⟨objects, edges, pending, frontier, rfl⟩ := step.frame
      exact fun _ => id
    · obtain ⟨objects, edges, pending, frontier, rfl⟩ := step.frame
      exact fun _ => id

theorem EdgeEffects.samePlaces (effects : EdgeEffects state corpus db after) : SamePlaces db after := by
  induction effects with
  | refl => exact .refl
  | tail _ step ih =>
    obtain ⟨objects, edges, pending, frontier, rfl⟩ := step.frame
    exact ih.trans ⟨rfl, rfl⟩

theorem projectRemotePostRevision_sweptOn
    (run : projectRemotePostRevision state db p signature hash arrivedFrom = .ok (outcome, after)) :
    SweptOn db after := by
  have work := projectRemotePostRevision_work run
  refine .of_same work.objects (fun row mem => work.threads ▸ mem) ?_
  obtain ⟨rfl, -⟩ | ⟨-, -, -, opened, recorded, opening, recordedRun, boundRun⟩ := projectRemotePostRevision_ok run
  · exact fun row => id
  · obtain ⟨-, -, rfl⟩ := insertPostRevision_ok.mp recordedRun
    obtain ⟨attachments, blobs, rfl⟩ := projectPostAttachments_frame boundRun
    rcases opening with ⟨-, openedRun⟩ | ⟨-, -, rfl⟩
    · obtain ⟨-, -, -, -, rfl⟩ := insertPost_ok.mp openedRun
      exact fun row mem => mem_append_left _ mem
    · exact fun row mem => mem_append_left _ mem

theorem getOrCreateRoom_sweptOn {slug : Text} (run : getOrCreateRoom db slug author = .ok after) :
    SweptOn db after := by
  obtain ⟨rooms, rfl⟩ := getOrCreateRoom_frame run
  exact .of_same rfl (fun _ => id) fun _ => id

theorem projectRemoteThreadCreate_sweptOn
    (run : projectRemoteThreadCreate state db t hash arrivedFrom = .ok (outcome, after)) : SweptOn db after := by
  obtain ⟨rfl, -⟩ | ⟨-, -, -, roomed, threadsFts, roomRun, rfl⟩ := projectRemoteThreadCreate_tables run
  · exact .refl
  · have room := getOrCreateRoom_sweptOn roomRun
    exact ⟨room.stored, fun row mem => mem_append_left _ mem, room.revisions⟩

theorem projectThreadAndOrphans_sweptOn
    (run : projectThreadAndOrphans state db t hash arrivedFrom = .ok after) : SweptOn db after := by
  obtain ⟨⟨outcome, mid⟩, projected, rest⟩ := bind_ok.mp run
  have thread := projectRemoteThreadCreate_sweptOn projected
  dsimp only at rest
  split at rest
  · refine thread.trans (settle_invariant (SweptOn mid) ?_ .refl rest)
    intro orphan _ mid outcome final reached tried
    obtain ⟨⟨projection, last⟩, attempted, returned⟩ := bind_ok.mp tried
    cases returned
    exact reached.trans (projectRemotePostRevision_sweptOn attempted)
  · cases rest
    exact thread

theorem SweptOn.orphan {orphan : Orphan PostRevision} (swept : SweptOn db mid)
    (mem : orphan ∈ mid.signedObjects.filterMap (orphanPostRev state mid threadId)) :
    orphan ∈ db.signedObjects.filterMap (orphanPostRev state db threadId) := by
  obtain ⟨row, inObjects, found⟩ := mem_filterMap.mp mem
  unfold orphanPostRev at found
  split at found
  · rename_i unprojected
    have live : row.payload.isSome = true := by
      cases held : row.payload with
      | none => simp [held] at found
      | some => rfl
    refine mem_filterMap.mpr ⟨row, swept.stored row inObjects unprojected.1 live, ?_⟩
    have absent : (!db.postRevisions.any (·.canonicalHash = row.canonicalHash)) = true := by
      have later := unprojected.2
      rw [Bool.not_eq_true', any_eq_false] at later ⊢
      exact fun other inRows => later other (swept.revisions other inRows)
    unfold orphanPostRev
    rw [if_pos ⟨unprojected.1, absent⟩]
    exact found
  · cases found

theorem ThreadCreate.StaysAway.later (away : t.StaysAway state db graves) (swept : SweptOn db mid) :
    t.StaysAway state mid graves :=
  ⟨away.1, away.2.1, fun orphan mem => away.2.2 orphan (swept.orphan mem)⟩

theorem SweptOn.unthreaded (swept : SweptOn db mid) (absent : mid.hasThread threadId = false) :
    db.hasThread threadId = false := by
  rw [hasThread, any_eq_false] at absent ⊢
  exact fun row mem => absent row (swept.threads row mem)

theorem Unrevived.projectThread (gone : Unrevived graves db)
    (away : isLocalAuthoritative state db t.author arrivedFrom = false → db.hasUser t.author = true →
      db.hasThread t.threadId = false → t.StaysAway state db graves)
    (run : projectThreadAndOrphans state db t hash arrivedFrom = .ok after) : Unrevived graves after := by
  obtain ⟨⟨outcome, mid⟩, projected, rest⟩ := bind_ok.mp run
  have swept := projectRemoteThreadCreate_sweptOn projected
  have same := (projectRemoteThreadCreate_sameContent projected).posts
  dsimp only at rest
  rcases projectRemoteThreadCreate_tables projected with ⟨rfl, waits⟩ | ⟨foreign, known, absent, roomed, threadsFts, -, rfl⟩
  · -- a thread that waits is not swept
    rw [if_neg waits] at rest
    cases rest
    exact gone
  · have stays := away foreign known absent
    have threaded : Unrevived graves { roomed with
        threads := db.threads ++ [remoteThreadRow state roomed t hash arrivedFrom]
        threadsFts := threadsFts } := by
      refine ⟨fun row mem => ?_, fun row mem => gone.posts row (same ▸ mem)⟩
      rcases mem_concat.mp mem with old | new
      · exact gone.threads row old
      · rw [new]
        exact ⟨stays.1, stays.2.1⟩
    split at rest
    · exact threaded.reprojectThread (stays.later swept).2.2 rest
    · cases rest
      exact threaded

theorem Unrevived.reprojectAuthor (gone : Unrevived graves db)
    (away : ∀ orphan ∈ db.signedObjects.filterMap (orphanThread state db author),
      db.hasThread orphan.object.threadId = false → orphan.object.StaysAway state db graves)
    (run : reprojectOrphanThreadsForAuthor state db author arrivedFrom = .ok after) : Unrevived graves after := by
  have both : Unrevived graves after ∧ SweptOn db after := by
    refine foldlM_invariant (fun mid => Unrevived graves mid ∧ SweptOn db mid) ?_ ⟨gone, .refl⟩ run
    rintro orphan mem mid final ⟨kept, swept⟩ projected
    refine ⟨kept.projectThread ?_ projected, swept.trans (projectThreadAndOrphans_sweptOn projected)⟩
    exact fun _ _ absent => (away orphan mem (swept.unthreaded absent)).later swept
  exact both.1

theorem EdgeEffects.orphanThread {orphan : Orphan ThreadCreate} (effects : EdgeEffects state corpus db after)
    (mem : orphan ∈ after.signedObjects.filterMap (orphanThread state after author)) :
    orphan ∈ db.signedObjects.filterMap (orphanThread state db author) := by
  induction effects with
  | refl => exact mem
  | @tail mid final _ step ih =>
    refine ih ?_
    obtain ⟨row, inObjects, found⟩ := mem_filterMap.mp mem
    have threads : final.threads = mid.threads := by
      obtain ⟨objects, edges, pending, frontier, rfl⟩ := step.frame
      rfl
    unfold Prismoire.orphanThread at found
    rw [threads] at found
    split at found
    · rename_i unprojected
      have live : row.payload.isSome = true := by
        cases held : row.payload with
        | none => simp [held] at found
        | some => rfl
      refine mem_filterMap.mpr ⟨row, step.foreign inObjects (by rw [unprojected.1]; decide) live, ?_⟩
      unfold Prismoire.orphanThread
      rw [if_pos unprojected]
      exact found
    · cases found

theorem Unrevived.projectProfile {p : ProfileRevision} {flag : Bool}
    (gone : Unrevived graves db) (sound : EdgeSound state corpus db)
    (away : isLocalAuthoritative state db p.user arrivedFrom = false →
      ∀ orphan ∈ db.signedObjects.filterMap (orphanThread state db p.user),
        db.hasThread orphan.object.threadId = false → orphan.object.StaysAway state db graves)
    (run : projectRemoteProfile state db p signature hash arrivedFrom = .ok (outcome, after, flag)) :
    Unrevived graves after := by
  obtain rfl | ⟨foreign, -, mid, projectedEdges, sweptRun, reprojected⟩ := projectRemoteProfile_run run
  · exact gone
  · let profiled : Db := profiledDb state db p signature hash arrivedFrom
    have profiledSound : EdgeSound state corpus profiled := { sound with }
    have edges := sweepPendingProjections_effects profiledSound sweptRun
    have hydrated : Unrevived graves profiled := ⟨gone.threads, gone.posts⟩
    refine (hydrated.of_places edges.samePlaces).reprojectAuthor (fun orphan mem absent => ?_) reprojected
    have before : orphan ∈ db.signedObjects.filterMap (Prismoire.orphanThread state db p.user) :=
      edges.orphanThread mem
    have absentBefore : db.hasThread orphan.object.threadId = false := edges.sweptOn.unthreaded absent
    have stays : orphan.object.StaysAway state profiled graves :=
      away foreign orphan before absentBefore
    exact stays.later edges.sweptOn

theorem eraseAllForUserKey_places {user : Key} {authority : Hash}
    (run : eraseAllForUserKey db user authority = .ok after) : SamePlaces db after := by
  refine ⟨by rw [(eraseAllForUserKey_work run).1], ?_⟩
  obtain ⟨_, _, _, -, rfl⟩ | rfl := eraseAllForUserKey_frame run
  · apply map_updateWhere
    exact fun _ => rfl
  · rfl

theorem applyAdminRm_places {a : AdminRemoval}
    (run : applyAdminRm state db arrivedFrom payload signature a = .ok (status, after)) : SamePlaces db after := by
  obtain ⟨rfl, -⟩ | ⟨-, -, -, -, erased, erasedRun, rfl⟩ := applyAdminRm_ok run
  · exact .refl
  · rw [erasePayloads_frame erasedRun]
    exact ⟨rfl, rfl⟩

theorem Unrevived.ingest {object : SignedPayload} (gone : Unrevived graves db)
    (sound : Sound state corpus db) (occurs : corpus payload)
    (admitted : admitObject state.platform payload signature = .ok object)
    (away : object.RevivesNothing state db graves arrivedFrom)
    (run : ingestObject state db payload signature arrivedFrom object = .ok (status, after)) : Unrevived graves after := by
  obtain ⟨rfl, -⟩ | ⟨a, rfl, applied⟩ | ⟨cls, key, classed, -, handled⟩ := ingestObject_ok run
  · exact gone
  · exact gone.of_places (applyAdminRm_places applied)
  · have filed := Filed.of_admitted occurs admitted classed
    have storing : Effect state corpus true db (db.storeSignedObject cls payload signature
        (state.platform.sha256 payload)) := filed.storing classed
    have stored : Unrevived graves (db.storeSignedObject cls payload signature (state.platform.sha256 payload)) :=
      ⟨gone.threads, gone.posts⟩
    cases handled with
    | retraction ran =>
      rw [erasePayloads_frame ran]
      exact ⟨gone.threads, gone.posts⟩
    | deactivation ran => exact stored.of_places (eraseAllForUserKey_places ran)
    | profileRevision ran =>
      cases classed
      refine stored.projectProfile (storing.sound sound).toEdgeSound (fun foreign orphan mem absent => ?_) ran
      obtain ⟨row, inObjects, found⟩ := mem_filterMap.mp mem
      have before : row ∈ db.signedObjects := by
        dsimp only [storeSignedObject] at inObjects
        split at inObjects
        · exact inObjects
        · rcases mem_concat.mp inObjects with old | rfl
          · exact old
          · -- the profile itself is no thread-create
            simp [Prismoire.orphanThread] at found
      have stays := away foreign orphan (mem_filterMap.mpr ⟨row, before, found⟩) absent
      exact stays.later (.store (by decide))
    | postRevision ran => exact stored.projectRevision away ran
    | threadCreate ran =>
      cases classed
      refine stored.projectThread (fun foreign known absent => ?_) ran
      exact (away foreign known absent).later (.store (by decide))

theorem Unrevived.deliverObject {wire : Bytes} (gone : Unrevived graves db) (sound : Sound state corpus db)
    (occurs : Occurs state corpus wire)
    (away : ∀ a ∈ arrival state db wire, a.object.RevivesNothing state db graves arrivedFrom) :
    Unrevived graves (deliverObject state db wire arrivedFrom) := by
  unfold Prismoire.deliverObject
  split
  · rename_i result final run
    rcases applyOneObject_arrival run with rfl | ⟨a, arrives, decodes, admitted, -, ingested⟩
    · exact gone
    · exact gone.ingest sound (occurs _ _ decodes) admitted (away a arrives) ingested
  · exact gone

end Prismoire
