import Prismoire.StatusConvergence

namespace Prismoire

open Lib List Option Db

variable {after db : Db} {corpus : Corpus} {state : AppState} {arrivedFrom : Key} {outcome : ProjectionOutcome}
    {signature : Bytes} {row : SignedObjectRow}

section Frames

/-- Work on posts: the threads, the stored objects and the indexed moves stay as they are. -/
structure PostWork (db after : Db) : Prop where
  threads : after.threads = db.threads
  objects : after.signedObjects = db.signedObjects
  moves : after.userMoves = db.userMoves

theorem PostWork.refl : PostWork db db :=
  ⟨rfl, rfl, rfl⟩

theorem PostWork.trans {mid : Db} (first : PostWork db mid) (second : PostWork mid after) : PostWork db after :=
  ⟨second.threads.trans first.threads, second.objects.trans first.objects, second.moves.trans first.moves⟩

theorem projectPostAttachments_work {postId : Uuid} {revision : Nat} {refs : List AttachmentRef}
    (run : projectPostAttachments db postId revision refs = .ok after) : PostWork db after := by
  refine foldlM_invariant (PostWork db) ?_ .refl run
  intro ref _ mid final reached tried
  obtain ⟨-, -, -, -, rfl⟩ := insertPostAttachment_ok.mp tried
  exact reached.trans ⟨rfl, rfl, rfl⟩

variable {p : PostRevision} {hash : Hash}

theorem projectRemotePostRevision_work
    (run : projectRemotePostRevision state db p signature hash arrivedFrom = .ok (outcome, after)) : PostWork db after := by
  obtain ⟨rfl, -⟩ | ⟨-, -, -, opened, recorded, opening, recordedRun, boundRun⟩ := projectRemotePostRevision_ok run
  · exact .refl
  · have work := projectPostAttachments_work boundRun
    obtain ⟨-, -, rfl⟩ := insertPostRevision_ok.mp recordedRun
    rcases opening with ⟨-, openedRun⟩ | ⟨-, -, rfl⟩
    · obtain ⟨-, -, -, -, rfl⟩ := insertPost_ok.mp openedRun
      exact ⟨work.threads, work.objects, work.moves⟩
    · exact ⟨work.threads, work.objects, work.moves⟩

theorem reprojectOrphanPostRevsForThread_work {threadId : Uuid}
    (run : reprojectOrphanPostRevsForThread state db threadId arrivedFrom = .ok after) : PostWork db after := by
  refine settle_invariant (PostWork db) ?_ .refl run
  intro orphan _ mid outcome final reached tried
  obtain ⟨⟨projection, last⟩, projected, returned⟩ := bind_ok.mp tried
  cases returned
  exact reached.trans (projectRemotePostRevision_work projected)

theorem fetchMove_erase {targeted : Hash → Bool} {authority : Option Hash} (sound : EdgeSound state corpus db)
    (injective : CollisionFree state.platform corpus) (projected : ∀ hash, targeted hash = true → db.hasEdge hash = true)
    (run : db.erasePayloads targeted authority = .ok after) (hash : Hash) :
    fetchMove state after hash = fetchMove state db hash := by
  have frame := erasePayloads_frame run
  have found : after.signedObjects.find? (fun row => row.canonicalHash = hash ∧ row.innerClass = .move) =
      db.signedObjects.find? fun row => row.canonicalHash = hash ∧ row.innerClass = .move := by
    rw [frame]
    dsimp only
    rw [find?_updateWhere]
    · cases old : db.signedObjects.find? fun row => row.canonicalHash = hash ∧ row.innerClass = .move with
      | none => rfl
      | some row =>
        have isMove : row.innerClass = .move := by
          have := find?_some old
          simp only [decide_eq_true_eq] at this
          exact this.2
        rw [map_some, if_neg]
        intro erasable
        obtain ⟨-, isTarget⟩ := Bool.and_eq_true_iff.mp erasable
        obtain ⟨edgeRow, inEdges, isEdge⟩ := List.any_eq_true.mp (projected _ isTarget)
        obtain ⟨edgePayload, edgeSignature, edge, edgeFiled, edgeHash, -⟩ := sound.edges edgeRow inEdges
        obtain ⟨payload, object, filed, hashed, cls, -⟩ := sound.objects row (mem_of_find?_eq_some old)
        have same : payload = edgePayload := by
          refine injective _ _ filed.occurs edgeFiled.occurs ?_
          rw [← hashed, ← edgeHash]
          exact (of_decide_eq_true isEdge).symm
        have parsed := filed.parses
        rw [same, edgeFiled.parses, some.injEq] at parsed
        rw [← parsed, isMove] at cls
        cases cls
    · intro row _
      rfl
  unfold fetchMove
  rw [found]

theorem EdgeEffect.fetchMove (effect : EdgeEffect state corpus db after) (sound : EdgeSound state corpus db)
    (injective : CollisionFree state.platform corpus) (hash : Hash) :
    fetchMove state after hash = Prismoire.fetchMove state db hash := by
  cases effect with
  | store filed => exact fetchMove_store (by nofun) hash
  | project => rfl
  | erase projected run => exact fetchMove_erase sound injective projected run hash
  | enqueue => rfl
  | dequeue => rfl
  | frontier => rfl

theorem EdgeEffect.foreign (effect : EdgeEffect state corpus db after)
    (mem : row ∈ after.signedObjects) (cls : row.innerClass ≠ .trustEdge) (live : row.payload.isSome = true) :
    row ∈ db.signedObjects := by
  cases effect with
  | store filed =>
    dsimp only [storeSignedObject] at mem
    split at mem
    · exact mem
    · rcases mem_concat.mp mem with old | isNew
      · exact old
      · rw [isNew] at cls
        exact absurd rfl cls
  | erase projected run =>
    rw [erasePayloads_frame run] at mem
    obtain ⟨old, inOld, ⟨-, rfl⟩ | ⟨-, rfl⟩⟩ := mem_updateWhere.mp mem
    · cases live
    · exact inOld
  | project => exact mem
  | enqueue => exact mem
  | dequeue => exact mem
  | frontier => exact mem

/-- A sweep of trust-edges leaves the moves, the threads and the stored thread-creates. -/
structure EdgeWork (state : AppState) (db after : Db) : Prop where
  threads : after.threads = db.threads
  moves : after.userMoves = db.userMoves
  fetches : ∀ hash, fetchMove state after hash = fetchMove state db hash
  creates : ∀ row ∈ after.signedObjects, row.innerClass = .threadCreate → row.payload.isSome = true →
    row ∈ db.signedObjects

theorem EdgeEffects.work (effects : EdgeEffects state corpus db after) (sound : EdgeSound state corpus db)
    (injective : CollisionFree state.platform corpus) : EdgeWork state db after := by
  induction effects with
  | refl => exact ⟨rfl, rfl, fun _ => rfl, fun _ mem _ _ => mem⟩
  | tail reached step ih =>
    have sound := EdgeEffects.sound reached sound
    have frame : ∀ {mid final}, EdgeEffect state corpus mid final →
        final.threads = mid.threads ∧ final.userMoves = mid.userMoves := by
      intro mid final step
      obtain ⟨objects, edges, pending, frontier, rfl⟩ := step.frame
      exact ⟨rfl, rfl⟩
    exact ⟨(frame step).1.trans ih.threads, (frame step).2.trans ih.moves,
      fun hash => (step.fetchMove sound injective hash).trans (ih.fetches hash),
      fun row mem cls live => ih.creates row (step.foreign mem (by rw [cls]; decide) live) cls live⟩

end Frames

variable {history : MoveHistory}

def HomesTold (history : MoveHistory) (state : AppState) (corpus : Corpus) (db : Db) : Prop :=
  ∀ row ∈ db.threads, ∃ payload signature create,
    Filed state.platform corpus payload signature (.threadCreate create) ∧ row.Opens state.platform payload create ∧
    history.HomeAt create.author create.createdAt (row.homeInstance.getD state.instanceKey)

theorem TellsHome.congr {key : Key} {t : Nat} (tells : TellsHome history state db key t arrivedFrom)
    (moves : after.userMoves = db.userMoves) (fetches : ∀ hash, fetchMove state after hash = fetchMove state db hash) :
    TellsHome history state after key t arrivedFrom := by
  unfold TellsHome MoveHeld at tells ⊢
  rw [moves]
  simp only [fetches]
  exact tells

theorem MovesFrom.congr (from_ : MovesFrom history db) (moves : after.userMoves = db.userMoves) :
    MovesFrom history after := by
  unfold MovesFrom MovesOfFrom
  rw [moves]
  exact from_

theorem fetchMove_objects (objects : after.signedObjects = db.signedObjects) (hash : Hash) :
    fetchMove state after hash = fetchMove state db hash := by
  unfold fetchMove
  rw [objects]

theorem homeForContent_getD (author : Key) (createdAt : Nat) : (homeForContent state db author createdAt arrivedFrom).getD
    state.instanceKey = resolveHomeAtT state db author createdAt arrivedFrom := by
  unfold homeForContent
  dsimp only
  split
  · rename_i own
    exact own.symm
  · rfl

/-- Projection of threads that keeps the homes told, and the moves that tell them. -/
structure Homing (history : MoveHistory) (state : AppState) (corpus : Corpus) (db after : Db) : Prop where
  told : HomesTold history state corpus after
  objects : after.signedObjects = db.signedObjects
  moves : after.userMoves = db.userMoves

theorem HomesTold.of_threads (told : HomesTold history state corpus db) (threads : after.threads = db.threads) :
    HomesTold history state corpus after := by
  unfold HomesTold
  rw [threads]
  exact told

variable {payload : Bytes}

variable {t : ThreadCreate} {author : Key}

section

variable (told : HomesTold history state corpus db) (lawful : history.Lawful) (from_ : MovesFrom history db)
  (tells : TellsHome history state db t.author t.createdAt arrivedFrom)
  (filed : Filed state.platform corpus payload signature (.threadCreate t))
include told lawful from_ tells filed

theorem HomesTold.projectRemoteThreadCreate
    (run : projectRemoteThreadCreate state db t (state.platform.sha256 payload) arrivedFrom = .ok (outcome, after)) :
    Homing history state corpus db after := by
  obtain ⟨rfl, -⟩ | ⟨-, -, roomed, room, inserted⟩ := projectRemoteThreadCreate_ok run
  · exact ⟨told, rfl, rfl⟩
  · obtain ⟨rooms, rfl⟩ := getOrCreateRoom_frame room
    obtain ⟨-, -, -, rfl⟩ := insertThread_ok.mp inserted
    refine ⟨fun row mem => ?_, rfl, rfl⟩
    rcases mem_append.mp mem with old | isNew
    · exact told row old
    · have isNew := mem_singleton.mp isNew
      refine ⟨payload, signature, t, filed, ?_, ?_⟩
      · rw [isNew]
        exact ⟨rfl, rfl, rfl⟩
      · have resolved := tells.resolve lawful (from_ _)
        rw [isNew, remoteThreadRow, homeForContent_getD]
        exact resolved

theorem HomesTold.projectThreadAndOrphans
    (run : projectThreadAndOrphans state db t (state.platform.sha256 payload) arrivedFrom = .ok after) :
    Homing history state corpus db after := by
  obtain ⟨⟨outcome, threaded⟩, projected, rest⟩ := bind_ok.mp run
  have homing := told.projectRemoteThreadCreate lawful from_ tells filed projected
  dsimp only at rest
  split at rest
  · have work := reprojectOrphanPostRevsForThread_work rest
    exact ⟨homing.told.of_threads work.threads, work.objects.trans homing.objects, work.moves.trans homing.moves⟩
  · cases rest
    exact homing

end

def StoredThread (state : AppState) (db : Db) (author : Key) (t : ThreadCreate) : Prop :=
  ∃ row ∈ db.signedObjects, row.innerClass = .threadCreate ∧
    row.payload.bind state.platform.parse = some (.threadCreate t) ∧ t.author = author ∧
    db.threads.any (·.threadCreateHash = some row.canonicalHash) = false

theorem orphanThread_stored {orphan : Orphan ThreadCreate}
    (mem : row ∈ db.signedObjects) (found : orphanThread state db author row = some orphan) :
    StoredThread state db author orphan.object := by
  unfold orphanThread at found
  split at found
  · rename_i unprojected
    split at found
    · rename_i t parses
      split at found
      · rename_i sameAuthor
        cases found
        exact ⟨row, mem, unprojected.1, parses, sameAuthor, by simpa using unprojected.2⟩
      · cases found
    · cases found
  · cases found

variable (told : HomesTold history state corpus db) (sound : Sound state corpus db)
include told sound

theorem HomesTold.reprojectOrphanThreadsForAuthor (lawful : history.Lawful) (from_ : MovesFrom history db)
    (tells : ∀ t, StoredThread state db author t → TellsHome history state db t.author t.createdAt arrivedFrom)
    (run : reprojectOrphanThreadsForAuthor state db author arrivedFrom = .ok after) :
    Homing history state corpus db after := by
  refine foldlM_invariant (Homing history state corpus db) ?_ ⟨told, rfl, rfl⟩ run
  intro orphan mem mid final reached projected
  obtain ⟨row, inObjects, found⟩ := mem_filterMap.mp mem
  obtain ⟨payload, landing, hashed, -, -⟩ := orphanThread_landing sound inObjects found
  rw [hashed] at projected
  have tells := (tells _ (orphanThread_stored inObjects found)).congr reached.moves (fetchMove_objects reached.objects)
  have homing := reached.told.projectThreadAndOrphans lawful (from_.congr reached.moves) tells landing.filed projected
  exact ⟨homing.told, homing.objects.trans reached.objects, homing.moves.trans reached.moves⟩

theorem HomesTold.projectRemoteProfile {p : ProfileRevision} {swept : Bool}
    (injective : CollisionFree state.platform corpus) (lawful : history.Lawful) (from_ : MovesFrom history db)
    (landing : Landing state corpus true db payload signature (.profileRevision p))
    (fresh : ∀ row ∈ db.profileRevisions, row.canonicalHash ≠ state.platform.sha256 payload)
    (tells : ∀ t, StoredThread state db p.user t → TellsHome history state db t.author t.createdAt arrivedFrom)
    (run : projectRemoteProfile state db p signature (state.platform.sha256 payload) arrivedFrom =
      .ok (outcome, after, swept)) :
    HomesTold history state corpus after ∧ after.userMoves = db.userMoves := by
  obtain rfl | ⟨-, mid, profile, edges, reprojected⟩ := projectRemoteProfile_ok sound landing fresh run
  · exact ⟨told, rfl⟩
  · have profiling := profile.sound sound
    have work := edges.work profiling.toEdgeSound injective
    have sweeping : Effects state corpus true _ mid := edges.effects
    have sweptSound := sweeping.sound profiling
    have homing := @HomesTold.reprojectOrphanThreadsForAuthor after mid corpus state arrivedFrom history p.user
      (told.of_threads work.threads) sweptSound lawful (from_.congr work.moves) (fun t stored => ?_) reprojected
    · exact ⟨homing.told, homing.moves.trans work.moves⟩
    · obtain ⟨row, mem, cls, parses, own, unprojected⟩ := stored
      have live : row.payload.isSome = true := by
        cases held : row.payload with
        | none => simp [held] at parses
        | some => rfl
      have before : StoredThread state db p.user t :=
        ⟨row, work.creates row mem cls live, cls, parses, own, work.threads ▸ unprojected⟩
      have tells := tells t before
      exact tells.congr work.moves fun hash => (work.fetches hash).trans rfl

end Prismoire
