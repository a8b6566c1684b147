import Prismoire.RoomRevivals

namespace Prismoire

open Lib List Db

inductive RoomEvent
  | deliver (wire : Bytes) (arrivedFrom : Key)
  | createThread (sign : Signer) (user : Key) (req : ThreadRequest)
  | createReply (sign : Signer) (user : Key) (req : ReplyRequest)
  | editPost (sign : Signer) (user : Key) (req : EditRequest)
  | retractPost (sign : Signer) (user : Key) (postId : Uuid) (now : Nat)
  | uploadAttachment (user : Key) (ref : AttachmentRef)
  | sweepStaging (expired : AttachmentStagingRow → Bool)
  | birth (born : LocalUserBirth)
  | seedTrustCode (code : TrustCode)
  | edge (wire : Bytes) (peer : Key)
  | move (wire : Bytes) (nowMs : Nat)
  | trust (sign : TrustEdge → Bytes × Bytes) (user target : Key) (call : TrustCall)
  | peers (rows : List PeerRow)
  | deleteRoom (req : DeleteRoomRequest)

/-- A transaction that fails leaves the tables as they are. -/
def RoomStore.commit {ε : Type} (store : RoomStore) (written : Except ε Db) : RoomStore :=
  match written with
  | .ok db => { store with db }
  | .error _ => store

section

variable (state : AppState) (store : RoomStore)

def RoomStore.apply : RoomEvent → RoomStore
  | .deliver wire arrivedFrom => { store with db := deliverObject state store.db wire arrivedFrom }
  | .createThread sign user req => { store with db := (Prismoire.createThread state sign store.db user req).2 }
  | .createReply sign user req => store.commit (Prismoire.createReply state sign store.db user req)
  | .editPost sign user req => store.commit (Prismoire.editPost state sign store.db user req)
  | .retractPost sign user postId now => store.commit (Prismoire.retractPost state sign store.db user postId now)
  | .uploadAttachment user ref => store.commit (Prismoire.uploadAttachment store.db user ref)
  | .sweepStaging expired => store.commit (Prismoire.sweepStaging store.db expired)
  | .birth born => store.commit (completeLocalUserBirth state store.db born)
  | .seedTrustCode code => { store with db := Prismoire.seedTrustCode state store.db code }
  | .edge wire peer => { store with db := deliverEdge state store.db wire peer }
  | .move wire nowMs => store.commit ((applyOneMove state store.db wire nowMs).map Prod.snd)
  | .trust sign user target call => store.commit ((mutateTrustEdge state sign store.db user target call).map Prod.snd)
  | .peers rows => { store with db := { store.db with peers := rows } }
  | .deleteRoom req =>
    match Prismoire.deleteRoom store req with
    | .ok after => after
    | .error _ => store

/-- What the instance signs in an event reads back as what it meant, under a signature that verifies. -/
def RoomEvent.Signed : RoomEvent → Prop
  | .createThread sign user req =>
    (∀ refs : AttachmentRefs, refs.1 = req.attachments →
      Signs state (fun _ => True) sign (.postRevision (req.opening user refs))) ∧
    Signs state (fun _ => True) sign (.threadCreate (req.thread user))
  | .createReply sign user req => Signs state (fun _ => True) sign (.postRevision (req.reply user))
  | .editPost sign user req => ∀ post refs, store.db.posts.find? (·.id = req.postId) = some post →
    refs.1 = req.attachments → Signs state (fun _ => True) sign (.postRevision (req.revision user post refs))
  | .retractPost sign user postId now => Signs state (fun _ => True) sign (.retraction ⟨postId, user, now * 1000⟩)
  | .birth born =>
    Filed state.platform (fun _ => True) born.profile.payload born.profile.signature
      (.profileRevision born.genesisProfile) ∧
    ∃ m, Filed state.platform (fun _ => True) born.move.payload born.move.signature (.move m)
  | .trust sign user target call => ∀ signed after, mutateTrustEdge state sign store.db user target call = .ok (signed, after) →
    Filed state.platform (fun _ => True) signed.payload signed.signature (.trustEdge signed.edge)
  | _ => True

/-- Nothing that is written brings back a room or a removed id: a local thread or reply does not by what it is, and a
delivery does not by its object and the sweeps after it. -/
def RoomEvent.Lasting : RoomEvent → Prop
  | .deliver wire arrivedFrom => ∀ a ∈ arrival state store.db wire,
    a.object.RevivesNothing state store.db store.graves arrivedFrom
  | .createThread _ user req => (isAnnouncements req.room && !req.isAdmin) = false → store.db.hasUser user = true →
    hasActiveKey store.db user = true → store.db.hasThread req.threadId = false → store.db.hasPost req.postId = false →
      req.room ∉ store.graves.rooms ∧ req.threadId ∉ store.graves.threads ∧ req.postId ∉ store.graves.posts
  | .createReply _ user req => ∀ thread ∈ store.db.threads, ReplyPasses store.db user req thread →
    req.postId ∉ store.graves.posts
  | _ => True

end

instance {state : AppState} {store : RoomStore} : DecidablePred (RoomEvent.Lasting state store) := fun event => by
  cases event <;> unfold RoomEvent.Lasting <;> infer_instance

section

variable {state : AppState} {sign : Signer} {graves : Graves} {db after : Db} {user : Key}
  {store : RoomStore} {req : ThreadRequest} {event : RoomEvent}

theorem RoomStore.commit_keeps {ε : Type} {P : Db → Prop} {written : Except ε Db} (before : P store.db)
    (writes : ∀ db, written = .ok db → P db) : P (store.commit written).db := by
  cases written with
  | ok db => exact writes db rfl
  | error => exact before

theorem map_snd_ok {ε α : Type} {run : Except ε (α × Db)} (mapped : run.map Prod.snd = .ok db) :
    ∃ result, run = .ok (result, db) := by
  cases run with
  | error => cases mapped
  | ok result =>
    cases mapped
    exact ⟨result.1, rfl⟩

theorem RoomsKept.operate (kept : RoomsKept state (fun _ => True) db)
    (step : InstanceStep state (fun _ => True) (fun _ _ _ => True) db after) : RoomsKept state (fun _ => True) after :=
  kept.effects (step.effects kept.sound)

theorem RoomsKept.apply (kept : RoomsKept state (fun _ => True) store.db)
    (signed : event.Signed state store) : RoomsKept state (fun _ => True) (store.apply state event).db := by
  cases event with
  | deliver wire arrivedFrom => exact kept.operate (.content wire arrivedFrom (fun _ _ _ => trivial) trivial)
  | createThread sign user req => exact kept.operate (.thread sign user req signed.1 signed.2)
  | createReply sign user req =>
    exact RoomStore.commit_keeps kept fun _ run => kept.operate (.reply sign user req signed run)
  | editPost sign user req => exact RoomStore.commit_keeps kept fun _ run => kept.operate (.edit sign user req signed run)
  | retractPost sign user postId now =>
    exact RoomStore.commit_keeps kept fun _ run => kept.operate (.retract sign user postId now signed run)
  | uploadAttachment user ref => exact RoomStore.commit_keeps kept fun _ run => kept.operate (.upload user ref run)
  | sweepStaging expired => exact RoomStore.commit_keeps kept fun _ run => kept.operate (.sweep expired run)
  | birth born =>
    obtain ⟨profile, m, move⟩ := signed
    exact RoomStore.commit_keeps kept fun _ run => kept.operate (.birth born m profile move run)
  | seedTrustCode code => exact kept.operate (.seed code)
  | edge wire peer => exact kept.operate (.edge wire peer fun _ _ _ => trivial)
  | move wire nowMs =>
    refine RoomStore.commit_keeps kept fun _ mapped => ?_
    obtain ⟨status, run⟩ := map_snd_ok mapped
    exact kept.operate (.move wire nowMs (fun _ _ _ => trivial) run)
  | trust sign user target call =>
    refine RoomStore.commit_keeps kept fun _ mapped => ?_
    obtain ⟨mutation, run⟩ := map_snd_ok mapped
    exact kept.operate (.trust sign user target call (signed mutation _ run) run)
  | peers rows => exact kept.operate (.peers rows)
  | deleteRoom req =>
    simp only [RoomStore.apply]
    split
    · rename_i final run
      exact kept.erased (deleteRoom_ok run).1
    · exact kept

theorem editPost_places {req : EditRequest} (run : editPost state sign db user req = .ok after) : SamePlaces db after := by
  have posts : after.posts.map (·.id) = db.posts.map (·.id) := by
    obtain ⟨post, -, -, -, -, -, -, -, -, -, -, -, -, posts, -⟩ := editPost_ok run
    rw [posts]
    apply map_updateWhere
    exact fun _ => rfl
  refine ⟨?_, posts⟩
  obtain ⟨post, dropped, refs, recorded, bound, collected, -, dropRun, -, revisionRun, boundRun, gcRun, rfl⟩ :=
    editPost_statements run
  obtain ⟨blobs, rfl⟩ := gcOrphanBlobs_frame gcRun
  obtain ⟨blobs, rfl⟩ := persistAttachmentBindings_frame boundRun
  obtain ⟨-, -, rfl⟩ := insertPostRevision_ok.mp revisionRun
  obtain ⟨blobs, rfl⟩ := dropRemoved_frame dropRun
  rfl

theorem retractPost_places {postId : Uuid} {now : Nat} (run : retractPost state sign db user postId now = .ok after) :
    SamePlaces db after := by
  refine ⟨by rw [(retractPost_marks run).1], ?_⟩
  rw [(retractPost_ok run).2.1]
  apply map_updateWhere
  exact fun _ => rfl

theorem applyOneMove_places {wire : Bytes} {nowMs : Nat} {status : MoveStatus}
    (run : applyOneMove state db wire nowMs = .ok (status, after)) : SamePlaces db after := by
  rcases applyOneMove_ok run with ⟨rfl, -, -⟩ | ⟨payload, signature, m, -, -, -, -, -, single, committed⟩
  · exact .refl
  · obtain ⟨-, rfl⟩ := commitMove_moved single committed
    exact ⟨rfl, rfl⟩

theorem mutateTrustEdge_places {signEdge : TrustEdge → Bytes × Bytes} {target : Key} {call : TrustCall}
    {signed : SignedMutation} (run : mutateTrustEdge state signEdge db user target call = .ok (signed, after)) :
    SamePlaces db after := by
  obtain ⟨-, -, -, nowIso, written, -, writes, erases⟩ := mutateTrustEdge_writes run
  obtain rfl := writeTrustEdge_ok writes
  rcases erases with rfl | ⟨-, erases⟩
  · exact ⟨rfl, rfl⟩
  · rw [erasePayloads_frame erases]
    exact ⟨rfl, rfl⟩

theorem sweepStaging_places {expired : AttachmentStagingRow → Bool} (run : sweepStaging db expired = .ok after) :
    SamePlaces db after := by
  obtain ⟨blobs, rfl⟩ := gcOrphanBlobs_frame run
  exact ⟨rfl, rfl⟩

theorem uploadAttachment_places {ref : AttachmentRef} (run : uploadAttachment db user ref = .ok after) :
    SamePlaces db after := by
  simp only [uploadAttachment, require_bind_ok] at run
  obtain ⟨-, run⟩ := run
  cases run
  exact ⟨rfl, rfl⟩

theorem completeLocalUserBirth_places {birth : LocalUserBirth} (run : completeLocalUserBirth state db birth = .ok after) :
    SamePlaces db after := by
  simp only [completeLocalUserBirth, require_bind_ok] at run
  obtain ⟨-, -, run⟩ := run
  cases run
  exact ⟨rfl, rfl⟩

theorem seedTrustCode_places (code : TrustCode) : SamePlaces db (seedTrustCode state db code) := by
  unfold seedTrustCode
  split
  · exact .refl
  · exact ⟨rfl, rfl⟩

theorem writeThread_keyed (run : writeThread state sign db user req = .ok after) :
    hasActiveKey db user = true := by
  obtain ⟨threaded, opened, -, -, -, threadRun, postRun, -, keyed, -⟩ := writeThread_statements run
  obtain ⟨-, -, -, rfl⟩ := insertThread_ok.mp threadRun
  obtain ⟨-, -, -, -, rfl⟩ := insertPost_ok.mp postRun
  exact keyed

theorem stampThread_places {threadId : Uuid} {hash : Hash} :
    (stampThread db threadId hash).threads.map ThreadRow.place = db.threads.map ThreadRow.place := by
  apply map_updateWhere
  exact fun _ => rfl

theorem Unrevived.createThread (gone : Unrevived graves db)
    (away : (isAnnouncements req.room && !req.isAdmin) = false → db.hasUser user = true → hasActiveKey db user = true →
      db.hasThread req.threadId = false → db.hasPost req.postId = false →
        req.room ∉ graves.rooms ∧ req.threadId ∉ graves.threads ∧ req.postId ∉ graves.posts) :
    Unrevived graves (createThread state sign db user req).2 := by
  unfold Prismoire.createThread
  split
  · exact gone
  · rename_i permitted
    split
    · exact gone
    · rename_i roomed roomRun
      obtain ⟨rooms, rfl⟩ := getOrCreateRoom_frame roomRun
      split
      · exact ⟨gone.threads, gone.posts⟩
      · rename_i final run
        obtain ⟨fresh, ⟨hash, threads⟩, posts⟩ := writeThread_tables run
        obtain ⟨opened, refs, row, unposted, known, -⟩ := writeThread_ok run
        have keyed := writeThread_keyed run
        obtain ⟨room, thread, post⟩ := away (by simpa using permitted) known keyed fresh unposted
        let threaded : Db := { db with
          threads := db.threads ++ [localThreadRow state (req.thread user)] }
        have added : Unrevived graves threaded := by
          refine ⟨fun row mem => ?_, gone.posts⟩
          rcases mem_concat.mp mem with old | new
          · exact gone.threads row old
          · rw [new]
            exact ⟨room, thread⟩
        refine added.addPost ?_ posts post
        rw [threads]
        exact stampThread_places

theorem Unrevived.createReply {req : ReplyRequest} (gone : Unrevived graves db)
    (away : ∀ thread ∈ db.threads, ReplyPasses db user req thread → req.postId ∉ graves.posts)
    (run : createReply state sign db user req = .ok after) : Unrevived graves after := by
  obtain ⟨⟨thread, passes⟩, threads, posts⟩ := createReply_passes run
  refine gone.addPost ?_ posts (away thread (mem_of_find?_eq_some passes.2.1) passes)
  rw [threads]
  apply map_updateWhere
  exact fun _ => rfl

section

variable (gone : Unrevived store.graves store.db) (kept : RoomsKept state (fun _ => True) store.db)
include gone kept

theorem Unrevived.deleteRoom {final : RoomStore} {req : DeleteRoomRequest} (run : deleteRoom store req = .ok final) :
    Unrevived final.graves final.db := by
  obtain ⟨erased, graves⟩ := deleteRoom_ok run
  have ints := kept.integrity
  obtain ⟨unbound, postsFts, threadsFts, -, removed, -⟩ := eraseRoom_ok kept.threaded ints.postIds erased
  rw [graves, removed]
  constructor
  · intro row mem
    obtain ⟨inThreads, elsewhere⟩ := mem_filter.mp mem
    have elsewhere := of_decide_eq_true elsewhere
    have away := gone.threads row inThreads
    constructor
    · exact not_mem_cons_of_ne_of_not_mem elsewhere away.1
    · intro buried
      rcases mem_append.mp buried with now | before
      · obtain ⟨other, isDoomed, same⟩ := mem_map.mp now
        obtain ⟨inDb, here⟩ := mem_filter.mp isDoomed
        rw [ints.threadIds.eq inDb inThreads same] at here
        exact elsewhere (of_decide_eq_true here)
      · exact away.2 before
  · intro row mem buried
    obtain ⟨inPosts, outside⟩ := mem_filter.mp mem
    rcases mem_append.mp buried with now | before
    · obtain ⟨other, isDoomed, same⟩ := mem_map.mp now
      obtain ⟨inDb, here⟩ := mem_filter.mp isDoomed
      rw [ints.postIds.eq inDb inPosts same] at here
      simp [here] at outside
    · exact gone.posts row inPosts before

theorem Unrevived.apply (lasting : event.Lasting state store) :
    Unrevived (store.apply state event).graves (store.apply state event).db := by
  have commits : ∀ {ε : Type} {written : Except ε Db}, (∀ db, written = .ok db → Unrevived store.graves db) →
      Unrevived (store.commit written).graves (store.commit written).db := by
    intro ε written writes
    cases written with
    | ok db => exact writes db rfl
    | error => exact gone
  cases event with
  | deliver wire arrivedFrom => exact gone.deliverObject kept.sound (fun _ _ _ => trivial) lasting
  | createThread sign user req => exact gone.createThread lasting
  | createReply sign user req => exact commits fun db run => gone.createReply lasting run
  | editPost sign user req => exact commits fun db run => gone.of_places (editPost_places run)
  | retractPost sign user postId now => exact commits fun db run => gone.of_places (retractPost_places run)
  | uploadAttachment user ref => exact commits fun db run => gone.of_places (uploadAttachment_places run)
  | sweepStaging expired => exact commits fun db run => gone.of_places (sweepStaging_places run)
  | birth born => exact commits fun db run => gone.of_places (completeLocalUserBirth_places run)
  | seedTrustCode code => exact gone.of_places (seedTrustCode_places code)
  | edge wire peer =>
    exact gone.of_places (deliverEdge_effects kept.sound.toEdgeSound fun _ _ _ => trivial).samePlaces
  | move wire nowMs =>
    refine commits fun db mapped => ?_
    obtain ⟨status, run⟩ := map_snd_ok mapped
    exact gone.of_places (applyOneMove_places run)
  | trust sign user target call =>
    refine commits fun db mapped => ?_
    obtain ⟨mutation, run⟩ := map_snd_ok mapped
    exact gone.of_places (mutateTrustEdge_places run)
  | peers rows => exact ⟨gone.threads, gone.posts⟩
  | deleteRoom req =>
    simp only [RoomStore.apply]
    split
    · rename_i final run
      exact gone.deleteRoom kept run
    · exact gone

end

theorem Unrevived.empty : Unrevived {} {} :=
  ⟨by simp, by simp⟩

end

/-- In every run, the deletion of a live room goes through exactly when no post of another room answers one of this room,
and then it leaves nothing of the room. Where nothing that is written brings a room or a removed id back, neither has a row
again. -/
theorem deleted_rooms_stay (state : AppState) (events : List RoomEvent)
    (signed : MeetAlong (RoomStore.apply state) (fun store event => event.Signed state store) {} events) :
    let store := events.foldl (RoomStore.apply state) {}
    (∀ req : DeleteRoomRequest, req.Proper store →
      ((∃ final, deleteRoom store req = .ok final) ↔ AnsweredWithin store.db req.room)) ∧
    (∀ req final, deleteRoom store req = .ok final → (∀ thread ∈ final.db.threads, thread.room ≠ req.room) ∧
      final.db.posts = store.db.posts.filter fun post => !inRoom store.db.threads req.room post) ∧
    (MeetAlong (RoomStore.apply state) (fun store event => event.Lasting state store) {} events →
      Unrevived store.graves store.db) := by
  have keeps : ∀ (store : RoomStore) (event : RoomEvent), RoomsKept state (fun _ => True) store.db →
      event.Signed state store → RoomsKept state (fun _ => True) (store.apply state event).db :=
    fun _ _ kept meets => kept.apply meets
  have kept := signed.invariant keeps RoomsKept.empty
  refine ⟨fun req proper => ?_, fun req final run => ?_, fun lasting => ?_⟩
  · rw [deleteRoom_proper proper]
    exact kept.eraseRoom_iff
  · obtain ⟨erased, -⟩ := deleteRoom_ok run
    obtain ⟨unbound, postsFts, threadsFts, -, removed, -⟩ := eraseRoom_ok kept.threaded kept.integrity.postIds erased
    rw [removed]
    exact ⟨fun thread mem => of_decide_eq_true (mem_filter.mp mem).2, rfl⟩
  · have both := signed.and lasting
    have stays : ∀ (store : RoomStore) (event : RoomEvent),
        RoomsKept state (fun _ => True) store.db ∧ Unrevived store.graves store.db →
        event.Signed state store ∧ event.Lasting state store →
        RoomsKept state (fun _ => True) (store.apply state event).db ∧
          Unrevived (store.apply state event).graves (store.apply state event).db :=
      fun _ _ inv meets => ⟨inv.1.apply meets.1, inv.2.apply inv.1 meets.2⟩
    exact (both.invariant stays ⟨.empty, .empty⟩).2

/-- User 5 is at home here; user 6 of another instance posts in the same room and, in a thread of another room, answers a
post of it. -/
def roomTable : List SignedPayload :=
  [.profileRevision ⟨5, "e", "", none, 1000, none⟩,
    .move ⟨5, none, none, 9, "here", 1000, 1000, ⟨5, 1000, 9, []⟩, none⟩,
    .threadCreate ⟨10, 5, "room", "title", none, 20, 2000⟩,
    .postRevision ⟨20, 5, 10, none, 0, "op", 2000, [], noRefs⟩,
    .profileRevision ⟨6, "f", "", none, 1000, none⟩, .threadCreate ⟨11, 6, "room", "far", none, 30, 3000⟩,
    .postRevision ⟨30, 6, 11, none, 0, "op", 3000, [], noRefs⟩,
    .postRevision ⟨31, 6, 11, some 30, 0, "reply", 4000, [], noRefs⟩,
    .threadCreate ⟨12, 6, "other", "far", none, 32, 5000⟩,
    .postRevision ⟨32, 6, 12, some 30, 0, "across", 6000, [], noRefs⟩,
    .profileRevision ⟨6, "f", "bio", none, 7000, none⟩, .threadCreate ⟨13, 5, "room", "again", none, 23, 8000⟩,
    .postRevision ⟨23, 5, 13, none, 0, "again", 8000, [], noRefs⟩]

def roomState : AppState :=
  AppState.ofTable roomTable

def signRoom : Signer :=
  signByTable roomTable

def roomBirth : LocalUserBirth :=
  ⟨5, "e", "e", .invite, 1000, "here", ⟨5, 1000, 9, []⟩, ⟨[0], List.replicate 64 0⟩, ⟨[1], List.replicate 64 0⟩⟩

def roomDeletion : DeleteRoomRequest :=
  ⟨true, "room", "spam", "room"⟩

def roomThreads : List RoomEvent :=
  [.birth roomBirth, .createThread signRoom 5 ⟨"room", "title", "op", none, [], false, 2, 10, 20⟩,
    .deliver [4] 7, .deliver [5] 7, .deliver [6] 7, .deliver [7] 7]

def roomGoes : List RoomEvent :=
  [.deleteRoom roomDeletion, .deliver [6] 7, .deliver [8] 7]

theorem roomThreads_signed :
    MeetAlong (RoomStore.apply roomState) (fun store event => event.Signed roomState store) {} (roomThreads ++ roomGoes) := by
  have filed : ∀ i : Fin 4, Filed roomState.platform (fun _ => True) [UInt8.ofNat i] (List.replicate 64 0)
      (roomTable.get ⟨i, by decide +revert⟩) := by
    intro i
    refine ⟨trivial, ?_, 5, ?_⟩
    · revert i
      decide
    · revert i
      decide
  refine ⟨⟨filed 0, _, filed 1⟩, ⟨?_, filed 2⟩, trivial, trivial, trivial, trivial, trivial, trivial, trivial, trivial⟩
  rintro ⟨refs, fits⟩ same
  obtain rfl : refs = [] := same
  exact filed 3

theorem deleted_room_stays :
    let store := (roomThreads ++ roomGoes).foldl (RoomStore.apply roomState) {}
    store.graves.rooms = ["room"] ∧ store.graves.posts = [20, 30, 31] ∧ store.db.threads.map (·.id) = [12] ∧
      Unrevived store.graves store.db :=
  ⟨by decide +kernel, by decide +kernel, by decide +kernel,
    (deleted_rooms_stay roomState _ roomThreads_signed).2.2 (by decide +kernel)⟩

/-- An answer in another room makes the deletion fail. Where it goes through, a local thread lands in the deleted room, and a
profile brings a removed thread back with its posts. -/
theorem deleted_room_revived :
    let crossed : RoomStore := (roomThreads ++ [RoomEvent.deliver [8] 7, RoomEvent.deliver [9] 7]).foldl (RoomStore.apply roomState) {}
    let store : RoomStore := (roomThreads ++ [RoomEvent.deleteRoom roomDeletion]).foldl (RoomStore.apply roomState) {}
    let again : RoomStore := store.apply roomState (.createThread signRoom 5 ⟨"room", "again", "again", none, [], false, 8, 13, 23⟩)
    let back : RoomStore := store.apply roomState (.deliver [10] 7)
    roomDeletion.Proper crossed ∧ deleteRoom crossed roomDeletion = .error (.sql .foreignKey) ∧
      store.graves.rooms = ["room"] ∧ store.db.threads = [] ∧ store.db.posts = [] ∧
      again.db.threads.map (fun thread => (thread.id, thread.room)) = [(13, "room")] ∧
      store.graves.threads = [10, 11] ∧ store.graves.posts = [20, 30, 31] ∧
      back.db.threads.map (fun thread => (thread.id, thread.room)) = [(11, "room")] ∧
      back.db.posts.map (·.id) = [30, 31] :=
  ⟨⟨rfl, by decide, by decide +kernel, by decide +kernel, by decide⟩, by decide +kernel, by decide +kernel,
    by decide +kernel, by decide +kernel, by decide +kernel, by decide +kernel, by decide +kernel, by decide +kernel,
    by decide +kernel⟩

end Prismoire
