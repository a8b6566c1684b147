import Prismoire.IngestTotality
import Prismoire.LocalIngest
import Prismoire.ThreadColumns

namespace Prismoire

open Lib Relation List Db

def ThreadRow.mark (thread : ThreadRow) : ThreadMark :=
  ⟨thread.id, thread.createdAt, thread.replyCount, thread.lastActivity⟩

def PostRow.mark (post : PostRow) : PostMark :=
  ⟨post.thread, post.parent.isSome, post.author, post.createdAt⟩

structure ThreadStore where
  db : Db
  repliers : List RecentReplierRow := []

def ThreadStore.board (store : ThreadStore) : Board where
  threads := store.db.threads.map ThreadRow.mark
  posts := store.db.posts.map PostRow.mark
  repliers := store.repliers

def ThreadStore.blank (others : Db) : ThreadStore where
  db := { others with
    threads := []
    posts := [] }

def createRankedReply (state : AppState) (sign : Signer) (order : RowOrder) (store : ThreadStore)
    (user : Key) (req : ReplyRequest) : Posting ThreadStore := do
  let db ← createReply state sign store.db user req
  let repliers ← runSql (pushReplier order store.repliers req.threadId user
    (iso8601FromMs state.platform (req.now * 1000)))
  return { db, repliers }

/-- The sweeps are runs of the two projections. -/
inductive ColumnEvent
  | createThread (sign : Signer) (user : Key) (req : ThreadRequest)
  | createReply (sign : Signer) (user : Key) (req : ReplyRequest)
  | retractPost (sign : Signer) (user : Key) (postId : Uuid) (now : Nat)
  | threadCreate (t : ThreadCreate) (hash : Hash) (arrivedFrom : Key)
  | postRevision (p : PostRevision) (signature : Bytes) (hash : Hash) (arrivedFrom : Key)
  | elsewhere (others : Db)

def ThreadStore.apply (state : AppState) (order : RowOrder) (store : ThreadStore) : ColumnEvent → ThreadStore
  | .createThread sign user req => { store with db := (Prismoire.createThread state sign store.db user req).2 }
  | .createReply sign user req =>
    match createRankedReply state sign order store user req with
    | .ok after => after
    | .error _ => store
  | .retractPost sign user postId now =>
    match Prismoire.retractPost state sign store.db user postId now with
    | .ok db => { store with db }
    | .error _ => store
  | .threadCreate t hash arrivedFrom =>
    match projectRemoteThreadCreate state store.db t hash arrivedFrom with
    | .ok (_, db) => { store with db }
    | .error _ => store
  | .postRevision p signature hash arrivedFrom =>
    match projectRemotePostRevision state store.db p signature hash arrivedFrom with
    | .ok (_, db) => { store with db }
    | .error _ => store
  | .elsewhere others =>
    { store with db := { others with
      threads := store.db.threads
      posts := store.db.posts } }

/-- What `create_reply` checks. -/
def ReplyPasses (db : Db) (user : Key) (req : ReplyRequest) (thread : ThreadRow) : Prop :=
  req.attachments = [] ∧ db.threads.find? (·.id = req.threadId) = some thread ∧ thread.locked = false ∧
    (db.posts.find? (·.id = req.parentId)).any (fun parent => parent.thread = req.threadId && !parent.retracted) = true ∧
    hasActiveKey db user = true ∧ db.hasPost req.postId = false ∧ db.hasUser user = true

instance {db : Db} {user : Key} {req : ReplyRequest} : DecidablePred (ReplyPasses db user req) :=
  fun _ => inferInstanceAs (Decidable (_ ∧ _ ∧ _ ∧ _ ∧ _ ∧ _ ∧ _))

def OpensHere (state : AppState) (db : Db) (p : PostRevision) (arrivedFrom : Key) : Prop :=
  p.revision = 0 ∧ isLocalAuthoritative state db p.author arrivedFrom = false ∧ db.hasUser p.author = true ∧
    db.hasThread p.threadId = true ∧ p.parentId.all db.hasPost = true ∧ db.hasPost p.postId = false ∧
    (p.attachments.map (·.contentHash)).Nodup

instance {state : AppState} {db : Db} {p : PostRevision} {arrivedFrom : Key} :
    Decidable (OpensHere state db p arrivedFrom) :=
  inferInstanceAs (Decidable (_ ∧ _ ∧ _ ∧ _ ∧ _ ∧ _ ∧ _))

/-- Local replies come no earlier than what their thread has seen, and remote posts are openings that come no later. -/
def ColumnEvent.InOrder (state : AppState) (store : ThreadStore) : ColumnEvent → Prop
  | .createReply _ user req => ∀ thread ∈ store.db.threads, ReplyPasses store.db user req thread →
    thread.lastActivity ≤ iso8601FromMs state.platform (req.now * 1000)
  | .postRevision p _ _ arrivedFrom => OpensHere state store.db p arrivedFrom → p.parentId = none ∧
    ∀ thread ∈ store.db.threads, thread.id = p.threadId →
      iso8601FromMs state.platform p.createdAt ≤ thread.lastActivity
  | _ => True

instance {state : AppState} {store : ThreadStore} : DecidablePred (ColumnEvent.InOrder state store) := fun event => by
  cases event <;> unfold ColumnEvent.InOrder <;> infer_instance

section

variable {state : AppState} {sign : Signer} {order : RowOrder} {store after : ThreadStore}
  {db final : Db} {user : Key} {arrivedFrom : Key}

variable {threadId : Uuid} {hash : Hash} {req : ThreadRequest} {p : PostRevision} {signature : Bytes}
  {outcome : ProjectionOutcome}

theorem stampThread_marks :
    (stampThread db threadId hash).threads.map ThreadRow.mark = db.threads.map ThreadRow.mark := by
  apply map_updateWhere
  exact fun _ => rfl

theorem writeThread_tables (run : writeThread state sign db user req = .ok final) :
    db.hasThread req.threadId = false ∧ (∃ hash, final.threads = (stampThread { db with
        threads := db.threads ++ [localThreadRow state (req.thread user)] } req.threadId hash).threads) ∧
      final.posts = db.posts ++ [localPostRow state (req.opening user ⟨[], by decide⟩)] := by
  obtain ⟨threaded, opened, refs, recorded, bound, threadRun, postRun, -, -, revisionRun, boundRun, rfl⟩ :=
    writeThread_statements run
  obtain ⟨fresh, -, -, rfl⟩ := insertThread_ok.mp threadRun
  obtain ⟨-, -, -, -, rfl⟩ := insertPost_ok.mp postRun
  obtain ⟨-, -, rfl⟩ := insertPostRevision_ok.mp revisionRun
  obtain ⟨blobs, rfl⟩ := persistAttachmentBindings_frame boundRun
  exact ⟨fresh, ⟨_, rfl⟩, rfl⟩

theorem writeThread_marks (run : writeThread state sign db user req = .ok final) : db.hasThread req.threadId = false ∧
      final.threads.map ThreadRow.mark = db.threads.map ThreadRow.mark ++
        [(localThreadRow state (req.thread user)).mark] ∧
      final.posts = db.posts ++ [localPostRow state (req.opening user ⟨[], by decide⟩)] := by
  obtain ⟨fresh, ⟨hash, threads⟩, posts⟩ := writeThread_tables run
  exact ⟨fresh, threads ▸ stampThread_marks.trans map_append, posts⟩

theorem createReply_passes {req : ReplyRequest} (run : createReply state sign db user req = .ok final) :
    (∃ thread, ReplyPasses db user req thread) ∧
      final.threads = (touchThread db req.threadId (iso8601FromMs state.platform (req.now * 1000))).threads ∧
      final.posts = db.posts ++ [localPostRow state (req.reply user)] := by
  unfold createReply at run
  split at run
  · cases run
  · rename_i unattached
    split at run
    · cases run
    · rename_i thread found
      split at run
      · cases run
      · rename_i unlocked
        split at run
        · cases run
        · rename_i parent parented
          split at run
          · cases run
          · rename_i inThread
            split at run
            · cases run
            · rename_i standing
              obtain ⟨keyed, run⟩ := ensure_bind_ok.mp run
              obtain ⟨opened, postRun, run⟩ := bind_ok.mp run
              obtain ⟨recorded, revisionRun, run⟩ := bind_ok.mp run
              cases run
              rw [runSql_ok] at postRun revisionRun
              obtain ⟨fresh, known, -, -, rfl⟩ := insertPost_ok.mp postRun
              obtain ⟨-, -, rfl⟩ := insertPostRevision_ok.mp revisionRun
              refine ⟨⟨thread, by simpa using unattached, found, by simpa using unlocked, ?_, keyed, fresh, known⟩, rfl, rfl⟩
              rw [parented, Option.any_some, not_not.mp inThread]
              simpa using standing

theorem projectPostAttachments_apart {id : Uuid} {revision : Nat} {refs : List (AttachmentRef × Nat)}
    (run : refs.foldlM (projectPostAttachment id revision) db = .ok final) :
    (refs.map (·.1.contentHash)).Nodup ∧ ∀ ref ∈ refs, ∀ row ∈ db.postAttachments, row.postId = id →
      row.revision = revision → row.contentHash ≠ ref.1.contentHash := by
  induction refs generalizing db with
  | nil => simp
  | cons ref refs ih =>
    rw [foldlM_cons] at run
    obtain ⟨next, bound, rest⟩ := bind_ok.mp run
    obtain ⟨-, free, -, -, rfl⟩ := insertPostAttachment_ok.mp bound
    obtain ⟨apart, later⟩ := ih rest
    refine ⟨nodup_cons.mpr ⟨?_, apart⟩, ?_⟩
    · intro again
      obtain ⟨other, inRefs, same⟩ := mem_map.mp again
      exact later other inRefs _ (mem_append_right _ mem_cons_self) rfl rfl same.symm
    · intro other mem row inRows samePost sameRevision
      rcases mem_cons.mp mem with rfl | inRefs
      · exact (free row inRows samePost sameRevision).2
      · exact later other inRefs row (mem_append_left _ inRows) samePost sameRevision

section

variable (run : projectRemotePostRevision state db p signature hash arrivedFrom = .ok (outcome, final))
include run

theorem projectRemotePostRevision_tables : final.threads = db.threads ∧ (final.posts = db.posts ∨
      (∃ count, final.posts = (db.raiseRevisionCount p.postId count).posts) ∨
      OpensHere state db p arrivedFrom ∧ final.posts = db.posts ++ [remotePostRow state db p arrivedFrom]) := by
  obtain ⟨rfl, -⟩ | ⟨-, foreign, known, opened, recorded, opening, recordedRun, boundRun⟩ := projectRemotePostRevision_ok run
  · exact ⟨rfl, .inl rfl⟩
  · obtain ⟨-, -, rfl⟩ := insertPostRevision_ok.mp recordedRun
    have apart := (projectPostAttachments_apart boundRun).1
    obtain ⟨attachments, blobs, rfl⟩ := projectPostAttachments_frame boundRun
    rcases opening with ⟨first, openedRun⟩ | ⟨-, -, rfl⟩
    · obtain ⟨fresh, -, threaded, parented, rfl⟩ := insertPost_ok.mp openedRun
      refine ⟨rfl, .inr (.inr ⟨⟨first, foreign, known, threaded, parented, fresh, ?_⟩, rfl⟩)⟩
      rw [← zipIdx_map_fst 0 p.attachments, List.map_map]
      exact apart
    · exact ⟨rfl, .inr (.inl ⟨_, rfl⟩)⟩

theorem projectRemotePostRevision_marks :
    final.threads = db.threads ∧ (final.posts.map PostRow.mark = db.posts.map PostRow.mark ∨
      OpensHere state db p arrivedFrom ∧ final.posts = db.posts ++ [remotePostRow state db p arrivedFrom]) := by
  obtain ⟨threads, same | ⟨count, raised⟩ | opens⟩ := projectRemotePostRevision_tables run
  · exact ⟨threads, .inl (by rw [same])⟩
  · refine ⟨threads, .inl ?_⟩
    rw [raised]
    apply map_updateWhere
    exact fun _ => rfl
  · exact ⟨threads, .inr opens⟩

end

theorem touchThread_marks {at' : Text} :
    (touchThread db threadId at').threads.map ThreadRow.mark = updateWhere (·.id = threadId)
      (fun mark => { mark with replyCount := mark.replyCount + 1, lastActivity := at' })
      (db.threads.map ThreadRow.mark) := by
  simp only [touchThread, updateWhere, List.map_map]
  refine map_congr_left fun thread _ => ?_
  by_cases hit : thread.id = threadId
  · simp [hit, ThreadRow.mark]
  · simp [hit, ThreadRow.mark]

theorem board_same (threads : final.threads.map ThreadRow.mark = store.db.threads.map ThreadRow.mark)
    (posts : final.posts.map PostRow.mark = store.db.posts.map PostRow.mark) :
    ({ store with db := final } : ThreadStore).board = store.board := by
  simp only [ThreadStore.board, threads, posts]

theorem getOrCreateRoom_threads {slug : Text} (run : getOrCreateRoom db slug user = .ok final) :
    final.threads = db.threads := by
  obtain ⟨rooms, rfl⟩ := getOrCreateRoom_frame run
  rfl

theorem board_unthreaded (fresh : store.db.hasThread threadId = false) :
    ∀ mark ∈ store.board.threads, mark.id ≠ threadId := by
  intro mark mem same
  obtain ⟨thread, inThreads, rfl⟩ := mem_map.mp mem
  have taken : store.db.hasThread threadId = true := any_eq_true.mpr ⟨thread, inThreads, decide_eq_true same⟩
  exact Bool.false_ne_true (fresh.symm.trans taken)

theorem createThread_steps : ReflTransGen (Board.Step order) store.board
      ({ store with db := (createThread state sign store.db user req).2 } : ThreadStore).board := by
  unfold createThread
  split
  · exact .refl
  · split
    · exact .refl
    · rename_i roomed roomRun
      have threads := getOrCreateRoom_threads roomRun
      have posts := (getOrCreateRoom_sameContent roomRun).posts
      split
      · have kept : ({ store with db := roomed } : ThreadStore).board = store.board :=
          board_same (by rw [threads]) (by rw [posts])
        rw [kept]
      · rename_i final run
        obtain ⟨fresh, threaded, opened⟩ := writeThread_marks run
        rw [hasThread, threads] at fresh
        rw [threads] at threaded
        rw [posts] at opened
        have thread : Board.Step order store.board { store.board with
            threads := store.board.threads ++ [(localThreadRow state (req.thread user)).mark] } :=
          .thread req.threadId _ (board_unthreaded fresh)
        refine .tail (.single thread) ?_
        have mark : (localPostRow state (req.opening user ⟨[], by decide⟩)).mark ∈ final.posts.map PostRow.mark := by
          rw [opened]
          simp
        have after : ({ store with db := final } : ThreadStore).board = {
            threads := store.board.threads ++ [(localThreadRow state (req.thread user)).mark]
            posts := store.board.posts ++ [(localPostRow state (req.opening user ⟨[], by decide⟩)).mark]
            repliers := store.repliers } := by
          simp only [ThreadStore.board, threaded, opened, map_append, map_cons, map_nil]
        rw [after]
        exact .root _ rfl ⟨_, mem_append_right _ mem_cons_self, rfl, le_refl _⟩

theorem createReply_steps {req : ReplyRequest} (run : createRankedReply state sign order store user req = .ok after)
    (ordered : ∀ thread ∈ store.db.threads, ReplyPasses store.db user req thread →
      thread.lastActivity ≤ iso8601FromMs state.platform (req.now * 1000)) :
    Board.Step order store.board after.board := by
  obtain ⟨final, replied, rest⟩ := bind_ok.mp run
  obtain ⟨repliers, pushed, returned⟩ := bind_ok.mp rest
  cases returned
  rw [runSql_ok] at pushed
  obtain ⟨⟨thread, passes⟩, threads, posts⟩ := createReply_passes replied
  have found := passes.2.1
  have named : thread.id = req.threadId := by simpa using find?_some found
  have inThreads := mem_of_find?_eq_some found
  have late := ordered thread inThreads passes
  have after : ({ db := final, repliers } : ThreadStore).board = {
      threads := updateWhere (·.id = req.threadId) (fun mark => { mark with
        replyCount := mark.replyCount + 1, lastActivity := iso8601FromMs state.platform (req.now * 1000) })
        store.board.threads
      posts := store.board.posts ++ [⟨req.threadId, true, user, iso8601FromMs state.platform (req.now * 1000)⟩]
      repliers } := by
    simp only [ThreadStore.board, threads, touchThread_marks, posts, map_append]
    rfl
  rw [after]
  exact .reply req.threadId user _ ⟨thread.mark, mem_map_of_mem inThreads, named, late⟩ pushed

variable {t : ThreadCreate} {event : ColumnEvent} {others : Db}

section

variable (run : projectRemoteThreadCreate state db t hash arrivedFrom = .ok (outcome, final))
include run

theorem projectRemoteThreadCreate_tables : (final = db ∧ outcome ≠ .projected) ∨
      isLocalAuthoritative state db t.author arrivedFrom = false ∧ db.hasUser t.author = true ∧
      db.hasThread t.threadId = false ∧
      ∃ roomed threadsFts, getOrCreateRoom db t.roomSlug t.author = .ok roomed ∧ final = { roomed with
        threads := db.threads ++ [remoteThreadRow state roomed t hash arrivedFrom]
        threadsFts := threadsFts } := by
  obtain same | ⟨foreign, known, roomed, roomRun, inserted⟩ := projectRemoteThreadCreate_ok run
  · exact .inl same
  · have threads := getOrCreateRoom_threads roomRun
    obtain ⟨fresh, -, -, rfl⟩ := insertThread_ok.mp inserted
    rw [hasThread, threads] at fresh
    rw [threads]
    exact .inr ⟨foreign, known, fresh, roomed, _, roomRun, rfl⟩

theorem projectRemoteThreadCreate_marks :
    final.posts = db.posts ∧ (final.threads = db.threads ∨ db.hasThread t.threadId = false ∧
      final.threads.map ThreadRow.mark = db.threads.map ThreadRow.mark ++ [⟨t.threadId,
        iso8601FromMs state.platform t.createdAt, 0, iso8601FromMs state.platform t.createdAt⟩]) := by
  refine ⟨(projectRemoteThreadCreate_sameContent run).posts, ?_⟩
  obtain ⟨rfl, -⟩ | ⟨-, -, fresh, roomed, threadsFts, -, rfl⟩ := projectRemoteThreadCreate_tables run
  · exact .inl rfl
  · exact .inr ⟨fresh, map_append⟩

end

theorem retractPost_marks {postId : Uuid} {now : Nat} (run : retractPost state sign db user postId now = .ok final) :
    final.threads = db.threads ∧ final.posts.map PostRow.mark = db.posts.map PostRow.mark := by
  constructor
  · obtain ⟨unbound, collected, unboundRun, gcRun, run⟩ := retractPost_statements run
    rw [erasePayloads_frame run]
    obtain ⟨blobs, rfl⟩ := gcOrphanBlobs_frame gcRun
    obtain ⟨blobs, rfl⟩ := deletePostAttachments_frame unboundRun
    rfl
  · rw [(retractPost_ok run).2.1]
    apply map_updateWhere
    exact fun _ => rfl

theorem apply_steps (ordered : event.InOrder state store) :
    ReflTransGen (Board.Step order) store.board (store.apply state order event).board := by
  cases event with
  | elsewhere others => exact .refl
  | createThread sign user req => exact createThread_steps
  | createReply sign user req =>
    simp only [ThreadStore.apply]
    split
    · rename_i after run
      exact .single (createReply_steps run ordered)
    · exact .refl
  | retractPost sign user postId now =>
    simp only [ThreadStore.apply]
    split
    · rename_i final run
      obtain ⟨threads, posts⟩ := retractPost_marks run
      have kept : ({ store with db := final } : ThreadStore).board = store.board := board_same (by rw [threads]) posts
      rw [kept]
    · exact .refl
  | threadCreate t hash arrivedFrom =>
    simp only [ThreadStore.apply]
    split
    · rename_i outcome final run
      obtain ⟨posts, threads | ⟨fresh, threads⟩⟩ := projectRemoteThreadCreate_marks run
      · have kept : ({ store with db := final } : ThreadStore).board = store.board :=
          board_same (by rw [threads]) (by rw [posts])
        rw [kept]
      · have after : ({ store with db := final } : ThreadStore).board = { store.board with
            threads := store.board.threads ++ [⟨t.threadId,
              iso8601FromMs state.platform t.createdAt, 0, iso8601FromMs state.platform t.createdAt⟩] } := by
          simp only [ThreadStore.board, threads, posts]
        rw [after]
        exact .single (.thread t.threadId _ (board_unthreaded fresh))
    · exact .refl
  | postRevision p signature hash arrivedFrom =>
    simp only [ThreadStore.apply]
    split
    · rename_i outcome final run
      obtain ⟨threads, same | ⟨opens, posts⟩⟩ := projectRemotePostRevision_marks run
      · have kept : ({ store with db := final } : ThreadStore).board = store.board :=
          board_same (by rw [threads]) same
        rw [kept]
      · obtain ⟨root, dated⟩ := ordered opens
        obtain ⟨thread, inThreads, here⟩ := any_eq_true.mp opens.2.2.2.1
        have after : ({ store with db := final } : ThreadStore).board = { store.board with
            posts := store.board.posts ++ [(remotePostRow state store.db p arrivedFrom).mark] } := by
          simp only [ThreadStore.board, threads, posts, map_append, map_cons, map_nil]
        rw [after]
        exact .single (.root _ (by simp [PostRow.mark, remotePostRow, root]) ⟨thread.mark, mem_map_of_mem inThreads,
          of_decide_eq_true here, dated thread inThreads (of_decide_eq_true here)⟩)
    · exact .refl

theorem apply_ranked (ranked : Ranked store.repliers) : Ranked (store.apply state order event).repliers := by
  cases event with
  | createReply sign user req =>
    simp only [ThreadStore.apply]
    split
    · rename_i after run
      obtain ⟨final, -, rest⟩ := bind_ok.mp run
      obtain ⟨repliers, pushed, returned⟩ := bind_ok.mp rest
      cases returned
      rw [runSql_ok] at pushed
      obtain ⟨after, run, keeps, -⟩ := @pushReplier_ok order _ req.threadId user
        (iso8601FromMs state.platform (req.now * 1000)) ranked
      cases run.symm.trans pushed
      exact keeps
    · exact ranked
  | createThread => exact ranked
  | elsewhere => exact ranked
  | retractPost => simp only [ThreadStore.apply]; split <;> exact ranked
  | threadCreate => simp only [ThreadStore.apply]; split <;> exact ranked
  | postRevision => simp only [ThreadStore.apply]; split <;> exact ranked

theorem run_ranked {events : List ColumnEvent} (ranked : Ranked store.repliers) :
    Ranked (events.foldl (ThreadStore.apply state order) store).repliers := by
  induction events generalizing store with
  | nil => exact ranked
  | cons event events ih => exact ih (apply_ranked ranked)

theorem blank_ranked : Ranked (ThreadStore.blank others).repliers :=
  ⟨nodup_nil, by simp [ThreadStore.blank]⟩

theorem blank_mirrored : (ThreadStore.blank others).board.Mirrored where
  ids := nodup_nil
  posted := by simp [ThreadStore.board, ThreadStore.blank]
  listed := by simp [ThreadStore.board, ThreadStore.blank]
  mirrors := by simp [ThreadStore.board, ThreadStore.blank]

theorem steps_mirrored {board last : Board} (steps : ReflTransGen (Board.Step order) board last)
    (ranked : Ranked board.repliers) (mirrored : board.Mirrored) : Ranked last.repliers ∧ last.Mirrored := by
  induction steps with
  | refl => exact ⟨ranked, mirrored⟩
  | tail _ step ih => exact ⟨step.ranked ih.1, step.mirrored ih.1 ih.2⟩

end

/-- The shift of the ranks succeeds after every run. Where replies are local and come in the order of their times, the
columns of every thread say what its posts are. -/
theorem columns_mirror (state : AppState) (order : RowOrder) (others : Db) (events : List ColumnEvent) :
    let store := events.foldl (ThreadStore.apply state order) (.blank others)
    (∀ threadId replier at', ∃ after, pushReplier order store.repliers threadId replier at' = .ok after) ∧
      (MeetAlong (ThreadStore.apply state order) (fun store event => event.InOrder state store) (.blank others) events →
        ∀ thread ∈ store.db.threads, store.board.Mirrors thread.mark ∧
          ∀ rank, (∃ row ∈ store.repliers, row.threadId = thread.id ∧ row.rank = rank) ↔
            0 ≤ rank ∧ rank < 50 ∧ rank < thread.replyCount) := by
  constructor
  · intro threadId replier at'
    have ranked : Ranked (events.foldl (ThreadStore.apply state order) (.blank others)).repliers :=
      run_ranked blank_ranked
    obtain ⟨after, run, -⟩ := @pushReplier_ok order _ threadId replier at' ranked
    exact ⟨after, run⟩
  · intro ordered thread mem
    have keeps : ∀ (store : ThreadStore) (event : ColumnEvent), Ranked store.repliers ∧ store.board.Mirrored →
        event.InOrder state store → Ranked (store.apply state order event).repliers ∧
          (store.apply state order event).board.Mirrored :=
      fun store event inv meets => steps_mirrored (apply_steps meets) inv.1 inv.2
    have mirrored := ordered.invariant keeps ⟨blank_ranked, blank_mirrored⟩
    have mirrors := mirrored.2.mirrors _ (mem_map_of_mem mem)
    exact ⟨mirrors, mirrors.ranks⟩

def columnTable : List SignedPayload :=
  [.postRevision ⟨20, 1, 10, none, 0, "op", 1000, [], noRefs⟩, .threadCreate ⟨10, 1, "room", "title", none, 20, 1000⟩,
    .postRevision ⟨21, 1, 10, some 20, 0, "reply", 2000, [], noRefs⟩,
    .postRevision ⟨22, 1, 10, some 21, 0, "reply", 3000, [], noRefs⟩, .retraction ⟨21, 1, 4000⟩]

def columnState : AppState :=
  AppState.ofTable columnTable

def signColumn : Signer :=
  signByTable columnTable

def backwards : RowOrder :=
  ⟨List.reverse, reverse_perm⟩

def columnDb : Db where
  users := [⟨1, "a", "a", .invite, none, false⟩, ⟨2, "b", "b", .federated, some 7, false⟩]
  signingKeys := [⟨1, true⟩]
  rooms := [⟨"room", 1, none⟩]

def localThread : List ColumnEvent :=
  [.createThread signColumn 1 ⟨"room", "title", "op", none, [], false, 1, 10, 20⟩,
    .createReply signColumn 1 ⟨10, 20, "reply", [], 2, 21⟩, .createReply signColumn 1 ⟨10, 21, "reply", [], 3, 22⟩,
    .retractPost signColumn 1 21 4]

def remoteThread : List ColumnEvent :=
  [.threadCreate ⟨11, 2, "room", "far", none, 30, 5000⟩ 60 7,
    .postRevision ⟨30, 2, 11, none, 0, "op", 5000, [], noRefs⟩ [] 61 7]

theorem columns_mixed :
    let store := (localThread ++ remoteThread).foldl (ThreadStore.apply columnState backwards) (.blank columnDb)
    store.db.threads.map (·.replyCount) = [2, 0] ∧ ∀ thread ∈ store.db.threads, store.board.Mirrors thread.mark ∧
      ∀ rank, (∃ row ∈ store.repliers, row.threadId = thread.id ∧ row.rank = rank) ↔
        0 ≤ rank ∧ rank < 50 ∧ rank < thread.replyCount :=
  ⟨by decide +kernel, (columns_mirror columnState backwards columnDb _).2 (by decide +kernel)⟩

/-- A reply that federates in is not counted, not listed and not the latest activity. -/
theorem federated_reply_uncounted :
    let store := (remoteThread ++ [ColumnEvent.postRevision ⟨31, 2, 11, some 30, 0, "reply", 6000, [], by decide⟩ [] 62 7]).foldl
      (ThreadStore.apply columnState backwards) (.blank columnDb)
    (store.db.posts.filter fun post => post.thread = 11 && post.parent.isSome).length = 1 ∧
      store.db.threads.map (fun thread => (thread.id, thread.replyCount, thread.lastActivity)) = [(11, 0, "00005")] ∧
      (∃ post ∈ store.db.posts, post.thread = 11 ∧ "00005" < post.createdAt) ∧ store.repliers = [] := by
  decide +kernel

end Prismoire
