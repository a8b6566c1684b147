import Prismoire.AdminRemovals
import Prismoire.Lib.Forest

namespace Prismoire

open Lib List Db

inductive RoomError where
  | notAdmin
  | reasonRequired
  | roomNotFound
  | roomAlreadyDeleted
  | confirmationMismatch
  | sql (violated : SqlError)
  deriving DecidableEq

/-- The room of the path, and the body of the request. -/
structure DeleteRoomRequest where
  isAdmin : Bool
  room : Text
  reason : Text
  confirmSlug : Text

/-- The rooms with a `deleted_at`, and the ids of what their deletions removed. -/
structure Graves where
  rooms : List Text := []
  threads : List Uuid := []
  posts : List Uuid := []
  deriving DecidableEq

structure RoomStore where
  db : Db := {}
  graves : Graves := {}
  deriving DecidableEq

def inRoom (threads : List ThreadRow) (slug : Text) (post : PostRow) : Bool :=
  threads.any fun thread => thread.id = post.thread ∧ thread.room = slug

/-- One pass of the loop: its DELETE, under the references to `posts(id)`, with the count of its rows. -/
def peelLeaves (slug : Text) (db : Db) : Sql (Nat × Db) := do
  let doomed := leafIn PostRow.id PostRow.parent (inRoom db.threads slug) db.posts
  let gone := fun id => db.posts.any fun post => doomed post && decide (post.id = id)
  require (db.posts.all fun post => doomed post || post.parent.all fun parent => !gone parent) .foreignKey
  require (db.postRevisions.all fun row => !gone row.postId) .foreignKey
  return (db.posts.countP doomed, { db with
    posts := db.posts.filter fun post => !doomed post
    postsFts := db.postsFts.filter fun row => !gone row.postId })

/-- `loop { … if res.rows_affected() == 0 { break; } }` -/
def peelLoop (slug : Text) : Nat → Db → Sql Db
  | 0, db => .ok db
  | fuel + 1, db => do
    let (affected, db) ← peelLeaves slug db
    if affected = 0 then
      return db
    else
      peelLoop slug fuel db

def postedIn (db : Db) (slug : Text) (id : Uuid) : Bool :=
  db.posts.any fun post => post.id = id ∧ inRoom db.threads slug post

def cascades (db : Db) (slug : Text) (row : PostAttachmentRow) : Bool :=
  db.postRevisions.any fun revision =>
    postedIn db slug revision.postId ∧ revision.postId = row.postId ∧ revision.revision = row.revision

/-- The statements of the transaction on the tables kept here. -/
def eraseRoom (slug : Text) (db : Db) : Sql Db := do
  let doomed := postedIn db slug
  let db ← db.deletePostAttachments (cascades db slug)
  let db := { db with
    postRevisions := db.postRevisions.filter fun row => !doomed row.postId }
  let db ← peelLoop slug (db.posts.length + 1) db
  require (db.posts.all fun post => !inRoom db.threads slug post) .foreignKey
  return { db with
    threads := db.threads.filter (·.room ≠ slug)
    threadsFts := db.threadsFts.filter fun row =>
      !(db.threads.any fun thread => thread.id = row.threadId ∧ thread.room = slug) }

def deleteRoom (store : RoomStore) (req : DeleteRoomRequest) : Except RoomError RoomStore :=
  if !req.isAdmin then
    .error .notAdmin
  else if trim req.reason.toList = [] then
    .error .reasonRequired
  else if !store.db.rooms.any (·.slug = req.room) then
    .error .roomNotFound
  else if req.room ∈ store.graves.rooms then
    .error .roomAlreadyDeleted
  else if String.ofList (trim req.confirmSlug.toList) ≠ req.room then
    .error .confirmationMismatch
  else
    match eraseRoom req.room store.db with
    | .error violated => .error (.sql violated)
    | .ok db => .ok {
        db
        graves := {
          rooms := req.room :: store.graves.rooms
          threads := ((store.db.threads.filter (·.room = req.room)).map (·.id)) ++ store.graves.threads
          posts := ((store.db.posts.filter (inRoom store.db.threads req.room)).map (·.id)) ++ store.graves.posts } }

def AnsweredWithin (db : Db) (slug : Text) : Prop :=
  ∀ post ∈ db.posts, ∀ above ∈ db.posts, post.parent = some above.id → inRoom db.threads slug above = true →
    inRoom db.threads slug post = true

instance {db : Db} {slug : Text} : Decidable (AnsweredWithin db slug) :=
  inferInstanceAs (Decidable (∀ post ∈ db.posts, ∀ above ∈ db.posts, _ → _ → _))

section Loop

variable {slug : Text} {db after : Db} {affected : Nat}

/-- The posts of every state come after the posts that they answer. -/
abbrev Threaded (db : Db) : Prop :=
  Grown PostRow.id PostRow.parent db.posts

theorem peelLeaves_ok (run : peelLeaves slug db = .ok (affected, after)) :
    ∃ fts, affected = db.posts.countP (leafIn PostRow.id PostRow.parent (inRoom db.threads slug) db.posts) ∧
      after = { db with
        posts := db.posts.filter fun post =>
          !leafIn PostRow.id PostRow.parent (inRoom db.threads slug) db.posts post
        postsFts := fts } ∧
      ∀ post ∈ db.posts, leafIn PostRow.id PostRow.parent (inRoom db.threads slug) db.posts post = false →
        ∀ above ∈ db.posts, post.parent = some above.id →
          leafIn PostRow.id PostRow.parent (inRoom db.threads slug) db.posts above = false := by
  simp only [peelLeaves, require_bind_ok] at run
  obtain ⟨closed, -, returned⟩ := run
  cases returned
  refine ⟨_, rfl, rfl, ?_⟩
  intro post mem stays above inPosts answers
  have parents := all_eq_true.mp closed post mem
  rw [stays, Bool.false_or, answers, Option.all_some, Bool.not_eq_true', any_eq_false] at parents
  have missed := parents above inPosts
  simpa using missed

theorem Threaded.peeled (threaded : Threaded db) (run : peelLeaves slug db = .ok (affected, after)) :
    Threaded after := by
  obtain ⟨fts, -, rfl, closed⟩ := peelLeaves_ok run
  refine threaded.filter ?_
  intro post mem stays above inPosts answers
  rw [Bool.not_eq_true'] at stays ⊢
  exact closed post mem stays above inPosts answers

theorem Threaded.peel_done (threaded : Threaded db) (unique : UniqueBy PostRow.id db.posts)
    (idle : db.posts.countP (leafIn PostRow.id PostRow.parent (inRoom db.threads slug) db.posts) = 0) :
    ∀ post ∈ db.posts, inRoom db.threads slug post = false := by
  by_contra left
  have some_ : db.posts.any (inRoom db.threads slug) = true := by simpa using left
  obtain ⟨leaf, mem, isLeaf⟩ := threaded.has_leaf unique some_
  exact countP_eq_zero.mp idle leaf mem isLeaf

theorem peelLoop_ok {fuel : Nat} (threaded : Threaded db) (unique : UniqueBy PostRow.id db.posts)
    (enough : db.posts.countP (inRoom db.threads slug) < fuel) (run : peelLoop slug fuel db = .ok after) :
    Threaded after ∧ ∃ fts, after = { db with
      posts := db.posts.filter fun post => !inRoom db.threads slug post
      postsFts := fts } := by
  induction fuel generalizing db with
  | zero => omega
  | succ fuel ih =>
    rw [peelLoop] at run
    obtain ⟨⟨affected, mid⟩, peeled, run⟩ := bind_ok.mp run
    have grown := threaded.peeled peeled
    obtain ⟨fts, counted, rfl, -⟩ := peelLeaves_ok peeled
    dsimp only at run
    split at run
    · rename_i idle
      cases run
      have outside := threaded.peel_done unique (counted.symm.trans idle)
      refine ⟨grown, fts, ?_⟩
      congr 1
      refine filter_congr fun post mem => ?_
      simp [leafIn, outside post mem]
    · rename_i took
      have some_ : db.posts.any (inRoom db.threads slug) = true := by
        obtain ⟨leaf, mem, isLeaf⟩ := countP_pos_iff.mp (Nat.pos_of_ne_zero (counted ▸ took))
        exact any_eq_true.mpr ⟨leaf, mem, (Bool.and_eq_true_iff.mp isLeaf).1⟩
      have shorter := threaded.peel_shorter unique some_
      obtain ⟨last, fts, rfl⟩ := ih grown (unique.sublist (filter_sublist.map _)) (by dsimp only; omega) run
      refine ⟨last, fts, ?_⟩
      dsimp only
      rw [filter_peel]

theorem peelLoop_total (fuel : Nat) (within : AnsweredWithin db slug)
    (unrevised : ∀ row ∈ db.postRevisions, postedIn db slug row.postId = false) :
    ∃ after, peelLoop slug fuel db = .ok after := by
  induction fuel generalizing db with
  | zero => exact ⟨db, rfl⟩
  | succ fuel ih =>
    have leafRoom : ∀ post, leafIn PostRow.id PostRow.parent (inRoom db.threads slug) db.posts post = true →
        inRoom db.threads slug post = true := fun post isLeaf => (Bool.and_eq_true_iff.mp isLeaf).1
    have closed : (db.posts.all fun post =>
        leafIn PostRow.id PostRow.parent (inRoom db.threads slug) db.posts post || post.parent.all fun parent =>
          !(db.posts.any fun gone => leafIn PostRow.id PostRow.parent (inRoom db.threads slug) db.posts gone &&
            decide (gone.id = parent))) = true := by
      rw [all_eq_true]
      intro post mem
      rw [Bool.or_eq_true]
      refine .inr ?_
      cases answers : post.parent with
      | none => rfl
      | some parent =>
        rw [Option.all_some, Bool.not_eq_true', any_eq_false]
        intro gone inPosts hit
        obtain ⟨isLeaf, named⟩ := Bool.and_eq_true_iff.mp hit
        obtain rfl := of_decide_eq_true named
        -- the child is in the room as well, so the parent is no leaf of it
        have child := within post mem gone inPosts answers (leafRoom gone isLeaf)
        have childless := (Bool.and_eq_true_iff.mp isLeaf).2
        rw [Bool.not_eq_true', any_eq_false] at childless
        exact childless post mem (by simp [child, answers])
    have revisions : (db.postRevisions.all fun row =>
        !(db.posts.any fun gone => leafIn PostRow.id PostRow.parent (inRoom db.threads slug) db.posts gone &&
          decide (gone.id = row.postId))) = true := by
      rw [all_eq_true]
      intro row mem
      rw [Bool.not_eq_true', any_eq_false]
      intro gone inPosts hit
      obtain ⟨isLeaf, named⟩ := Bool.and_eq_true_iff.mp hit
      have posted : postedIn db slug row.postId = true :=
        any_eq_true.mpr ⟨gone, inPosts, by simp [of_decide_eq_true named, leafRoom gone isLeaf]⟩
      exact Bool.false_ne_true ((unrevised row mem).symm.trans posted)
    simp only [peelLoop, peelLeaves, closed, revisions, require, if_true]
    by_cases idle : db.posts.countP (leafIn PostRow.id PostRow.parent (inRoom db.threads slug) db.posts) = 0
    · exact ⟨_, if_pos idle⟩
    · have onward : ∃ after, peelLoop slug fuel { db with
          posts := db.posts.filter fun post =>
            !leafIn PostRow.id PostRow.parent (inRoom db.threads slug) db.posts post
          postsFts := db.postsFts.filter fun row =>
            !(db.posts.any fun gone => leafIn PostRow.id PostRow.parent (inRoom db.threads slug) db.posts gone &&
              decide (gone.id = row.postId)) } = .ok after := by
        refine ih ?_ ?_
        · exact fun post mem above inPosts => within post (mem_of_mem_filter mem) above
            (mem_of_mem_filter inPosts)
        · intro row mem
          have before := unrevised row mem
          rw [postedIn, any_eq_false] at before ⊢
          exact fun post inPosts => before post (mem_of_mem_filter inPosts)
      obtain ⟨after, run⟩ := onward
      exact ⟨after, (if_neg idle).trans run⟩

end Loop

/-- What holds in every state of an instance, whatever rooms it has deleted. -/
structure RoomsKept (state : AppState) (corpus : Corpus) (db : Db) : Prop where
  sound : Sound state corpus db
  orderly : Orderly db
  integrity : Integrity state corpus db
  threaded : Threaded db

variable {state : AppState} {corpus : Corpus} {slug : Text} {db after : Db} {threadsFts : List ThreadsFtsRow}
  {req : DeleteRoomRequest} {postsFts : List PostsFtsRow} {post : PostRow}

theorem Effect.threaded {live : Bool} (effect : Effect state corpus live db after) (threaded : Threaded db) :
    Threaded after := by
  cases effect with
  | edge effect =>
    obtain ⟨objects, edges, pending, frontier, rfl⟩ := effect.frame
    exact threaded
  | erase projected run =>
    rw [erasePayloads_frame run]
    exact threaded
  | room unmerged run =>
    obtain ⟨-, -, rfl⟩ := insertRoom_ok.mp run
    exact threaded
  | thread landing opens run =>
    obtain ⟨-, -, -, rfl⟩ := insertThread_ok.mp run
    exact threaded
  | openPost landing first opens records opened landed =>
    obtain ⟨-, -, -, parented, rfl⟩ := insertPost_ok.mp opened
    obtain ⟨-, -, rfl⟩ := insertPostRevision_ok.mp landed
    refine .grow threaded ?_
    intro above answers
    obtain ⟨other, inPosts, named⟩ := any_eq_true.mp ((Option.all_eq_true _ _).mp parented above answers)
    exact ⟨other, inPosts, of_decide_eq_true named⟩
  | revise landing later records landed =>
    obtain ⟨-, -, rfl⟩ := insertPostRevision_ok.mp landed
    exact threaded
  | recount => exact threaded.updateWhere (fun _ => rfl) fun _ => rfl
  | retract => exact threaded.updateWhere (fun _ => rfl) fun _ => rfl
  | bind run =>
    obtain ⟨-, -, -, -, rfl⟩ := insertPostAttachment_ok.mp run
    exact threaded
  | unbind run =>
    obtain ⟨blobs, rfl⟩ := deletePostAttachments_frame run
    exact threaded
  | gc run =>
    obtain ⟨blobs, rfl⟩ := gcOrphanBlobs_frame run
    exact threaded
  | ownEdge | store | users | profile | touch | blob | blank | authority | aside => exact threaded

theorem RoomsKept.effects {live : Bool} (kept : RoomsKept state corpus db) (effects : Effects state corpus live db after) :
    RoomsKept state corpus after := by
  induction effects with
  | refl => exact kept
  | tail _ step ih => exact ⟨step.sound ih.sound, step.orderly ih.orderly, step.integrity ih.integrity,
      step.threaded ih.threaded⟩

theorem RoomsKept.empty : RoomsKept state corpus {} :=
  ⟨.empty, .empty, .empty, .nil⟩

/-- The tables after the deletion of a room, index rows and counts of files apart. -/
def Db.withoutRoom (db : Db) (slug : Text) (blobs : List AttachmentBlobRow) (postsFts : List PostsFtsRow)
    (threadsFts : List ThreadsFtsRow) : Db :=
  { db with
    threads := db.threads.filter (·.room ≠ slug)
    posts := db.posts.filter fun post => !inRoom db.threads slug post
    postRevisions := db.postRevisions.filter fun row => !postedIn db slug row.postId
    postAttachments := db.postAttachments.filter fun row => !cascades db slug row
    attachmentBlobs := blobs
    postsFts := postsFts
    threadsFts := threadsFts }

theorem eraseRoom_ok (threaded : Threaded db) (unique : UniqueBy PostRow.id db.posts)
    (run : eraseRoom slug db = .ok after) :
    ∃ unbound postsFts threadsFts, db.deletePostAttachments (cascades db slug) = .ok unbound ∧
      after = db.withoutRoom slug unbound.attachmentBlobs postsFts threadsFts ∧ Threaded after := by
  obtain ⟨unbound, unboundRun, run⟩ := bind_ok.mp run
  obtain ⟨peeled, peelRun, run⟩ := bind_ok.mp run
  obtain ⟨-, run⟩ := require_bind_ok.mp run
  cases run
  obtain ⟨blobs, rfl⟩ := deletePostAttachments_frame unboundRun
  have enough : db.posts.countP (inRoom db.threads slug) < db.posts.length + 1 :=
    Nat.lt_succ_of_le countP_le_length
  obtain ⟨grown, fts, rfl⟩ := peelLoop_ok (by exact threaded) (by exact unique) (by exact enough) peelRun
  exact ⟨_, fts, _, unboundRun, rfl, grown⟩

theorem hasThread_withoutRoom {blobs : List AttachmentBlobRow}
    (known : db.hasThread post.thread = true)
    (outside : inRoom db.threads slug post = false) :
    (db.withoutRoom slug blobs postsFts threadsFts).hasThread post.thread = true := by
  obtain ⟨thread, inThreads, here⟩ := any_eq_true.mp known
  rw [inRoom, any_eq_false] at outside
  have elsewhere : thread.room ≠ slug := fun same => outside thread inThreads (by simpa [same] using here)
  exact any_eq_true.mpr ⟨thread, mem_filter.mpr ⟨inThreads, by simpa using elsewhere⟩, here⟩

theorem postedIn_of_mem (unique : UniqueBy PostRow.id db.posts) (mem : post ∈ db.posts) :
    postedIn db slug post.id = inRoom db.threads slug post := by
  rw [Bool.eq_iff_iff, postedIn, any_eq_true]
  constructor
  · rintro ⟨other, inPosts, hit⟩
    obtain ⟨same, here⟩ := of_decide_eq_true hit
    rwa [← unique.eq inPosts mem same]
  · exact fun here => ⟨post, mem, by simp [here]⟩

section

variable (kept : RoomsKept state corpus db)
include kept

theorem RoomsKept.withoutRoom {unbound : Db} (unboundRun : db.deletePostAttachments (cascades db slug) = .ok unbound)
    (grown : Threaded (db.withoutRoom slug unbound.attachmentBlobs postsFts threadsFts)) :
    RoomsKept state corpus (db.withoutRoom slug unbound.attachmentBlobs postsFts threadsFts) := by
  have ints := kept.integrity
  have unboundOrd := kept.orderly.deletePostAttachments unboundRun
  obtain ⟨blobs, rfl⟩ := deletePostAttachments_frame unboundRun
  refine ⟨?_, ?_, ?_, grown⟩
  · exact { kept.sound with
      threads := fun row mem => kept.sound.threads row (mem_of_mem_filter mem)
      posts := fun row mem => kept.sound.posts row (mem_of_mem_filter mem)
      revisions := fun row mem => kept.sound.revisions row (mem_of_mem_filter mem) }
  · refine { unboundOrd with threadsStored := ?_, revisionsStored := ?_, boundRevision := ?_ }
    · exact fun row mem => kept.orderly.threadsStored row (mem_of_mem_filter mem)
    · exact fun row mem => kept.orderly.revisionsStored row (mem_of_mem_filter mem)
    · intro row mem
      obtain ⟨inRows, stays⟩ := mem_filter.mp mem
      obtain ⟨revision, inRevisions, same⟩ := any_eq_true.mp (kept.orderly.boundRevision row inRows)
      obtain ⟨samePost, sameRevision⟩ := of_decide_eq_true same
      rw [Bool.not_eq_true', cascades, any_eq_false] at stays
      have outside : postedIn db slug revision.postId ≠ true := fun inside =>
        stays revision inRevisions (decide_eq_true ⟨inside, samePost, sameRevision⟩)
      exact any_eq_true.mpr ⟨revision, mem_filter.mpr ⟨inRevisions, by simpa using outside⟩, same⟩
  · constructor
    · exact ints.threadIds.sublist (filter_sublist.map _)
    · exact ints.postIds.sublist (filter_sublist.map _)
    · exact ints.revisionKeys.sublist (filter_sublist.map _)
    · exact ints.profileKeys
    · intro post mem
      obtain ⟨inPosts, outside⟩ := mem_filter.mp mem
      exact hasThread_withoutRoom (ints.postThread post inPosts) (by simpa using outside)
    · intro row mem
      obtain ⟨inRows, outside⟩ := mem_filter.mp mem
      obtain ⟨post, inPosts, named⟩ := any_eq_true.mp (ints.revisionPost row inRows)
      rw [← of_decide_eq_true named, postedIn_of_mem ints.postIds inPosts] at outside
      exact any_eq_true.mpr ⟨post, mem_filter.mpr ⟨inPosts, outside⟩, named⟩
    · intro post mem
      obtain ⟨inPosts, outside⟩ := mem_filter.mp mem
      obtain ⟨payload, signature, p, filed, first, opens, row, inRows, records⟩ := ints.opened post inPosts
      refine ⟨payload, signature, p, filed, first, opens, row, mem_filter.mpr ⟨inRows, ?_⟩, records⟩
      rw [records.post, ← opens.id, postedIn_of_mem ints.postIds inPosts]
      exact outside

theorem RoomsKept.erased (run : eraseRoom slug db = .ok after) : RoomsKept state corpus after := by
  obtain ⟨unbound, postsFts, threadsFts, unboundRun, rfl, grown⟩ := eraseRoom_ok kept.threaded kept.integrity.postIds run
  exact kept.withoutRoom unboundRun grown

theorem RoomsKept.eraseRoom_iff : (∃ after, eraseRoom slug db = .ok after) ↔ AnsweredWithin db slug := by
  have unique := kept.integrity.postIds
  constructor
  · rintro ⟨after, run⟩ post mem above inPosts answers inside
    obtain ⟨unbound, postsFts, threadsFts, -, rfl, grown⟩ := eraseRoom_ok kept.threaded unique run
    by_contra outside
    -- the answer would stay behind without its parent
    obtain ⟨other, stays, named⟩ := grown.parents post (mem_filter.mpr ⟨mem, by simpa using outside⟩) _ answers
    obtain ⟨inDb, elsewhere⟩ := mem_filter.mp stays
    obtain rfl := unique.eq inDb inPosts named
    simp [inside] at elsewhere
  · intro within
    obtain ⟨unbound, unboundRun⟩ := kept.orderly.deletePostAttachments_total (cascades db slug)
    obtain ⟨blobs, rfl⟩ := deletePostAttachments_frame unboundRun
    let revised : Db := { db with
      postAttachments := db.postAttachments.filter fun row => !cascades db slug row
      attachmentBlobs := blobs
      postRevisions := db.postRevisions.filter fun row => !postedIn db slug row.postId }
    have unrevised : ∀ row ∈ revised.postRevisions, postedIn revised slug row.postId = false := by
      intro row mem
      exact (Bool.not_eq_true' _).mp (mem_filter.mp mem).2
    have withinRevised : AnsweredWithin revised slug := within
    obtain ⟨peeled, peelRun⟩ := peelLoop_total (db.posts.length + 1) withinRevised unrevised
    have threaded : Threaded revised := kept.threaded
    have enough : revised.posts.countP (inRoom revised.threads slug) < db.posts.length + 1 :=
      Nat.lt_succ_of_le countP_le_length
    obtain ⟨-, fts, rfl⟩ := peelLoop_ok threaded unique enough peelRun
    refine ⟨_, bind_ok.mpr ⟨_, unboundRun, bind_ok.mpr ⟨_, peelRun, require_bind_ok.mpr ⟨?_, rfl⟩⟩⟩⟩
    rw [all_eq_true]
    exact fun post mem => (mem_filter.mp mem).2

end

theorem deleteRoom_ok {store final : RoomStore} (run : deleteRoom store req = .ok final) :
    eraseRoom req.room store.db = .ok final.db ∧ final.graves = {
      rooms := req.room :: store.graves.rooms
      threads := ((store.db.threads.filter (·.room = req.room)).map (·.id)) ++ store.graves.threads
      posts := ((store.db.posts.filter (inRoom store.db.threads req.room)).map (·.id)) ++ store.graves.posts } := by
  unfold deleteRoom at run
  repeat' split at run
  all_goals try cases run
  rename_i db erased
  exact ⟨erased, rfl⟩

structure DeleteRoomRequest.Proper (req : DeleteRoomRequest) (store : RoomStore) : Prop where
  admin : req.isAdmin = true
  reasoned : trim req.reason.toList ≠ []
  present : store.db.rooms.any (·.slug = req.room) = true
  live : req.room ∉ store.graves.rooms
  confirmed : String.ofList (trim req.confirmSlug.toList) = req.room

theorem deleteRoom_proper {store : RoomStore} (proper : req.Proper store) :
    (∃ final, deleteRoom store req = .ok final) ↔ ∃ after, eraseRoom req.room store.db = .ok after := by
  unfold deleteRoom
  rw [if_neg (by simp [proper.admin]), if_neg proper.reasoned, if_neg (by rw [proper.present]; decide),
    if_neg proper.live, if_neg (not_not.mpr proper.confirmed)]
  cases eraseRoom req.room store.db with
  | error violated => simp
  | ok after => simp

end Prismoire
