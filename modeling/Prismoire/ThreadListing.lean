import Prismoire.Lib.Paging
import Prismoire.Posting
import Prismoire.ThreadView

namespace Prismoire

open Lib List

def pageSize : Nat := 20

structure UserEntry where
  id : Uuid
  displayName : Text
  publicKey : Key
  status : EffectiveStatus

structure RoomEntry where
  id : Uuid
  slug : Text
  mergedInto : Option Uuid
  deletedAt : Option Text

structure ThreadEntry where
  id : Uuid
  title : Text
  author : Uuid
  room : Uuid
  createdAt : Text
  locked : Bool
  lastActivity : Option Text
  replyCount : Nat
  linkUrl : Option Text

structure PostEntry where
  id : Uuid
  author : Uuid
  thread : Uuid
  parent : Option Uuid
  createdAt : Text
  retractedAt : Option Text
  homeInstance : Option Key

/-- What the read endpoints find in the tables, with the keys that the schema declares. -/
structure Tables where
  users : List UserEntry
  rooms : List RoomEntry
  threads : List ThreadEntry
  posts : List PostEntry
  roomsUnique : UniqueBy (·.id) rooms
  threadsUnique : UniqueBy (·.id) threads
  postsUnique : UniqueBy (·.id) posts
  threadAuthors : ∀ thread ∈ threads, ∃ user ∈ users, user.id = thread.author
  threadRooms : ∀ thread ∈ threads, ∃ room ∈ rooms, room.id = thread.room
  postAuthors : ∀ post ∈ posts, ∃ user ∈ users, user.id = post.author

/-- A signed-in reader, with the scores and sets that every listing loads. -/
structure Reader where
  id : Uuid
  trustMap : Uuid → Option ℚ
  reverseMap : Uuid → Option ℚ
  distrustSet : List Uuid
  tagMap : Uuid → Option Text

def Reader.ctx (reader : Reader) : ViewerCtx where
  trustMap := reader.trustMap
  reverseMap := reader.reverseMap
  distrustSet := reader.distrustSet
  tagMap := reader.tagMap
  readerId := some reader.id

def Reader.trustedBy (reader : Reader) (author : Uuid) : Bool :=
  (reader.reverseMap author).any fun score => minimumTrustThreshold ≤ score

namespace Tables

variable (tables : Tables)

def user? (id : Uuid) : Option UserEntry :=
  tables.users.find? (·.id = id)

def room? (id : Uuid) : Option RoomEntry :=
  tables.rooms.find? (·.id = id)

def post? (id : Uuid) : Option PostEntry :=
  tables.posts.find? (·.id = id)

def fetchThreadInfo (threadId : Uuid) : Option ThreadInfo := do
  let thread ← tables.threads.find? (·.id = threadId)
  let user ← tables.user? thread.author
  let room ← tables.room? thread.room
  return {
    id := thread.id
    title := thread.title
    authorId := thread.author
    authorName := user.displayName
    authorPublicKey := user.publicKey
    createdAt := thread.createdAt
    roomId := room.id
    roomSlug := room.slug
    locked := thread.locked
    isAnnouncement := isAnnouncements room.slug
    linkUrl := thread.linkUrl }

def postMeta (post : PostEntry) : Option PostMeta :=
  (tables.user? post.author).map fun user => {
    id := post.id
    parentId := post.parent
    authorId := post.author
    authorName := user.displayName
    authorPublicKey := user.publicKey
    authorStatus := user.status
    createdAt := post.createdAt
    retractedAt := post.retractedAt
    isRemote := post.homeInstance.isSome }

def fetchPostMetadata (threadId : Uuid) : List PostMeta :=
  ((tables.posts.filter (·.thread = threadId)).filterMap tables.postMeta).insertionSort fun a b =>
    a.createdAt ≤ b.createdAt

theorem postMeta_id {post : PostEntry} {row : PostMeta} (joined : tables.postMeta post = some row) :
    row.id = post.id ∧ row.parentId = post.parent ∧ row.authorId = post.author := by
  obtain ⟨user, -, rfl⟩ := Option.map_eq_some_iff.mp joined
  exact ⟨rfl, rfl, rfl⟩

theorem fetchPostMetadata_perm (threadId : Uuid) :
    (tables.fetchPostMetadata threadId).Perm ((tables.posts.filter (·.thread = threadId)).filterMap tables.postMeta) :=
  perm_insertionSort _ _

theorem mem_fetchPostMetadata {threadId : Uuid} {row : PostMeta} : row ∈ tables.fetchPostMetadata threadId ↔
    ∃ post ∈ tables.posts, post.thread = threadId ∧ tables.postMeta post = some row := by
  rw [(tables.fetchPostMetadata_perm threadId).mem_iff, mem_filterMap]
  simp only [mem_filter, decide_eq_true_eq, and_assoc]

theorem fetchPostMetadata_distinct (threadId : Uuid) : ((tables.fetchPostMetadata threadId).map (·.id)).Nodup := by
  rw [((tables.fetchPostMetadata_perm threadId).map _).nodup_iff]
  have unique : UniqueBy PostEntry.id (tables.posts.filter (·.thread = threadId)) :=
    tables.postsUnique.sublist (filter_sublist.map _)
  exact unique.filterMap fun post row joined => (tables.postMeta_id joined).1

def threadView (viewer : ViewerCtx) (threadId : Uuid) : ThreadView where
  info := tables.fetchThreadInfo threadId
  rows := tables.fetchPostMetadata threadId
  viewer
  distinct := tables.fetchPostMetadata_distinct threadId

end Tables

def isThreadVisible (authorId : Uuid) (isAnnouncement : Bool) (reader : Reader) : Bool :=
  if authorId = reader.id then
    true
  else if reader.distrustSet.contains authorId then
    false
  else if isAnnouncement then
    true
  else
    reader.trustedBy authorId

structure ThreadSummary where
  id : Uuid
  title : Text
  authorId : Uuid
  authorName : Text
  authorPublicKey : Key
  roomId : Uuid
  roomSlug : Text
  createdAt : Text
  locked : Bool
  isAnnouncement : Bool
  replyCount : Nat
  lastActivity : Option Text
  viewer : UserViewerInfo
  linkUrl : Option Text

variable (tables : Tables) (reader : Reader)

/-- The author of a post's parent, from whatever thread; `COALESCE(parent_post.author, '')` is nobody's id. -/
def parentAuthor (post : PostEntry) : Option Uuid :=
  (post.parent.bind tables.post?).map (·.author)

/-- The predicate of the flat scan. -/
def countsAsReply (post : PostEntry) : Bool :=
  if post.author ≠ reader.id && reader.distrustSet.contains post.author then
    false
  else
    decide (post.author = reader.id) || reader.trustedBy post.author || decide (parentAuthor tables post = some reader.id)

def visibleReplyRows (threadIds : List Uuid) : List PostEntry :=
  (tables.posts.filter fun post => threadIds.contains post.thread && post.parent.isSome).filter
    (countsAsReply tables reader)

def applyVisibleReplyCounts (threads : List ThreadSummary) : List ThreadSummary :=
  threads.map fun thread => { thread with
    replyCount := (visibleReplyRows tables reader (threads.map (·.id))).countP (·.thread = thread.id) }

end Prismoire
