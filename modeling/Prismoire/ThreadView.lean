import Prismoire.TrustOverlay

namespace Prismoire

open Lib

def topLevelLimit : Nat := 30

def maxDepth : Nat := 5

def repliesPageSize : Nat := 30

inductive PostSort where
  | trust
  | new
  deriving DecidableEq

/-- The moderation status that the API shows, deletion included. -/
inductive EffectiveStatus where
  | active
  | banned
  | suspended
  | deleted
  deriving DecidableEq

structure PostMeta where
  id : Uuid
  parentId : Option Uuid
  authorId : Uuid
  authorName : Text
  authorPublicKey : Key
  authorStatus : EffectiveStatus
  createdAt : Text
  retractedAt : Option Text
  isRemote : Bool

structure ThreadInfo where
  id : Uuid
  title : Text
  authorId : Uuid
  authorName : Text
  authorPublicKey : Key
  createdAt : Text
  roomId : Uuid
  roomSlug : Text
  locked : Bool
  isAnnouncement : Bool
  linkUrl : Option Text

structure ViewerCtx where
  trustMap : Uuid → Option ℚ
  reverseMap : Uuid → Option ℚ
  distrustSet : List Uuid
  tagMap : Uuid → Option Text
  readerId : Option Uuid

structure UserViewerInfo where
  distance : Option ℚ
  distrusted : Bool
  status : EffectiveStatus
  tag : Option Text

def UserViewerInfo.build (viewer : ViewerCtx) (userId : Uuid) (status : EffectiveStatus) : UserViewerInfo where
  distance := viewer.trustMap userId
  distrusted := viewer.distrustSet.contains userId
  status
  tag := if status = .deleted then none else viewer.tagMap userId

structure AttachmentResponse where
  contentHash : Hash
  filename : Text
  mime : Text
  size : Nat
  position : Nat

structure BodyInfo where
  body : Text
  editedAt : Option Text
  revision : Nat

/-- What a response says about one post. -/
structure PostView where
  viewer : UserViewerInfo
  id : Uuid
  parentId : Option Uuid
  authorId : Uuid
  authorName : Text
  authorPublicKey : Key
  body : Text
  createdAt : Text
  editedAt : Option Text
  revision : Nat
  isOp : Bool
  retractedAt : Option Text
  distrustScaffold : Bool
  isRemote : Bool
  attachments : List AttachmentResponse

inductive PostResponse where
  | mk (post : PostView) (children : List PostResponse) (hasMoreChildren : Bool)

inductive ThreadError where
  | threadNotFound
  | postNotFound
  | unauthenticated
  | internal

section Tree

variable (rows : List PostMeta)

def idToIndex (id : Uuid) : Option (Fin rows.length) :=
  (List.finRange rows.length).reverse.find? fun i => (rows.get i).id = id

def parentIdx (i : Fin rows.length) : Option (Fin rows.length) :=
  (rows.get i).parentId.bind (idToIndex rows)

section

variable (idx : Fin rows.length)

def childrenMap : List (Fin rows.length) :=
  (List.finRange rows.length).filter fun i => parentIdx rows i = some idx

def authorOf : Uuid :=
  (rows.get idx).authorId

def parentAuthorOf : Option Uuid :=
  (parentIdx rows idx).map (authorOf rows)

/-- A retracted post that nobody replied to. -/
def retractedLeaf : Bool :=
  (rows.get idx).retractedAt.isSome && (childrenMap rows idx).isEmpty

end

/-- The tree of a thread, told by its opening post; the last row without a parent is taken. -/
structure MetaTree where
  rootIdx : Fin rows.length
  opening : (rows.get rootIdx).parentId = none

def buildMetaTree : Except ThreadError (MetaTree rows) :=
  match found : (List.finRange rows.length).reverse.find? fun i => (rows.get i).parentId.isNone with
  | none => .error .internal
  | some rootIdx => .ok ⟨rootIdx, by simpa using List.find?_some found⟩

/-- The recursion of `compute_reader_descendants`, which fills its vector from the leaves up. -/
def visitReaderDescendants (reader : Uuid) : Nat → Fin rows.length → (Fin rows.length → Bool) →
    Bool × (Fin rows.length → Bool)
  | 0, _, result => (false, result)
  | fuel + 1, idx, result =>
    let (has, result) := (childrenMap rows idx).foldl (fun (has, result) ci =>
        let (below, result) := visitReaderDescendants reader fuel ci result
        (has || below, result))
      (decide (authorOf rows idx = reader), result)
    (has, Function.update result idx has)

def computeReaderDescendants (tree : MetaTree rows) (readerId : Option Uuid) (distrustSet : List Uuid) :
    Fin rows.length → Bool :=
  match readerId with
  | none => fun _ => false
  | some reader =>
    if distrustSet.isEmpty || !rows.any fun row => distrustSet.contains row.authorId then
      fun _ => false
    else
      (visitReaderDescendants rows reader rows.length tree.rootIdx fun _ => false).2

structure TreeCtx where
  tree : MetaTree rows
  viewer : ViewerCtx
  isAnnouncement : Bool
  sortByNew : Bool
  hasReaderDescendant : Fin rows.length → Bool

end Tree

namespace TreeCtx

variable {rows : List PostMeta} (ctx : TreeCtx rows)

def isVisible (idx : Fin rows.length) (isRoot : Bool) : Bool :=
  match ctx.viewer.readerId with
  | none => true
  | some reader =>
    let author := authorOf rows idx
    if author = reader then
      true
    -- a distrusted author's post stays only as a scaffold above a post of the reader
    else if ctx.viewer.distrustSet.contains author then
      ctx.hasReaderDescendant idx
    else if isRoot && ctx.isAnnouncement then
      true
    else if (ctx.viewer.reverseMap author).any fun score => minimumTrustThreshold ≤ score then
      true
    else
      decide (parentAuthorOf rows idx = some reader)

/-- `f64::MAX`. -/
def noScore : ℚ := 2 ^ 1024 - 2 ^ 971

def sortKey (idx : Fin rows.length) : ℚ :=
  let author := authorOf rows idx
  if ctx.viewer.readerId = some author then 0 else (ctx.viewer.trustMap author).getD noScore

def sortsBefore (a b : Fin rows.length) : Bool :=
  let newer := decide ((rows.get b).createdAt ≤ (rows.get a).createdAt)
  if ctx.sortByNew then
    newer
  else
    ctx.sortKey a < ctx.sortKey b || (ctx.sortKey a = ctx.sortKey b && newer)

def sortChildren (children : List (Fin rows.length)) : List (Fin rows.length) :=
  children.insertionSort fun a b => ctx.sortsBefore a b = true

def visibleSortedChildren (idx : Fin rows.length) : List (Fin rows.length) :=
  (ctx.sortChildren (childrenMap rows idx)).filter fun ci => !retractedLeaf rows ci && ctx.isVisible ci false

def childDepth (focusPath : List (Fin rows.length)) (idx ci : Fin rows.length) (currentDepth : Nat) : Nat :=
  if focusPath.contains idx && focusPath.contains ci then
    0
  else if focusPath.contains idx then
    1
  else
    currentDepth + 1

def cutOff (focusPath : List (Fin rows.length)) (idx : Fin rows.length) (currentDepth : Nat) : Bool :=
  decide (maxDepth ≤ currentDepth) && !focusPath.contains idx

def collectTruncated (focusPath : List (Fin rows.length)) : Nat → Fin rows.length → Nat → List Uuid
  | 0, _, _ => []
  | fuel + 1, idx, currentDepth =>
    (rows.get idx).id ::
      if cutOff focusPath idx currentDepth then
        []
      else
        (ctx.visibleSortedChildren idx).flatMap fun ci =>
          collectTruncated focusPath fuel ci (childDepth focusPath idx ci currentDepth)

def postView (bodies : Uuid → Option BodyInfo) (attachments : Uuid → List AttachmentResponse)
    (idx : Fin rows.length) : PostView :=
  let post := rows.get idx
  let info := bodies post.id
  { viewer := .build ctx.viewer post.authorId post.authorStatus
    id := post.id
    parentId := post.parentId
    authorId := post.authorId
    authorName := post.authorName
    authorPublicKey := post.authorPublicKey
    body := (info.map (·.body)).getD ""
    createdAt := post.createdAt
    editedAt := info.bind (·.editedAt)
    revision := (info.map (·.revision)).getD 0
    isOp := post.authorId = authorOf rows ctx.tree.rootIdx
    retractedAt := post.retractedAt
    distrustScaffold := ctx.viewer.readerId ≠ some post.authorId && ctx.viewer.distrustSet.contains post.authorId
    isRemote := post.isRemote
    attachments := attachments post.id }

def buildTree (bodies : Uuid → Option BodyInfo) (attachments : Uuid → List AttachmentResponse)
    (focusPath : List (Fin rows.length)) : Nat → Fin rows.length → Nat → PostResponse
  | 0, idx, _ => .mk (ctx.postView bodies attachments idx) [] false
  | fuel + 1, idx, currentDepth =>
    let children := ctx.visibleSortedChildren idx
    let cut := cutOff focusPath idx currentDepth
    .mk (ctx.postView bodies attachments idx) (if cut then [] else children.map fun ci =>
        buildTree bodies attachments focusPath fuel ci (childDepth focusPath idx ci currentDepth))
      (cut && !children.isEmpty)

def countVisibleReplies : Nat → Fin rows.length → Nat
  | 0, _ => 0
  | fuel + 1, idx =>
    let children := ctx.visibleSortedChildren idx
    children.length + (children.map (countVisibleReplies fuel)).sum

/-- No walk from the opening post, and none that counts its depth, is longer. -/
def depthBound (rows : List PostMeta) : Nat :=
  rows.length + maxDepth + 1

end TreeCtx

structure PostStore where
  bodies : Uuid → Option BodyInfo
  attachments : Uuid → List AttachmentResponse

def fetchBodies (store : PostStore) (postIds : List Uuid) (id : Uuid) : Option BodyInfo :=
  if postIds.contains id then store.bodies id else none

def fetchLatestAttachments (store : PostStore) (postIds : List Uuid) (id : Uuid) : List AttachmentResponse :=
  if postIds.contains id then store.attachments id else []

def countTreeReplies : List PostResponse → Nat
  | [] => 0
  | .mk _ children _ :: rest => 1 + countTreeReplies children + countTreeReplies rest

structure ThreadDetailResponse where
  thread : ThreadInfo
  post : PostResponse
  replyCount : Nat
  totalReplyCount : Nat
  hasMoreReplies : Bool
  focusedPostId : Option Uuid
  topLevelLoaded : Option Nat

/-- What the four handlers load before they decide what to show; the id is the key of the posts. -/
structure ThreadView where
  info : Option ThreadInfo
  rows : List PostMeta
  viewer : ViewerCtx
  distinct : (rows.map (·.id)).Nodup

namespace ThreadView

variable (view : ThreadView)

/-- The common start of the handlers. -/
def prepare (sort : PostSort) : Except ThreadError (ThreadInfo × TreeCtx view.rows) :=
  match view.info with
  | none => .error .threadNotFound
  | some info =>
    if view.viewer.readerId.isNone && !info.isAnnouncement then
      .error .unauthenticated
    else
      match buildMetaTree view.rows with
      | .error error => .error error
      | .ok tree => .ok (info,
        { tree
          viewer := view.viewer
          isAnnouncement := info.isAnnouncement
          sortByNew := decide (sort = .new)
          hasReaderDescendant :=
            computeReaderDescendants view.rows tree view.viewer.readerId view.viewer.distrustSet })

end ThreadView

section Handlers

variable {rows : List PostMeta} (ctx : TreeCtx rows) (store : PostStore)

/-- The ids of the walks below some posts, and the trees that they fill. -/
def collectAll (focusPath : List (Fin rows.length)) (from_ : List (Fin rows.length)) (depth : Nat) : List Uuid :=
  from_.flatMap fun idx => ctx.collectTruncated focusPath (TreeCtx.depthBound rows) idx depth

def buildAll (postIds : List Uuid) (focusPath : List (Fin rows.length)) (from_ : List (Fin rows.length))
    (depth : Nat) : List PostResponse :=
  from_.map fun idx => ctx.buildTree (fetchBodies store postIds) (fetchLatestAttachments store postIds) focusPath
    (TreeCtx.depthBound rows) idx depth

/-- The answer of `get_thread` once its top-level replies are chosen. -/
def detailResponse (info : ThreadInfo) (focusPath topLevel : List (Fin rows.length)) (focusedPostId : Option Uuid)
    (topLevelLoaded : Option Nat) : ThreadDetailResponse :=
  let root := ctx.tree.rootIdx
  let postIds := (rows.get root).id :: collectAll ctx focusPath topLevel 1
  let opChildren := buildAll ctx store postIds focusPath topLevel 1
  { thread := info
    post := .mk (ctx.postView (fetchBodies store postIds) (fetchLatestAttachments store postIds) root) opChildren false
    replyCount := countTreeReplies opChildren
    totalReplyCount := ctx.countVisibleReplies (TreeCtx.depthBound rows) root
    hasMoreReplies := topLevelLimit < (ctx.visibleSortedChildren root).length
    focusedPostId
    topLevelLoaded }

def focusPathFrom (rows : List PostMeta) : Nat → Fin rows.length → List (Fin rows.length)
  | 0, idx => [idx]
  | fuel + 1, idx =>
    match parentIdx rows idx with
    | none => [idx]
    | some parent => idx :: focusPathFrom rows fuel parent

def buildFocusedResponse (info : ThreadInfo) (focusId : Uuid) : Except ThreadError ThreadDetailResponse :=
  match idToIndex rows focusId with
  | none => .error .postNotFound
  | some focusIdx =>
    if !ctx.isVisible focusIdx (focusIdx = ctx.tree.rootIdx) then
      .error .postNotFound
    else
      let focusPath := focusPathFrom rows (TreeCtx.depthBound rows) focusIdx
      let allTopLevel := ctx.visibleSortedChildren ctx.tree.rootIdx
      let topLevel := allTopLevel.take topLevelLimit
      match allTopLevel.find? fun idx => focusPath.contains idx with
      | none => .ok (detailResponse ctx store info focusPath topLevel (some focusId) none)
      | some ftl =>
        -- beyond the limit, the reply that leads to the focus is appended out of order
        if topLevel.contains ftl then
          .ok (detailResponse ctx store info focusPath topLevel (some focusId) none)
        else
          .ok (detailResponse ctx store info focusPath (topLevel ++ [ftl]) (some focusId) (some topLevel.length))

end Handlers

namespace ThreadView

variable (view : ThreadView) (store : PostStore)

def getThread (sort : PostSort) (focus : Option Uuid) : Except ThreadError ThreadDetailResponse := do
  let (info, ctx) ← view.prepare sort
  if !ctx.isVisible ctx.tree.rootIdx true then
    .error .threadNotFound
  else
    match focus with
    | some focusId => buildFocusedResponse ctx store info focusId
    | none =>
      let topLevel := (ctx.visibleSortedChildren ctx.tree.rootIdx).take topLevelLimit
      .ok (detailResponse ctx store info [] topLevel none none)

/-- A page of the replies to the opening post, and whether there are more; the opening post itself is not looked at. -/
def getThreadReplies (sort : PostSort) (offset : Nat) : Except ThreadError (List PostResponse × Bool) := do
  let (_, ctx) ← view.prepare sort
  let page := ((ctx.visibleSortedChildren ctx.tree.rootIdx).drop offset).take (repliesPageSize + 1)
  let hasMore := decide (repliesPageSize < page.length)
  let page := page.take repliesPageSize
  return (buildAll ctx store (collectAll ctx [] page 1) [] page 1, hasMore)

def getThreadSubtree (sort : PostSort) (postId : Uuid) : Except ThreadError PostResponse := do
  let (_, ctx) ← view.prepare sort
  match idToIndex view.rows postId with
  | none => .error .postNotFound
  | some subtreeRoot =>
    if !ctx.isVisible subtreeRoot (subtreeRoot = ctx.tree.rootIdx) then
      .error .postNotFound
    else
      let postIds := ctx.collectTruncated [] (TreeCtx.depthBound view.rows) subtreeRoot 0
      return ctx.buildTree (fetchBodies store postIds) (fetchLatestAttachments store postIds) []
        (TreeCtx.depthBound view.rows) subtreeRoot 0

end ThreadView

inductive ThreadViewRequest where
  | thread (sort : PostSort) (focus : Option Uuid)
  | replies (sort : PostSort) (offset : Nat)
  | subtree (sort : PostSort) (postId : Uuid)

inductive ThreadAnswer where
  | detail (response : ThreadDetailResponse)
  | replies (replies : List PostResponse) (hasMore : Bool)
  | subtree (post : PostResponse)

def ThreadView.answer (view : ThreadView) (store : PostStore) : ThreadViewRequest → Except ThreadError ThreadAnswer
  | .thread sort focus => (view.getThread store sort focus).map .detail
  | .replies sort offset => (view.getThreadReplies store sort offset).map fun page => .replies page.1 page.2
  | .subtree sort postId => (view.getThreadSubtree store sort postId).map .subtree

end Prismoire
