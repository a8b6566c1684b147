import Mathlib.Data.Prod.Lex
import Prismoire.Lib.FilteredPages
import Prismoire.Lib.Text
import Prismoire.ThreadListing

namespace Prismoire

open Lib List

inductive ListError where
  | invalidCursor
  | roomNotFound
  | seenIdsExceeded

/-- The texts of timestamps and ids, as `chrono` and `uuid` read and write them. -/
structure CursorText where
  dateTime : List Char → Bool
  readUuid : List Char → Option Uuid
  showUuid : Uuid → List Char

/-- An id reads back as itself, and neither text has a bar in it. -/
structure CursorText.Lawful (text : CursorText) : Prop where
  uuid : ∀ id, text.readUuid (text.showUuid id) = some id
  uuidPlain : ∀ id, '|' ∉ text.showUuid id
  timePlain : ∀ time, text.dateTime time = true → '|' ∉ time

section Cursors

variable (text : CursorText)

def stripZ (time : List Char) : List Char :=
  (stripLast 'Z' time).getD time

def parseCursor (cursor : Text) : Option (Text × Uuid) := do
  let (time, id) ← splitOnce '|' cursor.toList
  if text.dateTime (stripZ time) then
    return (String.ofList time, ← text.readUuid id)
  else
    none

def cursorAt (time : Text) (id : Uuid) : Text :=
  String.ofList (time.toList ++ '|' :: text.showUuid id)

variable {text} {time : Text} {id : Uuid}

theorem stripZ_plain (lawful : text.Lawful) {time : List Char} (timed : text.dateTime (stripZ time) = true) :
    '|' ∉ time := by
  have plain := lawful.timePlain _ timed
  unfold stripZ at plain
  cases stripped : stripLast 'Z' time with
  | none => simpa [stripped] using plain
  | some front =>
    rw [stripLast_eq_some.mp stripped]
    simpa [stripped] using plain

theorem parseCursor_cursorAt (lawful : text.Lawful) (timed : text.dateTime (stripZ time.toList) = true) :
    parseCursor text (cursorAt text time id) = some (time, id) := by
  have split : splitOnce '|' (cursorAt text time id).toList = some (time.toList, text.showUuid id) := by
    rw [cursorAt, String.toList_ofList]
    exact splitOnce_eq_some.mpr ⟨rfl, stripZ_plain lawful timed⟩
  simp [parseCursor, split, timed, lawful.uuid]

end Cursors

/-- A row of the listing queries, with the room that it is in. -/
structure AllThreadsRow where
  id : Uuid
  title : Text
  authorId : Uuid
  authorName : Text
  authorPublicKey : Key
  authorStatus : EffectiveStatus
  createdAt : Text
  roomId : Uuid
  roomSlug : Text
  locked : Bool
  isAnnouncement : Bool
  replyCount : Nat
  lastActivity : Option Text
  linkUrl : Option Text

/-- `COALESCE(t.last_activity, t.created_at)`. -/
def AllThreadsRow.activity (row : AllThreadsRow) : Text :=
  row.lastActivity.getD row.createdAt

def AllThreadsRow.summary (row : AllThreadsRow) (viewer : UserViewerInfo) : ThreadSummary where
  id := row.id
  title := row.title
  authorId := row.authorId
  authorName := row.authorName
  authorPublicKey := row.authorPublicKey
  roomId := row.roomId
  roomSlug := row.roomSlug
  createdAt := row.createdAt
  locked := row.locked
  isAnnouncement := row.isAnnouncement
  replyCount := row.replyCount
  lastActivity := row.lastActivity
  viewer
  linkUrl := row.linkUrl

namespace Tables

variable (tables : Tables)

def listed (thread : ThreadEntry) : Bool :=
  !(thread.replyCount = 0 && (tables.posts.find? fun post => post.thread = thread.id ∧ post.parent = none).any
    (·.retractedAt.isSome))

def threadRow (thread : ThreadEntry) (room : RoomEntry) : Option AllThreadsRow :=
  (tables.user? thread.author).map fun user => {
    id := thread.id
    title := thread.title
    authorId := thread.author
    authorName := user.displayName
    authorPublicKey := user.publicKey
    authorStatus := user.status
    createdAt := thread.createdAt
    roomId := room.id
    roomSlug := room.slug
    locked := thread.locked
    isAnnouncement := isAnnouncements room.slug
    replyCount := thread.replyCount
    lastActivity := thread.lastActivity
    linkUrl := thread.linkUrl }

def allThreadsRows : List AllThreadsRow :=
  (tables.threads.filter tables.listed).filterMap fun thread =>
    ((tables.room? thread.room).filter (·.mergedInto.isNone)).bind (tables.threadRow thread)

def roomThreadsRows (room : RoomEntry) : List AllThreadsRow :=
  ((tables.threads.filter (·.room = room.id)).filter tables.listed).filterMap fun thread => tables.threadRow thread room

def resolveRoom (text : CursorText) (roomIdOrSlug : Text) : Option RoomEntry :=
  tables.rooms.find? fun room =>
    (String.ofList (text.showUuid room.id) = roomIdOrSlug ∨ room.slug = roomIdOrSlug) ∧ room.mergedInto = none

end Tables

/-- The sorts that page by a cursor alone. -/
inductive ChronoSort where
  | new
  | active

def nullsLast : Option Text → WithBot Text
  | none => ⊥
  | some time => (time : WithBot Text)

section Queries

variable (sort : ChronoSort)

/-- The columns of the ORDER BY, all descending. -/
def orderKey (row : AllThreadsRow) : WithBot Text ×ₗ (Text ×ₗ Nat) :=
  toLex (match sort with
    | .new => (row.createdAt : WithBot Text)
    | .active => nullsLast row.lastActivity, toLex (row.createdAt, row.id.toNat))

def cursorTime (row : AllThreadsRow) : Text :=
  match sort with
  | .new => row.createdAt
  | .active => row.activity

def cursorAdmits (place : Text × Uuid) (row : AllThreadsRow) : Bool :=
  cursorTime sort row < place.1 || (cursorTime sort row = place.1 && row.id.toNat < place.2.toNat)

def inOrder (rows : List AllThreadsRow) : List AllThreadsRow :=
  rows.insertionSort fun a b => orderKey sort b ≤ orderKey sort a

def chronoQuery (rows : List AllThreadsRow) (place : Option (Text × Uuid)) : List AllThreadsRow :=
  (inOrder sort (rows.filter fun row => place.all fun place => cursorAdmits sort place row)).take (pageSize + 1)

def makeCursor (text : CursorText) (thread : ThreadSummary) : Text :=
  cursorAt text (match sort with
    | .new => thread.createdAt
    | .active => thread.lastActivity.getD thread.createdAt) thread.id

end Queries

structure ThreadListResponse where
  threads : List ThreadSummary
  nextCursor : Option Text

section Handlers

variable (text : CursorText) (tables : Tables) (reader : Reader)

def readPlace : Option Text → Except ListError (Option (Text × Uuid))
  | none => .ok none
  | some cursor =>
    match parseCursor text cursor with
    | none => .error .invalidCursor
    | some place => .ok (some place)

def chronoPage (sort : ChronoSort) (rows : List AllThreadsRow) (shows : AllThreadsRow → Bool)
    (summarise : List AllThreadsRow → List ThreadSummary) (cursor : Option Text) : Except ListError ThreadListResponse := do
  let place ← readPlace text cursor
  let found := chronoQuery sort rows place
  let hasMore := decide (pageSize < found.length)
  let threads := summarise ((found.take pageSize).filter shows)
  return ⟨threads, if hasMore then threads.getLast?.map (makeCursor sort text) else none⟩

def rowVisible (row : AllThreadsRow) : Bool :=
  isThreadVisible row.authorId row.isAnnouncement reader

def threadsToSummary (row : AllThreadsRow) : ThreadSummary :=
  row.summary (.build reader.ctx row.authorId row.authorStatus)

def summaries (rows : List AllThreadsRow) : List ThreadSummary :=
  applyVisibleReplyCounts tables reader (rows.map (threadsToSummary reader))

def listAllThreads (sort : ChronoSort) : Option Text → Except ListError ThreadListResponse :=
  chronoPage text sort tables.allThreadsRows (rowVisible reader) (summaries tables reader)

def listThreads (roomIdOrSlug : Text) (sort : ChronoSort) (cursor : Option Text) : Except ListError ThreadListResponse :=
  match tables.resolveRoom text roomIdOrSlug with
  | none => .error .roomNotFound
  | some room => chronoPage text sort (tables.roomThreadsRows room) (rowVisible reader) (summaries tables reader) cursor

/-- Without a reader there is nothing to hide and nothing to say about the authors. -/
def listPublicAnnouncementThreads : Option Text → Except ListError ThreadListResponse :=
  chronoPage text .active (tables.allThreadsRows.filter (·.isAnnouncement)) (fun _ => true)
    fun rows => rows.map fun row => row.summary ⟨none, false, row.authorStatus, none⟩

end Handlers

/-- The listings that page by a cursor alone. -/
inductive Listing where
  | all (sort : ChronoSort)
  | room (roomIdOrSlug : Text) (sort : ChronoSort)
  | announcements

namespace Listing

variable (text : CursorText) (tables : Tables) (reader : Reader)

def ask : Listing → Option Text → Except ListError ThreadListResponse
  | .all sort => listAllThreads text tables reader sort
  | .room roomIdOrSlug sort => listThreads text tables reader roomIdOrSlug sort
  | .announcements => listPublicAnnouncementThreads text tables

def sort : Listing → ChronoSort
  | .all sort => sort
  | .room _ sort => sort
  | .announcements => .active

def rows : Listing → List AllThreadsRow
  | .all sort => inOrder sort tables.allThreadsRows
  | .room roomIdOrSlug sort => ((tables.resolveRoom text roomIdOrSlug).elim [] fun room => inOrder sort (tables.roomThreadsRows room))
  | .announcements => inOrder .active (tables.allThreadsRows.filter (·.isAnnouncement))

def shows : Listing → AllThreadsRow → Bool
  | .announcements, _ => true
  | _, row => rowVisible reader row

def Resolves : Listing → Prop
  | .room roomIdOrSlug _ => (tables.resolveRoom text roomIdOrSlug).isSome = true
  | _ => True

end Listing

/-- A reader follows the cursors from the first page on. -/
def listWalk (ask : Option Text → Except ListError ThreadListResponse) :
    Nat → Option Text → Except (WalkFault ListError) (List Uuid)
  | 0, _ => .error .unfinished
  | requests + 1, cursor =>
    match ask cursor with
    | .error refusal => .error (.refused refusal)
    | .ok page =>
      match page.nextCursor with
      | none => .ok (page.threads.map (·.id))
      | some next => (listWalk ask requests (some next)).map (page.threads.map (·.id) ++ ·)

section Order

variable {sort : ChronoSort} {rows : List AllThreadsRow} {a b c row : AllThreadsRow}

def cursorPasses (sort : ChronoSort) (last row : AllThreadsRow) : Bool :=
  cursorAdmits sort (cursorTime sort last, last.id) row

def listedBefore (sort : ChronoSort) (a b : AllThreadsRow) : Bool :=
  orderKey sort b < orderKey sort a

theorem cursorPasses_iff : cursorPasses sort a b = true ↔
    toLex (cursorTime sort b, b.id.toNat) < toLex (cursorTime sort a, a.id.toNat) := by
  simp [cursorPasses, cursorAdmits, Prod.Lex.toLex_lt_toLex]

theorem cursorPasses_strict : Strict (cursorPasses sort) where
  irrefl row := by
    rw [← Bool.not_eq_true, cursorPasses_iff]
    exact lt_irrefl _
  trans a b c ab bc := cursorPasses_iff.mpr (lt_trans (cursorPasses_iff.mp bc) (cursorPasses_iff.mp ab))

theorem listedBefore_strict : Strict (listedBefore sort) where
  irrefl row := by simp [listedBefore]
  trans a b c ab bc := decide_eq_true (lt_trans (of_decide_eq_true bc) (of_decide_eq_true ab))

instance orderTotal : Std.Total fun a b : AllThreadsRow => orderKey sort b ≤ orderKey sort a :=
  ⟨fun a b => le_total (orderKey sort b) (orderKey sort a)⟩

instance orderTrans : IsTrans AllThreadsRow fun a b => orderKey sort b ≤ orderKey sort a :=
  ⟨fun _ _ _ ab bc => le_trans bc ab⟩

theorem inOrder_filter (keep : AllThreadsRow → Bool) : inOrder sort (rows.filter keep) = (inOrder sort rows).filter keep :=
  insertionSort_filter keep rows

theorem mem_inOrder : row ∈ inOrder sort rows ↔ row ∈ rows :=
  (perm_insertionSort _ _).mem_iff

theorem inOrder_sorted (unique : UniqueBy (·.id) rows) :
    (inOrder sort rows).Pairwise fun a b => listedBefore sort a b = true := by
  have apart : (inOrder sort rows).Pairwise fun a b => a.id ≠ b.id :=
    pairwise_map.mp (((perm_insertionSort _ _).map _).nodup_iff.mpr unique)
  have sorted : (inOrder sort rows).Pairwise fun a b => orderKey sort b ≤ orderKey sort a :=
    pairwise_insertionSort _ _
  refine (sorted.and apart).imp ?_
  rintro a b ⟨notAfter, different⟩
  refine decide_eq_true (lt_of_le_of_ne notAfter fun same => different ?_)
  have keys := congrArg (fun key => (ofLex (ofLex key).2).2) same
  exact (BitVec.eq_of_toNat_eq keys).symm

theorem cursorPasses_new : cursorPasses .new = listedBefore .new := by
  funext a b
  rw [Bool.eq_iff_iff, cursorPasses_iff, listedBefore, decide_eq_true_iff]
  simp only [cursorTime, orderKey, Prod.Lex.toLex_lt_toLex, WithBot.coe_lt_coe, WithBot.coe_inj]
  grind

end Order

variable {text : CursorText} {tables : Tables} {reader : Reader} {sort : ChronoSort} {rows : List AllThreadsRow}
  {shows : AllThreadsRow → Bool} {summarise : List AllThreadsRow → List ThreadSummary}

def Summarises (summarise : List AllThreadsRow → List ThreadSummary) : Prop :=
  ∀ page, (summarise page).map (fun thread => (thread.id, thread.createdAt, thread.lastActivity)) =
    page.map fun row => (row.id, row.createdAt, row.lastActivity)

theorem summaries_summarises : Summarises (summaries tables reader) := by
  intro page
  rw [summaries, applyVisibleReplyCounts, map_map, map_map]
  rfl

theorem Summarises.ids (same : Summarises summarise) (page : List AllThreadsRow) :
    (summarise page).map (·.id) = page.map (·.id) := by
  have ids := congrArg (List.map Prod.fst) (same page)
  rw [map_map, map_map] at ids
  exact ids

def rowCursor (text : CursorText) (sort : ChronoSort) (row : AllThreadsRow) : Text :=
  cursorAt text (cursorTime sort row) row.id

theorem Summarises.cursor (same : Summarises summarise) (page : List AllThreadsRow) :
    (summarise page).getLast?.map (makeCursor sort text) = page.getLast?.map (rowCursor text sort) := by
  let token : Uuid × Text × Option Text → Text := fun (id, createdAt, lastActivity) =>
    cursorAt text (match sort with
      | .new => createdAt
      | .active => lastActivity.getD createdAt) id
  have tokens := congrArg (fun keys => (keys.getLast?).map token) (same page)
  simp only [getLast?_map, Option.map_map] at tokens
  cases sort <;> exact tokens

def Timed (text : CursorText) (sort : ChronoSort) (rows : List AllThreadsRow) : Prop :=
  ∀ row ∈ rows, text.dateTime (stripZ (cursorTime sort row).toList) = true

theorem rowsPast_query (since : Option AllThreadsRow) :
    chronoQuery sort rows (since.map fun row => (cursorTime sort row, row.id)) =
      (rowsPast (cursorPasses sort) (inOrder sort rows) since).take (pageSize + 1) := by
  rw [chronoQuery, inOrder_filter]
  cases since with
  | none => simp [rowsPast]
  | some last => rfl

variable {since : Option AllThreadsRow}

variable (lawful : text.Lawful) (timed : Timed text sort rows) (same : Summarises summarise)
  (known : ∀ row ∈ since, row ∈ rows)
include lawful timed same known

theorem chronoPage_eq : chronoPage text sort rows shows summarise (since.map (rowCursor text sort)) = .ok
      ⟨summarise (filteredPage (cursorPasses sort) shows pageSize (inOrder sort rows) since).1,
        (filteredPage (cursorPasses sort) shows pageSize (inOrder sort rows) since).2.map (rowCursor text sort)⟩ := by
  have place : readPlace text (since.map (rowCursor text sort)) = .ok (since.map fun row => (cursorTime sort row, row.id)) := by
    cases since with
    | none => rfl
    | some row => simp only [readPlace, Option.map_some, rowCursor, parseCursor_cursorAt lawful (timed row (known row rfl))]
  have cut : ((rowsPast (cursorPasses sort) (inOrder sort rows) since).take (pageSize + 1)).take pageSize =
      (rowsPast (cursorPasses sort) (inOrder sort rows) since).take pageSize := by
    rw [take_take, min_eq_left (Nat.le_succ _)]
  have more : (pageSize < ((rowsPast (cursorPasses sort) (inOrder sort rows) since).take (pageSize + 1)).length) =
      (pageSize < (rowsPast (cursorPasses sort) (inOrder sort rows) since).length) := by
    rw [length_take]
    exact propext ⟨fun _ => by omega, fun _ => by omega⟩
  simp only [chronoPage, place, bind, Except.bind, pure, Except.pure, rowsPast_query, cut, more, filteredPage_eq]
  rw [same.cursor]
  by_cases beyond : pageSize < (rowsPast (cursorPasses sort) (inOrder sort rows) since).length
  · simp only [beyond, decide_true, if_true]
  · simp only [beyond, decide_false, Bool.false_eq_true, if_false, Option.map_none]

theorem listWalk_eq {requests : Nat} :
    listWalk (chronoPage text sort rows shows summarise) requests (since.map (rowCursor text sort)) =
      match filteredWalk (cursorPasses sort) shows pageSize (inOrder sort rows) requests since with
      | none => .error .unfinished
      | some sent => .ok (sent.map (·.id)) := by
  induction requests generalizing since with
  | zero => rfl
  | succ requests ih =>
    rw [listWalk, chronoPage_eq lawful timed same known, filteredWalk]
    dsimp only
    cases next : (filteredPage (cursorPasses sort) shows pageSize (inOrder sort rows) since).2 with
    | none => simp only [Option.map_none, same.ids]
    | some last =>
      have mem : last ∈ rows := by
        rw [filteredPage_eq] at next
        dsimp only at next
        split at next
        · exact mem_inOrder.mp (mem_rowsPast.mp (mem_rowsPast_of_last next)).1
        · cases next
      have later := @ih (some last) fun row isLast => Option.some.inj isLast ▸ mem
      rw [Option.map_some] at later
      simp only [Option.map_some, later, same.ids]
      cases filteredWalk (cursorPasses sort) shows pageSize (inOrder sort rows) requests (some last) with
      | none => rfl
      | some sent => simp [Except.map]

end Prismoire
