import Prismoire.ChronologicalListing
import Prismoire.Lib.Hex

namespace Prismoire

open Lib List Option

/-- The times of the threads are times that `chrono` reads. -/
def Tables.Stamped (tables : Tables) (text : CursorText) : Prop :=
  ∀ thread ∈ tables.threads, ∀ time, time = thread.createdAt ∨ thread.lastActivity = some time →
    text.dateTime (stripZ time.toList) = true

section Tables

variable {tables : Tables} {text : CursorText} {sort : ChronoSort} {thread : ThreadEntry} {room : RoomEntry}
  {row : AllThreadsRow} {rows : List AllThreadsRow}

theorem Tables.threadRow_columns (joined : tables.threadRow thread room = some row) :
    row.id = thread.id ∧ row.createdAt = thread.createdAt ∧ row.lastActivity = thread.lastActivity := by
  obtain ⟨user, -, rfl⟩ := map_eq_some_iff.mp joined
  exact ⟨rfl, rfl, rfl⟩

structure Joined (tables : Tables) (rows : List AllThreadsRow) : Prop where
  threads : ∀ row ∈ rows, ∃ thread ∈ tables.threads,
    row.createdAt = thread.createdAt ∧ row.lastActivity = thread.lastActivity
  unique : UniqueBy (·.id) rows

theorem Joined.of_filterMap {threads : List ThreadEntry} {join : ThreadEntry → Option AllThreadsRow}
    (known : threads.Sublist tables.threads)
    (columns : ∀ thread row, join thread = some row →
      row.id = thread.id ∧ row.createdAt = thread.createdAt ∧ row.lastActivity = thread.lastActivity) :
    Joined tables (threads.filterMap join) where
  threads := by
    intro row mem
    obtain ⟨thread, inThreads, joined⟩ := mem_filterMap.mp mem
    exact ⟨thread, known.subset inThreads, (columns thread row joined).2⟩
  unique := UniqueBy.filterMap (tables.threadsUnique.sublist (known.map _)) fun thread row joined =>
    (columns thread row joined).1

theorem Joined.filter (joined : Joined tables rows) (keep : AllThreadsRow → Bool) : Joined tables (rows.filter keep) where
  threads row mem := joined.threads row (mem_of_mem_filter mem)
  unique := joined.unique.sublist (filter_sublist.map _)

theorem allThreadsRows_joined : Joined tables tables.allThreadsRows := by
  refine .of_filterMap filter_sublist fun thread row found => ?_
  obtain ⟨room, -, joined⟩ := bind_eq_some_iff.mp found
  exact Tables.threadRow_columns joined

theorem roomThreadsRows_joined (room : RoomEntry) : Joined tables (tables.roomThreadsRows room) :=
  .of_filterMap (filter_sublist.trans filter_sublist) fun _ _ joined => Tables.threadRow_columns joined

theorem Joined.timed (joined : Joined tables rows) (stamped : tables.Stamped text) : Timed text sort rows := by
  intro row mem
  obtain ⟨thread, inThreads, created, active⟩ := joined.threads row mem
  refine stamped thread inThreads _ ?_
  cases sort with
  | new => exact .inl created
  | active =>
    rw [cursorTime, AllThreadsRow.activity, ← active, ← created]
    cases row.lastActivity with
    | none => exact .inl rfl
    | some time => exact .inr rfl

end Tables

section Completeness

variable {text : CursorText} {tables : Tables} {reader : Reader} {listing : Listing}

theorem Listing.ask_eq (resolves : listing.Resolves text tables) : ∃ rows summarise, Joined tables rows ∧ Summarises summarise ∧
    listing.rows text tables = inOrder listing.sort rows ∧
    listing.ask text tables reader = chronoPage text listing.sort rows (listing.shows reader) summarise := by
  cases listing with
  | all sort => exact ⟨_, _, allThreadsRows_joined, summaries_summarises, rfl, rfl⟩
  | room roomIdOrSlug sort =>
    obtain ⟨room, found⟩ := isSome_iff_exists.mp resolves
    refine ⟨tables.roomThreadsRows room, summaries tables reader, roomThreadsRows_joined room, summaries_summarises, ?_, ?_⟩
    · simp only [Listing.rows, Listing.sort, found, elim_some]
    · funext cursor
      simp only [Listing.ask, Listing.sort, listThreads, found]
      rfl
  | announcements =>
    refine ⟨_, _, allThreadsRows_joined.filter _, fun page => ?_, rfl, rfl⟩
    rw [List.map_map]
    rfl

/-- Where a listing by activity goes on: at the start and behind the last thread of each page, the cursor lets every
visible thread pass that comes behind, and the page holds none that came before, and a visible one if any is left. -/
def Listing.GoesOn (listing : Listing) (text : CursorText) (tables : Tables) (reader : Reader) : Prop :=
  match listing.sort with
  | .new => NoHiddenPage (listing.shows reader) pageSize (listing.rows text tables)
  | .active => ∀ since, PageEnd (cursorPasses .active) (listing.shows reader) pageSize (listing.rows text tables) since →
      PageFollows (cursorPasses .active) (listing.shows reader) pageSize (listing.rows text tables)
        (listedBefore .active) since

theorem Listing.goesOn_iff (sorted : (listing.rows text tables).Pairwise fun a b => listedBefore listing.sort a b = true) :
    listing.GoesOn text tables reader ↔
      ∃ requests, filteredWalk (cursorPasses listing.sort) (listing.shows reader) pageSize (listing.rows text tables)
        requests none = some ((listing.rows text tables).filter (listing.shows reader)) := by
  rw [filteredWalk_whole_iff sorted listedBefore_strict cursorPasses_strict,
    Listing.GoesOn]
  cases isSort : listing.sort with
  | active => rfl
  | new =>
    rw [isSort] at sorted
    rw [cursorPasses_new, follows_iff_noHiddenPage sorted listedBefore_strict]

/-- A listing by activity goes on if every thread was last active at a time of its own, and no visible thread comes
behind a page of hidden ones. -/
theorem Listing.goesOn_of_apart (isSort : listing.sort = .active)
    (sorted : (listing.rows text tables).Pairwise fun a b => listedBefore .active a b = true)
    (active : ∀ row ∈ listing.rows text tables, row.lastActivity.isSome = true)
    (apart : ∀ a ∈ listing.rows text tables, ∀ b ∈ listing.rows text tables, a.lastActivity = b.lastActivity → a = b)
    (shown : NoHiddenPage (listing.shows reader) pageSize (listing.rows text tables)) :
    listing.GoesOn text tables reader := by
  rw [GoesOn, isSort]
  refine fun since reached => follows_of_noHiddenPage ?_ sorted listedBefore_strict shown reached
  intro a inRows b other
  obtain ⟨atA, isA⟩ := isSome_iff_exists.mp (active a inRows)
  obtain ⟨atB, isB⟩ := isSome_iff_exists.mp (active b other)
  by_cases same : atA = atB
  · rw [apart a inRows b other (by rw [isA, isB, same]), cursorPasses_strict.irrefl, listedBefore_strict.irrefl]
  · rw [Bool.eq_iff_iff, cursorPasses_iff, listedBefore, decide_eq_true_iff]
    simp [cursorTime, AllThreadsRow.activity, orderKey, nullsLast, Prod.Lex.toLex_lt_toLex, isA, isB, Ne.symm same]

/-- Following the cursors of a listing comes to an end without an error, and returns every visible thread once and in
order if and only if the listing goes on. -/
theorem listWalk_complete_iff (lawful : text.Lawful) (stamped : tables.Stamped text)
    (resolves : listing.Resolves text tables) :
    (∃ requests sent, listWalk (listing.ask text tables reader) requests none = .ok sent) ∧
      ((listing.rows text tables).map (·.id)).Nodup ∧
      ((∃ requests, listWalk (listing.ask text tables reader) requests none =
          .ok (((listing.rows text tables).filter (listing.shows reader)).map (·.id))) ↔
        listing.GoesOn text tables reader) := by
  obtain ⟨rows, summarise, joined, same, inRows, asks⟩ := @Listing.ask_eq text tables reader listing resolves
  have sorted := inRows ▸ @inOrder_sorted listing.sort rows joined.unique
  have unique : UniqueBy (·.id) (listing.rows text tables) := by
    rw [inRows]
    exact ((perm_insertionSort _ _).map _).nodup_iff.mpr joined.unique
  have walks : ∀ requests, listWalk (listing.ask text tables reader) requests none =
      (filteredWalk (cursorPasses listing.sort) (listing.shows reader) pageSize (listing.rows text tables)
        requests none).elim (.error .unfinished) fun sent => .ok (sent.map (·.id)) := by
    intro requests
    rw [asks, inRows]
    have start : ∀ row ∈ (none : Option AllThreadsRow), row ∈ rows := by simp
    refine (listWalk_eq lawful (joined.timed stamped) same start).trans ?_
    cases filteredWalk (cursorPasses listing.sort) (listing.shows reader) pageSize (inOrder listing.sort rows) requests
      none <;> rfl
  refine ⟨?_, unique, ?_⟩
  · obtain ⟨sent, ended⟩ := @filteredWalk_ends _ (cursorPasses listing.sort) (listing.shows reader) pageSize
      ((listing.rows text tables).length + 1) (listing.rows text tables) none cursorPasses_strict
      (Nat.lt_succ_self _)
    exact ⟨_, _, by rw [walks, ended]; rfl⟩
  · rw [Listing.goesOn_iff sorted]
    refine exists_congr fun requests => ?_
    rw [walks]
    cases walked : filteredWalk (cursorPasses listing.sort) (listing.shows reader) pageSize (listing.rows text tables)
        requests none with
    | none => exact ⟨by simp, by simp⟩
    | some sent =>
      simp only [elim_some, Except.ok.injEq, some.injEq]
      refine ⟨fun ids => ?_, fun whole => by rw [whole]⟩
      have known : ∀ row ∈ sent, row ∈ listing.rows text tables := fun row mem =>
        (mem_rowsPast.mp (mem_of_filteredWalk cursorPasses_strict walked row mem)).1
      exact unique.map_inj known (fun row mem => mem_of_mem_filter mem) ids

end Completeness

def grouped : List Nat → List Char → List Char
  | [], digits => digits
  | length :: groups, digits => digits.take length ++ '-' :: grouped groups (digits.drop length)

def showUuid (id : Uuid) : List Char :=
  grouped [8, 4, 4, 4] (hexText 32 id.toNat)

def readUuid (text : List Char) : Option Uuid :=
  (readHex (text.filter (· != '-'))).map (BitVec.ofNat 128)

def fits : List Char → List Char → Bool
  | [], [] => true
  | s :: shape, c :: text => (if s = '#' then c.isDigit else s = c) && fits shape text
  | _, _ => false

def plainText : CursorText where
  dateTime := fits "####-##-##T##:##:##".toList
  readUuid := readUuid
  showUuid := showUuid

theorem filter_grouped {groups : List Nat} {digits : List Char} (plain : '-' ∉ digits) :
    (grouped groups digits).filter (· != '-') = digits := by
  have kept : ∀ part : List Char, part.Sublist digits → part.filter (· != '-') = part := by
    intro part inside
    refine filter_eq_self.mpr fun c mem => ?_
    rw [bne_iff_ne]
    rintro rfl
    exact plain (inside.subset mem)
  induction groups generalizing digits with
  | nil => exact kept digits (List.Sublist.refl _)
  | cons length groups ih =>
    have later := ih (fun mem => plain (mem_of_mem_drop mem)) fun part inside =>
      kept part (inside.trans (drop_sublist length digits))
    rw [grouped, filter_append, kept _ (take_sublist length digits), filter_cons_of_neg (by decide), later,
      take_append_drop]

theorem showUuid_digits (id : Uuid) : (showUuid id).filter (· != '-') = hexText 32 id.toNat :=
  filter_grouped fun mem => absurd (mem_hexText mem) (by decide)

theorem fits_chars {shape text : List Char} (fit : fits shape text = true) : ∀ c ∈ text, c.isDigit = true ∨ c ∈ shape := by
  induction shape generalizing text with
  | nil =>
    cases text with
    | nil => exact nofun
    | cons => cases fit
  | cons s shape ih =>
    cases text with
    | nil => exact nofun
    | cons first text =>
      obtain ⟨here, rest⟩ := Bool.and_eq_true_iff.mp fit
      intro c mem
      rcases mem_cons.mp mem with rfl | later
      · split at here
        · exact .inl here
        · exact .inr (of_decide_eq_true here ▸ mem_cons_self)
      · exact (ih rest c later).imp_right (mem_cons_of_mem _)

theorem plainText_lawful : plainText.Lawful where
  uuid id := by
    have read : readHex ((showUuid id).filter (· != '-')) = some id.toNat := by
      rw [showUuid_digits, readHex_hexText id.isLt]
    simp only [plainText, readUuid, read, map_some, BitVec.ofNat_toNat, BitVec.setWidth_eq]
  uuidPlain id mem := by
    have kept : '|' ∈ (showUuid id).filter (· != '-') := mem_filter.mpr ⟨mem, by decide⟩
    rw [showUuid_digits] at kept
    exact absurd (mem_hexText kept) (by decide)
  timePlain time timed mem := by
    rcases fits_chars timed '|' mem with digit | inShape
    · cases digit
    · exact absurd inShape (by decide)

/-- Threads that share a time, the first ones by an author whom the reader does not see. -/
def crowdedTables (hidden : Nat) : List ThreadEntry :=
  ((List.range hidden).map fun i =>
    ⟨BitVec.ofNat 128 (hidden - i), "title", 11, 8, "2026-01-01T00:00:00Z", false, none, 1, none⟩) ++
    [⟨0, "title", 12, 8, "2026-01-01T00:00:00Z", false, none, 1, none⟩]

def crowded : Tables where
  users := [⟨11, "name", 0, .active⟩, ⟨12, "other", 1, .active⟩]
  rooms := [⟨8, "room", none, none⟩]
  threads := crowdedTables 20
  posts := []
  roomsUnique := by unfold UniqueBy; decide
  threadsUnique := by unfold UniqueBy; decide +kernel
  postsUnique := by unfold UniqueBy; decide
  threadAuthors := by decide +kernel
  threadRooms := by decide +kernel
  postAuthors := by decide

def crowdReader : Reader where
  id := 20
  trustMap _ := none
  reverseMap author := if author = 12 then some 1 else none
  distrustSet := []
  tagMap _ := none

/-- A page of hidden threads ends the walk before the visible one. -/
theorem hidden_page_ends : ¬ ∃ requests, listWalk (Listing.ask plainText crowded crowdReader (.all .new)) requests none =
    .ok ((((Listing.all .new).rows plainText crowded).filter ((Listing.all .new).shows crowdReader)).map (·.id)) := by
  rintro ⟨requests, walked⟩
  have first : (Listing.ask plainText crowded crowdReader (.all .new) none).toOption.map
      (fun page => (page.threads.map (·.id), page.nextCursor)) = some ([], none) := by
    decide +kernel
  have visible : (((Listing.all .new).rows plainText crowded).filter ((Listing.all .new).shows crowdReader)).map (·.id) =
      [0] := by
    decide +kernel
  rw [visible] at walked
  cases requests with
  | zero => cases walked
  | succ requests =>
    cases asked : Listing.ask plainText crowded crowdReader (.all .new) none with
    | error error =>
      rw [asked] at first
      cases first
    | ok page =>
      rw [asked] at first
      obtain ⟨empty, last⟩ := Prod.mk.inj (some.inj first)
      simp only [listWalk, asked, last, empty, Except.ok.injEq] at walked
      cases walked

def sparse : Tables :=
  { crowded with
    threads := crowdedTables 1
    threadsUnique := by unfold UniqueBy; decide
    threadAuthors := by decide
    threadRooms := by decide }

/-- One hidden thread is passed. -/
theorem hidden_thread_passed : ∃ requests, listWalk (Listing.ask plainText sparse crowdReader (.all .new)) requests none =
    .ok [0] := by
  have stamped : sparse.Stamped plainText := by
    intro thread mem time isTime
    have times : ∀ thread ∈ sparse.threads, thread.createdAt = "2026-01-01T00:00:00Z" ∧ thread.lastActivity = none := by
      decide +kernel
    obtain ⟨created, active⟩ := times thread mem
    rcases isTime with rfl | isLast
    · rw [created]
      decide +kernel
    · rw [active] at isLast
      cases isLast
  have two : ((Listing.all .new).rows plainText sparse).length = 2 := by decide +kernel
  have goesOn : (Listing.all .new).GoesOn plainText sparse crowdReader := by
    intro front hidden rest split filled
    rw [split, length_append, length_append, filled] at two
    have : pageSize = 20 := rfl
    omega
  have visible : (((Listing.all .new).rows plainText sparse).filter ((Listing.all .new).shows crowdReader)).map (·.id) =
      [0] := by
    decide +kernel
  exact visible ▸ (@listWalk_complete_iff plainText sparse crowdReader (.all .new) plainText_lawful stamped trivial).2.2.mpr
    goesOn

end Prismoire
