import Prismoire.BulkPages
import Prismoire.Lib.Base64
import Prismoire.Lib.Paging

namespace Prismoire

open Lib List Option

inductive PullRefusal where
  | limitOutOfRange
  | invalidCursor
  | tooManyRequests
  | unknownChain
  | internalError
  deriving DecidableEq

def readLimit (cap : Nat) : Option Nat → Except PullRefusal Nat
  | none => .ok cap
  | some limit => if 1 ≤ limit ∧ limit ≤ cap then .ok limit else .error .limitOutOfRange

/-- `since`: empty is the same as absent. -/
def readSince {κ : Type} (decode : Bytes → Option κ) : Option Text → Except PullRefusal (Option κ)
  | none => .ok none
  | some since =>
    if since = "" then
      .ok none
    else
      match (Base64.decode since).bind decode with
      | none => .error .invalidCursor
      | some place => .ok (some place)

def pairRows (source target : Key) (db : Db) : List ChainRow :=
  (db.pairEdges source target).filterMap (chainRow db)

def getEdgesBackfill (db : Db) (source target : Key) (since : Option Text) (limit : Option Nat) :
    Except PullRefusal (Page ChainRow Bytes) := do
  let limit ← readLimit maxEdgeBackfillPage limit
  let since ← readSince Cursor.decode since
  match handleEdgesBackfill db { source, target, since, limit := some limit } with
  | .ok page => return ⟨page.objects, page.nextCursor, page.complete⟩
  | .error .limitOutOfRange => .error .limitOutOfRange
  | .error .unknownChain => .error .unknownChain
  | .error .internalError => .error .internalError

def maxMoveBackfillPage : Nat := 100

structure MoveCursor where
  createdAtMs : Int
  canonicalHash : Hash

def MoveCursor.encode (cursor : MoveCursor) : Bytes :=
  Cbor.beBytes 8 (asU64 cursor.createdAtMs).toNat ++ Cbor.beBytes 32 cursor.canonicalHash.toNat

def MoveCursor.decode (sent : Bytes) : Option MoveCursor :=
  if sent.length = 8 + 32 then
    some ⟨asI64 (Cbor.ofBe (sent.take 8)), BitVec.ofNat 256 (Cbor.ofBe (sent.drop 8))⟩
  else
    none

def MoveCursor.before (a b : MoveCursor) : Prop :=
  a.createdAtMs < b.createdAtMs ∨ (a.createdAtMs = b.createdAtMs ∧ a.canonicalHash < b.canonicalHash)

instance MoveCursor.before.decidable : DecidableRel MoveCursor.before :=
  fun a b => inferInstanceAs (Decidable (a.createdAtMs < b.createdAtMs ∨ _))

structure MoveChainRow where
  payload : Bytes
  signature : Bytes
  createdAtMs : Int
  canonicalHash : Hash

def MoveChainRow.cursor (row : MoveChainRow) : MoveCursor :=
  ⟨row.createdAtMs, row.canonicalHash⟩

def moveChainRow (db : Db) (move : UserMoveRow) : Option MoveChainRow :=
  match db.signedObjects.find? (·.canonicalHash = move.canonicalHash) with
  | none => none
  | some object => object.payload.map fun payload =>
      { payload, signature := object.signature, createdAtMs := move.createdAt, canonicalHash := move.canonicalHash }

def moveRows (key : Key) (db : Db) : List MoveChainRow :=
  (db.userMoves.filter (·.userKey = key)).filterMap (moveChainRow db)

/-- No cursor can fail here, so there is no internal error for one. -/
def handleMovesBackfill (db : Db) (key : Key) (since : Option Text) (limit : Option Nat) :
    Except PullRefusal (Page MoveChainRow Bytes) := do
  let limit ← readLimit maxMoveBackfillPage limit
  let since ← readSince MoveCursor.decode since
  let fetched := (rowsAfter MoveCursor.before MoveChainRow.cursor (moveRows key db) since).take (limit + 1)
  if since.isNone && fetched.isEmpty then
    .error .unknownChain
  else
    let hasMore := decide (limit < fetched.length)
    let page := fetched.take limit
    let next := if hasMore then page.getLast?.map (·.cursor.encode) else none
    return ⟨page, next, !hasMore⟩

/-- The stored tables with the `received_at` of each object. -/
structure PullStore where
  db : Db
  receivedAt : Hash → Text

def PullStore.row (store : PullStore) (object : SignedObjectRow) : Option ChainRow :=
  object.payload.map fun payload =>
    { payload, signature := object.signature, createdAt := store.receivedAt object.canonicalHash,
      canonicalHash := object.canonicalHash }

def signedBy (db : Db) (author : Key) (hash : Hash) : Bool :=
  (db.postRevisions.any fun revision => revision.canonicalHash = hash ∧
    db.posts.any fun post => post.id = revision.postId ∧ post.author = author) ||
  (db.profileRevisions.any fun profile => profile.canonicalHash = hash ∧ profile.user = author) ||
  db.threads.any fun thread => thread.threadCreateHash = some hash ∧ thread.author = author

def PullStore.authorRows (author : Key) (store : PullStore) : List ChainRow :=
  (store.db.signedObjects.filter fun object => signedBy store.db author object.canonicalHash).filterMap store.row

inductive Direction where
  | source
  | target
  | both

def Direction.takes (direction : Direction) (key : Key) (edge : TrustEdgeRow) : Bool :=
  match direction with
  | .source => edge.sourceUser = key
  | .target => edge.targetUser = key
  | .both => edge.sourceUser = key ∨ edge.targetUser = key

def PullStore.edgeRows (direction : Direction) (key : Key) (store : PullStore) : List ChainRow :=
  (store.db.trustEdges.filter (direction.takes key)).filterMap fun edge =>
    (store.db.signedObjects.find? (·.canonicalHash = edge.canonicalHash)).bind store.row

/-- The two handlers by key are one, over different rows; a key without a `users` row has none. -/
def pullByKey (rows : PullStore → List ChainRow) (store : PullStore) (key : Key) (since : Option Text) (limit : Option Nat)
    (admitted : Bool) : Except PullRefusal (Page ChainRow Bytes) := do
  let limit ← readLimit maxBackfillPage limit
  let since ← readSince Cursor.decode since
  if !admitted then
    .error .tooManyRequests
  else if !store.db.hasUser key then
    return ⟨[], none, true⟩
  else
    keysetPage Cursor.before ChainRow.cursor Cursor.encode .internalError limit (rows store) since

def handleBackfillByAuthor (store : PullStore) (key : Key) :
    Option Text → Option Nat → Bool → Except PullRefusal (Page ChainRow Bytes) :=
  pullByKey (PullStore.authorRows key) store key

def handleBackfillEdgesByKey (store : PullStore) (key : Key) (direction : Direction) :
    Option Text → Option Nat → Bool → Except PullRefusal (Page ChainRow Bytes) :=
  pullByKey (PullStore.edgeRows direction key) store key

variable {limit : Nat}

section Walkers

/-- A client sends the cursor of a page back in base64url, with the same limit each time. -/
def edgesAsk (source target : Key) (limit : Nat) (db : Db) (token : Option Bytes) : Except PullRefusal
    (Page ChainRow Bytes) :=
  getEdgesBackfill db source target (token.map Base64.encode) (some limit)

def movesAsk (key : Key) (limit : Nat) (db : Db) (token : Option Bytes) : Except PullRefusal (Page MoveChainRow Bytes) :=
  handleMovesBackfill db key (token.map Base64.encode) (some limit)

/-- The limiter lets every request of the walk pass. -/
def authorAsk (key : Key) (limit : Nat) (store : PullStore) (token : Option Bytes) :
    Except PullRefusal (Page ChainRow Bytes) :=
  handleBackfillByAuthor store key (token.map Base64.encode) (some limit) true

def edgesByKeyAsk (key : Key) (direction : Direction) (limit : Nat) (store : PullStore) (token : Option Bytes) :
    Except PullRefusal (Page ChainRow Bytes) :=
  handleBackfillEdgesByKey store key direction (token.map Base64.encode) (some limit) true

variable {κ : Type} {decode : Bytes → Option κ} {mint : κ → Option Bytes} {token : Option Bytes} {place : Option κ}
    {cap : Nat}

theorem readLimit_some (some_ : 1 ≤ limit) (capped : limit ≤ cap) : readLimit cap (some limit) = .ok limit := by
  rw [readLimit, if_pos ⟨some_, capped⟩]

theorem readSince_places (decodes : ∀ place token, mint place = some token → token ≠ [] ∧ decode token = some place)
    (from_ : Places mint token place) : readSince decode (token.map Base64.encode) = .ok place := by
  cases from_ with
  | start => rfl
  | after minted =>
    obtain ⟨some_, decoded⟩ := decodes _ _ minted
    rw [map_some, readSince, if_neg (Base64.encode_ne_empty some_), Base64.decode_encode, bind_some, decoded]

theorem Cursor.decodes : ∀ place token, Cursor.encode place = some token → token ≠ [] ∧ Cursor.decode token = some place := by
  intro place token minted
  refine ⟨?_, Cursor.decode_encode minted⟩
  rintro rfl
  have length := Cursor.encode_length minted
  simp [isoTimestampLen] at length

end Walkers

variable {db : Db} {source target : Key}

section Edges

variable {since : Option Cursor}

/-- The pair has a chain: both ends are known, and at the start of a walk there is an edge. -/
def ChainOpen (source target : Key) (db : Db) (place : Option Cursor) : Prop :=
  db.hasUser source = true ∧ db.hasUser target = true ∧ (place = none → db.pairEdges source target ≠ [])

instance ChainOpen.decidable {place : Option Cursor} : Decidable (ChainOpen source target db place) :=
  inferInstanceAs (Decidable (_ ∧ _ ∧ (_ → _)))

variable (some_ : 1 ≤ limit) (capped : limit ≤ maxEdgeBackfillPage)
include some_ capped

theorem handleEdgesBackfill_open (isOpen : ChainOpen source target db since) :
    handleEdgesBackfill db { source, target, since, limit := some limit } =
      (keysetPage Cursor.before ChainRow.cursor Cursor.encode BackfillRefusal.internalError limit
        (pairRows source target db) since).map fun page => ⟨page.objects, page.next, page.complete⟩ := by
  obtain ⟨knowsSource, knowsTarget, chained⟩ := isOpen
  have inRange : ¬(limit < 1 ∨ maxEdgeBackfillPage < limit) := by omega
  have rows : chainRows db source target since =
      rowsAfter Cursor.before ChainRow.cursor (pairRows source target db) since := rfl
  simp only [handleEdgesBackfill, getD_some, if_neg inRange, knowsSource, knowsTarget, Bool.not_true, Bool.or_self,
    Bool.false_eq_true, if_false, rows]
  split
  · rename_i nothing
    obtain ⟨first, empty⟩ := Bool.and_eq_true_iff.mp nothing
    have first : since = none := by simpa using first
    have ahead : rowsAfter Cursor.before ChainRow.cursor (pairRows source target db) since = [] := by
      simpa using empty
    have some_ : (db.pairEdges source target).isEmpty = false := by simpa using chained first
    rw [keysetPage_last (by simp [ahead]), ahead, some_]
    rfl
  · unfold keysetPage
    dsimp only
    rw [apply_ite (Except.map _)]
    rfl

theorem handleEdgesBackfill_closed (closed : ¬ChainOpen source target db since) :
    handleEdgesBackfill db { source, target, since, limit := some limit } = .error .unknownChain := by
  have inRange : ¬(limit < 1 ∨ maxEdgeBackfillPage < limit) := by omega
  simp only [handleEdgesBackfill, getD_some, if_neg inRange]
  by_cases known : db.hasUser source = true ∧ db.hasUser target = true
  · simp only [known.1, known.2, Bool.not_true, Bool.or_self, Bool.false_eq_true, if_false]
    have unchained : since = none ∧ db.pairEdges source target = [] := by
      by_contra chained
      exact closed ⟨known.1, known.2, fun first empty => chained ⟨first, empty⟩⟩
    obtain ⟨rfl, empty⟩ := unchained
    simp [chainRows, empty]
  · have unknown : (!db.hasUser source || !db.hasUser target) = true := by
      rw [Bool.or_eq_true, Bool.not_eq_true', Bool.not_eq_true']
      by_contra both
      simp only [not_or, Bool.not_eq_false] at both
      exact known both
    rw [if_pos unknown]

theorem edges_serve :
    Serves Cursor.before ChainRow.cursor Cursor.encode limit (edgesAsk source target limit) (pairRows source target)
      (ChainOpen source target) fun _ => True where
  answers := by
    intro db token place _ from_ isOpen
    refine ⟨.internalError, ?_⟩
    simp only [edgesAsk, getEdgesBackfill, readLimit_some some_ capped, readSince_places Cursor.decodes from_, bind,
      Except.bind, handleEdgesBackfill_open some_ capped isOpen]
    by_cases short : (rowsAfter Cursor.before ChainRow.cursor (pairRows source target db) place).length ≤ limit
    · rw [keysetPage_last short, keysetPage_last short]
      rfl
    · have long : limit < (rowsAfter Cursor.before ChainRow.cursor (pairRows source target db) place).length := by omega
      obtain ⟨last, atEnd⟩ := exists_last some_ long
      rw [keysetPage_more long atEnd, keysetPage_more long atEnd]
      cases last.cursor.encode <;> rfl
  refuses := by
    intro db token place _ from_ closed
    refine ⟨.unknownChain, ?_⟩
    simp only [edgesAsk, getEdgesBackfill, readLimit_some some_ capped, readSince_places Cursor.decodes from_, bind,
      Except.bind, handleEdgesBackfill_closed some_ capped closed]

end Edges

variable {key : Key}

section MoveWalks

def MovesOpen (key : Key) (db : Db) (place : Option MoveCursor) : Prop :=
  place = none → moveRows key db ≠ []

instance MovesOpen.decidable {place : Option MoveCursor} : Decidable (MovesOpen key db place) :=
  inferInstanceAs (Decidable (_ → _))

instance : IsStrictTotalOrder MoveCursor MoveCursor.before where
  trichotomous := by
    intro a b notLess notMore
    simp only [MoveCursor.before, not_or, not_and, not_lt, BitVec.not_lt] at notLess notMore
    have time : a.createdAtMs = b.createdAtMs := le_antisymm notMore.1 notLess.1
    have hash : a.canonicalHash = b.canonicalHash := BitVec.le_antisymm (notMore.2 time.symm) (notLess.2 time)
    exact MoveCursor.mk.injEq .. ▸ ⟨time, hash⟩
  irrefl a ahead := by
    rcases ahead with less | ⟨-, less⟩
    · exact absurd less (lt_irrefl _)
    · exact BitVec.lt_irrefl _ less
  trans a b c first second := by
    rcases first with less | ⟨same, less⟩
    · rcases second with less' | ⟨same', -⟩
      · exact .inl (less.trans less')
      · exact .inl (same' ▸ less)
    · rcases second with less' | ⟨same', less'⟩
      · exact .inl (same ▸ less')
      · exact .inr ⟨same.trans same', BitVec.lt_trans less less'⟩

theorem asI64_asU64 {x : Int} (low : -2 ^ 63 ≤ x) (high : x < 2 ^ 63) : asI64 (asU64 x).toNat = x := by
  rw [asU64, UInt64.toNat_ofNat', asI64]
  omega

theorem MoveCursor.decode_encode {cursor : MoveCursor} (low : -2 ^ 63 ≤ cursor.createdAtMs)
    (high : cursor.createdAtMs < 2 ^ 63) : MoveCursor.decode cursor.encode = some cursor := by
  have time : (Cbor.beBytes 8 (asU64 cursor.createdAtMs).toNat).length = 8 := Cbor.length_beBytes _ _
  have small : (asU64 cursor.createdAtMs).toNat < 256 ^ 8 := (asU64 cursor.createdAtMs).toNat_lt
  have hash : cursor.canonicalHash.toNat < 256 ^ 32 := cursor.canonicalHash.isLt
  rw [MoveCursor.decode, MoveCursor.encode, if_pos (by rw [length_append, Cbor.length_beBytes, Cbor.length_beBytes]),
    take_left' time, drop_left' time, Cbor.ofBe_beBytes, Cbor.ofBe_beBytes, Nat.mod_eq_of_lt small,
    Nat.mod_eq_of_lt hash, asI64_asU64 low high, BitVec.ofNat_toNat, BitVec.setWidth_eq]

/-- The cursors of a 64-bit column. -/
def MoveCursor.mint (cursor : MoveCursor) : Option Bytes :=
  if -2 ^ 63 ≤ cursor.createdAtMs ∧ cursor.createdAtMs < 2 ^ 63 then some cursor.encode else none

theorem MoveCursor.decodes : ∀ place token, MoveCursor.mint place = some token → token ≠ [] ∧ MoveCursor.decode token = some place := by
  intro place token minted
  unfold MoveCursor.mint at minted
  split at minted
  · rename_i inRange
    cases minted
    have decoded := MoveCursor.decode_encode inRange.1 inRange.2
    refine ⟨?_, decoded⟩
    intro empty
    rw [empty] at decoded
    cases decoded
  · cases minted

def MoveTimes (db : Db) : Prop :=
  ∀ move ∈ db.userMoves, -2 ^ 63 ≤ move.createdAt ∧ move.createdAt < 2 ^ 63

theorem mint_moveRow {row : MoveChainRow} (times : MoveTimes db) (mem : row ∈ moveRows key db) :
    row.cursor.mint = some row.cursor.encode := by
  obtain ⟨move, inMoves, joined⟩ := mem_filterMap.mp mem
  have inRange := times move (mem_of_mem_filter inMoves)
  unfold moveChainRow at joined
  split at joined
  · cases joined
  · obtain ⟨payload, -, rfl⟩ := map_eq_some_iff.mp joined
    exact if_pos inRange

theorem moves_serve (some_ : 1 ≤ limit) (capped : limit ≤ maxMoveBackfillPage) :
    Serves MoveCursor.before MoveChainRow.cursor MoveCursor.mint limit (movesAsk key limit) (moveRows key) (MovesOpen key)
      MoveTimes where
  answers := by
    intro db token place times from_ isOpen
    refine ⟨.internalError, ?_⟩
    have started : (place.isNone &&
        ((rowsAfter MoveCursor.before MoveChainRow.cursor (moveRows key db) place).take (limit + 1)).isEmpty) = false := by
      by_contra nothing
      obtain ⟨first, empty⟩ := Bool.and_eq_true_iff.mp (eq_true_of_ne_false nothing)
      have first : place = none := by simpa using first
      obtain ⟨row, mem⟩ := exists_mem_of_ne_nil _ (isOpen first)
      have ahead : row ∈ rowsAfter MoveCursor.before MoveChainRow.cursor (moveRows key db) place :=
        mem_rowsAfter.mpr ⟨mem, by simp [first]⟩
      have none_ : rowsAfter MoveCursor.before MoveChainRow.cursor (moveRows key db) place = [] := by simpa using empty
      rw [none_] at ahead
      cases ahead
    simp only [movesAsk, handleMovesBackfill, readLimit_some some_ capped, readSince_places MoveCursor.decodes from_, bind,
      Except.bind, started, Bool.false_eq_true, if_false, pure, Except.pure]
    by_cases short : (rowsAfter MoveCursor.before MoveChainRow.cursor (moveRows key db) place).length ≤ limit
    · have fetched : (rowsAfter MoveCursor.before MoveChainRow.cursor (moveRows key db) place).take (limit + 1) =
          rowsAfter MoveCursor.before MoveChainRow.cursor (moveRows key db) place := take_of_length_le (by omega)
      have noMore : decide (limit < (rowsAfter MoveCursor.before MoveChainRow.cursor (moveRows key db) place).length) =
          false := by simpa using short
      simp only [keysetPage_last short, fetched, noMore, Bool.false_eq_true, if_false, Bool.not_false,
        take_of_length_le short]
    · have long : limit < (rowsAfter MoveCursor.before MoveChainRow.cursor (moveRows key db) place).length := by omega
      obtain ⟨last, atEnd⟩ := exists_last some_ long
      have inRows := (mem_rowsAfter.mp (mem_of_mem_take (mem_of_getLast? atEnd))).1
      have more : decide (limit < ((rowsAfter MoveCursor.before MoveChainRow.cursor (moveRows key db) place).take
          (limit + 1)).length) = true := by
        rw [decide_eq_true_eq, length_take]
        omega
      have page : ((rowsAfter MoveCursor.before MoveChainRow.cursor (moveRows key db) place).take (limit + 1)).take limit =
          (rowsAfter MoveCursor.before MoveChainRow.cursor (moveRows key db) place).take limit := by
        rw [take_take, Nat.min_eq_left (Nat.le_succ _)]
      rw [keysetPage_more long atEnd, mint_moveRow times inRows]
      simp only [more, page, if_true, atEnd, map_some, Bool.not_true]
  refuses := by
    intro db token place times from_ closed
    refine ⟨.unknownChain, ?_⟩
    have unmoved : place = none ∧ moveRows key db = [] := by
      by_contra moved
      exact closed fun first empty => moved ⟨first, empty⟩
    obtain ⟨rfl, empty⟩ := unmoved
    simp only [movesAsk, handleMovesBackfill, readLimit_some some_ capped, readSince_places MoveCursor.decodes from_, bind,
      Except.bind, empty]
    rfl

end MoveWalks

variable {rows : PullStore → List ChainRow}

section KeyWalks

def PullStore.knownRows (key : Key) (rows : PullStore → List ChainRow) (store : PullStore) : List ChainRow :=
  if store.db.hasUser key then rows store else []

theorem pull_serve (some_ : 1 ≤ limit) (capped : limit ≤ maxBackfillPage) :
    Serves Cursor.before ChainRow.cursor Cursor.encode limit
      (fun store token => pullByKey rows store key (token.map Base64.encode) (some limit) true)
      (PullStore.knownRows key rows) (fun _ _ => True) fun _ => True where
  answers := by
    intro store token place _ from_ _
    refine ⟨.internalError, ?_⟩
    simp only [pullByKey, readLimit_some some_ capped, readSince_places Cursor.decodes from_, bind, Except.bind,
      Bool.not_true, Bool.false_eq_true, if_false, PullStore.knownRows]
    cases store.db.hasUser key with
    | true => rfl
    | false =>
      simp only [Bool.not_false, if_true, Bool.false_eq_true, if_false]
      rw [keysetPage_last (by simp [rowsAfter])]
      rfl
  refuses := fun _ _ closed => absurd trivial closed

end KeyWalks

section Claims

/-- The keys of the tables, and the range of an integer column. -/
structure KeyedTables (db : Db) : Prop where
  edges : UniqueBy TrustEdgeRow.canonicalHash db.trustEdges
  objects : UniqueBy SignedObjectRow.canonicalHash db.signedObjects
  moves : UniqueBy (fun row : UserMoveRow => (row.userKey, row.canonicalHash)) db.userMoves
  moveTimes : MoveTimes db

theorem KeyedTables.pairRows (keyed : KeyedTables db) :
    UniqueBy ChainRow.canonicalHash (pairRows source target db) := by
  refine UniqueBy.filterMap (keyed.edges.sublist (filter_sublist.map _)) ?_
  intro edge row joined
  unfold chainRow at joined
  split at joined
  · cases joined
  · obtain ⟨payload, -, rfl⟩ := map_eq_some_iff.mp joined
    rfl

theorem KeyedTables.moveRows (keyed : KeyedTables db) : UniqueBy MoveChainRow.canonicalHash (moveRows key db) := by
  have own : UniqueBy UserMoveRow.canonicalHash (db.userMoves.filter (·.userKey = key)) := by
    have pairs : UniqueBy (fun row : UserMoveRow => (row.userKey, row.canonicalHash))
        (db.userMoves.filter (·.userKey = key)) := keyed.moves.sublist (filter_sublist.map _)
    refine pairs.of_key fun row mem other inOther same => ?_
    have first : row.userKey = key := by simpa using (mem_filter.mp mem).2
    have second : other.userKey = key := by simpa using (mem_filter.mp inOther).2
    exact Prod.ext (first.trans second.symm) same
  refine UniqueBy.filterMap own ?_
  intro move row joined
  unfold moveChainRow at joined
  split at joined
  · cases joined
  · obtain ⟨payload, -, rfl⟩ := map_eq_some_iff.mp joined
    rfl

variable {store : PullStore}

theorem hash_row {object : SignedObjectRow} {row : ChainRow} (pulled : store.row object = some row) :
    row.canonicalHash = object.canonicalHash ∧ row.createdAt = store.receivedAt row.canonicalHash := by
  obtain ⟨payload, -, rfl⟩ := map_eq_some_iff.mp pulled
  exact ⟨rfl, rfl⟩

theorem KeyedTables.authorRows (keyed : KeyedTables store.db) : UniqueBy ChainRow.canonicalHash (store.authorRows key) :=
  UniqueBy.filterMap (keyed.objects.sublist (filter_sublist.map _)) fun _ _ pulled => (hash_row pulled).1

theorem KeyedTables.edgeRows {direction : Direction} (keyed : KeyedTables store.db) :
    UniqueBy ChainRow.canonicalHash (store.edgeRows direction key) := by
  refine UniqueBy.filterMap (keyed.edges.sublist (filter_sublist.map _)) ?_
  intro edge row joined
  obtain ⟨object, found, pulled⟩ := bind_eq_some_iff.mp joined
  have named : object.canonicalHash = edge.canonicalHash := by simpa using find?_some found
  exact (hash_row pulled).1.trans named

theorem uniqueBy_knownRows (unique : UniqueBy ChainRow.canonicalHash (rows store)) :
    UniqueBy ChainRow.canonicalHash (store.knownRows key rows) := by
  unfold PullStore.knownRows
  split
  · exact unique
  · exact .nil

/-- The text that `encode_cursor` takes: twenty characters, all ASCII. -/
def Stamp (text : Text) : Prop :=
  text.utf8ByteSize = isoTimestampLen ∧ text.toList.all (·.toNat < 128) = true

instance Stamp.decidable {text : Text} : Decidable (Stamp text) :=
  inferInstanceAs (Decidable (_ ∧ _))

theorem encode_isSome {cursor : Cursor} : cursor.encode.isSome = true ↔ Stamp cursor.createdAt := by
  unfold Cursor.encode
  split
  · rename_i fits
    simp [Stamp, fits.1, fits.2]
  · rename_i misfit
    exact ⟨fun ended => by simp at ended, fun stamp => absurd stamp misfit⟩

theorem pull_paged {states : List PullStore} (some_ : 1 ≤ limit)
    (capped : limit ≤ maxBackfillPage) (unique : ∀ store ∈ states, UniqueBy ChainRow.canonicalHash (rows store))
    (stamped : ∀ store ∈ states, ∀ row ∈ rows store, Stamp row.createdAt) :
    Paged Cursor.before ChainRow.cursor ChainRow.canonicalHash
      (fun store token => pullByKey rows store key (token.map Base64.encode) (some limit) true)
      (PullStore.knownRows key rows) states := by
  refine ((pull_serve some_ capped).paged_iff some_ (fun _ _ => trivial)
    (fun store mem => uniqueBy_knownRows (unique store mem)) fun a b same => congrArg Cursor.canonicalHash same).mpr ?_
  refine pagesEnd_of_fits some_ (fun _ _ => trivial) (fun _ _ _ => trivial) fun store mem row inRows => ?_
  refine encode_isSome.mpr ?_
  unfold PullStore.knownRows at inRows
  split at inRows
  · exact stamped store mem row inRows
  · cases inRows

/-- The server has a chain for the pair: both users, and an edge when the walk begins. -/
structure HasChain (source target : Key) (states : List Db) : Prop where
  knowsSource : ∀ db ∈ states, db.hasUser source = true
  knowsTarget : ∀ db ∈ states, db.hasUser target = true
  begun : ∀ db, states.head? = some db → db.pairEdges source target ≠ []

/--
The four walks. The one through the edges of a pair does what it should exactly when no page but
the last ends on a row whose `created_at` is not in the fixed width; the others always do.
-/
theorem backfill_walks {receivedAt : Hash → Text} {states : List Db} (some_ : 1 ≤ limit) (capped : limit ≤ maxBackfillPage)
    (keyed : ∀ db ∈ states, KeyedTables db) (stamped : ∀ hash, Stamp (receivedAt hash)) :
    (∀ source target, HasChain source target states →
      (Paged Cursor.before ChainRow.cursor ChainRow.canonicalHash (edgesAsk source target limit)
        (pairRows source target) states ↔
      PagesEnd Cursor.before ChainRow.cursor (fun place => Stamp place.createdAt) limit (pairRows source target)
        (fun _ _ => True) states none)) ∧
    (∀ key, (∀ db, states.head? = some db → moveRows key db ≠ []) →
      Paged MoveCursor.before MoveChainRow.cursor MoveChainRow.canonicalHash (movesAsk key limit) (moveRows key) states) ∧
    (∀ key, Paged Cursor.before ChainRow.cursor ChainRow.canonicalHash (authorAsk key limit)
      (PullStore.knownRows key (PullStore.authorRows key)) (states.map (⟨·, receivedAt⟩))) ∧
    ∀ key direction, Paged Cursor.before ChainRow.cursor ChainRow.canonicalHash (edgesByKeyAsk key direction limit)
      (PullStore.knownRows key (PullStore.edgeRows direction key)) (states.map (⟨·, receivedAt⟩)) := by
  refine ⟨fun source target chain => ?_, fun key moved => ?_, fun key => ?_, fun key direction => ?_⟩
  · have opened : ∀ db ∈ states, ∀ place, (place = none → db.pairEdges source target ≠ []) → ChainOpen source target db place :=
      fun db mem _ edge => ⟨chain.knowsSource db mem, chain.knowsTarget db mem, edge⟩
    rw [(edges_serve some_ capped).paged_iff some_ (fun _ _ => trivial) (fun db mem => (keyed db mem).pairRows)
        fun a b same => congrArg Cursor.canonicalHash same,
      show (fun place : Cursor => place.encode.isSome = true) = fun place => Stamp place.createdAt from
        funext fun _ => propext encode_isSome]
    exact pagesEnd_open some_ (fun db isFirst => opened db (mem_of_head? isFirst) none fun _ => chain.begun db isFirst)
      fun db mem _ => opened db mem _ nofun
  · refine ((moves_serve some_ capped).paged_iff some_ (fun db mem => (keyed db mem).moveTimes)
      (fun db mem => (keyed db mem).moveRows) fun a b same => congrArg MoveCursor.canonicalHash same).mpr ?_
    refine pagesEnd_of_fits some_ (fun db isFirst _ => moved db isFirst) (fun _ _ _ => nofun) fun db mem row inRows => ?_
    rw [mint_moveRow (keyed db mem).moveTimes inRows]
    rfl
  · refine pull_paged some_ capped ?_ ?_
    · intro store mem
      obtain ⟨db, inStates, rfl⟩ := List.mem_map.mp mem
      exact (keyed db inStates).authorRows
    · intro store mem row inRows
      obtain ⟨db, inStates, rfl⟩ := List.mem_map.mp mem
      obtain ⟨object, -, pulled⟩ := mem_filterMap.mp inRows
      exact (hash_row pulled).2 ▸ stamped _
  · refine pull_paged some_ capped ?_ ?_
    · intro store mem
      obtain ⟨db, inStates, rfl⟩ := List.mem_map.mp mem
      exact (keyed db inStates).edgeRows
    · intro store mem row inRows
      obtain ⟨db, inStates, rfl⟩ := List.mem_map.mp mem
      obtain ⟨edge, -, joined⟩ := mem_filterMap.mp inRows
      obtain ⟨object, -, pulled⟩ := bind_eq_some_iff.mp joined
      exact (hash_row pulled).2 ▸ stamped _

end Claims

def pairState (platform : Platform) : AppState where
  platform
  instanceKey := 9
  edgeRowId hash := hash.setWidth 128
  edgeClock _ := "2026-01-01T00:00:00Z"

def pairDb (platform : Platform) (wires : List Bytes) : Db :=
  wires.foldl (fun db wire => deliverEdge (pairState platform) db wire 8)
    { users := [⟨1, "a", "a", .invite, none, false⟩, ⟨2, "b", "b", .invite, none, false⟩] }

/-- Three edges of one pair, two of them in one second. -/
def earlyPlatform : Platform :=
  { Platform.ofTable [.trustEdge ⟨1, 2, .trust, 1000, none⟩, .trustEdge ⟨1, 2, .distrust, 1500, some 1⟩,
      .trustEdge ⟨1, 2, .trust, 2000, some 2⟩] with
    formatTimestamp := fun secs => some ("1970-01-01T00:00:" ++ decimal 2 secs ++ "Z") }

/-- A move beside the edges; its bytes are those of the first edge. -/
def earlyDb (wires : List Bytes) : Db :=
  { pairDb earlyPlatform wires with
    userMoves := [⟨1, 1, 1000⟩] }

theorem earlyDb_keyed : ∀ db ∈ [earlyDb [[0], [1]], earlyDb [[0], [1], [2]]], KeyedTables db := by
  have keyed : ∀ db ∈ [earlyDb [[0], [1]], earlyDb [[0], [1], [2]]],
      (db.trustEdges.map (·.canonicalHash)).Nodup ∧ (db.signedObjects.map (·.canonicalHash)).Nodup ∧
      (db.userMoves.map fun row => (row.userKey, row.canonicalHash)).Nodup ∧
      ∀ move ∈ db.userMoves, -2 ^ 63 ≤ move.createdAt ∧ move.createdAt < 2 ^ 63 := by
    decide +kernel
  intro db mem
  obtain ⟨edges, objects, moves, times⟩ := keyed db mem
  exact ⟨edges, objects, moves, times⟩

/-- An edge comes in between two pages. -/
theorem backfill_walks_growing :
    let states := [earlyDb [[0], [1]], earlyDb [[0], [1], [2]], earlyDb [[0], [1], [2]]]
    let stores := states.map fun db => PullStore.mk db fun _ => "2026-01-01T00:00:00Z"
    Paged Cursor.before ChainRow.cursor ChainRow.canonicalHash (edgesAsk 1 2 1) (pairRows 1 2) states ∧
    Paged MoveCursor.before MoveChainRow.cursor MoveChainRow.canonicalHash (movesAsk 1 1) (moveRows 1) states ∧
    Paged Cursor.before ChainRow.cursor ChainRow.canonicalHash (authorAsk 1 1)
      (PullStore.knownRows 1 (PullStore.authorRows 1)) stores ∧
    Paged Cursor.before ChainRow.cursor ChainRow.canonicalHash (edgesByKeyAsk 1 .both 1)
      (PullStore.knownRows 1 (PullStore.edgeRows .both 1)) stores := by
  intro states stores
  have keyed : ∀ db ∈ states, KeyedTables db := fun db mem => earlyDb_keyed db (by simp [states] at mem ⊢; tauto)
  have stamp : Stamp "2026-01-01T00:00:00Z" := by decide +kernel
  have walks := @backfill_walks 1 _ states (by decide) (by decide) keyed fun _ => stamp
  have chain : HasChain 1 2 states := ⟨by decide +kernel, by decide +kernel, fun db isFirst => by
    cases isFirst
    decide +kernel⟩
  have moved : ∀ db, states.head? = some db → moveRows 1 db ≠ [] := fun db isFirst => by
    cases isFirst
    decide +kernel
  exact ⟨(walks.1 1 2 chain).mpr (by decide +kernel), walks.2.1 1 moved, walks.2.2.1 1, walks.2.2.2 1 .both⟩

/-- The calendar around the end of the year 9999. -/
def latePlatform : Platform :=
  { Platform.ofTable [.trustEdge ⟨1, 2, .trust, 253402300799000, none⟩,
      .trustEdge ⟨1, 2, .distrust, 253402300800000, some 1⟩] with
    formatTimestamp := fun secs =>
      some (if secs < 253402300800 then "9999-12-31T23:59:59Z" else "+10000-01-01T00:00:00Z") }

/-- The second edge of the pair bears a date in the year 10000. A walk by one row at a time does not get past it. -/
theorem late_edge_ends_walk :
    ¬Paged Cursor.before ChainRow.cursor ChainRow.canonicalHash (edgesAsk 1 2 1) (pairRows 1 2)
      (List.replicate 3 (pairDb latePlatform [[0], [1]])) := by
  intro paged
  have failed : walk ((List.replicate 3 (pairDb latePlatform [[0], [1]])).map (edgesAsk 1 2 1)) none =
      .error (.refused .internalError) := by
    decide +kernel
  cases paged.faultless _ failed

end Prismoire
