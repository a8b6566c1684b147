import Prismoire.Edges
import Prismoire.SignedRoundTrip

namespace Prismoire

open Lib List Option
open Lib.Cbor (Value Plain)

def signedObjectMap (payload signature : Bytes) : Value :=
  .map [(.text "p", .bytes payload), (.text "s", .bytes signature)]

def encodeSignedObject (cbor : Ciborium) (payload signature : Bytes) : Bytes :=
  cbor.intoWriter (signedObjectMap payload signature)

/-- The loop over the two entries; a key that is neither of the two names, or no bytes, ends it. -/
def readFrameField (found : Option Bytes × Option Bytes) (entry : Value × Value) :
    Option (Option Bytes × Option Bytes) :=
  match entry with
  | (.text key, .bytes b) =>
    if key = "p" then some (some b, found.2)
    else if key = "s" then some (found.1, some b)
    else none
  | _ => none

def decodeSignedObject (cbor : Ciborium) (input : Bytes) : Option (Bytes × Bytes) :=
  match cbor.fromReader input with
  | some (.map entries) =>
    if entries.length ≠ 2 then none
    else do
      let (payload, signature) ← entries.foldlM readFrameField (none, none)
      return (← payload, ← signature)
  | _ => none

theorem decodeSignedObject_encode {cbor : Ciborium} (faithful : cbor.Faithful) {payload signature : Bytes}
    (small : payload.length < 2 ^ 64) (short : signature.length < 2 ^ 64) :
    decodeSignedObject cbor (encodeSignedObject cbor payload signature) = some (payload, signature) := by
  have plain : Plain 256 (signedObjectMap payload signature) := by
    exact ⟨show 2 < 2 ^ 64 by decide, forall_mem_pair.mpr ⟨⟨show "p".utf8ByteSize < 2 ^ 64 by decide, small⟩,
      ⟨show "s".utf8ByteSize < 2 ^ 64 by decide, short⟩⟩⟩
  rw [decodeSignedObject, encodeSignedObject, faithful _ plain]
  simp [signedObjectMap, readFrameField]

def maxEdgeBackfillPage : Nat := 100

def isoTimestampLen : Nat := 20

/-- A place in a chain walk: the second and the hash of the last row sent. -/
structure Cursor where
  createdAt : Text
  canonicalHash : Hash
  deriving DecidableEq

/-- `encode_cursor`: the second at its fixed width, then the hash. -/
def Cursor.encode (cursor : Cursor) : Option Bytes :=
  if cursor.createdAt.utf8ByteSize = isoTimestampLen ∧ cursor.createdAt.toList.all (·.toNat < 128) then
    some (Cbor.utf8 cursor.createdAt ++ Cbor.beBytes 32 cursor.canonicalHash.toNat)
  else none

structure EdgesBackfillQuery where
  source : Key
  target : Key
  since : Option Cursor := none
  limit : Option Nat := none

structure ChainRow where
  payload : Bytes
  signature : Bytes
  createdAt : Text
  canonicalHash : Hash
  deriving DecidableEq

def ChainRow.cursor (row : ChainRow) : Cursor :=
  ⟨row.createdAt, row.canonicalHash⟩

/-- The order of the walk: by second, then by hash. -/
def Cursor.before (a b : Cursor) : Prop :=
  a.createdAt < b.createdAt ∨ (a.createdAt = b.createdAt ∧ a.canonicalHash < b.canonicalHash)

instance : DecidableRel Cursor.before :=
  fun a b => inferInstanceAs (Decidable (a.createdAt < b.createdAt ∨ _))

inductive BackfillRefusal where
  | limitOutOfRange
  | unknownChain
  | internalError

/-- A row of the pair joined with its stored bytes, where these are not erased. -/
def chainRow (db : Db) (edge : TrustEdgeRow) : Option ChainRow :=
  match db.signedObjects.find? (·.canonicalHash = edge.canonicalHash) with
  | none => none
  | some object => object.payload.map fun payload =>
      { payload, signature := object.signature, createdAt := edge.createdAt, canonicalHash := edge.canonicalHash }

def chainRows (db : Db) (source target : Key) (since : Option Cursor) : List ChainRow :=
  (((db.pairEdges source target).filterMap (chainRow db)).filter fun row =>
    since.all fun cursor => cursor.before row.cursor).insertionSort fun a b => ¬ b.cursor.before a.cursor

structure BackfillPage where
  objects : List ChainRow
  nextCursor : Option Bytes
  complete : Bool

def handleEdgesBackfill (db : Db) (query : EdgesBackfillQuery) : Except BackfillRefusal BackfillPage :=
  let limit := query.limit.getD maxEdgeBackfillPage
  if limit < 1 ∨ maxEdgeBackfillPage < limit then
    .error .limitOutOfRange
  else if !db.hasUser query.source || !db.hasUser query.target then
    .error .unknownChain
  else
    let rows := (chainRows db query.source query.target query.since).take (limit + 1)
    if query.since.isNone && rows.isEmpty then
      if (db.pairEdges query.source query.target).isEmpty then .error .unknownChain
      else .ok ⟨[], none, true⟩
    else
      let hasMore := decide (limit < rows.length)
      let page := rows.take limit
      let nextCursor := if hasMore then page.getLast?.bind (·.cursor.encode) else none
      if hasMore && nextCursor.isNone then .error .internalError
      else .ok ⟨page, nextCursor, !hasMore⟩

theorem Cursor.encode_length {cursor : Cursor} {sent : Bytes} (encoded : cursor.encode = some sent) :
    sent.length = isoTimestampLen + 32 := by
  unfold Cursor.encode at encoded
  split at encoded
  · rename_i fits
    cases encoded
    rw [length_append, Cbor.length_utf8, Cbor.length_beBytes, fits.1]
  · cases encoded

theorem handleEdgesBackfill_root {db : Db} {source target : Key} (knowsSource : db.hasUser source = true)
    (knowsTarget : db.hasUser target = true) (chained : db.pairEdges source target ≠ [])
    (stamped : ∀ row ∈ chainRows db source target none, row.cursor.encode.isSome = true) :
    ∃ page, handleEdgesBackfill db { source, target } = .ok page ∧
      page.objects = (chainRows db source target none).take maxEdgeBackfillPage ∧
      ∀ sent, page.nextCursor = some sent → sent.length = isoTimestampLen + 32 := by
  have inRange : ¬ (maxEdgeBackfillPage < 1 ∨ maxEdgeBackfillPage < maxEdgeBackfillPage) := by decide
  have taken : ((chainRows db source target none).take (maxEdgeBackfillPage + 1)).take maxEdgeBackfillPage =
      (chainRows db source target none).take maxEdgeBackfillPage := by
    rw [take_take, Nat.min_eq_left (Nat.le_succ _)]
  simp only [handleEdgesBackfill, getD_none, if_neg inRange, knowsSource, knowsTarget, Bool.not_true,
    Bool.or_self, Bool.false_eq_true, if_false, isNone_none, Bool.true_and, taken]
  cases empty : ((chainRows db source target none).take (maxEdgeBackfillPage + 1)).isEmpty with
  | true =>
    have none : chainRows db source target none = [] := by simpa using empty
    have some : (db.pairEdges source target).isEmpty = false := by simpa using chained
    simp only [if_true, some, Bool.false_eq_true, if_false, none]
    exact ⟨_, rfl, rfl, by simp⟩
  | false =>
    simp only [Bool.false_eq_true, if_false]
    cases more : decide (maxEdgeBackfillPage <
        ((chainRows db source target none).take (maxEdgeBackfillPage + 1)).length) with
    | false =>
      simp only [Bool.false_eq_true, if_false, Bool.false_and]
      exact ⟨_, rfl, rfl, by simp⟩
    | true =>
      have long : maxEdgeBackfillPage < (chainRows db source target none).length := by
        rw [decide_eq_true_eq, length_take] at more
        omega
      obtain ⟨last, atEnd⟩ : ∃ last, ((chainRows db source target none).take maxEdgeBackfillPage).getLast? =
          some last := by
        rw [← isSome_iff_exists, getLast?_isSome]
        intro nothing
        have := congrArg List.length nothing
        rw [length_take, length_nil] at this
        have : maxEdgeBackfillPage = 100 := rfl
        omega
      have inRows := mem_of_mem_take (mem_of_getLast? atEnd)
      obtain ⟨sent, encoded⟩ := isSome_iff_exists.mp (stamped last inRows)
      simp only [if_true, atEnd, bind_some, encoded, isNone_some, Bool.and_false,
        Bool.false_eq_true, if_false]
      refine ⟨_, rfl, rfl, ?_⟩
      intro other same
      rw [← some.inj same]
      exact Cursor.encode_length encoded

section Body

variable (cbor : Ciborium)

def BackfillPage.toCborValue (page : BackfillPage) : Value :=
  .map ([(.text "objects", .array (page.objects.map fun row =>
      .bytes (encodeSignedObject cbor row.payload row.signature)))] ++
    (page.nextCursor.map fun cursor => (Value.text "next_cursor", Value.bytes cursor)).toList ++
    [(.text "complete", .bool page.complete)])

def encodeBackfillBody (page : BackfillPage) : Bytes :=
  cbor.intoWriter (page.toCborValue cbor)

structure BackfillFields where
  objects : Option (List Bytes) := none
  nextCursor : Option Bytes := none
  complete : Option Bool := none

/-- An item of the array of objects. -/
def readObject : Value → Option Bytes
  | .bytes b => some b
  | _ => none

def readBodyField (fields : BackfillFields) (entry : Value × Value) : Option BackfillFields :=
  match entry.1 with
  | .text key =>
    if key = "objects" then
      match entry.2 with
      | .array items => (items.mapM readObject).map fun objects => { fields with objects := some objects }
      | _ => none
    else if key = "next_cursor" then
      match entry.2 with
      | .bytes b => some { fields with nextCursor := some b }
      | _ => none
    else if key = "complete" then
      match entry.2 with
      | .bool b => some { fields with complete := some b }
      | _ => none
    else some fields
  | _ => some fields

def decodeBackfillBody (body : Bytes) : Option (List Bytes × Option Bytes × Bool) :=
  match cbor.fromReader body with
  | some (.map entries) => do
    let fields ← entries.foldlM readBodyField {}
    return (← fields.objects, fields.nextCursor, ← fields.complete)
  | _ => none

variable {cbor}

theorem mapM_readObject (items : List Bytes) : (items.map Value.bytes).mapM readObject = some items := by
  induction items with
  | nil => rfl
  | cons b items ih => simp [readObject, ih]

theorem decodeBackfillBody_encode (faithful : cbor.Faithful) {page : BackfillPage}
    (count : page.objects.length < 2 ^ 64)
    (framed : ∀ row ∈ page.objects, (encodeSignedObject cbor row.payload row.signature).length < 2 ^ 64)
    (short : ∀ sent, page.nextCursor = some sent → sent.length < 2 ^ 64) :
    decodeBackfillBody cbor (encodeBackfillBody cbor page) =
      some (page.objects.map fun row => encodeSignedObject cbor row.payload row.signature, page.nextCursor,
        page.complete) := by
  have objects : Plain 255 (.array (page.objects.map fun row =>
      .bytes (encodeSignedObject cbor row.payload row.signature))) := by
    refine ⟨by simpa using count, ?_⟩
    intro item mem
    obtain ⟨row, inPage, rfl⟩ := List.mem_map.mp mem
    exact framed row inPage
  have named : ∀ name : Text, name.utf8ByteSize < 2 ^ 64 → Plain 255 (.text name) := fun _ small => small
  have plain : Plain 256 (page.toCborValue cbor) := by
    refine ⟨?_, ?_⟩
    · cases page.nextCursor <;> simp
    · intro entry mem
      simp only [mem_append, mem_singleton, mem_toList, map_eq_some_iff] at mem
      rcases mem with (rfl | ⟨sent, isSent, rfl⟩) | rfl
      · exact ⟨named _ (by decide), objects⟩
      · exact ⟨named _ (by decide), short sent isSent⟩
      · exact ⟨named _ (by decide), trivial⟩
  have read : (page.objects.map fun row =>
      Value.bytes (encodeSignedObject cbor row.payload row.signature)).mapM readObject =
      some (page.objects.map fun row => encodeSignedObject cbor row.payload row.signature) := by
    rw [← mapM_readObject, List.map_map]
    rfl
  rw [decodeBackfillBody, encodeBackfillBody, faithful _ plain]
  simp only [BackfillPage.toCborValue]
  generalize (page.objects.map fun row =>
    Value.bytes (encodeSignedObject cbor row.payload row.signature)) = items at read
  cases page.nextCursor <;> simp [readBodyField, read]

end Body

inductive BackfillError where
  | db (error : SqlError)
  | noHome
  | transport
  | unexpectedStatus (refusal : BackfillRefusal)
  | badResponseBody

/-- The home of the move history first, then the one the stub was made with. -/
def resolveSourceHome (db : Db) (source : Key) : Option Key :=
  match db.userHomes.find? (·.userKey = source) with
  | some row => some row.currentHomeKey
  | none => (db.user? source).bind (·.homeInstance)

variable (cbor : Ciborium) (state : AppState)

/-- The objects of a page go through the receive path in their order; a failed one ends the feed. -/
def feedObjects (home : Key) (db : Db) : List Bytes → Except BackfillError Unit × Db
  | [] => (.ok (), db)
  | wire :: rest =>
    match applyOneEdgeInner state db wire home with
    | .ok (_, db) => feedObjects home db rest
    | .error error => (.error (.db error), db)

def requestEdgePredecessor (instances : Key → Option Db) (db : Db) (source target : Key) :
    Except BackfillError Unit × Db :=
  match resolveSourceHome db source with
  | none => (.error .noHome, db)
  | some home =>
    match instances home with
    | none => (.error .transport, db)
    | some homeDb =>
      match handleEdgesBackfill homeDb { source, target } with
      | .error refusal => (.error (.unexpectedStatus refusal), db)
      | .ok page =>
        match decodeBackfillBody cbor (encodeBackfillBody cbor page) with
        | none => (.error .badResponseBody, db)
        | some (objects, _, _) => feedObjects state home db objects

/-- `apply_one_edge`: an orphan that opens a gap sends for its predecessors once it is committed. The fetch
of an unknown source, which is no edge's, is not part of this. -/
def applyOneEdge (instances : Key → Option Db) (db : Db) (wireBytes : Bytes) (arrivedFrom : Key) : Db :=
  match applyOneEdgeInner state db wireBytes arrivedFrom with
  | .error _ => db
  | .ok ((_, some (.predecessor source target _)), db) =>
    (requestEdgePredecessor cbor state instances db source target).2
  | .ok ((_, _), db) => db

variable {cbor state}

theorem requestEdgePredecessor_root (faithful : cbor.Faithful) {instances : Key → Option Db} {db homeDb : Db}
    {source target home : Key} (resolved : resolveSourceHome db source = some home)
    (answers : instances home = some homeDb) (knowsSource : homeDb.hasUser source = true)
    (knowsTarget : homeDb.hasUser target = true) (chained : homeDb.pairEdges source target ≠ [])
    (stamped : ∀ row ∈ chainRows homeDb source target none, row.cursor.encode.isSome = true)
    (framed : ∀ row ∈ chainRows homeDb source target none,
      (encodeSignedObject cbor row.payload row.signature).length < 2 ^ 64) :
    requestEdgePredecessor cbor state instances db source target =
      feedObjects state home db (((chainRows homeDb source target none).take maxEdgeBackfillPage).map fun row =>
        encodeSignedObject cbor row.payload row.signature) := by
  obtain ⟨page, answered, objects, short⟩ := handleEdgesBackfill_root knowsSource knowsTarget chained stamped
  have count : page.objects.length < 2 ^ 64 := by
    rw [objects, length_take]
    have : maxEdgeBackfillPage = 100 := rfl
    omega
  have fits : ∀ row ∈ page.objects, (encodeSignedObject cbor row.payload row.signature).length < 2 ^ 64 := by
    intro row inPage
    rw [objects] at inPage
    exact framed row (mem_of_mem_take inPage)
  have cursor : ∀ sent, page.nextCursor = some sent → sent.length < 2 ^ 64 := by
    intro sent isSent
    rw [short sent isSent]
    decide
  have read := decodeBackfillBody_encode faithful count fits cursor
  simp only [requestEdgePredecessor, resolved, answers, answered, read, objects]

end Prismoire
