import Prismoire.PriorHomeRecovery

namespace Prismoire

open Lib List Option

theorem utf8_ascii {text : Text} (ascii : text.toList.all (·.toNat < 128) = true) :
    ∀ byte ∈ Cbor.utf8 text, byte.toNat < 128 := by
  have chars : ∀ chars : List Char, chars.all (·.toNat < 128) = true →
      ∀ byte ∈ (chars.utf8Encode).data.toList, byte.toNat < 128 := by
    intro chars
    induction chars with
    | nil => simp
    | cons c rest ih =>
      intro all byte mem
      simp only [all_cons, Bool.and_eq_true, decide_eq_true_eq] at all
      rw [utf8Encode_cons, utf8Encode_singleton] at mem
      have one : c.utf8Size = 1 := by
        rw [Char.utf8Size_eq_one_iff]
        have := all.1
        simp only [Char.toNat] at this
        rw [UInt32.le_iff_toNat_le]
        simp
        omega
      rw [String.utf8EncodeChar_eq_singleton one] at mem
      rw [show [c.val.toUInt8].toByteArray = ⟨#[c.val.toUInt8]⟩ from rfl] at mem
      simp only [ByteArray.data_append, Array.toList_append, mem_append] at mem
      rcases mem with single | later
      · have small : c.val.toNat < 128 := all.1
        have byteOf : byte = c.val.toUInt8 := by simpa using single
        rw [byteOf, UInt32.toNat_toUInt8]
        omega
      · exact ih all.2 byte later
  rw [Cbor.utf8, ← String.utf8Encode_toList]
  exact chars _ ascii

theorem Cursor.decode_encode {cursor : Cursor} {sent : Bytes} (encoded : cursor.encode = some sent) :
    Cursor.decode sent = some cursor := by
  have length := Cursor.encode_length encoded
  unfold Cursor.encode at encoded
  split at encoded
  · rename_i fits
    cases encoded
    have first : (Cbor.utf8 cursor.createdAt ++ Cbor.beBytes 32 cursor.canonicalHash.toNat).take isoTimestampLen =
        Cbor.utf8 cursor.createdAt := by
      rw [← fits.1, ← Cbor.length_utf8, take_left]
    have last : (Cbor.utf8 cursor.createdAt ++ Cbor.beBytes 32 cursor.canonicalHash.toNat).drop isoTimestampLen =
        Cbor.beBytes 32 cursor.canonicalHash.toNat := by
      rw [← fits.1, ← Cbor.length_utf8, drop_left]
    have ascii : (Cbor.utf8 cursor.createdAt).all (·.toNat < 128) = true := by
      rw [List.all_eq_true]
      intro byte mem
      exact decide_eq_true (utf8_ascii fits.2 byte mem)
    have small : cursor.canonicalHash.toNat < 256 ^ 32 := cursor.canonicalHash.isLt
    rw [Cursor.decode, first, last, if_pos ⟨length, ascii⟩, Cbor.ofUtf8_utf8, map_some, Cbor.ofBe_beBytes,
      Nat.mod_eq_of_lt small, BitVec.ofNat_toNat, BitVec.setWidth_eq]
  · cases encoded

instance : IsStrictTotalOrder Cursor Cursor.before where
  trichotomous := by
    intro a b notLess notMore
    simp only [Cursor.before, not_or, not_and, not_lt, BitVec.not_lt] at notLess notMore
    have second : a.createdAt = b.createdAt := le_antisymm notMore.1 notLess.1
    have hash : a.canonicalHash = b.canonicalHash := BitVec.le_antisymm (notMore.2 second.symm) (notLess.2 second)
    exact Cursor.mk.injEq .. ▸ ⟨second, hash⟩
  irrefl a ahead := Cursor.before_asymm a a ahead ahead
  trans a b c first second := by
    by_contra apart
    exact Cursor.before_negTrans (Cursor.before_asymm b c second) apart first

section Rows

variable {home : PriorHome} {row : ChainRow}

theorem mem_joined {partners : SignedObjectRow → Nat} : row ∈ home.joined partners ↔
    ∃ object ∈ home.db.signedObjects, 0 < partners object ∧ home.pullRow object = some row := by
  simp only [PriorHome.joined, mem_flatMap, mem_filterMap, mem_replicate]
  constructor
  · rintro ⟨object, mem, _, ⟨some, rfl⟩, pulled⟩
    exact ⟨_, mem, Nat.pos_of_ne_zero some, pulled⟩
  · rintro ⟨object, mem, some, pulled⟩
    exact ⟨object, mem, object, ⟨some.ne', rfl⟩, pulled⟩

variable {object : SignedObjectRow} {user : Key}

theorem pullRow_some (pulled : home.pullRow object = some row) :
    object.payload = some row.payload ∧ row.signature = object.signature ∧ row.canonicalHash = object.canonicalHash := by
  obtain ⟨payload, live, rfl⟩ := map_eq_some_iff.mp pulled
  exact ⟨live, rfl, rfl⟩

theorem stored_of_contentRows (mem : row ∈ home.contentRows user) :
    ∃ object ∈ home.db.signedObjects, home.pullRow object = some row := by
  simp only [PriorHome.contentRows, mem_append, mem_joined] at mem
  rcases mem with ((⟨object, stored, -, pulled⟩ | ⟨object, stored, -, pulled⟩) | ⟨object, stored, -, pulled⟩) |
    ⟨object, stored, -, pulled⟩ <;> exact ⟨object, stored, pulled⟩

theorem stored_of_inboundRows (mem : row ∈ home.inboundRows user) :
    ∃ object ∈ home.db.signedObjects, home.pullRow object = some row := by
  obtain ⟨object, stored, -, pulled⟩ := mem_joined.mp mem
  exact ⟨object, stored, pulled⟩

theorem contentRows_of_revision {revision : PostRevisionRow} {post : PostRow}
    (inRevisions : revision ∈ home.db.postRevisions) (inPosts : post ∈ home.db.posts) (same : post.id = revision.postId)
    (own : post.author = user) (stored : object ∈ home.db.signedObjects)
    (hashed : object.canonicalHash = revision.canonicalHash) (pulled : home.pullRow object = some row) :
    row ∈ home.contentRows user := by
  have joined : 0 < (home.db.postRevisions.product home.db.posts).countP fun pair =>
      pair.1.canonicalHash = object.canonicalHash ∧ pair.2.id = pair.1.postId ∧ pair.2.author = user := by
    rw [countP_pos_iff]
    exact ⟨(revision, post), pair_mem_product.mpr ⟨inRevisions, inPosts⟩, by simp [hashed, same, own]⟩
  simp only [PriorHome.contentRows, mem_append]
  exact .inl (.inl (.inl (mem_joined.mpr ⟨object, stored, joined, pulled⟩)))

end Rows

section Page

variable {rows : List ChainRow} {since : Option Cursor} {limit : Nat} {page : BackfillPage}

theorem bulkPage_ok (run : bulkPage rows since limit = .ok page) :
    page.objects = (rowsAfter Cursor.before ChainRow.cursor rows since).take limit ∧
      ((page.complete = true ∧ page.nextCursor = none ∧
          page.objects = rowsAfter Cursor.before ChainRow.cursor rows since) ∨
        (page.complete = false ∧ ∃ last sent, page.objects.getLast? = some last ∧ last.cursor.encode = some sent ∧
          page.nextCursor = some sent)) := by
  let ahead := rowsAfter Cursor.before ChainRow.cursor rows since
  have taken : (ahead.take (limit + 1)).take limit = ahead.take limit := by
    rw [take_take, Nat.min_eq_left (Nat.le_succ _)]
  simp only [bulkPage] at run
  rw [show (rowsAfter Cursor.before ChainRow.cursor rows since) = ahead from rfl, taken] at run
  cases more : decide (limit < (ahead.take (limit + 1)).length) with
  | false =>
    simp only [more, Bool.false_eq_true, if_false, Bool.false_and, Bool.not_false] at run
    cases run
    refine ⟨rfl, .inl ⟨rfl, rfl, take_of_length_le ?_⟩⟩
    rw [decide_eq_false_iff_not, length_take] at more
    omega
  | true =>
    simp only [more, if_true, Bool.true_and, Bool.not_true] at run
    split at run
    · cases run
    · rename_i sent
      cases run
      refine ⟨rfl, .inr ⟨rfl, ?_⟩⟩
      cases next : (ahead.take limit).getLast?.bind (·.cursor.encode) with
      | none => exact absurd (isNone_iff_eq_none.mpr next) sent
      | some bytes =>
        obtain ⟨last, atEnd, encoded⟩ := bind_eq_some_iff.mp next
        exact ⟨last, bytes, atEnd, encoded, rfl⟩

end Page

section Request

theorem passes_guard {ε α : Type} {c : Prop} [Decidable c] {error : ε} {x : Except ε α} {y : α}
    (run : (if c then .error error else x) = .ok y) : x = .ok y := by
  split at run
  · cases run
  · exact run

variable {home : PriorHome} {payload signature : Bytes} {key : Key} {now : Nat} {admitted : Bool}
  {response : PriorHomeResponse} {challengeWire responseWire : Bytes}

theorem verifyPriorHomeRequest_subject
    (decodes : home.state.platform.decodeSignedObject responseWire = some (payload, signature))
    (parses : home.state.platform.parse payload = some (.priorHomeResponse response))
    (run : verifyPriorHomeRequest home challengeWire responseWire now admitted = .ok key) :
    key = response.subjectKey := by
  unfold verifyPriorHomeRequest at run
  dsimp only at run
  rw [decodes] at run
  split at run
  · rename_i isPair
    cases isPair
    have run := passes_guard (passes_guard run)
    split at run
    · have run := passes_guard run
      rw [parses] at run
      dsimp only at run
      have run := passes_guard (passes_guard (passes_guard (passes_guard (passes_guard run))))
      cases passes_guard (passes_guard run)
      rfl
    · cases run
  · cases run

theorem handleBulkFetch_ok {rows : Key → List ChainRow} {req : BulkFetchReq} {page : BackfillPage}
    (whole : req.limit = none) (known : home.db.hasUser response.subjectKey = true)
    (decodes : home.state.platform.decodeSignedObject req.response = some (payload, signature))
    (parses : home.state.platform.parse payload = some (.priorHomeResponse response))
    (run : handleBulkFetch home rows req now admitted = .ok page) :
    bulkPage (rows response.subjectKey) (req.since.map Cursor.decode).join maxBackfillPage = .ok page := by
  unfold handleBulkFetch at run
  rw [whole, getD_none] at run
  have run := passes_guard (passes_guard run)
  split at run
  · cases run
  · rename_i key verified
    rw [verifyPriorHomeRequest_subject decodes parses verified, known] at run
    exact run

end Request

variable {cbor : Ciborium} {σ : Type} {fetch : σ → Option Bytes → Except PageError Bytes × σ} {rows : List ChainRow}
  {ingest : Db → Bytes → Db} {pages : Nat} {requests : σ} {cursor : Option Bytes} {stats : SurfaceStats} {db : Db}

def ChainRow.wire (cbor : Ciborium) (row : ChainRow) : Bytes :=
  encodeSignedObject cbor row.payload row.signature

/-- The place that a request asks to go on from. -/
def placeOf (cursor : Option Bytes) : Option Cursor :=
  (cursor.map Cursor.decode).join

def ServesRows (cbor : Ciborium) (fetch : σ → Option Bytes → Except PageError Bytes × σ) (rows : List ChainRow) : Prop :=
  ∀ requests cursor raw next, fetch requests cursor = (.ok raw, next) →
    ∃ page, bulkPage rows (placeOf cursor) maxBackfillPage = .ok page ∧
      decodeBackfillBody cbor raw = some (page.objects.map (ChainRow.wire cbor), page.nextCursor, page.complete)

theorem paginatePages_invariant {holds : Db → Prop}
    (keeps : ∀ (requests : σ) cursor raw next objects nextCursor complete, fetch requests cursor = (.ok raw, next) →
      decodeBackfillBody cbor raw = some (objects, nextCursor, complete) →
        ∀ wire ∈ objects, ∀ db, holds db → holds (ingest db wire)) (start : holds db) :
    holds (paginatePages cbor fetch ingest pages requests cursor stats db).2 := by
  induction pages generalizing requests cursor stats db with
  | zero => exact start
  | succ pages ih =>
    unfold paginatePages
    split
    · exact start
    · rename_i raw next fetched
      split
      · exact start
      · rename_i objects nextCursor complete decoded
        have fed : ∀ rest, rest ⊆ objects → ∀ db, holds db → holds (rest.foldl ingest db) := by
          intro rest within
          induction rest with
          | nil => exact fun _ held => held
          | cons wire rest more =>
            rw [cons_subset] at within
            intro db held
            exact more within.2 _ (keeps _ _ _ _ _ _ _ fetched decoded wire within.1 db held)
        have reached := fed objects (fun _ mem => mem) db start
        dsimp only
        split
        · exact reached
        · split
          · exact reached
          · exact ih reached

/-- The rows that a walk has behind it are visited, and each object that comes keeps what is visited. -/
structure Visits (cbor : Ciborium) (ingest : Db → Bytes → Db) (rows : List ChainRow) (holds : Db → Prop)
    (visited : Cursor → Db → Prop) : Prop where
  keeps : ∀ db, ∀ row ∈ rows, holds db → holds (ingest db (row.wire cbor))
  visits : ∀ db, ∀ row ∈ rows, holds db → visited row.cursor (ingest db (row.wire cbor))
  stays : ∀ db, ∀ row ∈ rows, holds db → ∀ place, visited place db → visited place (ingest db (row.wire cbor))

variable {holds : Db → Prop} {visited : Cursor → Db → Prop}

theorem Visits.page (v : Visits cbor ingest rows holds visited) {page : List ChainRow} (within : page ⊆ rows)
    (start : holds db) :
    let after := (page.map (ChainRow.wire cbor)).foldl ingest db
    holds after ∧ (∀ row ∈ page, visited row.cursor after) ∧ ∀ place, visited place db → visited place after := by
  induction page generalizing db with
  | nil => exact ⟨start, by simp, fun _ seen => seen⟩
  | cons row page ih =>
    rw [cons_subset] at within
    obtain ⟨held, onPage, stay⟩ := ih within.2 (v.keeps db row within.1 start)
    refine ⟨held, ?_, fun place seen => stay place (v.stays db row within.1 start place seen)⟩
    intro other mem
    rcases mem_cons.mp mem with rfl | later
    · exact stay _ (v.visits db other within.1 start)
    · exact onPage other later

theorem paginatePages_visits (serves : ServesRows cbor fetch rows) (v : Visits cbor ingest rows holds visited)
    {final : SurfaceStats} {after : Db}
    (run : paginatePages cbor fetch ingest pages requests cursor stats db = (.ok final, after))
    (complete : final.complete = true) (begun : stats.complete = false) (start : holds db)
    (progress : ∀ row ∈ rows, visited row.cursor db ∨
      row ∈ rowsAfter Cursor.before ChainRow.cursor rows (placeOf cursor)) :
    ∀ row ∈ rows, visited row.cursor after := by
  induction pages generalizing requests cursor stats db with
  | zero =>
    cases run
    rw [begun] at complete
    cases complete
  | succ pages ih =>
    unfold paginatePages at run
    split at run
    · cases run
    · rename_i raw next fetched
      obtain ⟨page, answered, decoded⟩ := serves _ _ _ _ fetched
      obtain ⟨objects, ends⟩ := bulkPage_ok answered
      rw [decoded] at run
      dsimp only at run
      have within : page.objects ⊆ rows := by
        intro row mem
        rw [objects] at mem
        exact (mem_rowsAfter.mp (mem_of_mem_take mem)).1
      obtain ⟨held, onPage, stay⟩ := v.page within start
      rcases ends with ⟨isLast, -, whole⟩ | ⟨more, last, sent, atEnd, encoded, isNext⟩
      · rw [if_pos isLast] at run
        cases run
        intro row mem
        rcases progress row mem with seen | ahead
        · exact stay _ seen
        · exact onPage row (whole ▸ ahead)
      · rw [if_neg (by simp [more]), isNext] at run
        refine ih run begun held ?_
        intro row mem
        have place : placeOf (some sent) = some last.cursor := by
          rw [placeOf, map_some, Cursor.decode_encode encoded, join_some]
        rcases progress row mem with seen | ahead
        · exact .inl (stay _ seen)
        · rw [objects] at atEnd onPage
          rcases page_or_beyond atEnd ahead with ⟨other, inPage, same⟩ | beyond
          · have seen := onPage other inPage
            rw [show other.cursor = row.cursor from same] at seen
            exact .inl (by rw [objects]; exact seen)
          · refine .inr (mem_rowsAfter.mpr ⟨mem, ?_⟩)
            intro at' isPlace
            rw [place] at isPlace
            cases isPlace
            exact beyond

end Prismoire
