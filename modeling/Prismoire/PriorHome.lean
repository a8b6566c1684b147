import Prismoire.Envelope
import Prismoire.HomeChains
import Prismoire.Lib.Keyset

namespace Prismoire

open Lib

/-- An instance as the prior home of its users. Two columns stand beside its tables, `signed_objects.received_at`
and `posts.retraction_signature`. -/
structure PriorHome where
  state : AppState
  db : Db
  receivedAt : Hash → Text
  retractionSignature : Uuid → Option Bytes
  signChallenge : PriorHomeChallenge → Bytes × Bytes

inductive PriorHomeRefusal where
  | invalidKey
  | limitOutOfRange
  | invalidCursor
  | malformed
  | wrongResponder
  | invalidChallenge
  | invalidResponse
  | subjectMismatch
  | expiredChallenge
  | skewExceeded
  | subjectDeactivated
  | tooManyRequests
  | internalError

def priorHomeChallengeTtlMs : Nat := 60000

def handleChallenge (home : PriorHome) (key : Key) (nonce : Hash) (now : Nat) (admitted : Bool) :
    Except PriorHomeRefusal (Bytes × Bytes) :=
  if !home.state.platform.verifyingKeyFromBytes key then
    .error .invalidKey
  else if !admitted then
    .error .tooManyRequests
  else
    .ok (home.signChallenge
      { responderInstanceKey := home.state.instanceKey, subjectKey := key, nonce, createdAt := now,
        expiresAt := now + priorHomeChallengeTtlMs })

def isSubjectDeactivated (platform : Platform) (db : Db) (subjectKey : Key) : Bool :=
  db.signedObjects.any fun row =>
    row.innerClass = .deactivate &&
      match row.payload.bind platform.parse with
      | some (.deactivation d) => d.user = subjectKey
      | _ => false

def verifyPriorHomeRequest (home : PriorHome) (challengeWire responseWire : Bytes) (now : Nat) (admitted : Bool) :
    Except PriorHomeRefusal Key :=
  let platform := home.state.platform
  match platform.decodeSignedObject challengeWire, platform.decodeSignedObject responseWire with
  | some (challengePayload, challengeSig), some (responsePayload, responseSig) =>
    if !platform.verifyingKeyFromBytes home.state.instanceKey then
      .error .internalError
    else if !(verify platform challengePayload challengeSig home.state.instanceKey).isOk then
      .error .wrongResponder
    else
      match platform.parse challengePayload with
      | some (.priorHomeChallenge challenge) =>
        if challenge.responderInstanceKey ≠ home.state.instanceKey then
          .error .wrongResponder
        else
          match platform.parse responsePayload with
          | some (.priorHomeResponse response) =>
            if !signatureOk platform responsePayload responseSig response.subjectKey then
              .error .invalidResponse
            else if challenge.subjectKey ≠ response.subjectKey then
              .error .subjectMismatch
            else if response.challengeHash ≠ platform.sha256 challengePayload then
              .error .subjectMismatch
            else if challenge.expiresAt < now then
              .error .expiredChallenge
            else if Envelope.maxClockSkewMs < max now response.createdAt - min now response.createdAt then
              .error .skewExceeded
            else if isSubjectDeactivated platform home.db response.subjectKey then
              .error .subjectDeactivated
            else if !admitted then
              .error .tooManyRequests
            else
              .ok response.subjectKey
          | _ => .error .invalidResponse
      | _ => .error .invalidChallenge
  | _, _ => .error .malformed

def maxBackfillPage : Nat := 100

/-- `decode_cursor`, on the raw bytes that the body carries. -/
def Cursor.decode (sent : Bytes) : Option Cursor :=
  if sent.length = isoTimestampLen + 32 ∧ (sent.take isoTimestampLen).all (·.toNat < 128) then
    (Cbor.ofUtf8 (sent.take isoTimestampLen)).map fun createdAt =>
      ⟨createdAt, BitVec.ofNat 256 (Cbor.ofBe (sent.drop isoTimestampLen))⟩
  else
    none

/-- The body of a request for a page, once its fields are read. -/
structure BulkFetchReq where
  challenge : Bytes
  response : Bytes
  since : Option Bytes := none
  limit : Option Nat := none

variable (home : PriorHome)

/-- A stored object as it is sent, unless its bytes are erased; the second of the row is `received_at`. -/
def PriorHome.pullRow (object : SignedObjectRow) : Option ChainRow :=
  object.payload.map fun payload =>
    { payload, signature := object.signature, createdAt := home.receivedAt object.canonicalHash,
      canonicalHash := object.canonicalHash }

/-- A join of the stored objects with other tables: an object comes once for each of its partners. -/
def PriorHome.joined (partners : SignedObjectRow → Nat) : List ChainRow :=
  home.db.signedObjects.flatMap fun object => (List.replicate (partners object) object).filterMap home.pullRow

/-- The four branches of the UNION ALL: what a user has signed, by the tables that it was projected into. -/
def PriorHome.contentRows (user : Key) : List ChainRow :=
  let posts := home.joined fun object =>
    (home.db.postRevisions.product home.db.posts).countP fun (revision, post) =>
      revision.canonicalHash = object.canonicalHash ∧ post.id = revision.postId ∧ post.author = user
  let retractions := home.joined fun object =>
    home.db.posts.countP fun post =>
      home.retractionSignature post.id = some object.signature ∧ object.innerClass = .retract ∧ post.author = user
  let profiles := home.joined fun object =>
    home.db.profileRevisions.countP fun row => row.canonicalHash = object.canonicalHash ∧ row.user = user
  let edges := home.joined fun object =>
    home.db.trustEdges.countP fun edge => edge.canonicalHash = object.canonicalHash ∧ edge.sourceUser = user
  posts ++ retractions ++ profiles ++ edges

def PriorHome.inboundRows (user : Key) : List ChainRow :=
  home.joined fun object =>
    home.db.trustEdges.countP fun edge => edge.canonicalHash = object.canonicalHash ∧ edge.targetUser = user

/-- One page of a walk by the second and the hash, with one row more fetched to tell whether it is the last. -/
def bulkPage (rows : List ChainRow) (since : Option Cursor) (limit : Nat) : Except PriorHomeRefusal BackfillPage :=
  let fetched := (rowsAfter Cursor.before ChainRow.cursor rows since).take (limit + 1)
  let hasMore := decide (limit < fetched.length)
  let page := fetched.take limit
  let nextCursor := if hasMore then page.getLast?.bind (·.cursor.encode) else none
  if hasMore && nextCursor.isNone then .error .internalError
  else .ok ⟨page, nextCursor, !hasMore⟩

/-- The two surfaces have one shape: the body, the challenge, the user's row, then a page of its rows. -/
def handleBulkFetch (rows : Key → List ChainRow) (req : BulkFetchReq) (now : Nat) (admitted : Bool) :
    Except PriorHomeRefusal BackfillPage :=
  let limit := req.limit.getD maxBackfillPage
  if limit < 1 ∨ maxBackfillPage < limit then
    .error .limitOutOfRange
  else
    let since := req.since.map Cursor.decode
    if since = some none then
      .error .invalidCursor
    else
      match verifyPriorHomeRequest home req.challenge req.response now admitted with
      | .error refusal => .error refusal
      | .ok subjectKey =>
        if !home.db.hasUser subjectKey then .ok ⟨[], none, true⟩
        else bulkPage (rows subjectKey) since.join limit

def handleContentByKey : BulkFetchReq → Nat → Bool → Except PriorHomeRefusal BackfillPage :=
  handleBulkFetch home home.contentRows

def handleInboundEdgesByKey : BulkFetchReq → Nat → Bool → Except PriorHomeRefusal BackfillPage :=
  handleBulkFetch home home.inboundRows

end Prismoire
