import Prismoire.DrainWorkers
import Prismoire.EdgeBackfill

namespace Prismoire

open Lib Function
open Lib.Cbor (Value Plain)

inductive PushRoute where
  | content
  | edges
  | moves
  | userStatus
  | threadStatus
  | reports
  deriving DecidableEq

namespace PushRoute

def path : PushRoute → Text
  | .content => "/federation/v1/content"
  | .edges => "/federation/v1/edges"
  | .moves => "/federation/v1/moves"
  | .userStatus => "/federation/v1/user-status"
  | .threadStatus => "/federation/v1/thread-status"
  | .reports => "/federation/v1/reports"

def bodyKey : PushRoute → Text
  | .edges => "edges"
  | .moves => "moves"
  | .content | .userStatus | .threadStatus | .reports => "objects"

def all : List PushRoute :=
  [.content, .edges, .moves, .userStatus, .threadStatus, .reports]

def ofPath? (path : Text) : Option PushRoute :=
  all.find? (·.path = path)

end PushRoute

def defaultFederationBodyCap : Nat := 64 * 1024

def frontierBodyCap : Nat := 16 * 1024 * 1024

def edgesBodyCap : Nat := 64 * 1024

def contentBodyCap : Nat := 16 * 1024 * 1024

def backfillByHashBodyCap : Nat := 16 * 1024

def adminRmReportBodyCap : Nat := 8 * 1024

def userStatusBodyCap : Nat := 1024 * 1024

def threadStatusBodyCap : Nat := 1024 * 1024

def reportBodyCap : Nat := 256 * 1024

/-- The path itself, or one below it. -/
def pathUnder (path base : Text) : Bool :=
  path = base || (base.toList ++ ['/']).isPrefixOf path.toList

def routeBodyCap (path : Text) : Nat :=
  if pathUnder path "/federation/v1/frontier" then
    frontierBodyCap
  else if pathUnder path "/federation/v1/edges" then
    edgesBodyCap
  else if pathUnder path "/federation/v1/content" then
    contentBodyCap
  else if pathUnder path "/federation/v1/admin-rm-report" then
    adminRmReportBodyCap
  else if path = "/federation/v1/backfill/by-hash" ∨ path = "/federation/v1/user-status/by-hash" ∨
      path = "/federation/v1/thread-status/by-hash" then
    backfillByHashBodyCap
  else if pathUnder path "/federation/v1/user-status" then
    userStatusBodyCap
  else if pathUnder path "/federation/v1/thread-status" then
    threadStatusBodyCap
  else if path = "/federation/v1/reports" then
    reportBodyCap
  else
    defaultFederationBodyCap

structure WindowState where
  windowStartSecs : Nat
  count : Nat

/-- The window of a peer that is open now: a new one if it has none or the last one is over. -/
def openWindow (windows : Key → Option WindowState) (windowSecs : Nat) (sender : Key) (nowSecs : Nat) : WindowState :=
  let entry := (windows sender).getD ⟨nowSecs, 0⟩
  if windowSecs ≤ nowSecs - entry.windowStartSecs then ⟨nowSecs, 0⟩ else entry

/-- Counts objects by the hour. -/
structure ContentRateLimiter where
  windows : Key → Option WindowState
  maxPerHour : Nat

def ContentRateLimiter.checkAndCountIn (windowSecs : Nat) (limiter : ContentRateLimiter) (sender : Key)
    (batchSize nowSecs : Nat) : Bool × ContentRateLimiter :=
  if batchSize = 0 then
    (true, limiter)
  else
    let entry := openWindow limiter.windows windowSecs sender nowSecs
    let newCount := min (entry.count + batchSize) (2 ^ 32 - 1)
    if limiter.maxPerHour < newCount then
      (false, { limiter with windows := update limiter.windows sender (some entry) })
    else
      (true, { limiter with windows := update limiter.windows sender (some { entry with count := newCount }) })

def ContentRateLimiter.checkAndCountAt : ContentRateLimiter → Key → Nat → Nat → Bool × ContentRateLimiter :=
  checkAndCountIn 3600

/-- Counts requests by the minute. -/
structure PushRateLimiter where
  windows : Key → Option WindowState
  maxRequestsPerWindow : Nat

def PushRateLimiter.tryAdmitIn (windowSecs : Nat) (limiter : PushRateLimiter) (sender : Key) (nowSecs : Nat) :
    Bool × PushRateLimiter :=
  let entry := openWindow limiter.windows windowSecs sender nowSecs
  if limiter.maxRequestsPerWindow ≤ entry.count then
    (false, { limiter with windows := update limiter.windows sender (some entry) })
  else
    let entry := { entry with count := min (entry.count + 1) (2 ^ 32 - 1) }
    (true, { limiter with windows := update limiter.windows sender (some entry) })

def PushRateLimiter.tryAdmitAt : PushRateLimiter → Key → Nat → Bool × PushRateLimiter :=
  tryAdmitIn 60

section Bodies

variable (cbor : Ciborium)

def encodeBatchBody (key : Text) (wires : List Bytes) : Bytes :=
  cbor.intoWriter (.map [(.text key, .array (wires.map .bytes))])

/-- Any other key, or a second array under this one, makes the body malformed. -/
def readOnlyField (key : Text) (found : Option (List Value)) (entry : Value × Value) : Option (Option (List Value)) :=
  match entry.1 with
  | .text name =>
    if name = key then
      match found, entry.2 with
      | none, .array items => some (some items)
      | _, _ => none
    else none
  | _ => none

def readEdgesField (found : Option (List Value)) (entry : Value × Value) : Option (Option (List Value)) :=
  match entry.1 with
  | .text name =>
    if name = "edges" then
      match entry.2 with
      | .array items => some (some items)
      | _ => none
    else some found
  | _ => some found

def decodeBatchBody (readField : Option (List Value) → Value × Value → Option (Option (List Value))) (body : Bytes) :
    Option (List Bytes) :=
  match cbor.fromReader body with
  | some (.map entries) => do
    let found ← entries.foldlM readField none
    (← found).mapM readObject
  | _ => none

def decodeEdgesBody (body : Bytes) : Option (List Bytes) :=
  decodeBatchBody cbor readEdgesField body

def decodeMovesBody (body : Bytes) : Option (List Bytes) :=
  decodeBatchBody cbor (readOnlyField "moves") body

/-- `ContentBody`, and the `ObjectsBody` of the status and report routes. -/
def decodeObjectsBody (body : Bytes) : Option (List Bytes) :=
  decodeBatchBody cbor (readOnlyField "objects") body

end Bodies

section Handlers

inductive PushResponse (ρ : Type) where
  | results (results : List ρ)
  | badRequest (code : Text)
  | unauthorized
  | notFound
  | unsupportedMediaType
  | tooManyRequests
  | internalError

def PushResponse.status {ρ : Type} : PushResponse ρ → Nat
  | .results _ => 200
  | .badRequest _ => 400
  | .unauthorized => 401
  | .notFound => 404
  | .unsupportedMediaType => 415
  | .tooManyRequests => 429
  | .internalError => 500

/-- A receiving instance: its limiters, and its tables whatever they are. -/
structure Receiver (σ : Type) where
  content : ContentRateLimiter
  moves : ContentRateLimiter
  userStatus : PushRateLimiter
  threadStatus : PushRateLimiter
  reports : PushRateLimiter
  store : σ

/-- The state machine of each route on a single object, which fails only on the database. -/
structure PushServer (σ ρ : Type) where
  cbor : Ciborium
  applyOne : PushRoute → Key → Bytes → σ → Option (ρ × σ)

variable {σ ρ : Type}

/-- The loop of the handlers: a result for each object, up to a fault of the database. -/
def applyAll (apply : Bytes → σ → Option (ρ × σ)) : List Bytes → σ → Option (List ρ) × σ
  | [], store => (some [], store)
  | object :: objects, store =>
    match apply object store with
    | none => (none, store)
    | some (result, store) =>
      let (results, store) := applyAll apply objects store
      (results.map (result :: ·), store)

def checkBatch (decoded : Option (List Bytes)) (maxBatch : Nat) : Except Text (List Bytes) :=
  match decoded with
  | none => .error "malformed"
  | some objects =>
    if objects.isEmpty then
      .error "empty_batch"
    else if maxBatch < objects.length then
      .error "batch_too_large"
    else
      .ok objects

def maxContentBatch : Nat := 64

def maxEdgeBatch : Nat := 256

def maxMoveBatch : Nat := 64

def maxUserStatusBatch : Nat := 256

def maxThreadStatusBatch : Nat := 256

def maxReportBatch : Nat := 64

variable (server : PushServer σ ρ) (receiver : Receiver σ) (sender : Key) (nowSecs : Nat) (body : Bytes)

def answerObjects (route : PushRoute) (objects : List Bytes) : PushResponse ρ × Receiver σ :=
  let (results, store) := applyAll (server.applyOne route sender) objects receiver.store
  let response :=
    match results with
    | none => .internalError
    | some results => .results results
  (response, { receiver with store })

def handleContentPush : PushResponse ρ × Receiver σ :=
  match checkBatch (decodeObjectsBody server.cbor body) maxContentBatch with
  | .error code => (.badRequest code, receiver)
  | .ok objects =>
    let (admitted, limiter) := receiver.content.checkAndCountAt sender objects.length nowSecs
    let receiver := { receiver with content := limiter }
    if admitted then
      answerObjects server receiver sender .content objects
    else
      (.tooManyRequests, receiver)

def handleEdgesPush : PushResponse ρ × Receiver σ :=
  match checkBatch (decodeEdgesBody server.cbor body) maxEdgeBatch with
  | .error code => (.badRequest code, receiver)
  | .ok objects => answerObjects server receiver sender .edges objects

def handleMovesPush : PushResponse ρ × Receiver σ :=
  match checkBatch (decodeMovesBody server.cbor body) maxMoveBatch with
  | .error code => (.badRequest code, receiver)
  | .ok objects =>
    let (admitted, limiter) := receiver.moves.checkAndCountAt sender objects.length nowSecs
    let receiver := { receiver with moves := limiter }
    if admitted then
      answerObjects server receiver sender .moves objects
    else
      (.badRequest "rate_limited", receiver)

/-- The handlers that ask their limiter first. -/
def handleGatedPush (route : PushRoute) (maxBatch : Nat) (admitted : Bool) : PushResponse ρ × Receiver σ :=
  if admitted then
    match checkBatch (decodeObjectsBody server.cbor body) maxBatch with
    | .error code => (.badRequest code, receiver)
    | .ok objects => answerObjects server receiver sender route objects
  else
    (.tooManyRequests, receiver)

def handleUserStatusPush : PushResponse ρ × Receiver σ :=
  let (admitted, limiter) := receiver.userStatus.tryAdmitAt sender nowSecs
  handleGatedPush server { receiver with userStatus := limiter } sender body .userStatus maxUserStatusBatch admitted

def handleThreadStatusPush : PushResponse ρ × Receiver σ :=
  let (admitted, limiter) := receiver.threadStatus.tryAdmitAt sender nowSecs
  handleGatedPush server { receiver with threadStatus := limiter } sender body .threadStatus maxThreadStatusBatch admitted

def handleReportsPush : PushResponse ρ × Receiver σ :=
  let (admitted, limiter) := receiver.reports.tryAdmitAt sender nowSecs
  handleGatedPush server { receiver with reports := limiter } sender body .reports maxReportBatch admitted

def handlePush : PushRoute → PushResponse ρ × Receiver σ
  | .content => handleContentPush server receiver sender nowSecs body
  | .edges => handleEdgesPush server receiver sender body
  | .moves => handleMovesPush server receiver sender nowSecs body
  | .userStatus => handleUserStatusPush server receiver sender nowSecs body
  | .threadStatus => handleThreadStatusPush server receiver sender nowSecs body
  | .reports => handleReportsPush server receiver sender nowSecs body

end Handlers

structure PushRequest where
  path : Text
  contentType : Option Text
  body : Bytes

def cborContentType : Text := "application/cbor"

/-- What `verify_inbound` finds. -/
inductive EnvelopeCheck where
  | accepted
  | refused
  | dbFault

variable {σ ρ : Type}

/-- `middleware::verify`, and the handler behind it. -/
def receivePush (server : PushServer σ ρ) (receiver : Receiver σ) (sender : Key) (check : EnvelopeCheck) (nowSecs : Nat)
    (req : PushRequest) : PushResponse ρ × Receiver σ :=
  if req.contentType ≠ some cborContentType then
    (.unsupportedMediaType, receiver)
  else if routeBodyCap req.path < req.body.length then
    (.unauthorized, receiver)
  else
    match check with
    | .refused => (.unauthorized, receiver)
    | .dbFault => (.internalError, receiver)
    | .accepted =>
      match PushRoute.ofPath? req.path with
      | none => (.notFound, receiver)
      | some route => handlePush server receiver sender nowSecs req.body route

def batchRequest (cbor : Ciborium) : List QueuedObject → Option PushRequest
  | [] => none
  | first :: rest => some
      { path := first.path
        contentType := some cborContentType
        body := encodeBatchBody cbor first.bodyKey ((first :: rest).map (·.wireBytes)) }

def dispatchOutcome (status : Nat) : DispatchOutcome :=
  if 200 ≤ status ∧ status < 300 then
    .success
  else if status = 429 ∨ 500 ≤ status ∧ status < 600 then
    .transient
  else if 400 ≤ status ∧ status < 500 then
    .terminal4xx
  else
    .transient

def BatchKept (batch : List QueuedObject) (response : PushResponse ρ) : Prop :=
  (∃ results, response = .results results ∧ results.length = batch.length) ∨
    dispatchOutcome response.status = .transient

end Prismoire
