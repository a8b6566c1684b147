import Prismoire.Content
import Prismoire.PriorHome

namespace Prismoire

open Lib

def maxRecoveryPages : Nat := 64

def maxFallbackPeers : Nat := 16

def throttleMaxRetries : Nat := 5

structure SurfaceStats where
  pagesFetched : Nat := 0
  objectsSeen : Nat := 0
  complete : Bool := false

structure RecoveryStats where
  primaryAttempted : Bool := false
  primaryComplete : Bool := false
  fallbackAttempted : Bool := false
  fallbackComplete : Bool := false
  objectsSeen : Nat := 0

/-- The report is `best_effort_incomplete` if neither layer went through, and `ok` otherwise. -/
def RecoveryStats.isIncomplete (stats : RecoveryStats) : Bool :=
  !(stats.primaryAttempted && stats.primaryComplete || stats.fallbackAttempted && stats.fallbackComplete)

inductive PageError where
  | transport
  | status (refusal : PriorHomeRefusal)
  | peerStatus
  | decode

def ingestEdgeObject (state : AppState) (arrivedFrom : Key) (db : Db) (wire : Bytes) : Db :=
  deliverEdge state db wire arrivedFrom

/-- Each object goes to the receive path of its class. -/
def ingestContentObject (state : AppState) (arrivedFrom : Key) (db : Db) (wire : Bytes) : Db :=
  match (state.platform.decodeSignedObject wire).bind fun framed => state.platform.parse framed.1 with
  | some (.trustEdge _) => ingestEdgeObject state arrivedFrom db wire
  | _ => deliverObject state db wire arrivedFrom

section Pages

variable (cbor : Ciborium) {σ : Type}

def paginatePages (fetch : σ → Option Bytes → Except PageError Bytes × σ) (ingest : Db → Bytes → Db) :
    Nat → σ → Option Bytes → SurfaceStats → Db → Except PageError SurfaceStats × Db
  | 0, _, _, stats, db => (.ok stats, db)
  | pages + 1, requests, cursor, stats, db =>
    match fetch requests cursor with
    | (.error error, _) => (.error error, db)
    | (.ok raw, requests) =>
      match decodeBackfillBody cbor raw with
      | none => (.error .decode, db)
      | some (objects, nextCursor, complete) =>
        let db := objects.foldl ingest db
        let stats := { stats with
          pagesFetched := stats.pagesFetched + 1, objectsSeen := stats.objectsSeen + objects.length }
        if complete then
          (.ok { stats with complete := true }, db)
        else
          match nextCursor with
          | none => (.error .decode, db)
          | some next => paginatePages fetch ingest pages requests (some next) stats db

/-- A failed surface counts for nothing, though what it has brought stays. -/
def surfaceStats : Except PageError SurfaceStats → SurfaceStats
  | .ok stats => stats
  | .error _ => {}

end Pages

section Primary

/-- A request: the clock of the side that sends it, the clock of the side that serves it, and its luck. -/
structure Exchange where
  sentAt : Nat
  servedAt : Nat
  admitted : Bool := true
  answered : Bool := true

/-- What meets the walk of one surface: the request for its challenge, and the one for each page. -/
structure BulkWalk where
  mint : Exchange
  nonce : Hash
  page : Nat → Exchange

structure RecoverySubject where
  key : Key
  signResponse : PriorHomeResponse → Bytes × Bytes

abbrev BulkHandler := BulkFetchReq → Nat → Bool → Except PriorHomeRefusal BackfillPage

variable (cbor : Ciborium) (state : AppState) (subject : RecoverySubject) (home : PriorHome) (walk : BulkWalk)

/-- The challenge on the wire, and its payload. -/
def mintChallenge : Except PageError (Bytes × Bytes) :=
  if !walk.mint.answered then
    .error .transport
  else
    match handleChallenge home subject.key walk.nonce walk.mint.servedAt walk.mint.admitted with
    | .error refusal => .error (.status refusal)
    | .ok (payload, signature) =>
      let wire := encodeSignedObject cbor payload signature
      match state.platform.decodeSignedObject wire with
      | none => .error .decode
      | some (payload, _) => .ok (wire, payload)

def mintResponse (challengePayload : Bytes) (now : Nat) : Bytes :=
  let response := subject.signResponse
    { subjectKey := subject.key, challengeHash := state.platform.sha256 challengePayload, createdAt := now }
  encodeSignedObject cbor response.1 response.2

def postPage (handler : BulkHandler) (challenge : Bytes × Bytes) (index : Nat) (cursor : Option Bytes) :
    Except PageError Bytes :=
  let exchange := walk.page index
  if !exchange.answered then
    .error .transport
  else
    let req : BulkFetchReq :=
      { challenge := challenge.1, response := mintResponse cbor state subject challenge.2 exchange.sentAt,
        since := cursor }
    match handler req exchange.servedAt exchange.admitted with
    | .error refusal => .error (.status refusal)
    | .ok page => .ok (encodeBackfillBody cbor page)

def paginateBulkSurface (handler : BulkHandler) (ingest : Db → Bytes → Db) (db : Db) :
    Except PageError SurfaceStats × Db :=
  match mintChallenge cbor state subject home walk with
  | .error error => (.error error, db)
  | .ok challenge =>
    paginatePages cbor
      (fun index cursor => (postPage cbor state subject walk handler challenge index cursor, index + 1))
      ingest maxRecoveryPages 0 none {} db

end Primary

section Fallback

inductive PeerAnswer where
  | failed (error : PageError)
  | throttled
  | page (raw : Bytes)

/-- A backfill route of a peer, by the number of the request and the cursor in it. -/
abbrev PeerRoute := Nat → Option Bytes → PeerAnswer

structure PeerRoutes where
  byAuthor : PeerRoute
  edgesByKey : PeerRoute

/-- After a 429 the same page is asked for again, so often in one walk. -/
def requestPage (route : PeerRoute) (cursor : Option Bytes) : Nat → Nat → Except PageError Bytes × Nat × Nat
  | 0, request =>
    match route request cursor with
    | .failed error => (.error error, 0, request + 1)
    | .throttled => (.error .peerStatus, 0, request + 1)
    | .page raw => (.ok raw, 0, request + 1)
  | retries + 1, request =>
    match route request cursor with
    | .failed error => (.error error, retries + 1, request + 1)
    | .throttled => requestPage route cursor retries (request + 1)
    | .page raw => (.ok raw, retries + 1, request + 1)

variable (cbor : Ciborium) (state : AppState)

def paginatePeerBackfill (route : PeerRoute) (ingest : Db → Bytes → Db) (db : Db) :
    Except PageError SurfaceStats × Db :=
  paginatePages cbor (fun (left : Nat × Nat) cursor => requestPage route cursor left.1 left.2) ingest
    maxRecoveryPages (throttleMaxRetries, 0) none {} db

def SurfaceStats.add (acc stats : SurfaceStats) : SurfaceStats :=
  { acc with
    pagesFetched := acc.pagesFetched + stats.pagesFetched, objectsSeen := acc.objectsSeen + stats.objectsSeen }

/-- What the sweep has gathered, and whether each peer so far has sent everything. -/
structure PeerSweep where
  content : SurfaceStats := {}
  edges : SurfaceStats := {}
  allComplete : Bool := true
  db : Db

def sweepPeer (routes : Key → PeerRoutes) (sweep : PeerSweep) (peer : Key) : PeerSweep :=
  let (byAuthor, db) := paginatePeerBackfill cbor (routes peer).byAuthor (ingestContentObject state peer) sweep.db
  let (edgesByKey, db) := paginatePeerBackfill cbor (routes peer).edgesByKey (ingestEdgeObject state peer) db
  { content := sweep.content.add (surfaceStats byAuthor)
    edges := sweep.edges.add (surfaceStats edgesByKey)
    allComplete := sweep.allComplete && (surfaceStats byAuthor).complete && (surfaceStats edgesByKey).complete
    db }

def recoverViaPeerNetwork (candidates : List Key) (routes : Key → PeerRoutes) (db : Db) :
    (SurfaceStats × SurfaceStats) × Db :=
  if candidates.isEmpty then
    (({}, {}), db)
  else
    let sweep := (candidates.take maxFallbackPeers).foldl (sweepPeer cbor state routes) { db }
    (({ sweep.content with complete := sweep.allComplete }, { sweep.edges with complete := sweep.allComplete }), sweep.db)

end Fallback

/-- A prior home that answered the probes, and what meets the walks of its two surfaces. -/
structure PrimaryPath where
  home : PriorHome
  content : BulkWalk
  edges : BulkWalk

variable (cbor : Ciborium) (state : AppState) (subject : RecoverySubject)

def recoverViaPriorHome (path : PrimaryPath) (db : Db) : (SurfaceStats × SurfaceStats) × Db :=
  let peer := path.home.state.instanceKey
  let (content, db) := paginateBulkSurface cbor state subject path.home path.content (handleContentByKey path.home)
    (ingestContentObject state peer) db
  let (edges, db) := paginateBulkSurface cbor state subject path.home path.edges (handleInboundEdgesByKey path.home)
    (ingestEdgeObject state peer) db
  ((surfaceStats content, surfaceStats edges), db)

def primaryStage (confirmed : Option PrimaryPath) (db : Db) : RecoveryStats × Db :=
  match confirmed with
  | none => ({}, db)
  | some path =>
    let ((content, edges), db) := recoverViaPriorHome cbor state subject path db
    ({ primaryAttempted := true, primaryComplete := content.complete && edges.complete,
       objectsSeen := content.objectsSeen + edges.objectsSeen }, db)

/-- The prior home first, then the peers unless both of its surfaces went through. -/
def driveRecovery (confirmed : Option PrimaryPath) (candidates : List Key) (routes : Key → PeerRoutes) (db : Db) :
    RecoveryStats × Db :=
  let (stats, db) := primaryStage cbor state subject confirmed db
  if stats.primaryComplete then
    (stats, db)
  else
    let ((content, edges), db) := recoverViaPeerNetwork cbor state candidates routes db
    ({ stats with
       fallbackAttempted := true
       fallbackComplete := content.complete && edges.complete
       objectsSeen := stats.objectsSeen + (content.objectsSeen + edges.objectsSeen) }, db)

end Prismoire
