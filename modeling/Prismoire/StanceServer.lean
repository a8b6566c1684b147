import Prismoire.LocalTrust
import Prismoire.OverlayEdges
import Prismoire.PendingDeltas

namespace Prismoire

open Lib

def Db.currentTrustEdges (db : Db) : List TrustEdgeRow :=
  db.trustEdges.filter fun row => db.currentTrustEdge row.sourceUser row.targetUser = some row

/-- A viewer of an instance, and the ids under which the users' rows name them. -/
structure Viewpoint where
  app : AppState
  sign : TrustEdge → Bytes × Bytes
  userId : Key → Uuid
  viewer : Key

/-- What a handler knows of its edge before the transaction: the request, and what the current graph says. -/
structure StanceEdit where
  target : Key
  stance : TrustStance
  cachedWasTrust : Bool
  cachedWasDistrust : Bool
  deriving DecidableEq

/-- A request of the viewer between its steps. The viewer's commits are numbered. -/
inductive EditPhase where
  | idle
  | observed (edit : StanceEdit)
  | committed (edit : StanceEdit) (commit : Nat)
  | numbered (edit : StanceEdit) (commit seq : Nat)

/-- A rebuild between its steps, with the number of commits that its first query has seen. -/
inductive RebuildPhase where
  | idle
  | captured (highWater : Nat)
  | trustRead (highWater : Nat) (trustRows : List (Uuid × Uuid)) (seen : Nat)
  | bothRead (highWater : Nat) (trustRows distrustRows : List (Uuid × Uuid)) (seen : Nat)
  | swapped (highWater : Nat)
  deriving DecidableEq

/--
The server as one viewer meets it. The last three fields are history: the commits of the viewer,
how many of them the current graph has seen, and the last returned edit of each target, with its number.
-/
structure StanceServer where
  db : Db
  banned : List Key := []
  graph : TrustGraph := TrustGraph.build [] []
  pending : PendingDeltas := {}
  request : EditPhase := .idle
  rebuild : RebuildPhase := .idle
  commits : Nat := 0
  graphSeen : Nat := 0
  applied : Key → Option (StanceEdit × Nat) := fun _ => none

inductive RequestEvent where
  | observe (target : Key) (stance : TrustStance)
  | commit (now : Nat) (id : Uuid)
  | refuse
  | fetch
  | lock

inductive RebuildEvent where
  | capture
  | readTrust
  | readDistrust
  | swap
  | purge
  | fail

/-- What goes on beside the viewer's requests and the rebuilds. -/
inductive OtherEvent where
  | write (db : Db) (banned : List Key)
  | fetch
  | lock (click : Click) (seq : Nat)

inductive StanceEvent where
  | request (event : RequestEvent)
  | rebuild (event : RebuildEvent)
  | other (event : OtherEvent)

namespace Viewpoint

variable (view : Viewpoint)

def viewerId : Uuid :=
  view.userId view.viewer

def click (edit : StanceEdit) : Click where
  viewer := view.viewerId
  target := view.userId edit.target
  cachedWasTrust := edit.cachedWasTrust
  cachedWasDistrust := edit.cachedWasDistrust
  newStance := edit.stance

def Keyed (db : Db) : Prop :=
  (db.users.map fun user => view.userId user.publicKey).Nodup ∧
    ∀ row ∈ db.trustEdges, db.hasUser row.sourceUser = true ∧ db.hasUser row.targetUser = true

instance (db : Db) : Decidable (view.Keyed db) :=
  inferInstanceAs (Decidable (_ ∧ _))

/-- Another writer leaves alone the viewer's rows about the users there are. -/
def Foreign (db after : Db) : Prop :=
  view.Keyed after ∧
    ∀ user ∈ db.users, after.pairEdges view.viewer user.publicKey = db.pairEdges view.viewer user.publicKey

instance (db after : Db) : Decidable (view.Foreign db after) :=
  inferInstanceAs (Decidable (_ ∧ _))

def trustQuery (db : Db) (banned : List Key) : List (Uuid × Uuid) :=
  (db.currentTrustEdges.filter fun row => row.trustType = .trust ∧
    db.hasUser row.sourceUser ∧ db.hasUser row.targetUser ∧ row.sourceUser ∉ banned ∧ row.targetUser ∉ banned).map
      fun row => (view.userId row.sourceUser, view.userId row.targetUser)

def distrustQuery (db : Db) : List (Uuid × Uuid) :=
  (db.currentTrustEdges.filter fun row => row.trustType = .distrust).map
    fun row => (view.userId row.sourceUser, view.userId row.targetUser)

def observe (graph : TrustGraph) (target : Key) (stance : TrustStance) : StanceEdit where
  target := target
  stance := stance
  cachedWasTrust := graph.hasTrustEdge view.viewerId (view.userId target)
  cachedWasDistrust := graph.hasDistrustEdge view.viewerId (view.userId target)

variable (server : StanceServer)

def requestStep (event : RequestEvent) : StanceServer :=
  match event, server.request with
  | .observe target stance, .idle => { server with request := .observed (view.observe server.graph target stance) }
  | .commit now id, .observed edit =>
    match mutateTrustEdge view.app view.sign server.db view.viewer edit.target ⟨edit.stance, now, id⟩ with
    | .ok (_, db) => { server with db, request := .committed edit server.commits, commits := server.commits + 1 }
    | .error _ => { server with request := .idle }
  | .refuse, .observed _ => { server with request := .idle }
  | .fetch, .committed edit commit =>
    let (seq, pending) := server.pending.fetchSeq
    { server with pending, request := .numbered edit commit seq }
  | .lock, .numbered edit commit seq =>
    { server with
      pending := server.pending.record (view.click edit) seq
      request := .idle
      applied := Function.update server.applied edit.target (some (edit, commit)) }
  | _, _ => server

/-- A step of `rebuild_loop` around `rebuild_trust_graph`. A failed rebuild does not purge. -/
def rebuildStep (event : RebuildEvent) : StanceServer :=
  match event, server.rebuild with
  | .capture, .idle => { server with rebuild := .captured server.pending.currentSeq }
  | .readTrust, .captured highWater =>
    { server with rebuild := .trustRead highWater (view.trustQuery server.db server.banned) server.commits }
  | .readDistrust, .trustRead highWater trustRows seen =>
    { server with rebuild := .bothRead highWater trustRows (view.distrustQuery server.db) seen }
  | .swap, .bothRead highWater trustRows distrustRows seen =>
    { server with
      graph := TrustGraph.build trustRows distrustRows
      rebuild := .swapped highWater
      graphSeen := seen }
  | .purge, .swapped highWater =>
    { server with pending := server.pending.purgeBelow highWater, rebuild := .idle }
  | .fail, .captured _ | .fail, .trustRead .. | .fail, .bothRead .. => { server with rebuild := .idle }
  | _, _ => server

/-- A write to the database, or a part of `apply` for another viewer. -/
def otherStep : OtherEvent → StanceServer
  | .write db banned => if view.Foreign server.db db then { server with db, banned } else server
  | .fetch => { server with pending := server.pending.fetchSeq.2 }
  | .lock click seq =>
    if click.viewer = view.viewerId then server
    else { server with pending := server.pending.record click seq }

def step : StanceEvent → StanceServer
  | .request event => view.requestStep server event
  | .rebuild event => view.rebuildStep server event
  | .other event => view.otherStep server event

end Viewpoint

end Prismoire
