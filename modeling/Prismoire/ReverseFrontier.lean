import Prismoire.FrontierStore
import Prismoire.Lib.Search

namespace Prismoire

open Lib

/-- A forward score by the bits of its float; no score is negative, so they are ordered as the scores are. -/
abbrev Score := UInt64

/-- A local reader and its own trust towards the authors that it reaches. -/
structure FrontierReader where
  key : Key
  forwardScores : Table Key Score

structure Admission where
  truster : Key
  forwardScore : Score
  genesisAt : Option Int
  deriving DecidableEq

/-- An older account is greater, and no attested age is the least of all. -/
def compareGenesis : Option Int → Option Int → Ordering
  | none, none => .eq
  | none, some _ => .lt
  | some _, none => .gt
  | some a, some b => compare b a

def Admission.desirability (a b : Admission) : Ordering :=
  ((compare a.forwardScore b.forwardScore).then (compareGenesis a.genesisAt b.genesisAt)).then
    (compare a.truster.toNat b.truster.toNat)

/-- The bounded set of one reader; of the heap nothing but its contents and its least element matters. -/
structure AdmissionCap where
  cap : Nat
  heap : List Admission := []

namespace AdmissionCap

variable (set : AdmissionCap)

def worstAdmitted : Option Admission :=
  firstBy (fun a b => a.desirability b == .lt) set.heap

def tryAdmit (adm : Admission) : AdmissionCap × Bool :=
  if set.cap = 0 then (set, false)
  else if set.heap.length < set.cap then ({ set with heap := adm :: set.heap }, true)
  else match set.worstAdmitted with
    | none => (set, false)
    | some worst =>
      if adm.desirability worst = .gt then ({ set with heap := adm :: set.heap.erase worst }, true)
      else (set, false)

def isFull : Bool :=
  set.cap ≠ 0 && set.cap ≤ set.heap.length

end AdmissionCap

/-- How a reached frontier node was materialized. -/
inductive NodeMaterialization
  | isLocal
  | stub
  | deferred
  deriving DecidableEq

namespace Db

variable (db : Db)

def isLocalUser (key : Key) : Bool :=
  db.users.any fun row => row.publicKey = key ∧ row.homeInstance = none

def resolveFrontierHome (key : Key) : Option (Key × Text) :=
  let fromHomes := db.userHomes.find? fun row => row.userKey = key
  let fromPeer := (db.users.find? fun row => row.publicKey = key ∧ row.homeInstance ≠ none).bind fun user =>
    db.peers.find? fun peer => some peer.instancePubkey = user.homeInstance
  match fromHomes.filter fun row => row.currentHomeDomain ≠ "" with
  | some row => some (row.currentHomeKey, row.currentHomeDomain)
  | none => (fromPeer.filter fun peer => peer.instanceDomain ≠ "").map fun peer =>
      (peer.instancePubkey, peer.instanceDomain)

def loadGenesisAt (key : Key) : Option Int :=
  (db.userGenesis.find? fun row => row.userKey = key).map (·.genesisAt)

def markFrontierEdgeLive (canonicalHash : Hash) (generation : Nat) : Db :=
  { db with
    frontierEdges := db.frontierEdges.map fun row =>
      if row.canonicalHash = canonicalHash then { row with generation } else row }

/-- The home of the stub is left out, as nothing reads it; the `CHECK` on the hop is not. -/
def upsertFrontierUserStub (key : Key) (generation reverseHop : Nat) : Sql Db := do
  require (1 ≤ reverseHop && reverseHop ≤ 3) .check
  return { db with
    frontierUsers :=
      if db.frontierUsers.any (·.userKey = key) then
        db.frontierUsers.map fun row => if row.userKey = key then { row with generation, reverseHop } else row
      else db.frontierUsers ++ [{ userKey := key, generation, reverseHop }] }

def materializeFrontierNode (key : Key) (generation reverseHop : Nat) : Sql (Db × NodeMaterialization) :=
  if db.isLocalUser key then return (db, .isLocal)
  else match db.resolveFrontierHome key with
    | none => return (db, .deferred)
    | some _ => do
      let db ← db.upsertFrontierUserStub key generation reverseHop
      return (db, .stub)

end Db

structure ReverseFrontier where
  reachable : List Key := []
  stubsMaterialized : Nat := 0
  stubsDeferred : Nat := 0
  localsSkipped : Nat := 0
  edgesMarked : Nat := 0
  nodesPruned : Nat := 0

/-- A statement that a rebuild sends to the database. -/
inductive FrontierWrite
  | advance
  | mark (canonicalHash : Hash) (generation : Nat)
  | stub (key : Key) (generation reverseHop : Nat)
  | sweepEdges (watermark : Int)
  | sweepStubs (watermark : Int)
  | publishCeiling (root : Key) (cutoff : Int)
  | clearCeiling (root : Key)

/-- The variables of `reverse_frontier_bfs`, the caps in the order of the readers, with the tables that it works on
and the statements that it sent to them. -/
structure FrontierSweep where
  db : Db
  writes : List FrontierWrite := []
  frontier : ReverseFrontier := {}
  visited : List Key := []
  queue : List (Key × Nat) := []
  caps : List AdmissionCap

/-- What was swept before an error stays: there is no transaction around it. -/
abbrev SweepResult := Except (SqlError × FrontierSweep)

def ReverseFrontier.count (frontier : ReverseFrontier) : NodeMaterialization → ReverseFrontier
  | .isLocal => { frontier with localsSkipped := frontier.localsSkipped + 1 }
  | .stub => { frontier with stubsMaterialized := frontier.stubsMaterialized + 1 }
  | .deferred => { frontier with stubsDeferred := frontier.stubsDeferred + 1 }

namespace FrontierSweep

def seed (sweep : FrontierSweep) (reader : FrontierReader) : FrontierSweep :=
  if reader.key ∈ sweep.visited then sweep
  else { sweep with
    visited := sweep.visited ++ [reader.key]
    queue := sweep.queue ++ [(reader.key, 0)] }

def offers (sweep : FrontierSweep) (readers : List FrontierReader) (source : Key) : List (AdmissionCap × Bool) :=
  let known := sweep.db.users.any fun row => row.publicKey = source
  let genesisAt := sweep.db.loadGenesisAt source
  readers.zipWith (fun reader cap =>
    let forwardScore := if known then (reader.forwardScores.get? source).getD 0 else 0
    cap.tryAdmit { truster := source, forwardScore, genesisAt }) sweep.caps

def mark (sweep : FrontierSweep) (canonicalHash : Hash) (generation : Nat) : FrontierSweep :=
  { sweep with
    db := sweep.db.markFrontierEdgeLive canonicalHash generation
    writes := sweep.writes ++ [.mark canonicalHash generation]
    frontier := { sweep.frontier with edgesMarked := sweep.frontier.edgesMarked + 1 } }

def reach (readers : List FrontierReader) (generation hop : Nat) (sweep : FrontierSweep) (source : Key) :
    SweepResult FrontierSweep :=
  let admissions := sweep.offers readers source
  let offered := { sweep with
    visited := sweep.visited ++ [source]
    caps := admissions.map Prod.fst }
  if ¬ admissions.any Prod.snd then
    return { offered with
      frontier := { offered.frontier with nodesPruned := offered.frontier.nodesPruned + 1 } }
  else match offered.db.materializeFrontierNode source generation hop with
    | .error error => throw (error, offered)
    | .ok (db, how) =>
      let counted := offered.frontier.count how
      return { offered with
        db := db
        writes := offered.writes ++ if how = .stub then [.stub source generation hop] else []
        frontier := { counted with reachable := counted.reachable ++ [source] }
        queue := offered.queue ++ [(source, hop)] }

/-- The body of the inner loop. -/
def visitEdge (readers : List FrontierReader) (generation depth : Nat) (sweep : FrontierSweep)
    (edge : FrontierEdgeRef) : SweepResult FrontierSweep :=
  let marked := sweep.mark edge.canonicalHash generation
  if edge.stance ≠ .trust then return marked
  else if edge.sourcePubkey ∈ marked.visited then return marked
  else reach readers generation (depth + 1) marked edge.sourcePubkey

/-- The body of the outer loop, for the node taken off the queue. -/
def expand (readers : List FrontierReader) (generation maxDepth : Nat) (sweep : FrontierSweep) (node : Key)
    (depth : Nat) : SweepResult FrontierSweep :=
  if maxDepth ≤ depth then return sweep
  else (activeEdgesBySource (sweep.db.frontierEdgesByTarget node)).foldlM (visitEdge readers generation depth) sweep

def loop (readers : List FrontierReader) (generation maxDepth : Nat) : Nat → FrontierSweep → SweepResult FrontierSweep
  | 0, sweep => return sweep
  | fuel + 1, sweep =>
    match sweep.queue with
    | [] => return sweep
    | (node, depth) :: rest => do
      let sweep ← expand readers generation maxDepth { sweep with queue := rest } node depth
      loop readers generation maxDepth fuel sweep

end FrontierSweep

/-- The loop has ended when the queue is empty; what it returns then is its last state. -/
def reverseFrontierBfs (fuel : Nat) (db : Db) (readers : List FrontierReader) (capN generation maxDepth : Nat) :
    SweepResult FrontierSweep :=
  let start : FrontierSweep := { db, caps := readers.map fun _ => { cap := capN } }
  FrontierSweep.loop readers generation maxDepth fuel (readers.foldl FrontierSweep.seed start)

end Prismoire
