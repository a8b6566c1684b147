import Mathlib.Data.String.Basic
import Prismoire.Db
import Prismoire.Lib.Settle

namespace Prismoire

open Lib

inductive TrustEdgeProjection where
  | projected
  | endpointMissing
  | chainFork
  | deferred

namespace Db

variable (db : Db)

def currentGeneration : Nat :=
  db.frontierGeneration

def insertFrontierEdge (edge : TrustEdge) (canonicalHash : Hash) (signature payload : Bytes) (generation : Nat) : Db :=
  { db with
    frontierEdges :=
      if db.frontierEdges.any (·.canonicalHash = canonicalHash) then db.frontierEdges
      else db.frontierEdges ++
        [{ canonicalHash, sourcePubkey := edge.fromKey, targetPubkey := edge.toKey,
           priorEdgeHash := edge.priorEdgeHash, stance := edge.stance,
           createdAt := clampI64 edge.createdAt, payload, signature, generation }] }

def targetInExpansionSet (key : Key) : Bool :=
  (db.users.any fun row => row.publicKey = key ∧ row.homeInstance = none) || db.frontierUsers.any fun row =>
      row.userKey = key ∧ row.generation = db.currentGeneration ∧ row.reverseHop ≤ 2

def hasEdge (hash : Hash) : Bool :=
  db.trustEdges.any (·.canonicalHash = hash)

/-- Another edge of the pair already took the same predecessor, NULL matching NULL. -/
def edgeForked (edge : TrustEdge) (hash : Hash) : Bool :=
  db.trustEdges.any fun row => row.sourceUser = edge.fromKey ∧ row.targetUser = edge.toKey ∧
    row.priorEdgeHash = edge.priorEdgeHash ∧ row.canonicalHash ≠ hash

/-- The order of the view's window: newest second first, ties by the larger row id. -/
def edgeNewer (a b : TrustEdgeRow) : Bool :=
  b.createdAt < a.createdAt || (a.createdAt == b.createdAt && b.id < a.id)

theorem edgeNewer_trans (a b c : TrustEdgeRow) (first : edgeNewer a b = true)
    (second : edgeNewer b c = true) : edgeNewer a c = true := by
  simp only [edgeNewer, Bool.or_eq_true, decide_eq_true_eq, Bool.and_eq_true, beq_iff_eq] at first second ⊢
  rcases first with later | ⟨sameAB, largerAB⟩
  · rcases second with later' | ⟨sameBC, -⟩
    · exact .inl (lt_trans later' later)
    · exact .inl (sameBC ▸ later)
  · rcases second with later' | ⟨sameBC, largerBC⟩
    · exact .inl (sameAB ▸ later')
    · exact .inr ⟨sameAB.trans sameBC, BitVec.lt_trans largerBC largerAB⟩

theorem edgeNewer_irrefl (a : TrustEdgeRow) : edgeNewer a a = false := by
  simp [edgeNewer]

def pairEdges (source target : Key) : List TrustEdgeRow :=
  db.trustEdges.filter fun row => row.sourceUser = source ∧ row.targetUser = target

def currentTrustEdge (source target : Key) : Option TrustEdgeRow :=
  (firstBy edgeNewer (db.pairEdges source target)).filter (·.trustType ≠ .neutral)

def hasPairEdge (source target : Key) (hash : Hash) : Bool :=
  db.trustEdges.any fun row =>
    row.sourceUser = source ∧ row.targetUser = target ∧ row.canonicalHash = hash

end Db

def edgeStamp (platform : Platform) (edge : TrustEdge) : Option Text :=
  if edge.createdAt ≤ i64Max then platform.formatTimestamp (edge.createdAt / 1000) else none

variable (state : AppState)

/-- A timestamp outside what the formatter takes is replaced by the receiver's clock. -/
def edgeCreatedAtIso (edge : TrustEdge) (canonicalHash : Hash) : Text :=
  (edgeStamp state.platform edge).getD (state.edgeClock canonicalHash)

def edgeRow (edge : TrustEdge) (canonicalHash : Hash) (signature : Bytes) : TrustEdgeRow where
  id := state.edgeRowId canonicalHash
  sourceUser := edge.fromKey
  targetUser := edge.toKey
  trustType := edge.stance
  createdAt := edgeCreatedAtIso state edge canonicalHash
  signature := signature
  priorEdgeHash := edge.priorEdgeHash
  canonicalHash := canonicalHash

/-- The two inserts of a projection: the edge and, for a well-formed signature, its frontier copy. -/
def withTrustEdge (db : Db) (edge : TrustEdge) (canonicalHash : Hash) (signature payload : Bytes) : Db :=
  let db := { db with trustEdges := db.trustEdges ++ [edgeRow state edge canonicalHash signature] }
  { db with
    frontierEdges :=
      if signature.length = 64 then
        (db.insertFrontierEdge edge canonicalHash signature payload db.currentGeneration).frontierEdges
      else
        db.frontierEdges }

def insertTrustEdge (db : Db) (edge : TrustEdge) (canonicalHash : Hash) (signature payload : Bytes) : Sql Db :=
  let db := withTrustEdge state db edge canonicalHash signature payload
  if edge.stance = .neutral then
    db.eraseTrustEdgeChain edge.fromKey edge.toKey canonicalHash
  else
    .ok db

def tryProjectTrustEdge (db : Db) (edge : TrustEdge) (canonicalHash : Hash)
    (signature payload : Bytes) : Sql (TrustEdgeProjection × Db) :=
  if !db.hasUser edge.fromKey || !db.hasUser edge.toKey then
    .ok (.endpointMissing, db)
  else if db.hasEdge canonicalHash then
    .ok (.projected, db)
  else if db.edgeForked edge canonicalHash then
    .ok (.chainFork, db)
  else if edge.priorEdgeHash.any fun prior => !db.hasPairEdge edge.fromKey edge.toKey prior then
    .ok (.deferred, db)
  else do
    let db ← insertTrustEdge state db edge canonicalHash signature payload
    return (.projected, db)

def enqueuePendingTrustEdge (db : Db) (edge : TrustEdge) (canonicalHash : Hash)
    (payload signature : Bytes) : Bool × Db :=
  match edge.priorEdgeHash with
  | none => (false, db)
  | some prior =>
    if db.pendingTrustEdges.any fun row => row.sourcePubkey = edge.fromKey ∧ row.priorEdgeHash = prior then
      (false, db)
    else
      (true, { db with
        pendingTrustEdges := db.pendingTrustEdges ++
          [{ sourcePubkey := edge.fromKey, targetPubkey := edge.toKey, priorEdgeHash := prior,
             canonicalHash, payload, signature }] })

def deletePendingOrphan (db : Db) (source : Key) (prior : Hash) : Db :=
  { db with
    pendingTrustEdges := db.pendingTrustEdges.filter fun row =>
      !(row.sourcePubkey = source ∧ row.priorEdgeHash = prior) }

/-- One buffered row whose predecessor just landed; a projected row joins the worklist. -/
def drainRow (acc : Db × List Hash) (row : PendingTrustEdgeRow) : Sql (Db × List Hash) := do
  let (db, worklist) := acc
  match state.platform.parse row.payload with
  | some (.trustEdge edge) =>
    let (projection, db) ← tryProjectTrustEdge state db edge row.canonicalHash row.signature row.payload
    let promoted := deletePendingOrphan (db.storeSignedObject .trustEdge row.payload row.signature row.canonicalHash)
      row.sourcePubkey row.priorEdgeHash
    match projection with
    | .projected => return (promoted, row.canonicalHash :: worklist)
    | .chainFork => return (promoted, worklist)
    | .endpointMissing => return (promoted, worklist)
    | .deferred => return (db, worklist)
  | _ => return (deletePendingOrphan db row.sourcePubkey row.priorEdgeHash, worklist)

def drainLoop (state : AppState) : Nat → List Hash → Db → Sql Db
  | 0, _, db => .ok db
  | _ + 1, [], db => .ok db
  | fuel + 1, current :: rest, db => do
    let rows := db.pendingTrustEdges.filter (·.priorEdgeHash = current)
    let (db, worklist) ← rows.foldlM (drainRow state) (db, rest)
    drainLoop state fuel worklist db

/-- Every popped hash beyond the first took a row out of the buffer, which bounds the pops. -/
def drainPendingOrphansAfter (db : Db) (startHash : Hash) : Sql Db :=
  drainLoop state (db.pendingTrustEdges.length + 1) [startHash] db

structure SweepCandidate where
  edge : TrustEdge
  canonicalHash : Hash
  signature : Bytes
  payload : Bytes

def sweepCandidate (db : Db) (userKey : Key) (row : SignedObjectRow) : Option SweepCandidate :=
  if row.innerClass = .trustEdge ∧ db.hasEdge row.canonicalHash = false then
    match row.payload with
    | none => none
    | some payload =>
      match state.platform.parse payload with
      | some (.trustEdge edge) =>
        if edge.fromKey = userKey ∨ edge.toKey = userKey then
          some { edge, canonicalHash := row.canonicalHash, signature := row.signature, payload }
        else
          none
      | _ => none
  else
    none

def sweepCandidates (db : Db) (userKey : Key) : List SweepCandidate :=
  db.signedObjects.filterMap (sweepCandidate state db userKey)

def sweepAttempt (acc : Db × Bool) (candidate : SweepCandidate) : Sql (Outcome × Db × Bool) := do
  let (projection, db) ← tryProjectTrustEdge state acc.1 candidate.edge candidate.canonicalHash
    candidate.signature candidate.payload
  match projection with
  | .projected =>
    let db ← drainPendingOrphansAfter state db candidate.canonicalHash
    return (.landed, db, true)
  | .deferred => return (.waiting, db, acc.2)
  | .endpointMissing => return (.dropped, db, acc.2)
  | .chainFork => return (.dropped, db, acc.2)

/-- The flag tells whether any edge was projected. -/
def sweepPendingProjections (db : Db) (userKey : Key) : Sql (Db × Bool) :=
  let pending := sweepCandidates state db userKey
  settle (sweepAttempt state) (pending.length + 1) (db, false) pending

end Prismoire
