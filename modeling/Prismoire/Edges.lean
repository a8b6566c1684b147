import Prismoire.TrustEdges

namespace Prismoire

open Lib

inductive RejectReason where
  | schemaInvalid
  | invalidSignature
  | chainFork
  | erased
  | unknownClass
  deriving DecidableEq

inductive EdgeStatus where
  | applied
  | duplicate
  | deferred
  | rejected (reason : RejectReason)
  deriving DecidableEq

/-- What the wrapper fetches after commit: a missing predecessor or an unknown source. -/
inductive EdgeRecovery where
  | predecessor (source target : Key) (prior : Hash)
  | unknownSource (source arrivedFrom : Key)

structure EdgeResult where
  canonicalHash : Hash
  status : EdgeStatus

/-- The reverse-bootstrap step of an edge whose endpoint has no `users` row yet. -/
def recordEndpointMissing (db : Db) (edge : TrustEdge) (canonicalHash : Hash)
    (signature payload : Bytes) (arrivedFrom : Key) : Option EdgeRecovery × Db :=
  let expanded := db.targetInExpansionSet edge.toKey
  let recovery :=
    if expanded && !db.hasUser edge.fromKey then
      some (.unknownSource edge.fromKey arrivedFrom)
    else
      none
  if expanded ∧ signature.length = 64 then
    (recovery, db.insertFrontierEdge edge canonicalHash signature payload db.currentGeneration)
  else
    (recovery, db)

variable (state : AppState) (db : Db)

/-- A redelivered edge that is stored but not projected is tried again from its stored bytes. -/
def reattemptUnprojectedEdge (canonicalHash : Hash) (arrivedFrom : Key) : Sql (Option EdgeRecovery × Db) :=
  match db.signedObjects.find? (·.canonicalHash = canonicalHash) with
  | none => .ok (none, db)
  | some row =>
    match row.payload with
    | none => .ok (none, db)
    | some payload =>
      match state.platform.parse payload with
      | some (.trustEdge edge) => do
        let (projection, db) ← tryProjectTrustEdge state db edge canonicalHash row.signature payload
        match projection with
        | .projected =>
          let db ← drainPendingOrphansAfter state db canonicalHash
          return (none, db)
        | .endpointMissing =>
          return recordEndpointMissing db edge canonicalHash row.signature payload arrivedFrom
        | .chainFork => return (none, db)
        | .deferred => return (none, db)
      | _ => .ok (none, db)

/-- Steps 6 to 9: project, then store or buffer the bytes as the outcome demands. -/
def receiveEdge (edge : TrustEdge) (canonicalHash : Hash)
    (signature payload : Bytes) (arrivedFrom : Key) : Sql (EdgeStatus × Option EdgeRecovery × Db) := do
  let (projection, db) ← tryProjectTrustEdge state db edge canonicalHash signature payload
  match projection with
  | .projected =>
    let db ← drainPendingOrphansAfter state
      (db.storeSignedObject .trustEdge payload signature canonicalHash) canonicalHash
    return (.applied, none, db)
  | .endpointMissing =>
    let (recovery, db) := recordEndpointMissing (db.storeSignedObject .trustEdge payload signature canonicalHash)
      edge canonicalHash signature payload arrivedFrom
    return (.applied, recovery, db)
  | .chainFork =>
    return (.rejected .chainFork, none, db.storeSignedObject .trustEdge payload signature canonicalHash)
  | .deferred =>
    match edge.priorEdgeHash with
    | none => return (.rejected .schemaInvalid, none, db)
    | some prior =>
      let (firstForGap, db) := enqueuePendingTrustEdge db edge canonicalHash payload signature
      let recovery := if firstForGap then some (.predecessor edge.fromKey edge.toKey prior) else none
      return (.deferred, recovery, db)

def applyOneEdgeInner (wireBytes : Bytes) (arrivedFrom : Key) : Sql ((EdgeResult × Option EdgeRecovery) × Db) :=
  match state.platform.decodeSignedObject wireBytes with
  | none => .ok ((⟨state.platform.sha256 wireBytes, .rejected .schemaInvalid⟩, none), db)
  | some (payloadBytes, signatureBytes) =>
    let canonicalHash := state.platform.sha256 payloadBytes
    match db.signedObjects.find? (·.canonicalHash = canonicalHash) with
    | some row =>
      if row.erased || row.payload.isNone then
        .ok ((⟨canonicalHash, .rejected .erased⟩, none), db)
      else if db.hasEdge canonicalHash then
        .ok ((⟨canonicalHash, .duplicate⟩, none), db)
      else do
        let (recovery, db) ← reattemptUnprojectedEdge state db canonicalHash arrivedFrom
        return ((⟨canonicalHash, .duplicate⟩, recovery), db)
    | none =>
      match state.platform.parse payloadBytes with
      | none => .ok ((⟨canonicalHash, .rejected .schemaInvalid⟩, none), db)
      | some (.trustEdge edge) =>
        if signatureOk state.platform payloadBytes signatureBytes edge.fromKey then do
          let (status, recovery, db) ← receiveEdge state db edge canonicalHash signatureBytes payloadBytes arrivedFrom
          return ((⟨canonicalHash, status⟩, recovery), db)
        else
          .ok ((⟨canonicalHash, .rejected .invalidSignature⟩, none), db)
      | some _ => .ok ((⟨canonicalHash, .rejected .unknownClass⟩, none), db)

/-- A delivery as the database sees it: a failed statement rolls the transaction back. -/
def deliverEdge (wireBytes : Bytes) (arrivedFrom : Key) : Db :=
  match applyOneEdgeInner state db wireBytes arrivedFrom with
  | .ok (_, db) => db
  | .error _ => db

end Prismoire
