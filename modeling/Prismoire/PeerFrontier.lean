import Prismoire.Signed
import Prismoire.Lib.Run
import Prismoire.Lib.Table

namespace Prismoire

open Lib

inductive Mode
  | filtered
  | all
  deriving DecidableEq

/-- Where the share of the local users that a filter covers lies, if there are local users: below
both thresholds, between them, or above both. -/
inductive Coverage
  | noUsers
  | low
  | between
  | high
  deriving DecidableEq

def classifyMode (currentMode : Mode) (coverage : Coverage) : Mode :=
  match currentMode, coverage with
  | _, .noUsers => currentMode
  | .filtered, .high => .all
  | .all, .low => .filtered
  | _, _ => currentMode

/-- The `BTreeMap` of the ceilings: no root has two. -/
structure AgeCeilings where
  entries : Table Key UInt64 := []
  keyed : entries.Keyed := by first | exact Table.keyed_nil | decide

/-- A filter on the wire, less its target rate, a float that nothing reads. -/
structure FilterSpec where
  family : Text
  k : UInt32
  m : UInt32
  nEst : UInt64
  bytes : Bytes
  deriving DecidableEq

structure BloomFilter where
  k : UInt32
  m : UInt32
  nEst : UInt64
  bits : Bytes

def bloomFamily : Text := "prismoire-bloom-v1"

def minMBits : UInt32 := 64

def maxMBits : Nat := 2 ^ 32

def minK : UInt32 := 1

def maxK : UInt32 := 32

inductive ParamError
  | badK
  | badM

def BloomFilter.fromParts (k m : UInt32) (nEst : UInt64) (bytes : Bytes) : Except ParamError BloomFilter :=
  if ¬ (minK ≤ k ∧ k ≤ maxK) then .error .badK
  else if m < minMBits ∨ maxMBits ≤ m.toNat ∨ m % 64 ≠ 0 then .error .badM
  else if bytes.length ≠ m.toNat / 8 then .error .badM
  else .ok { k, m, nEst, bits := bytes }

def FilterSpec.intoBloom (spec : FilterSpec) : Except Text BloomFilter :=
  if spec.family ≠ bloomFamily then .error "unsupported_family"
  else if ¬ (minK ≤ spec.k ∧ spec.k ≤ maxK) then .error "filter_param_out_of_range"
  else if spec.m < minMBits ∨ maxMBits ≤ spec.m.toNat ∨ spec.m % 64 ≠ 0 then .error "filter_param_out_of_range"
  else if spec.bytes.length ≠ spec.m.toNat / 8 then .error "bytes_length_mismatch"
  else match BloomFilter.fromParts spec.k spec.m spec.nEst spec.bytes with
    | .error _ => .error "filter_param_out_of_range"
    | .ok bloom => .ok bloom

/-- The body of an announce, and what `apply_inbound_frontier` is called with. -/
structure FrontierAnnounce where
  version : UInt64
  epochStart : UInt64
  activeHorizonDays : UInt32
  visibleFilter : FilterSpec
  expansionFilter : FilterSpec
  mode : Mode
  ageCeilings : AgeCeilings

/-- The answer to a pull, less its cursor. -/
structure FrontierSnapshot where
  version : UInt64
  epochStart : UInt64
  activeHorizonDays : UInt32
  visibleFilter : FilterSpec
  expansionFilter : FilterSpec
  ageCeilings : AgeCeilings

structure FrontierDelta where
  prevVersion : UInt64
  newVersion : UInt64
  visibleMask : Option Bytes
  expansionMask : Option Bytes
  mode : Mode
  ageCeilings : AgeCeilings

/-- A pulled snapshot names no mode. -/
def FrontierSnapshot.inbound (snapshot : FrontierSnapshot) : FrontierAnnounce where
  version := snapshot.version
  epochStart := snapshot.epochStart
  activeHorizonDays := snapshot.activeHorizonDays
  visibleFilter := snapshot.visibleFilter
  expansionFilter := snapshot.expansionFilter
  mode := .filtered
  ageCeilings := snapshot.ageCeilings

def toBeBytes (x : UInt64) : Bytes :=
  (List.range 8).map fun i => (x >>> (56 - 8 * i).toUInt64).toUInt8

def encodeCursor (version epochStart : UInt64) : Bytes :=
  toBeBytes version ++ toBeBytes epochStart

structure FrontierRow where
  appliedVersion : Int
  epochStart : Int
  activeHorizonDays : Int
  visible : FilterSpec
  expansion : FilterSpec
  cursor : Bytes
  inboundMode : Mode
  outboundMode : Mode
  deriving DecidableEq

/-- The `CHECK`s on the columns of one filter. -/
def FilterSpec.checked (spec : FilterSpec) : Bool :=
  1 ≤ spec.k && spec.k ≤ 32 && 64 ≤ spec.m && spec.m % 64 == 0 && 0 ≤ asI64 spec.nEst.toNat &&
    spec.bytes.length == spec.m.toNat / 8

/-- The `CHECK`s of the table. -/
def FrontierRow.checked (row : FrontierRow) : Bool :=
  0 ≤ row.appliedVersion && 0 ≤ row.epochStart && 0 ≤ row.activeHorizonDays && row.visible.checked &&
    row.expansion.checked

/-- A write that changed the row: a full snapshot, or a delta on top of what was there. -/
inductive Applied
  | snapshot (inbound : FrontierAnnounce)
  | delta (body : FrontierDelta)

def Applied.version : Applied → UInt64
  | .snapshot inbound => inbound.version
  | .delta body => body.newVersion

/-- What the database holds about one sender, and the writes that made it so. -/
structure FrontierStore where
  row : Option FrontierRow := none
  ceilings : Table Key Int := []
  applied : List Applied := []

def upsertCeiling (ceilings : Table Key Int) (entry : Key × UInt64) : Table Key Int :=
  match ceilings.get? entry.1 with
  | none => ceilings ++ [(entry.1, asI64 entry.2.toNat)]
  | some _ => ceilings.modify entry.1 fun _ => asI64 entry.2.toNat

namespace FrontierStore

variable (store : FrontierStore)

/-- One transaction. A ceiling refers to the row of the peer, so without one nothing is inserted. -/
def writeCeilings (start : Table Key Int) (ceilings : AgeCeilings) : Option FrontierStore :=
  if store.row = none ∧ ceilings.entries ≠ [] then none
  else some { store with
    ceilings := ceilings.entries.foldl upsertCeiling start }

/-- The rows are deleted first, in the same transaction. -/
def replacePeerAgeCeilings (ceilings : AgeCeilings) : Option FrontierStore :=
  store.writeCeilings [] ceilings

def mergePeerAgeCeilings (ceilings : AgeCeilings) : Option FrontierStore :=
  store.writeCeilings store.ceilings ceilings

end FrontierStore

inductive ApplyCaller
  | announce
  | pull

inductive FrontierAnswer
  | badRequest (code : Text)
  | internalError
  | applied (version : UInt64) (cursor : Bytes)
  | versionMismatch (current : UInt64)
  | pulled (version : UInt64)
  | pullFailed

/-- What `handle_frontier_delta` is about to write: the delta, the row that it read, and the bytes of
the filters of that row with the masks in. -/
structure DeltaWrite where
  delta : FrontierDelta
  read : FrontierRow
  visible : Bytes
  expansion : Bytes

/-- A handler between two of its statements, named by the one that comes next. -/
inductive ApplyStage
  | announced (announce : FrontierAnnounce)
  | pulled (snapshot : FrontierSnapshot)
  | notModified
  | upserting (caller : ApplyCaller) (inbound : FrontierAnnounce) (priorOutboundMode : Mode)
  | replacing (caller : ApplyCaller) (inbound : FrontierAnnounce)
  | rereading (inbound : FrontierAnnounce)
  | delivered (delta : FrontierDelta)
  | updating (write : DeltaWrite)
  | merging (delta : FrontierDelta) (cursor : Bytes)
  | answered (answer : FrontierAnswer)

namespace ApplyCaller

def onBadFilter : ApplyCaller → Text → FrontierAnswer
  | .announce, code => .badRequest code
  | .pull, _ => .pullFailed

def onDb : ApplyCaller → FrontierAnswer
  | .announce => .internalError
  | .pull => .pullFailed

def onApplied : ApplyCaller → FrontierAnnounce → FrontierAnswer
  | .announce, inbound => .applied inbound.version (encodeCursor inbound.version inbound.epochStart)
  | .pull, inbound => .pulled inbound.version

end ApplyCaller

def beginApply (caller : ApplyCaller) (inbound : FrontierAnnounce) (priorOutboundMode : Mode) : ApplyStage :=
  match inbound.visibleFilter.intoBloom, inbound.expansionFilter.intoBloom with
  | .error code, _ => .answered (caller.onBadFilter code)
  | .ok _, .error code => .answered (caller.onBadFilter code)
  | .ok _, .ok _ => .upserting caller inbound priorOutboundMode

theorem beginApply_split (caller : ApplyCaller) (inbound : FrontierAnnounce) (prior : Mode) :
    (∃ answer, beginApply caller inbound prior = .answered answer) ∨
      beginApply caller inbound prior = .upserting caller inbound prior ∧
        (∃ bloom, inbound.visibleFilter.intoBloom = .ok bloom) ∧
        ∃ bloom, inbound.expansionFilter.intoBloom = .ok bloom := by
  rw [beginApply]
  split
  · exact .inl ⟨_, rfl⟩
  · exact .inl ⟨_, rfl⟩
  · rename_i visible expansion isVisible isExpansion
    exact .inr ⟨rfl, ⟨visible, isVisible⟩, expansion, isExpansion⟩

/-- The row that the upsert would store. -/
def FrontierAnnounce.row (inbound : FrontierAnnounce) (outboundMode : Mode) : FrontierRow where
  appliedVersion := asI64 inbound.version.toNat
  epochStart := asI64 inbound.epochStart.toNat
  activeHorizonDays := inbound.activeHorizonDays.toNat
  visible := inbound.visibleFilter
  expansion := inbound.expansionFilter
  cursor := encodeCursor inbound.version inbound.epochStart
  inboundMode := inbound.mode
  outboundMode := outboundMode

def orMask (bytes : Bytes) : Option Bytes → Except Text Bytes
  | none => .ok bytes
  | some mask =>
    if mask.length ≠ bytes.length then .error "or_mask_length_mismatch"
    else .ok (bytes.zipWith (· ||| ·) mask)

def mergeMasks (delta : FrontierDelta) (read : FrontierRow) : ApplyStage :=
  match orMask read.visible.bytes delta.visibleMask, orMask read.expansion.bytes delta.expansionMask with
  | .error code, _ => .answered (.badRequest code)
  | .ok _, .error code => .answered (.badRequest code)
  | .ok visible, .ok expansion => .updating { delta, read, visible, expansion }

/-- The row that the `UPDATE` of a delta leaves: the cursor takes the epoch of the row that was read,
the columns that it does not set stay those of the row that is there. -/
def FrontierRow.updated (current : FrontierRow) (write : DeltaWrite) (outboundMode : Mode) : FrontierRow :=
  { current with
    appliedVersion := asI64 write.delta.newVersion.toNat
    visible := { current.visible with bytes := write.visible }
    expansion := { current.expansion with bytes := write.expansion }
    cursor := encodeCursor write.delta.newVersion (asU64 write.read.epochStart)
    inboundMode := write.delta.mode
    outboundMode := outboundMode }

/-- The mode of the pair after a delta; filters that do not fit together keep the one there was. -/
def DeltaWrite.reclassify (write : DeltaWrite) (coverage : Coverage) : Mode :=
  let filter := write.read.visible
  match BloomFilter.fromParts filter.k filter.m filter.nEst write.visible with
  | .ok _ => classifyMode write.read.outboundMode coverage
  | .error _ => write.read.outboundMode

def readForAnnounce (announce : FrontierAnnounce) : Option FrontierRow → ApplyStage
  | none => beginApply .announce announce .filtered
  | some row =>
    if announce.version < asU64 row.appliedVersion then .answered (.badRequest "version_not_monotonic")
    else if announce.version = asU64 row.appliedVersion then
      .answered (.applied (asU64 row.appliedVersion) row.cursor)
    else beginApply .announce announce row.outboundMode

/-- The read of `handle_frontier_delta`, what comes before it and what follows from it. -/
def readForDelta (delta : FrontierDelta) (row : Option FrontierRow) : ApplyStage :=
  if delta.newVersion ≤ delta.prevVersion then .answered (.badRequest "version_not_monotonic")
  else if delta.visibleMask = none ∧ delta.expansionMask = none ∧ delta.ageCeilings.entries = [] then
    .answered (.badRequest "empty_delta")
  else match row with
    | none => .answered (.versionMismatch 0)
    | some row =>
      if delta.prevVersion ≠ asU64 row.appliedVersion then .answered (.versionMismatch (asU64 row.appliedVersion))
      else mergeMasks delta row

namespace FrontierStore

variable (store : FrontierStore)

def upsert (caller : ApplyCaller) (inbound : FrontierAnnounce) (outboundMode : Mode) : FrontierStore × ApplyStage :=
  let lost := match caller with
    | .announce => .rereading inbound
    | .pull => .answered (.pulled inbound.version)
  let won : FrontierStore := { store with
    row := some (inbound.row outboundMode)
    applied := store.applied ++ [.snapshot inbound] }
  if ¬ (inbound.row outboundMode).checked then (store, .answered caller.onDb)
  else match store.row with
    | none => (won, .replacing caller inbound)
    | some old =>
      if old.appliedVersion < asI64 inbound.version.toNat then (won, .replacing caller inbound)
      else (store, lost)

/-- The `UPDATE` of a delta: no condition but the key. Without ceilings nothing follows it. -/
def update (write : DeltaWrite) (outboundMode : Mode) : FrontierStore × ApplyStage :=
  let delta := write.delta
  let cursor := encodeCursor delta.newVersion (asU64 write.read.epochStart)
  let next := if delta.ageCeilings.entries = [] then .answered (.applied delta.newVersion cursor)
    else .merging delta cursor
  match store.row with
  | none => (store, next)
  | some current =>
    if ¬ (current.updated write outboundMode).checked then (store, .answered .internalError)
    else ({ store with
      row := some (current.updated write outboundMode)
      applied := store.applied ++ [.delta delta] }, next)

/-- The next statement of a handler. -/
def advance (coverage : Coverage) : ApplyStage → FrontierStore × ApplyStage
  | .announced announce => (store, readForAnnounce announce store.row)
  | .pulled snapshot =>
    (store, beginApply .pull snapshot.inbound ((store.row.map FrontierRow.outboundMode).getD .filtered))
  | .notModified => (store, .answered (.pulled ((store.row.map fun row => asU64 row.appliedVersion).getD 0)))
  | .upserting caller inbound prior => store.upsert caller inbound (classifyMode prior coverage)
  | .replacing caller inbound =>
    match store.replacePeerAgeCeilings inbound.ageCeilings with
    | none => (store, .answered caller.onDb)
    | some store => (store, .answered (caller.onApplied inbound))
  | .rereading inbound =>
    match store.row with
    | none => (store, .answered (ApplyCaller.announce.onApplied inbound))
    | some row => (store, .answered (.applied (asU64 row.appliedVersion) row.cursor))
  | .delivered delta => (store, readForDelta delta store.row)
  | .updating write => store.update write (write.reclassify coverage)
  | .merging delta cursor =>
    match store.mergePeerAgeCeilings delta.ageCeilings with
    | none => (store, .answered .internalError)
    | some store => (store, .answered (.applied delta.newVersion cursor))
  | .answered answer => (store, .answered answer)

end FrontierStore

/-- The next statement fails. Only the pull goes on without what it wanted to read. -/
def ApplyStage.failed : ApplyStage → ApplyStage
  | .pulled snapshot => beginApply .pull snapshot.inbound .filtered
  | .notModified => .answered .pullFailed
  | .upserting caller _ _ => .answered caller.onDb
  | .replacing caller _ => .answered caller.onDb
  | .answered answer => .answered answer
  | .announced _ | .rereading _ | .delivered _ | .updating _ | .merging .. => .answered .internalError

/-- What a handler is called with, its body decoded. -/
inductive FrontierRequest
  | announce (body : FrontierAnnounce)
  | delta (body : FrontierDelta)
  | pull (reply : Option FrontierSnapshot)

def FrontierRequest.start : FrontierRequest → ApplyStage
  | .announce body => .announced body
  | .delta body => .delivered body
  | .pull none => .notModified
  | .pull (some snapshot) => .pulled snapshot

structure FrontierServer where
  store : FrontierStore := {}
  tasks : List ApplyStage := []

inductive FrontierEvent
  | arrive (request : FrontierRequest)
  | advance (task : Nat) (coverage : Coverage)
  | fail (task : Nat)

namespace FrontierServer

variable (server : FrontierServer)

def step : FrontierEvent → FrontierServer
  | .arrive request => { server with
      tasks := server.tasks ++ [request.start] }
  | .advance task coverage =>
    match server.tasks[task]? with
    | none => server
    | some stage =>
      match server.store.advance coverage stage with
      | (store, next) => { store, tasks := server.tasks.set task next }
  | .fail task =>
    match server.tasks[task]? with
    | none => server
    | some stage => { server with
        tasks := server.tasks.set task stage.failed }

def run (events : List FrontierEvent) : FrontierServer :=
  events.foldl step {}

end FrontierServer

/-- A handler that runs alone. None has more than three statements. -/
def FrontierStore.handle (store : FrontierStore) (coverage : Coverage) (request : FrontierRequest) :
    FrontierStore × ApplyStage :=
  let (store, stage) := store.advance coverage request.start
  let (store, stage) := store.advance coverage stage
  store.advance coverage stage

end Prismoire
