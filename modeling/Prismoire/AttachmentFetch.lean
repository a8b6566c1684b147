import Prismoire.AttachmentStore

namespace Prismoire

open Lib Option Function

inductive FailureKind where
  | mismatch
  | transient
  deriving DecidableEq

/-- A row of `attachment_fetch_failures`; as history, how many had been written before it. -/
structure FailureRow where
  kind : FailureKind
  lastAttemptAt : Int
  writtenAt : Nat
  deriving DecidableEq

inductive CandidateOutcome where
  | stored
  | mismatch
  | unavailable
  | db

/-- What comes of the request to one candidate: no body stands for a failed transport and for every
status but 200, `written` for the success of the statement that stores the bytes. -/
def candidateOutcome (platform : Platform) (contentHash : Hash) (body : Option Bytes) (written : Bool) :
    CandidateOutcome :=
  match body with
  | none => .unavailable
  | some body =>
    if platform.sha256 body ≠ contentHash then .mismatch
    else if written then .stored
    else .db

/-- What a call does to the failure table at its end. -/
inductive FailureWrite where
  | recordFailure (kind : FailureKind)
  | clearFailure
  deriving DecidableEq

/-- Where a call of `try_fetch_for_serve` that has passed the failure table stands. -/
inductive FetchPhase where
  | resolving
  | trying (candidates : List Key)
  | waiting (candidate : Key) (rest : List Key)
  | writing (write : FailureWrite)
  deriving DecidableEq

/-- A call; as history, how many failure rows had been written when it read the table, if it could. -/
structure FetchCall where
  contentHash : Hash
  nowMs : Int
  phase : FetchPhase := .resolving
  readAt : Option Nat
  deriving DecidableEq

structure FetchServer where
  rows : Hash → Option FailureRow := fun _ => none
  written : Nat := 0
  calls : Nat → Option FetchCall := fun _ => none
  begun : Nat := 0

def attachmentRetryBackoffMs : Int := 60 * 1000

def maxFetchFallbackPeers : Nat := 16

def saturatingSubI64 (a b : Int) : Int :=
  max (-2 ^ 63) (min (a - b) (2 ^ 63 - 1))

/-- Whether the row lets a call go on to fetch. -/
def FailureRow.admits (row : FailureRow) (nowMs : Int) : Bool :=
  match row.kind with
  | .mismatch => false
  | .transient => !(saturatingSubI64 nowMs row.lastAttemptAt < attachmentRetryBackoffMs)

/-- The origins, then the active peers that are not among them; a failed listing leaves the origins. -/
def fetchCandidates (origins : List Key) (peers : Option (List Key)) : List Key :=
  ((peers.getD []).take maxFetchFallbackPeers).foldl
    (fun candidates key => if key ∈ candidates then candidates else candidates ++ [key]) origins

namespace FetchServer

variable (server : FetchServer)

def setPhase (id : Nat) (call : FetchCall) (phase : FetchPhase) : FetchServer :=
  { server with calls := update server.calls id (some { call with phase }) }

def finish (id : Nat) : FetchServer :=
  { server with calls := update server.calls id none }

def serve (contentHash : Hash) (nowMs : Int) (readable : Bool) : FetchServer :=
  let admitted := !readable || ((server.rows contentHash).map (·.admits nowMs)).getD true
  if admitted then
    { server with
      calls := update server.calls server.begun
        (some { contentHash, nowMs, readAt := if readable then some server.written else none })
      begun := server.begun + 1 }
  else
    server

def resolve (id : Nat) (call : FetchCall) (origins peers : Option (List Key)) : FetchServer :=
  match origins with
  | none => server.setPhase id call (.writing (.recordFailure .transient))
  | some [] => server.finish id
  | some origins => server.setPhase id call (.trying (fetchCandidates origins peers))

/-- The answer of a candidate: a mismatch ends the round, the lack of an answer goes on to the next. -/
def answer (id : Nat) (call : FetchCall) (rest : List Key) : CandidateOutcome → FetchServer
  | .stored => server.setPhase id call (.writing .clearFailure)
  | .mismatch => server.setPhase id call (.writing (.recordFailure .mismatch))
  | .db => server.setPhase id call (.writing (.recordFailure .transient))
  | .unavailable =>
    if rest = [] then server.setPhase id call (.writing (.recordFailure .transient))
    else server.setPhase id call (.trying rest)

def recordFailure (contentHash : Hash) (kind : FailureKind) (nowMs : Int) : FetchServer :=
  { server with
    rows := update server.rows contentHash (some ⟨kind, nowMs, server.written⟩)
    written := server.written + 1 }

def clearFailure (contentHash : Hash) : FetchServer :=
  { server with rows := update server.rows contentHash none }

def commit (contentHash : Hash) (nowMs : Int) : FailureWrite → FetchServer
  | .recordFailure kind => server.recordFailure contentHash kind nowMs
  | .clearFailure => server.clearFailure contentHash

end FetchServer

/-- The statements and requests of the calls, in any order; a call that runs out of time; the
deletion of a blob; a restart, which ends the calls. -/
inductive FetchEvent where
  | serve (contentHash : Hash) (nowMs : Int) (readable : Bool)
  | resolve (id : Nat) (origins peers : Option (List Key))
  | attempt (id : Nat) (nowMs : Int)
  | answer (id : Nat) (body : Option Bytes) (written : Bool)
  | timeout (id : Nat)
  | commit (id : Nat) (ok : Bool)
  | blobDeleted (contentHash : Hash)
  | restart

/-- A statement whose call is not at it does nothing. -/
def FetchServer.apply (platform : Platform) (server : FetchServer) : FetchEvent → FetchServer
  | .serve contentHash nowMs readable => server.serve contentHash nowMs readable
  | .resolve id origins peers =>
    match server.calls id with
    | some call => if call.phase = .resolving then server.resolve id call origins peers else server
    | none => server
  | .attempt id _ =>
    match server.calls id with
    | some call =>
      match call.phase with
      | .trying (candidate :: rest) => server.setPhase id call (.waiting candidate rest)
      | _ => server
    | none => server
  | .answer id body written =>
    match server.calls id with
    | some call =>
      match call.phase with
      | .waiting _ rest => server.answer id call rest (candidateOutcome platform call.contentHash body written)
      | _ => server
    | none => server
  | .timeout id =>
    match server.calls id with
    | some call =>
      match call.phase with
      | .writing _ => server
      | _ => server.setPhase id call (.writing (.recordFailure .transient))
    | none => server
  | .commit id ok =>
    match server.calls id with
    | some call =>
      match call.phase with
      | .writing write =>
        let after := server.finish id
        if ok then after.commit call.contentHash call.nowMs write else after
      | _ => server
    | none => server
  | .blobDeleted contentHash => server.clearFailure contentHash
  | .restart => { server with calls := fun _ => none }

section Gate

variable {platform : Platform} {server after : FetchServer}

def FetchServer.ReadHolds (server : FetchServer) (call : FetchCall) : Prop :=
  ∀ readAt ∈ call.readAt, readAt ≤ server.written ∧ ∀ row ∈ server.rows call.contentHash, row.writtenAt < readAt →
    row.kind = .transient ∧ attachmentRetryBackoffMs ≤ saturatingSubI64 call.nowMs row.lastAttemptAt

structure FetchServer.GateKept (server : FetchServer) : Prop where
  stamped : ∀ contentHash, ∀ row ∈ server.rows contentHash, row.writtenAt < server.written
  read : ∀ id, ∀ call ∈ server.calls id, server.ReadHolds call

/-- Steps of the calls that leave the table alone. -/
structure FetchServer.Moves (server after : FetchServer) : Prop where
  rows : after.rows = server.rows
  written : after.written = server.written
  calls : ∀ id, ∀ call ∈ after.calls id, ∃ old ∈ server.calls id,
    call.contentHash = old.contentHash ∧ call.nowMs = old.nowMs ∧ call.readAt = old.readAt

variable {id : Nat} {call : FetchCall}

theorem FetchServer.moves_setPhase (held : server.calls id = some call)
    (phase : FetchPhase) : server.Moves (server.setPhase id call phase) := by
  refine ⟨rfl, rfl, fun other moved at_ => ?_⟩
  by_cases same : other = id
  · subst same
    simp only [setPhase, update_self, mem_def, some.injEq] at at_
    subst at_
    exact ⟨call, held, rfl, rfl, rfl⟩
  · simp only [setPhase, update_of_ne same] at at_
    exact ⟨moved, at_, rfl, rfl, rfl⟩

theorem FetchServer.moves_finish (id : Nat) : server.Moves (server.finish id) := by
  refine ⟨rfl, rfl, fun other moved at_ => ?_⟩
  by_cases same : other = id
  · subst same
    simp [finish] at at_
  · simp only [finish, update_of_ne same] at at_
    exact ⟨moved, at_, rfl, rfl, rfl⟩

theorem FetchServer.moves_answer (held : server.calls id = some call)
    (rest : List Key) (outcome : CandidateOutcome) : server.Moves (server.answer id call rest outcome) := by
  cases outcome with
  | unavailable =>
    simp only [answer]
    split
    · exact moves_setPhase held _
    · exact moves_setPhase held _
  | stored => exact moves_setPhase held _
  | mismatch => exact moves_setPhase held _
  | db => exact moves_setPhase held _

theorem FetchServer.moves_resolve (held : server.calls id = some call)
    (origins peers : Option (List Key)) : server.Moves (server.resolve id call origins peers) := by
  obtain _ | _ | ⟨origin, origins⟩ := origins
  · exact moves_setPhase held _
  · exact moves_finish id
  · exact moves_setPhase held _

theorem FetchServer.apply_cases (server : FetchServer) (platform : Platform) (event : FetchEvent) :
    server.Moves (server.apply platform event) ∨
      (∃ contentHash nowMs readable, event = .serve contentHash nowMs readable) ∨
      (∃ contentHash, event = .blobDeleted contentHash) ∨
      ∃ id call write, event = .commit id true ∧ server.calls id = some call ∧ call.phase = .writing write ∧
        server.apply platform event = (server.finish id).commit call.contentHash call.nowMs write := by
  have stays : server.Moves server := ⟨rfl, rfl, fun _ call at_ => ⟨call, at_, rfl, rfl, rfl⟩⟩
  cases event with
  | serve contentHash nowMs readable => exact .inr (.inl ⟨_, _, _, rfl⟩)
  | blobDeleted contentHash => exact .inr (.inr (.inl ⟨_, rfl⟩))
  | restart => exact .inl ⟨rfl, rfl, nofun⟩
  | resolve id origins peers =>
    left
    simp only [apply]
    cases held : server.calls id with
    | none => exact stays
    | some call =>
      dsimp only
      split
      · exact moves_resolve held origins peers
      · exact stays
  | attempt id nowMs =>
    left
    simp only [apply]
    cases held : server.calls id with
    | none => exact stays
    | some call =>
      dsimp only
      split
      · exact moves_setPhase held _
      · exact stays
  | answer id body written =>
    left
    simp only [apply]
    cases held : server.calls id with
    | none => exact stays
    | some call =>
      dsimp only
      split
      · exact moves_answer held _ _
      · exact stays
  | timeout id =>
    left
    simp only [apply]
    cases held : server.calls id with
    | none => exact stays
    | some call =>
      dsimp only
      split
      · exact stays
      · exact moves_setPhase held _
  | commit id ok =>
    simp only [apply]
    cases held : server.calls id with
    | none => exact .inl stays
    | some call =>
      dsimp only
      split
      · rename_i write phase
        cases ok with
        | false => exact .inl (moves_finish id)
        | true => exact .inr (.inr (.inr ⟨id, call, write, rfl, held, phase, rfl⟩))
      · exact .inl stays

section

variable (kept : server.GateKept)
include kept

theorem FetchServer.GateKept.moves (moves : server.Moves after) : after.GateKept := by
  constructor
  · rw [moves.rows, moves.written]
    exact kept.stamped
  · intro id call held readAt read
    obtain ⟨old, before, hash, now, same⟩ := moves.calls id call held
    rw [moves.rows, moves.written, hash, now]
    exact kept.read id old before readAt (same ▸ read)

theorem FetchServer.GateKept.recordFailure (contentHash : Hash) (kind : FailureKind)
    (nowMs : Int) : (server.recordFailure contentHash kind nowMs).GateKept := by
  constructor
  · intro other row held
    by_cases same : other = contentHash
    · subst same
      simp only [FetchServer.recordFailure, update_self, mem_def, some.injEq] at held ⊢
      subst held
      exact Nat.lt_succ_self _
    · simp only [FetchServer.recordFailure, update_of_ne same] at held ⊢
      exact Nat.lt_succ_of_lt (kept.stamped other row held)
  · intro id call held readAt read
    obtain ⟨before, holds⟩ := kept.read id call held readAt read
    refine ⟨Nat.le_succ_of_le before, fun row at_ earlier => ?_⟩
    by_cases same : call.contentHash = contentHash
    · -- the new row is later than every read
      simp only [FetchServer.recordFailure, same, update_self, mem_def, some.injEq] at at_
      subst at_
      exact absurd earlier (Nat.not_lt_of_le before)
    · simp only [FetchServer.recordFailure, update_of_ne same] at at_
      exact holds row at_ earlier

theorem FetchServer.GateKept.clearFailure (contentHash : Hash) : (server.clearFailure contentHash).GateKept := by
  have sub : ∀ other, ∀ row ∈ (server.clearFailure contentHash).rows other, row ∈ server.rows other := by
    intro other row held
    by_cases same : other = contentHash
    · subst same
      simp [FetchServer.clearFailure] at held
    · simpa only [FetchServer.clearFailure, update_of_ne same] using held
  refine ⟨fun other row held => kept.stamped other row (sub other row held), fun id call held readAt read => ?_⟩
  obtain ⟨before, holds⟩ := kept.read id call held readAt read
  exact ⟨before, fun row at_ => holds row (sub _ row at_)⟩

theorem FetchServer.GateKept.serve (contentHash : Hash) (nowMs : Int) (readable : Bool) :
    (server.serve contentHash nowMs readable).GateKept := by
  simp only [FetchServer.serve]
  split
  · rename_i admitted
    refine ⟨kept.stamped, fun id call held => ?_⟩
    by_cases new : id = server.begun
    · subst new
      simp only [update_self, mem_def, some.injEq] at held
      subst held
      intro readAt read
      cases readable with
      | false => simp at read
      | true =>
        simp only [if_true, mem_def, some.injEq] at read
        subst read
        refine ⟨le_rfl, fun row at_ _ => ?_⟩
        have standing : server.rows contentHash = some row := at_
        simp only [Bool.not_true, standing, map_some, getD_some, Bool.false_or] at admitted
        cases kind : row.kind with
        | mismatch => simp [FailureRow.admits, kind] at admitted
        | transient => simpa [FailureRow.admits, kind] using admitted
    · simp only [update_of_ne new] at held
      exact kept.read id call held
  · exact kept

theorem FetchServer.GateKept.apply (event : FetchEvent) : (server.apply platform event).GateKept := by
  obtain moves | ⟨contentHash, nowMs, readable, rfl⟩ | ⟨contentHash, rfl⟩ | ⟨id, call, write, -, -, -, committed⟩ :=
    server.apply_cases platform event
  · exact kept.moves moves
  · exact kept.serve contentHash nowMs readable
  · exact kept.clearFailure contentHash
  · rw [committed]
    have finished := kept.moves (moves_finish id)
    cases write with
    | recordFailure kind => exact finished.recordFailure _ kind _
    | clearFailure => exact finished.clearFailure _

end

theorem FetchServer.rows_cases (server : FetchServer) (platform : Platform) (event : FetchEvent) :
    (server.apply platform event).rows = server.rows ∨
      (∃ contentHash, (server.apply platform event).rows = update server.rows contentHash none) ∨
      ∃ id call kind, event = .commit id true ∧ server.calls id = some call ∧
        call.phase = .writing (.recordFailure kind) ∧
        (server.apply platform event).rows =
          update server.rows call.contentHash (some ⟨kind, call.nowMs, server.written⟩) := by
  obtain moves | ⟨contentHash, nowMs, readable, rfl⟩ | ⟨contentHash, rfl⟩ | ⟨id, call, write, rfl, held, phase, committed⟩ :=
    server.apply_cases platform event
  · exact .inl moves.rows
  · left
    simp only [FetchServer.apply, FetchServer.serve]
    split <;> rfl
  · exact .inr (.inl ⟨contentHash, rfl⟩)
  · rw [committed]
    cases write with
    | recordFailure kind => exact .inr (.inr ⟨id, call, kind, rfl, held, phase, rfl⟩)
    | clearFailure => exact .inr (.inl ⟨call.contentHash, rfl⟩)

def FetchServer.ReadMismatch (server : FetchServer) (event : FetchEvent) : Prop :=
  ∀ id call, event = .commit id true → server.calls id = some call →
    call.phase = .writing (.recordFailure .transient) → ∀ row ∈ server.rows call.contentHash, row.kind = .mismatch →
      ∃ readAt ∈ call.readAt, row.writtenAt < readAt

def FetchServer.MismatchStays (platform : Platform) (server : FetchServer) (event : FetchEvent) : Prop :=
  ∀ contentHash, ∀ row ∈ server.rows contentHash, row.kind = .mismatch →
    ∀ later ∈ (server.apply platform event).rows contentHash, later.kind = .mismatch

theorem FetchServer.GateKept.mismatchStays_iff (kept : server.GateKept) (event : FetchEvent) :
    server.ReadMismatch event ↔ server.MismatchStays platform event := by
  constructor
  · intro read contentHash row standing terminal later after
    obtain same | ⟨other, cleared⟩ | ⟨id, call, kind, rfl, held, phase, recorded⟩ :=
      server.rows_cases platform event
    · rw [same] at after
      exact mem_unique after standing ▸ terminal
    · rw [cleared] at after
      by_cases here : contentHash = other
      · subst here
        simp at after
      · rw [update_of_ne here] at after
        exact mem_unique after standing ▸ terminal
    · rw [recorded] at after
      by_cases here : contentHash = call.contentHash
      · subst here
        rw [update_self, mem_def, some.injEq] at after
        subst after
        cases kind with
        | mismatch => rfl
        | transient =>
          obtain ⟨readAt, could, earlier⟩ := read id call rfl held phase row standing terminal
          have transient := (kept.read id call held readAt could).2 row standing earlier |>.1
          exact absurd (terminal.symm.trans transient) (by decide)
      · rw [update_of_ne here] at after
        exact mem_unique after standing ▸ terminal
  · intro stays id call committed held phase row standing terminal
    subst committed
    have replaced := stays call.contentHash row standing terminal ⟨.transient, call.nowMs, server.written⟩ (by
      simp [FetchServer.apply, held, phase, FetchServer.commit, FetchServer.recordFailure, FetchServer.finish])
    cases replaced

theorem FetchServer.GateKept.stays_along_iff (kept : server.GateKept) (events : List FetchEvent) :
    MeetAlong (FetchServer.apply platform) FetchServer.ReadMismatch server events ↔
      MeetAlong (FetchServer.apply platform) (FetchServer.MismatchStays platform) server events := by
  induction events generalizing server with
  | nil => exact Iff.rfl
  | cons event events ih => exact and_congr (kept.mismatchStays_iff event) (ih (kept.apply event))

theorem FetchServer.GateKept.run (kept : server.GateKept) (events : List FetchEvent) :
    (events.foldl (FetchServer.apply platform) server).GateKept := by
  induction events generalizing server with
  | nil => exact kept
  | cons event events ih => exact ih (kept.apply event)

theorem FetchServer.GateKept.fresh : (({} : FetchServer)).GateKept :=
  ⟨fun _ _ held => (by cases held), fun _ _ held => (by cases held)⟩

/-- A call begins by reading the table, and while no other call is about its blob. -/
def FetchServer.Alone (server : FetchServer) (event : FetchEvent) : Prop :=
  ∀ contentHash nowMs readable, event = .serve contentHash nowMs readable →
    readable = true ∧ ∀ id, ∀ call ∈ server.calls id, call.contentHash ≠ contentHash

/-- A blob has one call at most, and that one has read the row that stands. -/
structure FetchServer.Single (server : FetchServer) : Prop where
  read : ∀ id, ∀ call ∈ server.calls id, ∃ readAt ∈ call.readAt, ∀ row ∈ server.rows call.contentHash, row.writtenAt < readAt
  once : ∀ id other, ∀ call ∈ server.calls id, ∀ twin ∈ server.calls other, call.contentHash = twin.contentHash → id = other

theorem FetchServer.Single.moves (single : server.Single) (moves : server.Moves after) : after.Single := by
  constructor
  · intro id call held
    obtain ⟨old, before, hash, -, same⟩ := moves.calls id call held
    rw [moves.rows, hash, same]
    exact single.read id old before
  · intro id other call held twin standing same
    obtain ⟨old, before, hash, -, -⟩ := moves.calls id call held
    obtain ⟨oldTwin, beforeTwin, hashTwin, -, -⟩ := moves.calls other twin standing
    exact single.once id other old before oldTwin beforeTwin (hash.symm.trans (same.trans hashTwin))

theorem FetchServer.Single.of_rows (single : server.Single) (calls : after.calls = server.calls)
    (fewer : ∀ id, ∀ call ∈ server.calls id, ∀ row ∈ after.rows call.contentHash, row ∈ server.rows call.contentHash) :
    after.Single := by
  refine ⟨fun id call held => ?_, calls ▸ single.once⟩
  obtain ⟨readAt, read, earlier⟩ := single.read id call (calls ▸ held)
  exact ⟨readAt, read, fun row at_ => earlier row (fewer id call (calls ▸ held) row at_)⟩

theorem FetchServer.Single.serve (single : server.Single) (kept : server.GateKept) {contentHash : Hash} {nowMs : Int}
    (free : ∀ id, ∀ call ∈ server.calls id, call.contentHash ≠ contentHash) :
    (server.serve contentHash nowMs true).Single := by
  simp only [FetchServer.serve]
  split
  · have isCall : ∀ id call, call ∈ update server.calls server.begun
        (some { contentHash, nowMs, readAt := some server.written }) id →
        (id = server.begun ∧ call.contentHash = contentHash ∧ call.readAt = some server.written) ∨ call ∈ server.calls id := by
      intro id call held
      by_cases new : id = server.begun
      · rw [new, update_self] at held
        cases held
        exact .inl ⟨new, rfl, rfl⟩
      · rw [update_of_ne new] at held
        exact .inr held
    constructor
    · intro id call held
      obtain ⟨-, rfl, read⟩ | before := isCall id call held
      · exact ⟨server.written, read, kept.stamped _⟩
      · exact single.read id call before
    · intro id other call held twin standing same
      obtain ⟨rfl, hash, -⟩ | before := isCall id call held <;> obtain ⟨rfl, twinHash, -⟩ | standing := isCall _ twin standing
      · rfl
      · exact absurd (same.symm.trans hash) (free other twin standing)
      · exact absurd (same.trans twinHash) (free id call before)
      · exact single.once id other call before twin standing same
  · exact single

theorem FetchServer.Single.apply (single : server.Single) (kept : server.GateKept) {event : FetchEvent}
    (alone : server.Alone event) : (server.apply platform event).Single := by
  obtain moves | ⟨contentHash, nowMs, readable, rfl⟩ | ⟨contentHash, rfl⟩ | ⟨id, call, write, rfl, held, -, committed⟩ :=
    server.apply_cases platform event
  · exact single.moves moves
  · obtain ⟨rfl, free⟩ := alone _ _ _ rfl
    exact single.serve kept free
  · refine single.of_rows rfl fun id call _ row at_ => ?_
    simp only [FetchServer.apply, FetchServer.clearFailure, update_apply] at at_
    split at at_
    · cases at_
    · exact at_
  · rw [committed]
    have others : ∀ other, ∀ twin ∈ (server.finish id).calls other, twin.contentHash ≠ call.contentHash := by
      intro other twin standing same
      by_cases here : other = id
      · simp [FetchServer.finish, here] at standing
      · simp only [FetchServer.finish, update_of_ne here] at standing
        exact here (single.once other id twin standing call held same)
    refine (single.moves (moves_finish id)).of_rows (by cases write <;> rfl) fun other twin standing row at_ => ?_
    have same : ((server.finish id).commit call.contentHash call.nowMs write).rows twin.contentHash =
        server.rows twin.contentHash := by
      cases write <;> exact update_of_ne (others other twin standing) _ _
    exact same ▸ at_

/-- Calls that do not overlap, and that can read the table, never lose a mismatch. -/
theorem FetchServer.Single.readMismatch (single : server.Single) (kept : server.GateKept) {events : List FetchEvent}
    (alone : MeetAlong (FetchServer.apply platform) FetchServer.Alone server events) :
    MeetAlong (FetchServer.apply platform) FetchServer.ReadMismatch server events := by
  induction events generalizing server with
  | nil => trivial
  | cons event events ih =>
    refine ⟨?_, ih (single.apply kept alone.1) (kept.apply event) alone.2⟩
    intro id call _ held _ row standing _
    obtain ⟨readAt, read, earlier⟩ := single.read id call held
    exact ⟨readAt, read, earlier row standing⟩

end Gate

def FetchServer.Asks (server : FetchServer) (id : Nat) (call : FetchCall) : Prop :=
  server.calls id = some call ∧ ∃ candidate rest, call.phase = .trying (candidate :: rest)

/-- A mismatch stays on record as long as every call that fails has read it, and a blob is asked for only where the
row that was read is a minute old. -/
theorem mismatch_terminal_iff (platform : Platform) (events : List FetchEvent) :
    (MeetAlong (FetchServer.apply platform) FetchServer.ReadMismatch {} events ↔
        MeetAlong (FetchServer.apply platform) (FetchServer.MismatchStays platform) {} events) ∧
      ∀ reached, reached <+: events →
        let server := reached.foldl (FetchServer.apply platform) {}
        ∀ id call, server.Asks id call → ∀ readAt ∈ call.readAt, ∀ row ∈ server.rows call.contentHash,
          row.writtenAt < readAt → ∀ nowMs, call.nowMs ≤ nowMs →
            row.kind = .transient ∧ attachmentRetryBackoffMs ≤ nowMs - row.lastAttemptAt := by
  refine ⟨FetchServer.GateKept.fresh.stays_along_iff events, ?_⟩
  intro reached within server id call asks readAt read row standing earlier nowMs passed
  have kept : server.GateKept := FetchServer.GateKept.fresh.run reached
  obtain ⟨transient, aged⟩ := (kept.read id call asks.1 readAt read).2 row standing earlier
  refine ⟨transient, ?_⟩
  simp only [saturatingSubI64, attachmentRetryBackoffMs] at aged ⊢
  omega

/-- A minute after a fetch that nobody answered the blob is asked for again. -/
theorem unavailable_asked_again :
    let platform := Platform.ofTable []
    let events : List FetchEvent :=
      [.serve 5 1000 true, .resolve 0 (some [1]) none, .attempt 0 1000, .answer 0 none true, .commit 0 true,
        .serve 5 61000 true, .resolve 1 (some [1]) none]
    let server := events.foldl (FetchServer.apply platform) {}
    server.calls 1 = some ⟨5, 61000, .trying [1], some 1⟩ ∧ server.rows 5 = some ⟨.transient, 1000, 0⟩ ∧
      (FailureRow.mk .transient 1000 0).kind = .transient ∧ attachmentRetryBackoffMs ≤ 61000 - 1000 := by
  have asked := (mismatch_terminal_iff (Platform.ofTable [])
    [.serve 5 1000 true, .resolve 0 (some [1]) none, .attempt 0 1000, .answer 0 none true, .commit 0 true,
      .serve 5 61000 true, .resolve 1 (some [1]) none]).2 _ (List.prefix_refl _) 1 ⟨5, 61000, .trying [1], some 1⟩
    ⟨by decide +kernel, 1, [], rfl⟩ 1 rfl ⟨.transient, 1000, 0⟩ (by decide +kernel) (by decide) 61000 (by decide)
  exact ⟨by decide +kernel, by decide +kernel, asked⟩

/-- Of two overlapping calls one is served wrong bytes and the other is not answered. -/
theorem mismatch_overwritten :
    let platform := Platform.ofTable []
    let events : List FetchEvent :=
      [.serve 5 1000 true, .serve 5 1001 true, .resolve 0 (some [1]) none, .resolve 1 (some [1]) none,
        .attempt 0 1002, .attempt 1 1002, .answer 0 (some []) true, .commit 0 true, .answer 1 none true]
    let server := events.foldl (FetchServer.apply platform) {}
    (server.rows 5).map (·.kind) = some .mismatch ∧
      ((server.apply platform (.commit 1 true)).rows 5).map (·.kind) = some .transient := by
  decide +kernel

end Prismoire
