import Prismoire.Footprint

namespace Prismoire

open Lib List Option

/-- Where a call of `apply_one_object` stands between its statements on the pool. -/
inductive Phase where
  | begun
  | deduplicated (payload signature : Bytes) (object : SignedPayload)
  | cleared (payload signature : Bytes) (object : SignedPayload)
  | finished
  deriving DecidableEq

/-- A call; `seen` records how many calls had finished when it looked for a duplicate. -/
structure Call where
  wireBytes : Bytes
  arrivedFrom : Key
  phase : Phase := .begun
  seen : Nat := 0
  deriving DecidableEq

def Call.input (call : Call) : Bytes × Key :=
  (call.wireBytes, call.arrivedFrom)

/-- What the next statement of a call leads to. -/
inductive Progress where
  | continues (phase : Phase)
  | answers (answer : Sql ContentResult) (db : Db)

section

variable (state : AppState)

/--
One statement of a call: the duplicate check, the removal check, and the transaction, which
BEGIN IMMEDIATE makes one step.
-/
def Call.next (db : Db) (call : Call) : Option Progress :=
  match call.phase with
  | .begun =>
    if maxPostrevSize < call.wireBytes.length then
      some (.answers (.ok ⟨state.platform.sha256 call.wireBytes, .rejected .objectTooLarge⟩) db)
    else
      match state.platform.decodeSignedObject call.wireBytes with
      | none => some (.answers (.ok ⟨state.platform.sha256 call.wireBytes, .rejected .schemaInvalid⟩) db)
      | some (payload, signature) =>
        match knownStatus db (state.platform.sha256 payload) with
        | some status => some (.answers (.ok ⟨state.platform.sha256 payload, status⟩) db)
        | none =>
          match admitObject state.platform payload signature with
          | .error reason => some (.answers (.ok ⟨state.platform.sha256 payload, .rejected reason⟩) db)
          | .ok object => some (.continues (.deduplicated payload signature object))
  | .deduplicated payload signature object =>
    if adminRemoved db object then
      some (.answers (.ok ⟨state.platform.sha256 payload, .rejected .adminRemoved⟩) db)
    else
      some (.continues (.cleared payload signature object))
  | .cleared payload signature object =>
    match ingestObject state db payload signature call.arrivedFrom object with
    | .ok (status, after) => some (.answers (.ok ⟨state.platform.sha256 payload, status⟩) after)
    | .error error => some (.answers (.error error) db)
  | .finished => none

/-- A finished call with its answer. -/
structure Answered where
  wireBytes : Bytes
  arrivedFrom : Key
  answer : Sql ContentResult

def Answered.input (entry : Answered) : Bytes × Key :=
  (entry.wireBytes, entry.arrivedFrom)

/-- The database, the calls in flight, and the finished ones in the order in which they finished. -/
structure Server where
  db : Db
  calls : List Call
  log : List Answered := []

def Server.start (db : Db) (inputs : List (Bytes × Key)) : Server where
  db
  calls := inputs.map fun input => { wireBytes := input.1, arrivedFrom := input.2 }

def Server.step (server : Server) (i : Nat) : Server :=
  match server.calls[i]? with
  | none => server
  | some call =>
    match call.next state server.db with
    | none => server
    | some (.continues phase) => { server with
        calls := server.calls.set i { call with
          phase := phase
          seen := if call.phase = .begun then server.log.length else call.seen } }
    | some (.answers answer db) =>
      { db
        calls := server.calls.set i { call with
          phase := .finished }
        log := server.log ++ [⟨call.wireBytes, call.arrivedFrom, answer⟩] }

def Answered.applied (entry : Answered) (hash : Hash) : Prop :=
  entry.answer = .ok ⟨hash, .applied⟩

/-- The post that a removal, once in force, keeps an object from touching. -/
def blockedBy : SignedPayload → Option Uuid
  | .postRevision p => some p.postId
  | .retraction r => some r.postId
  | _ => none

/-- The call put an admin-rm of the post in force. -/
def Answered.removed (entry : Answered) (post : Uuid) : Prop :=
  ∃ hash payload signature object, entry.applied hash ∧
    state.platform.decodeSignedObject entry.wireBytes = some (payload, signature) ∧
    state.platform.parse payload = some object ∧ removes post object

/-- The call stored a post-rev or a retract of the post. -/
def Answered.touched (entry : Answered) (post : Uuid) : Prop :=
  ∃ hash payload signature object, entry.applied hash ∧
    state.platform.decodeSignedObject entry.wireBytes = some (payload, signature) ∧
    state.platform.parse payload = some object ∧ blockedBy object = some post

/-- A finished call that took what the reads of another call rely on: the same object, or a removal
of the other one's post. -/
def Answered.interferes (entry : Answered) (payload : Bytes) (object : SignedPayload) : Prop :=
  entry.applied (state.platform.sha256 payload) ∨ ∃ post, entry.removed state post ∧ blockedBy object = some post

/-- When the call is about to write, no call that interferes with it has finished since its first
read, and the sweep of a profile meets no buffered revocation. -/
def Undisturbed (server : Server) (i : Nat) : Prop :=
  ∀ call payload signature object, server.calls[i]? = some call → call.phase = .cleared payload signature object →
    (∀ entry ∈ server.log.drop call.seen, ¬ entry.interferes state payload object) ∧
    CalmProfile state server.db call.wireBytes

end

/-- The states of a server in which calls interleave, with the condition met at every step. -/
inductive Interleaving (state : AppState) (db : Db) (inputs : List (Bytes × Key)) : Server → Prop
  | start : Interleaving state db inputs (.start db inputs)
  | step {server} (i : Nat) : Interleaving state db inputs server → Undisturbed state server i →
      Interleaving state db inputs (server.step state i)

/-- No hash has two rows in a table of projected objects. -/
structure OneRowPerHash (db : Db) : Prop where
  profiles : UniqueBy ProfileRevisionRow.canonicalHash db.profileRevisions
  revisions : UniqueBy PostRevisionRow.canonicalHash db.postRevisions
  threads : UniqueBy ThreadRow.threadCreateHash db.threads

variable {call : Call} {corpus : Corpus} {db : Db}

section Reads

variable {state : AppState}

variable {object : SignedPayload}

theorem adminRemoved_iff :
    adminRemoved db object = true ↔ ∃ post, blockedBy object = some post ∧ adminRmBlocks db post = true := by
  cases object <;> simp [adminRemoved, blockedBy]

/-- A call past the checks that do not look at the database. -/
structure Admitted (state : AppState) (corpus : Corpus) (call : Call) (payload signature : Bytes)
    (object : SignedPayload) : Prop where
  small : ¬ maxPostrevSize < call.wireBytes.length
  decodes : state.platform.decodeSignedObject call.wireBytes = some (payload, signature)
  admitted : admitObject state.platform payload signature = .ok object
  occurs : corpus payload

section

variable {payload signature : Bytes} (adm : Admitted state corpus call payload signature object)
include adm

theorem Admitted.applyOneObject (absent : db.hasObject (state.platform.sha256 payload) = false)
    (unremoved : adminRemoved db object = false) :
    applyOneObject state db call.wireBytes call.arrivedFrom = (do
      let (status, db) ← ingestObject state db payload signature call.arrivedFrom object
      return (⟨state.platform.sha256 payload, status⟩, db)) := by
  have unknown : knownStatus db (state.platform.sha256 payload) = none := by
    simpa [knownStatus, Db.hasObject] using absent
  simp only [Prismoire.applyOneObject, adm.small, if_false, adm.decodes, unknown, adm.admitted, unremoved,
    Bool.false_eq_true]

theorem Admitted.deliver_removed (removed : adminRemoved db object = true) :
    deliverObject state db call.wireBytes call.arrivedFrom = db := by
  cases known : knownStatus db (state.platform.sha256 payload) with
  | some status =>
    simp only [deliverObject, Prismoire.applyOneObject, adm.small, if_false, adm.decodes, known]
  | none =>
    simp only [deliverObject, Prismoire.applyOneObject, adm.small, if_false, adm.decodes, known, adm.admitted,
      removed, if_true]

end

theorem Call.next_begun {progress : Progress} (begun : call.phase = .begun)
    (occurs : Occurs state corpus call.wireBytes) (next : call.next state db = some progress) :
    (∃ result, progress = .answers (.ok result) db ∧ result.status ≠ .applied ∧
      deliverObject state db call.wireBytes call.arrivedFrom = db) ∨
    ∃ payload signature object, progress = .continues (.deduplicated payload signature object) ∧
      Admitted state corpus call payload signature object ∧
      db.hasObject (state.platform.sha256 payload) = false := by
  simp only [Call.next, begun] at next
  split at next
  · rename_i large
    cases next
    refine .inl ⟨_, rfl, by simp, ?_⟩
    simp only [deliverObject, applyOneObject, large, if_true]
  · rename_i small
    split at next
    · rename_i undecodable
      cases next
      refine .inl ⟨_, rfl, by simp, ?_⟩
      simp only [deliverObject, applyOneObject, small, if_false, undecodable]
    · rename_i payload signature decodes
      split at next
      · rename_i status known
        cases next
        refine .inl ⟨_, rfl, ?_, ?_⟩
        · rintro rfl
          obtain ⟨row, -, named⟩ := map_eq_some_iff.mp known
          split at named <;> cases named
        · simp only [deliverObject, applyOneObject, small, if_false, decodes, known]
      · rename_i unknown
        split at next
        · rename_i reason refused
          cases next
          refine .inl ⟨_, rfl, by simp, ?_⟩
          simp only [deliverObject, applyOneObject, small, if_false, decodes, unknown, refused]
        · rename_i object admitted
          cases next
          exact .inr ⟨payload, signature, object, rfl,
            ⟨small, decodes, admitted, occurs payload signature decodes⟩, knownStatus_none unknown⟩

end Reads

section Serial

variable {state : AppState}

/-- What the reads of a call in flight rely on: whatever has changed since is in the log. -/
def ReadsHold (state : AppState) (corpus : Corpus) (server : Server) (call : Call) : Prop :=
  match call.phase with
  | .begun => True
  | .deduplicated payload signature object =>
    Admitted state corpus call payload signature object ∧ call.seen ≤ server.log.length ∧
      (server.db.hasObject (state.platform.sha256 payload) = true →
        ∃ entry ∈ server.log.drop call.seen, entry.applied (state.platform.sha256 payload))
  | .cleared payload signature object =>
    Admitted state corpus call payload signature object ∧ call.seen ≤ server.log.length ∧
      (server.db.hasObject (state.platform.sha256 payload) = true →
        ∃ entry ∈ server.log.drop call.seen, entry.applied (state.platform.sha256 payload)) ∧
      ∀ post, blockedBy object = some post → adminRmBlocks server.db post = true →
        ∃ entry ∈ server.log.drop call.seen, entry.removed state post
  | .finished => True

def isFinished (call : Call) : Bool :=
  call.phase = .finished

/-- The database is what the finished calls produce one after the other. -/
structure Serial (state : AppState) (corpus : Corpus) (start : Db) (inputs : List (Bytes × Key))
    (server : Server) : Prop where
  serial : server.db = deliverObjects state start (server.log.map Answered.input)
  healthy : Healthy state corpus server.db
  inputs : server.calls.map Call.input = inputs
  finished : (server.log.map Answered.input).Perm ((server.calls.filter isFinished).map Call.input)
  answered : ∀ entry ∈ server.log, ∃ result, entry.answer = .ok result
  reads : ∀ call ∈ server.calls, ReadsHold state corpus server call
  inForce : ∀ entry ∈ server.log, ∀ post, entry.removed state post → adminRmBlocks server.db post = true
  order : server.log.Pairwise fun earlier later => ∀ post, earlier.removed state post → ¬ later.touched state post

theorem Serial.start {db : Db} (healthy : Healthy state corpus db) (inputs : List (Bytes × Key)) :
    Serial state corpus db inputs (.start db inputs) := by
  refine ⟨rfl, healthy, ?_, ?_, by simp [Server.start], ?_, by simp [Server.start], by simp [Server.start]⟩
  · simp [Server.start, Function.comp_def, Call.input]
  · have none : (Server.start db inputs).calls.filter isFinished = [] := by
      rw [filter_eq_nil_iff]
      intro call mem
      obtain ⟨input, -, rfl⟩ := List.mem_map.mp mem
      simp [isFinished]
    rw [none]
    exact .nil
  · intro call mem
    obtain ⟨input, -, rfl⟩ := List.mem_map.mp mem
    trivial

variable {server : Server} {entry : Answered}

section

variable (injective : CollisionFree state.platform corpus)
include injective

variable {after : Db}

theorem Admitted.not_edge {payload signature : Bytes} {object : SignedPayload}
    (adm : Admitted state corpus call payload signature object) :
    ¬ EdgeHash state corpus (state.platform.sha256 payload) := by
  rintro ⟨payload', signature', edge, filed, same⟩
  obtain rfl := injective _ _ adm.occurs filed.occurs same
  obtain ⟨parses, cls, signer, classed, -⟩ := admitObject_ok adm.admitted
  obtain rfl := some.inj (filed.parses.symm.trans parses)
  cases classed

/-- A call that answers: the entry it leaves accounts for what it changed. -/
structure Answers (state : AppState) (corpus : Corpus) (db : Db) (entry : Answered) (after : Db) :
    Prop where
  delivered : deliverObject state db entry.wireBytes entry.arrivedFrom = after
  ok : ∃ result, entry.answer = .ok result
  healthy : Healthy state corpus after
  objects : ∀ hash, after.hasObject hash = true →
    db.hasObject hash = true ∨ entry.applied hash ∨ EdgeHash state corpus hash
  removals : ∀ post, adminRmBlocks after post = true ↔ adminRmBlocks db post = true ∨ entry.removed state post
  permitted : ∀ post, entry.touched state post → adminRmBlocks db post = false

theorem ReadsHold.grow {calls : List Call} (holds : ReadsHold state corpus server call)
    (answers : Answers state corpus server.db entry after) :
    ReadsHold state corpus { db := after, calls := calls, log := server.log ++ [entry] } call := by
  have stored : ∀ payload signature object, Admitted state corpus call payload signature object →
      call.seen ≤ server.log.length →
      (server.db.hasObject (state.platform.sha256 payload) = true →
        ∃ entry ∈ server.log.drop call.seen, entry.applied (state.platform.sha256 payload)) →
      after.hasObject (state.platform.sha256 payload) = true →
      ∃ entry' ∈ (server.log ++ [entry]).drop call.seen, entry'.applied (state.platform.sha256 payload) := by
    intro payload signature object adm within before now
    rw [drop_append_of_le_length within]
    rcases answers.objects _ now with known | applied | edge
    · obtain ⟨old, mem, applied⟩ := before known
      exact ⟨old, mem_append_left _ mem, applied⟩
    · exact ⟨entry, by simp, applied⟩
    · exact absurd edge (adm.not_edge injective)
  unfold ReadsHold at holds ⊢
  cases phase : call.phase with
  | begun => trivial
  | finished => trivial
  | deduplicated payload signature object =>
    simp only [phase] at holds ⊢
    obtain ⟨adm, within, before⟩ := holds
    exact ⟨adm, by simp only [length_append]; omega, stored _ _ _ adm within before⟩
  | cleared payload signature object =>
    simp only [phase] at holds ⊢
    obtain ⟨adm, within, before, removed⟩ := holds
    refine ⟨adm, by simp only [length_append]; omega, stored _ _ _ adm within before, ?_⟩
    intro post blocked now
    rw [drop_append_of_le_length within]
    rcases (answers.removals post).mp now with known | isNew
    · obtain ⟨old, mem, inForce⟩ := removed post blocked known
      exact ⟨old, mem_append_left _ mem, inForce⟩
    · exact ⟨entry, by simp, isNew⟩

theorem Serial.answer {start : Db} {inputs : List (Bytes × Key)} {i : Nat} {answer : Sql ContentResult}
    (serial : Serial state corpus start inputs server) (atI : server.calls[i]? = some call)
    (running : isFinished call = false)
    (answers : Answers state corpus server.db ⟨call.wireBytes, call.arrivedFrom, answer⟩ after) :
    Serial state corpus start inputs
      { db := after
        calls := server.calls.set i { call with
          phase := .finished }
        log := server.log ++ [⟨call.wireBytes, call.arrivedFrom, answer⟩] } := by
  refine ⟨?_, answers.healthy, ?_, ?_, ?_, ?_, ?_, ?_⟩
  · rw [← answers.delivered, serial.serial]
    simp [deliverObjects, Answered.input]
  · rw [← serial.inputs]
    exact map_set_of_same atI (by rfl)
  · have joins := (@filter_set_perm _ isFinished _ _ _ { call with phase := .finished } atI running
      (by simp [isFinished])).map Call.input
    refine List.Perm.trans ?_ joins.symm
    simp only [map_append, map_cons, map_nil]
    exact (perm_append_singleton _ _).trans (serial.finished.cons _)
  · exact forall_mem_concat.mpr ⟨serial.answered, answers.ok⟩
  · intro other mem
    rcases mem_or_eq_of_mem_set mem with old | rfl
    · exact (serial.reads other old).grow injective answers
    · trivial
  · intro entry mem post removed
    refine (answers.removals post).mpr ?_
    rcases mem_concat.mp mem with old | new
    · exact .inl (serial.inForce entry old post removed)
    · exact .inr (new ▸ removed)
  · refine pairwise_append.mpr ⟨serial.order, by simp, ?_⟩
    intro earlier mem later isNew post removed touched
    rw [mem_singleton.mp isNew] at touched
    have blocked := serial.inForce earlier mem post removed
    rw [answers.permitted post touched] at blocked
    cases blocked

end

variable {start : Db} {inputs : List (Bytes × Key)} {i : Nat}

theorem Answers.of_refused {result : ContentResult}
    (healthy : Healthy state corpus db) (isResult : entry.answer = .ok result)
    (refused : result.status ≠ .applied)
    (idle : deliverObject state db entry.wireBytes entry.arrivedFrom = db) :
    Answers state corpus db entry db := by
  have unapplied : ∀ hash, ¬ entry.applied hash := by
    intro hash applied
    rw [Answered.applied, isResult, Except.ok.injEq] at applied
    exact refused (by rw [applied])
  refine ⟨idle, ⟨result, isResult⟩, healthy, fun hash => .inl, ?_, ?_⟩
  · intro post
    refine ⟨.inl, ?_⟩
    rintro (known | ⟨hash, -, -, -, applied, -⟩)
    · exact known
    · exact absurd applied (unapplied hash)
  · rintro post ⟨hash, -, -, -, applied, -⟩
    exact absurd applied (unapplied hash)

theorem Answers.of_transaction {payload signature : Bytes} {object : SignedPayload}
    (harmless : Harmless state.platform corpus) (healthy : Healthy state corpus db)
    (adm : Admitted state corpus call payload signature object)
    (absent : db.hasObject (state.platform.sha256 payload) = false)
    (unremoved : adminRemoved db object = false) (calm : CalmProfile state db call.wireBytes) :
    ∃ status after, ingestObject state db payload signature call.arrivedFrom object = .ok (status, after) ∧
      Answers state corpus db
        ⟨call.wireBytes, call.arrivedFrom, .ok ⟨state.platform.sha256 payload, status⟩⟩ after := by
  obtain ⟨parses, -⟩ := admitObject_ok adm.admitted
  obtain ⟨⟨status, after⟩, run⟩ := @ingestObject_total state corpus db payload signature call.arrivedFrom
    harmless healthy object adm.occurs adm.admitted absent (by
      rintro p rfl
      exact calm payload signature p adm.decodes parses)
  have footprint := ingestObject_footprint healthy.sound adm.occurs adm.admitted absent run
  have own : ∀ payload' signature' object',
      state.platform.decodeSignedObject call.wireBytes = some (payload', signature') →
      state.platform.parse payload' = some object' → object' = object := by
    intro payload' signature' object' decodes' parses'
    obtain ⟨rfl, rfl⟩ := Prod.mk.inj (some.inj (adm.decodes.symm.trans decodes'))
    exact some.inj (parses'.symm.trans parses)
  refine ⟨status, after, run, ?_, ⟨_, rfl⟩, ?_, ?_, ?_, ?_⟩
  · simp only [deliverObject, adm.applyOneObject absent unremoved, run]
    rfl
  · exact (ingestObject_effects healthy.sound adm.occurs adm.admitted absent run).healthy healthy
  · intro hash stored
    rcases footprint.objects hash stored with known | rfl | edge
    · exact .inl known
    · by_cases applied : status = .applied
      · exact .inr (.inl (by rw [Answered.applied, applied]))
      · rw [footprint.idle applied] at stored
        exact .inl stored
    · exact .inr (.inr edge)
  · intro post
    rw [footprint.removals post]
    constructor
    · rintro (known | ⟨applied, isRemoval⟩)
      · exact .inl known
      · exact .inr ⟨_, payload, signature, object, by rw [Answered.applied, applied], adm.decodes, parses, isRemoval⟩
    · rintro (known | ⟨hash, payload', signature', object', applied, decodes', parses', isRemoval⟩)
      · exact .inl known
      · obtain rfl := own _ _ _ decodes' parses'
        rw [Answered.applied, Except.ok.injEq] at applied
        exact .inr ⟨congrArg ContentResult.status applied, isRemoval⟩
  · rintro post ⟨hash, payload', signature', object', -, decodes', parses', blocked⟩
    obtain rfl := own _ _ _ decodes' parses'
    rw [Bool.eq_false_iff]
    intro inForce
    have removed := adminRemoved_iff.mpr ⟨post, blocked, inForce⟩
    rw [unremoved] at removed
    cases removed

theorem Serial.advance {seen : Nat}
    {phase : Phase} (serial : Serial state corpus start inputs server) (atI : server.calls[i]? = some call)
    (running : isFinished call = false) (stays : phase ≠ .finished)
    (reads : ReadsHold state corpus server { call with phase := phase, seen := seen }) :
    Serial state corpus start inputs { server with
      calls := server.calls.set i { call with phase := phase, seen := seen } } := by
  refine ⟨serial.serial, serial.healthy, ?_, ?_, serial.answered, ?_, serial.inForce, serial.order⟩
  · rw [← serial.inputs]
    exact map_set_of_same atI (by rfl)
  · have same := @filter_set_of_false _ isFinished _ _ _ { call with phase := phase, seen := seen } atI running
      (by simpa [isFinished] using stays)
    simp only [same]
    exact serial.finished
  · intro other mem
    rcases mem_or_eq_of_mem_set mem with old | rfl
    · exact serial.reads other old
    · exact reads

theorem Serial.step (harmless : Harmless state.platform corpus) (serial : Serial state corpus start inputs server)
    (occurs : ∀ input ∈ inputs, Occurs state corpus input.1) (undisturbed : Undisturbed state server i) :
    Serial state corpus start inputs (server.step state i) := by
  unfold Server.step
  split
  · exact serial
  · rename_i call atI
    have mem : call ∈ server.calls := mem_of_getElem? atI
    have reads := serial.reads call mem
    have received : Occurs state corpus call.wireBytes := by
      refine occurs call.input ?_
      rw [← serial.inputs]
      exact List.mem_map.mpr ⟨call, mem, rfl⟩
    split
    · exact serial
    · rename_i phase next
      cases at' : call.phase with
      | begun =>
        obtain ⟨result, isAnswer, -⟩ | ⟨payload, signature, object, isPhase, adm, absent⟩ :=
          Call.next_begun at' received next
        · cases isAnswer
        · cases isPhase
          refine serial.advance atI (by simp [isFinished, at']) nofun ?_
          exact ⟨⟨adm.small, adm.decodes, adm.admitted, adm.occurs⟩, by simp, by simp [absent]⟩
      | deduplicated payload signature object =>
        simp only [Call.next, at'] at next
        split at next
        · cases next
        · rename_i unremoved
          cases next
          simp only [ReadsHold, at'] at reads
          obtain ⟨adm, within, before⟩ := reads
          refine serial.advance atI (by simp [isFinished, at']) nofun ?_
          refine ⟨⟨adm.small, adm.decodes, adm.admitted, adm.occurs⟩, by simpa using within, by simpa using before, ?_⟩
          intro post blocked inForce
          exact absurd (adminRemoved_iff.mpr ⟨post, blocked, inForce⟩) unremoved
      | cleared payload signature object =>
        simp only [Call.next, at'] at next
        split at next <;> cases next
      | finished => simp [Call.next, at'] at next
    · rename_i answer after next
      have answers : isFinished call = false ∧
          Answers state corpus server.db ⟨call.wireBytes, call.arrivedFrom, answer⟩ after := by
        cases at' : call.phase with
        | begun =>
          obtain ⟨result, isAnswer, refused, idle⟩ | ⟨payload, signature, object, isPhase, -⟩ :=
            Call.next_begun at' received next
          · cases isAnswer
            exact ⟨by simp [isFinished, at'], .of_refused serial.healthy rfl refused idle⟩
          · cases isPhase
        | deduplicated payload signature object =>
          simp only [Call.next, at'] at next
          split at next
          · rename_i removed
            cases next
            simp only [ReadsHold, at'] at reads
            exact ⟨by simp [isFinished, at'], .of_refused serial.healthy rfl nofun (reads.1.deliver_removed removed)⟩
          · cases next
        | cleared payload signature object =>
          simp only [ReadsHold, at'] at reads
          obtain ⟨adm, -, stored, removed⟩ := reads
          obtain ⟨alone, calm⟩ := undisturbed call payload signature object atI at'
          have absent : server.db.hasObject (state.platform.sha256 payload) = false := by
            rw [Bool.eq_false_iff]
            intro known
            obtain ⟨entry, since, applied⟩ := stored known
            exact alone entry since (.inl applied)
          have unremoved : adminRemoved server.db object = false := by
            rw [Bool.eq_false_iff]
            intro blocked
            obtain ⟨post, names, inForce⟩ := adminRemoved_iff.mp blocked
            obtain ⟨entry, since, isRemoval⟩ := removed post names inForce
            exact alone entry since (.inr ⟨post, isRemoval, names⟩)
          obtain ⟨status, final, run, answers⟩ :=
            Answers.of_transaction harmless serial.healthy adm absent unremoved calm
          simp only [Call.next, at', run] at next
          cases next
          exact ⟨by simp [isFinished, at'], answers⟩
        | finished => simp [Call.next, at'] at next
      exact serial.answer harmless.injective atI answers.1 answers.2

end Serial

section OneRow

variable {state : AppState}

theorem Healthy.oneRowPerHash (injective : CollisionFree state.platform corpus)
    (healthy : Healthy state corpus db) : OneRowPerHash db where
  profiles := by
    refine healthy.ints.profileKeys.of_key ?_
    intro row inRow other inOther same
    obtain ⟨payload, signature, p, filed, user, hashed⟩ := healthy.sound.profiles row inRow
    obtain ⟨payload', signature', p', filed', user', hashed'⟩ := healthy.sound.profiles other inOther
    obtain rfl := injective _ _ filed.occurs filed'.occurs (by rw [← hashed, ← hashed', same])
    have sameProfile := some.inj (filed.parses.symm.trans filed'.parses)
    cases sameProfile
    exact Prod.ext (user.trans user'.symm) same
  revisions := by
    refine healthy.ints.revisionKeys.of_key ?_
    intro row inRow other inOther same
    obtain ⟨payload, signature, p, filed, records⟩ := healthy.sound.revisions row inRow
    obtain ⟨payload', signature', p', filed', records'⟩ := healthy.sound.revisions other inOther
    obtain rfl := injective _ _ filed.occurs filed'.occurs (by rw [← records.hash, ← records'.hash, same])
    have sameRevision := some.inj (filed.parses.symm.trans filed'.parses)
    cases sameRevision
    exact Prod.ext (records.post.trans records'.post.symm) (records.revision.trans records'.revision.symm)
  threads := by
    refine healthy.ints.threadIds.of_key ?_
    intro row inRow other inOther same
    obtain ⟨payload, signature, t, filed, opens⟩ := healthy.sound.threads row inRow
    obtain ⟨payload', signature', t', filed', opens'⟩ := healthy.sound.threads other inOther
    rw [opens.hash, opens'.hash, some.injEq] at same
    obtain rfl := injective _ _ filed.occurs filed'.occurs same
    have sameThread := some.inj (filed.parses.symm.trans filed'.parses)
    cases sameThread
    exact opens.id.trans opens'.id.symm

end OneRow

/--
Calls that do not interfere with each other behave like the same calls one after the other, in the
order in which they finish; each hash has one row, no call fails, and no post-rev or retract is
stored after a removal of its post.
-/
theorem interleaving_serializable {state : AppState} {corpus : Corpus} {db : Db}
    {inputs : List (Bytes × Key)} {server : Server}
    (reached : Reachable state corpus (fun _ _ _ => True) db) (harmless : Harmless state.platform corpus)
    (occurs : ∀ input ∈ inputs, Occurs state corpus input.1)
    (run : Interleaving state db inputs server) :
    server.db = deliverObjects state db (server.log.map Answered.input) ∧
    ((∀ call ∈ server.calls, call.phase = .finished) → (server.log.map Answered.input).Perm inputs) ∧
    OneRowPerHash server.db ∧ (∀ entry ∈ server.log, ∃ result, entry.answer = .ok result) ∧
    server.log.Pairwise fun earlier later => ∀ post, earlier.removed state post → ¬ later.touched state post := by
  have serial : Serial state corpus db inputs server := by
    induction run with
    | start => exact .start reached.healthy inputs
    | step i _ undisturbed ih => exact ih.step harmless occurs undisturbed
  refine ⟨serial.serial, ?_, serial.healthy.oneRowPerHash harmless.injective, serial.answered, serial.order⟩
  intro done
  have all : server.calls.filter isFinished = server.calls := by
    rw [filter_eq_self]
    intro call mem
    simp [isFinished, done call mem]
  have finished := serial.finished
  rwa [all, serial.inputs] at finished

/-- One profile of user 1 and one of user 2. -/
def profileState : AppState :=
  AppState.ofTable [.profileRevision ⟨1, "a", "", none, 1000, none⟩, .profileRevision ⟨2, "b", "", none, 1000, none⟩]

def Server.run (state : AppState) (server : Server) (schedule : List Nat) : Server :=
  schedule.foldl (Server.step state) server

/-- One profile delivered by two peers at once: both calls pass the duplicate check, and both insert
it, which no order of the calls does. -/
theorem same_profile_doubled : ∃ state inputs schedule,
    let server := (Server.start {} inputs).run state schedule
    (∀ call ∈ server.calls, call.phase = .finished) ∧
    (∀ order, order.Perm inputs → server.db ≠ deliverObjects state {} order) ∧
    ¬ UniqueBy ProfileRevisionRow.canonicalHash server.db.profileRevisions := by
  refine ⟨profileState, [([0], 8), ([0], 7)], [0, 1, 0, 1, 0, 1], by decide, ?_, ?_⟩
  · intro order perm same
    have single : ∀ x ∈ [(([0] : Bytes), (8 : Key)), ([0], 7)], ∀ y ∈ [(([0] : Bytes), (8 : Key)), ([0], 7)],
        (deliverObjects profileState {} [x, y]).profileRevisions.length ≠ 2 := by decide
    match order, perm.length_eq with
    | [x, y], _ =>
      refine single x (perm.mem_iff.mp (by simp)) y (perm.mem_iff.mp (by simp)) ?_
      rw [← same]
      decide
  · rw [UniqueBy]
    decide

def profileInputs : List (Bytes × Key) :=
  [([0], 8), ([1], 8)]

/-- Both calls read before the first one writes. -/
def overlapping (steps : Nat) : Server :=
  (Server.start {} profileInputs).run profileState ([0, 1, 0, 1, 0, 1].take steps)

theorem undisturbed_of_reading {state : AppState} {server : Server} {i : Nat}
    (reading : (server.calls[i]?).all (fun call => call.phase matches .begun | .deduplicated _ _ _) = true) :
    Undisturbed state server i := by
  intro call payload signature object atI cleared
  rw [atI] at reading
  simp [cleared] at reading

theorem overlapping_calm (steps : Nat) (wireBytes : Bytes) (idle : (overlapping steps).db.pendingTrustEdges = []) :
    CalmProfile profileState (overlapping steps).db wireBytes := by
  intro _ _ _ _ _ row mem
  rw [idle] at mem
  cases mem

theorem overlapping_profiles_serializable :
    (overlapping 6).db = deliverObjects profileState {} ((overlapping 6).log.map Answered.input) ∧
      OneRowPerHash (overlapping 6).db := by
  have harmless : Harmless profileState.platform (· ∈ [([0] : Bytes), [1]]) := by
    have profiles : ∀ a ∈ [([0] : Bytes), [1]],
        ((profileState.platform.parse a).all fun x => x matches .profileRevision _) = true := by decide
    have distinct : ∀ a ∈ [([0] : Bytes), [1]], ∀ b ∈ [([0] : Bytes), [1]],
        profileState.platform.sha256 a = profileState.platform.sha256 b → a = b := by decide
    refine ⟨fun a b inA inB => distinct a inA b inB, ?_, ?_, ?_⟩
    · intro payload signature p _ _ _ filed
      have other := profiles payload filed.occurs
      simp [filed.parses] at other
    · intro payload signature t _ _ _ filed
      have other := profiles payload filed.occurs
      simp [filed.parses] at other
    · intro payload signature p filed
      have other := profiles payload filed.occurs
      simp [filed.parses] at other
  have occurs : ∀ input ∈ profileInputs, Occurs profileState (· ∈ [([0] : Bytes), [1]]) input.1 := by
    intro input mem payload signature decodes
    simp only [profileInputs, mem_cons, not_mem_nil, or_false] at mem
    rcases mem with rfl | rfl <;> cases decodes <;> simp
  have reads : Interleaving profileState {} profileInputs (overlapping 4) := by
    have first : Interleaving profileState {} profileInputs (overlapping 0) := .start
    exact (((first.step 0 (undisturbed_of_reading (by decide))).step 1 (undisturbed_of_reading (by decide))).step 0
      (undisturbed_of_reading (by decide))).step 1 (undisturbed_of_reading (by decide))
  have writes : Interleaving profileState {} profileInputs (overlapping 6) := by
    have first : Interleaving profileState {} profileInputs (overlapping 5) := by
      refine reads.step 0 ?_
      intro call payload signature object atI cleared
      refine ⟨?_, overlapping_calm 4 _ (by decide)⟩
      have none : (overlapping 4).log.length = 0 := by decide
      rw [length_eq_zero_iff] at none
      simp [none]
    refine first.step 1 ?_
    intro call payload signature object atI cleared
    refine ⟨?_, overlapping_calm 5 _ (by decide)⟩
    have isCall : (overlapping 5).calls[1]? = some ⟨[1], 8, .cleared [1] (List.replicate 64 0)
        (.profileRevision ⟨2, "b", "", none, 1000, none⟩), 0⟩ := by decide
    obtain rfl := some.inj (isCall.symm.trans atI)
    cases cleared
    intro entry since
    have logged : (overlapping 5).log = [⟨[0], 8, .ok ⟨profileState.platform.sha256 [0], .applied⟩⟩] := rfl
    rw [logged] at since
    obtain rfl : entry = _ := by simpa using since
    rintro (applied | ⟨post, -, blocked⟩)
    · rw [Answered.applied, Except.ok.injEq] at applied
      exact absurd (congrArg ContentResult.canonicalHash applied) (by decide)
    · cases blocked
  have serializable := interleaving_serializable .start harmless occurs writes
  exact ⟨serializable.1, serializable.2.2.1⟩

end Prismoire
