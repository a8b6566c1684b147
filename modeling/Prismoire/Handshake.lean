import Prismoire.Lib.Run
import Prismoire.Peering

namespace Prismoire

open Lib List Function

/--
Two instances with their rows and the messages between them: requests with their sender, callbacks with the side
that accepts, and the answers to callbacks on their way back. The last two fields are history: the rows that
`handle_peer_response` made active, and the call of `operator_accept_peer_request` that returned `Ok` last.
-/
structure HandshakeNet where
  peers : Bool → List PeeringRow
  used : List Uuid := []
  requests : List (Bool × PeerRequestBody) := []
  callbacks : List (Bool × PeerResponseBody) := []
  waiting : List (Bool × PeerResponseBody) := []
  answers : List (Bool × PeerResponseBody × PeerReply) := []
  activated : List (Bool × Uuid) := []
  accepted : Option (Bool × Uuid) := none

/-- A delivered message stays in flight, so that it can be repeated, until it is lost. -/
inductive HandshakeEvent where
  | initiate (side : Bool) (targetDomain : Text) (proposed : List Text) (requestId : Uuid)
  | deliverRequest (i : Nat)
  | loseRequest (i : Nat)
  | accept (side : Bool) (requestId : Uuid)
  | deliverCallback (i : Nat)
  | loseCallback (i : Nat)
  | answer (i : Nat)
  | loseAnswer (i : Nat)
  /-- Anything else that happens to a side's rows of other peers. -/
  | others (side : Bool) (rows : List PeeringRow)

section Net

variable (instances : Bool → PeeringInstance)

namespace HandshakeNet

/-- A side's row of the other side. -/
def row (net : HandshakeNet) (side : Bool) : Option PeeringRow :=
  peeringRow (net.peers side) (instances !side).instanceKey

/-- A number as random as `OsRng` makes it: no row has it, and the two sides never had it. -/
def Fresh (net : HandshakeNet) (requestId : Uuid) : Prop :=
  requestId ∉ net.used ∧ (∀ row ∈ net.peers false, row.requestId ≠ requestId) ∧
    ∀ row ∈ net.peers true, row.requestId ≠ requestId

instance (net : HandshakeNet) (requestId : Uuid) : Decidable (net.Fresh requestId) :=
  inferInstanceAs (Decidable (_ ∧ _ ∧ _))

def Apart (net : HandshakeNet) (side : Bool) (rows : List PeeringRow) : Prop :=
  (rows.map (·.instancePubkey)).Nodup ∧ peeringRow rows (instances !side).instanceKey = net.row instances side ∧
    ∀ row ∈ rows, row.instancePubkey ≠ (instances !side).instanceKey → row.requestId ∉ net.used

instance (net : HandshakeNet) (side : Bool) (rows : List PeeringRow) : Decidable (net.Apart instances side rows) :=
  inferInstanceAs (Decidable (_ ∧ _ ∧ _))

def step (before : HandshakeNet) (event : HandshakeEvent) : HandshakeNet :=
  let net := { before with accepted := none }
  match event with
  | .initiate side targetDomain proposed requestId =>
    if net.Fresh requestId then
      match operatorInitiatePeerRequest (instances side) (net.peers side) (instances !side).instanceKey targetDomain
          proposed requestId with
      | .error _ => net
      | .ok (body, rows) =>
        { net with
          peers := update net.peers side rows
          used := requestId :: net.used
          requests := net.requests ++ [(side, body)] }
    else net
  | .deliverRequest i =>
    match net.requests[i]? with
    | none => net
    | some (side, body) =>
      let (_, rows) := handlePeerRequest (instances !side) (net.peers !side) (instances side).instanceKey body
      { net with peers := update net.peers (!side) rows }
  | .loseRequest i => { net with requests := net.requests.eraseIdx i }
  | .accept side requestId =>
    match operatorAcceptPeerRequest (instances side) (net.peers side) requestId with
    | .error _ => net
    | .ok (pubkey, body) =>
      if pubkey = (instances !side).instanceKey then
        { net with callbacks := net.callbacks ++ [(side, body)], waiting := net.waiting ++ [(side, body)] }
      else net
  | .deliverCallback i =>
    match net.callbacks[i]? with
    | none => net
    | some (side, body) =>
      let (reply, rows) := handlePeerResponse (net.peers !side) (instances side).instanceKey body
      { net with
        peers := update net.peers (!side) rows
        answers := net.answers ++ [(side, body, reply)]
        activated := if reply = .ok then net.activated ++ [(!side, body.requestId)] else net.activated }
  | .loseCallback i => { net with callbacks := net.callbacks.eraseIdx i }
  | .answer i =>
    match net.answers[i]? with
    | none => net
    | some (side, body, reply) =>
      let net := { net with answers := net.answers.eraseIdx i }
      if (side, body) ∈ net.waiting then
        let net := { net with waiting := net.waiting.erase (side, body) }
        match finishAccept (net.peers side) body reply with
        | .error _ => net
        | .ok rows =>
          { net with peers := update net.peers side rows, accepted := some (side, body.requestId) }
      else net
  | .loseAnswer i => { net with answers := net.answers.eraseIdx i }
  | .others side rows =>
    if net.Apart instances side rows then { net with peers := update net.peers side rows } else net

section

variable (net : HandshakeNet)

def Pending (side : Bool) : Prop :=
  ∃ row, net.row instances side = some row ∧ (row.status = .pendingOutbound ∨ row.status = .pendingInbound)

/-- One side has asked, and the other has the request: its accept will complete the peering. -/
def Matched (side : Bool) : Prop :=
  ∃ asked received, net.row instances side = some asked ∧ net.row instances (!side) = some received ∧
    asked.status = .pendingOutbound ∧ received.status = .pendingInbound ∧ received.requestId = asked.requestId

def Hopeful (side : Bool) : Prop :=
  ∃ asked, net.row instances side = some asked ∧ asked.status = .pendingOutbound ∧
    ((∃ request ∈ net.requests, request.1 = side ∧ request.2.requestId = asked.requestId) ∨
      ∃ callback ∈ net.callbacks, callback.1 = (!side) ∧ callback.2.requestId = asked.requestId)

/-- Two pending rows fit each other, or some message may still make them. -/
def Open : Prop :=
  (∀ side, net.Pending instances side) → ∃ side, net.Matched instances side ∨ net.Hopeful instances side

/-- No message is under way. -/
def Quiescent : Prop :=
  net.requests = [] ∧ net.callbacks = [] ∧ net.answers = []

end

instance (net : HandshakeNet) : Decidable net.Quiescent :=
  inferInstanceAs (Decidable (_ ∧ _ ∧ _))

end HandshakeNet

/--
The steps that keep the handshake on course. A request is received only if its sender, when it has a pending row
at all, has asked and a message about that is in flight; a loss leaves two pending rows open; and an answer finds
the row that was accepted.
-/
def OnCourse (net : HandshakeNet) : HandshakeEvent → Prop
  | .deliverRequest i => ∀ side body, net.requests[i]? = some (side, body) →
      (instances !side).domainOk body.initiatorDomain = true →
      domainTaken (net.peers !side) body.initiatorDomain body.initiatorInstancePubkey = false →
      net.Pending instances side → net.Hopeful instances side
  | .loseRequest i => HandshakeNet.Open instances { net with requests := net.requests.eraseIdx i }
  | .loseCallback i => HandshakeNet.Open instances { net with callbacks := net.callbacks.eraseIdx i }
  | .answer i => ∀ side body, net.answers[i]? = some (side, body, .ok) → (side, body) ∈ net.waiting →
      ∃ row, net.row instances side = some row ∧ row.requestId = body.requestId ∧
        (row.status = .pendingInbound ∨ row.status = .active)
  | _ => True

end Net

variable {instances : Bool → PeeringInstance} {net : HandshakeNet}

namespace HandshakeNet

/-- What holds in every state of a run: keys identify rows, numbers belong to the pair, and messages are honest. -/
structure Sane (instances : Bool → PeeringInstance) (net : HandshakeNet) : Prop where
  unique : ∀ side, UniqueBy PeeringRow.instancePubkey (net.peers side)
  others : ∀ side, ∀ row ∈ net.peers side, row.instancePubkey ≠ (instances !side).instanceKey →
    row.requestId ∉ net.used
  own : ∀ side row, net.row instances side = some row → row.requestId ∈ net.used
  requests : ∀ request ∈ net.requests, request.2.requestId ∈ net.used ∧
    request.2.initiatorInstancePubkey = (instances request.1).instanceKey
  callbacks : ∀ callback ∈ net.callbacks, callback.2.requestId ∈ net.used ∧
    callback.2.responderInstancePubkey = (instances callback.1).instanceKey ∧ callback.2.decision = .accept
  answers : ∀ answer ∈ net.answers, answer.2.1.requestId ∈ net.used ∧
    (answer.2.2 = .ok → (!answer.1, answer.2.1.requestId) ∈ net.activated)

variable {side : Bool} {rows : List PeeringRow}

variable {requestId : Uuid} {event : HandshakeEvent}

theorem Sane.alone (sane : net.Sane instances) (used : requestId ∈ net.used)
    (row : PeeringRow) (mem : row ∈ net.peers side) (same : row.requestId = requestId) :
    row.instancePubkey = (instances !side).instanceKey := by
  by_contra other
  exact sane.others side row mem other (same ▸ used)

theorem Sane.replace (sane : net.Sane instances) (side : Bool) (used : List Uuid)
    (replaced : Replaced (instances !side).instanceKey (net.peers side) rows)
    (more : ∀ requestId ∈ net.used, requestId ∈ used)
    (fresh : ∀ requestId ∈ used, requestId ∉ net.used → ∀ side, ∀ row ∈ net.peers side, row.requestId ≠ requestId)
    (own : ∀ row, peeringRow rows (instances !side).instanceKey = some row → row.requestId ∈ used) :
    ({ net with peers := update net.peers side rows, used } : HandshakeNet).Sane instances := by
  have stays : ∀ other, ∀ row ∈ net.peers other, row.instancePubkey ≠ (instances !other).instanceKey →
      row.requestId ∉ used := by
    intro other row mem apart isUsed
    by_cases old : row.requestId ∈ net.used
    · exact sane.others other row mem apart old
    · exact fresh _ isUsed old other row mem rfl
  constructor
  case unique =>
    intro other
    by_cases same : other = side
    · subst same
      simpa using replaced.unique (sane.unique other)
    · simpa [update_of_ne same] using sane.unique other
  case others =>
    intro other row mem apart
    by_cases same : other = side
    · subst same
      simp only [update_self] at mem
      exact stays other row (replaced.others row mem apart) apart
    · simp only [update_of_ne same] at mem
      exact stays other row mem apart
  case own =>
    intro other row isRow
    by_cases same : other = side
    · subst same
      simp only [HandshakeNet.row, update_self] at isRow
      exact own row isRow
    · simp only [HandshakeNet.row, update_of_ne same] at isRow
      exact more _ (sane.own other row isRow)
  case requests => exact fun request mem => (sane.requests request mem).imp_left (more _)
  case callbacks => exact fun callback mem => (sane.callbacks callback mem).imp_left (more _)
  case answers => exact fun answer mem => (sane.answers answer mem).imp_left (more _)

theorem Sane.step (sane : net.Sane instances) (event : HandshakeEvent) : (net.step instances event).Sane instances := by
  have same : ∀ {requestId : Uuid}, requestId ∈ net.used → requestId ∉ net.used → ∀ side, ∀ row ∈ net.peers side,
      row.requestId ≠ requestId := fun used fresh => absurd used fresh
  cases event with
  | initiate side targetDomain proposed requestId =>
    dsimp only [HandshakeNet.step]
    split
    · rename_i fresh
      split
      · exact { sane with }
      · rename_i body rows run
        obtain ⟨number, honest, replaced, row, isRow, -, rowNumber⟩ := operatorInitiatePeerRequest_ok run
        have changed := sane.replace side (requestId :: net.used) replaced (fun _ => mem_cons_of_mem _) (by
            intro other mem notUsed another row inPeers
            rcases mem_cons.mp mem with rfl | old
            · cases another
              · exact fresh.2.1 row inPeers
              · exact fresh.2.2 row inPeers
            · exact absurd old notUsed)
          (by
            intro other isOther
            rw [isRow] at isOther
            cases isOther
            rw [rowNumber]
            exact mem_cons_self)
        refine { changed with requests := fun request mem => ?_ }
        rcases mem_concat.mp mem with old | isNew
        · exact changed.requests request old
        · rw [isNew]
          exact ⟨number ▸ mem_cons_self, honest⟩
    · exact { sane with }
  | deliverRequest i =>
    dsimp only [HandshakeNet.step]
    split
    · exact { sane with }
    · rename_i side body at_
      obtain ⟨used, honest⟩ := sane.requests _ (mem_of_getElem? at_)
      rcases handlePeerRequest_cases (instances !side) (net.peers !side) honest
        with ⟨-, -, replaced, row, isRow, -, number⟩ | unchanged
      · have changed := sane.replace (!side) net.used (by rwa [Bool.not_not]) (fun _ => id) (fun _ => same) (by
            intro other isOther
            rw [Bool.not_not] at isOther
            rw [isRow] at isOther
            cases isOther
            rw [number]
            exact used)
        exact { changed with }
      · rw [unchanged, update_eq_self]
        exact { sane with }
  | loseRequest i =>
    exact { sane with requests := fun request mem => sane.requests request (mem_of_mem_eraseIdx mem) }
  | accept side requestId =>
    dsimp only [HandshakeNet.step]
    split
    · exact { sane with }
    · rename_i pubkey body run
      split
      · rename_i isPair
        refine { sane with callbacks := fun callback mem => ?_ }
        rcases mem_concat.mp mem with old | isNew
        · exact sane.callbacks callback old
        · rw [isNew]
          unfold operatorAcceptPeerRequest at run
          split at run
          · cases run
          · rename_i row found
            cases run
            have passes := find?_some found
            have named : row.requestId = requestId := (of_decide_eq_true passes).1
            have isRow := peeringRow_of_mem (sane.unique side) (mem_of_find?_eq_some found)
            rw [isPair] at isRow
            exact ⟨named ▸ sane.own side row isRow, rfl, rfl⟩
      · exact { sane with }
  | deliverCallback i =>
    dsimp only [HandshakeNet.step]
    split
    · exact { sane with }
    · rename_i side body at_
      obtain ⟨used, honest, accepts⟩ := sane.callbacks _ (mem_of_getElem? at_)
      rcases handlePeerResponse_cases honest accepts (sane.unique !side)
        (fun row mem number => by simpa using sane.alone used row mem number)
        with ⟨-, -, -, -, isOk, replaced, row, isRow, -, number⟩ | ⟨refused, unchanged, -⟩
      · have changed := sane.replace (!side) net.used (by rwa [Bool.not_not]) (fun _ => id) (fun _ => same) (by
            intro other isOther
            rw [Bool.not_not] at isOther
            rw [isRow] at isOther
            cases isOther
            rw [number]
            exact used)
        refine { changed with answers := fun answer mem => ?_ }
        rw [isOk, if_pos rfl]
        rcases mem_concat.mp mem with old | isNew
        · exact (sane.answers answer old).imp_right fun known isOk' => mem_append_left _ (known isOk')
        · rw [isNew]
          exact ⟨used, fun _ => by simp⟩
      · rw [unchanged, update_eq_self]
        refine { sane with answers := fun answer mem => ?_ }
        rw [refused, if_neg (by decide)]
        rcases mem_concat.mp mem with old | isNew
        · exact sane.answers answer old
        · rw [isNew]
          exact ⟨used, fun isOk => absurd (refused.symm.trans isOk) nofun⟩
  | loseCallback i =>
    exact { sane with callbacks := fun callback mem => sane.callbacks callback (mem_of_mem_eraseIdx mem) }
  | answer i =>
    have kept : ∀ answer ∈ net.answers.eraseIdx i, answer.2.1.requestId ∈ net.used ∧
        (answer.2.2 = .ok → (!answer.1, answer.2.1.requestId) ∈ net.activated) :=
      fun answer mem => sane.answers answer (mem_of_mem_eraseIdx mem)
    dsimp only [HandshakeNet.step]
    split
    · exact { sane with }
    · rename_i side body reply at_
      have used := (sane.answers _ (mem_of_getElem? at_)).1
      split
      · rcases finishAccept_cases reply fun (row : PeeringRow) (mem : row ∈ net.peers side) number =>
          sane.alone used row mem number with
          ⟨-, rows, run, replaced, -, either⟩ | ⟨error, run⟩
        · rw [run]
          have changed := sane.replace side net.used replaced (fun _ => id) (fun _ => same) (by
              intro row isRow
              rcases either with ⟨new, isNew, -, number⟩ | unchanged
              · rw [isNew] at isRow
                cases isRow
                rw [number]
                exact used
              · exact sane.own side row (unchanged.symm.trans isRow))
          exact { changed with answers := kept }
        · rw [run]
          exact { sane with answers := kept }
      · exact { sane with answers := kept }
  | loseAnswer i =>
    exact { sane with answers := fun answer mem => sane.answers answer (mem_of_mem_eraseIdx mem) }
  | others side rows =>
    dsimp only [HandshakeNet.step]
    split
    · rename_i apart
      obtain ⟨unique, samePair, numbers⟩ := apart
      constructor
      case unique =>
        intro other
        by_cases isSide : other = side
        · subst isSide
          dsimp only
          rw [update_self]
          exact unique
        · simpa [update_of_ne isSide] using sane.unique other
      case others =>
        intro other row mem
        by_cases isSide : other = side
        · subst isSide
          simp only [update_self] at mem
          exact numbers row mem
        · simp only [update_of_ne isSide] at mem
          exact sane.others other row mem
      case own =>
        intro other row isRow
        by_cases isSide : other = side
        · subst isSide
          simp only [HandshakeNet.row, update_self] at isRow
          exact sane.own other row (samePair.symm.trans isRow)
        · simp only [HandshakeNet.row, update_of_ne isSide] at isRow
          exact sane.own other row isRow
      case requests => exact sane.requests
      case callbacks => exact sane.callbacks
      case answers => exact sane.answers
    · exact { sane with }

theorem Open.mono {after : HandshakeNet} (isOpen : net.Open instances)
    (rows : ∀ side, after.row instances side = net.row instances side)
    (requests : ∀ request ∈ net.requests, request ∈ after.requests)
    (callbacks : ∀ callback ∈ net.callbacks, callback ∈ after.callbacks) : after.Open instances := by
  intro pending
  obtain ⟨side, either⟩ := isOpen fun side => by
    obtain ⟨row, isRow, status⟩ := pending side
    exact ⟨row, (rows side).symm.trans isRow, status⟩
  refine ⟨side, either.imp ?_ ?_⟩
  · rintro ⟨asked, received, isAsked, isReceived, rest⟩
    exact ⟨asked, received, (rows side).trans isAsked, (rows !side).trans isReceived, rest⟩
  · rintro ⟨asked, isAsked, status, message⟩
    refine ⟨asked, (rows side).trans isAsked, status, message.imp ?_ ?_⟩
    · rintro ⟨request, mem, rest⟩
      exact ⟨request, requests request mem, rest⟩
    · rintro ⟨callback, mem, rest⟩
      exact ⟨callback, callbacks callback mem, rest⟩

theorem Open.of_active (side : Bool)
    (active : HasRow (net.peers side) (instances !side).instanceKey .active requestId) : net.Open instances := by
  intro pending
  obtain ⟨row, isRow, status⟩ := pending side
  obtain ⟨row', isRow', active, -⟩ := active
  rw [HandshakeNet.row, isRow'] at isRow
  cases isRow
  rw [active] at status
  rcases status with impossible | impossible <;> cases impossible

theorem row_update_other {other : Bool} (apart : other ≠ side) :
    peeringRow (update net.peers side rows other) (instances !other).instanceKey = net.row instances other := by
  rw [update_of_ne apart, HandshakeNet.row]

theorem row_update_same (same : peeringRow rows (instances !side).instanceKey = net.row instances side) (other : Bool) :
    peeringRow (update net.peers side rows other) (instances !other).instanceKey = net.row instances other := by
  by_cases isSide : other = side
  · subst isSide
    rw [update_self, same]
  · exact row_update_other isSide

theorem Open.step (isOpen : net.Open instances) (sane : net.Sane instances)
    (onCourse : OnCourse instances net event) : (net.step instances event).Open instances := by
  have calm : ∀ {after : HandshakeNet}, after.peers = net.peers → after.requests = net.requests →
      (∀ callback ∈ net.callbacks, callback ∈ after.callbacks) → after.Open instances := by
    intro after peers requests callbacks
    exact isOpen.mono (fun side => by rw [HandshakeNet.row, peers, HandshakeNet.row]) (by simp [requests]) callbacks
  cases event with
  | initiate side targetDomain proposed requestId =>
    dsimp only [HandshakeNet.step]
    split
    · split
      · exact calm rfl rfl fun _ => id
      · rename_i body rows run
        obtain ⟨number, -, -, row, isRow, status, rowNumber⟩ := operatorInitiatePeerRequest_ok run
        refine fun _ => ⟨side, .inr ⟨row, ?_, status, .inl ⟨(side, body), by simp, rfl, number.trans rowNumber.symm⟩⟩⟩
        simpa [HandshakeNet.row] using isRow
    · exact calm rfl rfl fun _ => id
  | deliverRequest i =>
    dsimp only [HandshakeNet.step]
    split
    · exact calm rfl rfl fun _ => id
    · rename_i side body at_
      obtain ⟨-, honest⟩ := sane.requests _ (mem_of_getElem? at_)
      rcases handlePeerRequest_cases (instances !side) (net.peers !side) honest with
        ⟨domain, free, -, -⟩ | unchanged
      · intro pending
        have apart : side ≠ !side := by cases side <;> decide
        obtain ⟨row, isRow, status⟩ := pending side
        have old := (row_update_other apart).symm.trans isRow
        obtain ⟨asked, isAsked, rest⟩ := onCourse side body at_ domain free ⟨row, old, status⟩
        exact ⟨side, .inr ⟨asked, (row_update_other apart).trans isAsked, rest⟩⟩
      · rw [unchanged, update_eq_self]
        exact calm rfl rfl fun _ => id
  | loseRequest i => exact onCourse
  | accept side requestId =>
    dsimp only [HandshakeNet.step]
    split
    · exact calm rfl rfl fun _ => id
    · split
      · exact calm rfl rfl fun _ => mem_append_left _
      · exact calm rfl rfl fun _ => id
  | deliverCallback i =>
    dsimp only [HandshakeNet.step]
    split
    · exact calm rfl rfl fun _ => id
    · rename_i side body at_
      obtain ⟨used, honest, accepts⟩ := sane.callbacks _ (mem_of_getElem? at_)
      rcases handlePeerResponse_cases honest accepts (sane.unique !side)
        (fun row mem number => by simpa using sane.alone used row mem number)
        with ⟨-, -, -, -, -, -, active⟩ | ⟨-, unchanged, -⟩
      · exact Open.of_active (!side) (by simpa using active)
      · rw [unchanged, update_eq_self]
        exact calm rfl rfl fun _ => id
  | loseCallback i => exact onCourse
  | answer i =>
    dsimp only [HandshakeNet.step]
    split
    · exact calm rfl rfl fun _ => id
    · rename_i side body reply at_
      have used := (sane.answers _ (mem_of_getElem? at_)).1
      split
      · rcases finishAccept_cases reply fun (row : PeeringRow) (mem : row ∈ net.peers side) number =>
          sane.alone used row mem number with ⟨-, rows, run, -, -, active | unchanged⟩ | ⟨error, run⟩
        · rw [run]
          exact Open.of_active side (by simpa using active)
        · rw [run]
          exact isOpen.mono (row_update_same unchanged) (fun _ => id) fun _ => id
        · rw [run]
          exact calm rfl rfl fun _ => id
      · exact calm rfl rfl fun _ => id
  | loseAnswer i => exact calm rfl rfl fun _ => id
  | others side rows =>
    dsimp only [HandshakeNet.step]
    split
    · rename_i apart
      exact isOpen.mono (row_update_same apart.2.1) (fun _ => id) fun _ => id
    · exact calm rfl rfl fun _ => id

/-- What `Ok` from `operator_accept_peer_request` stands for. -/
def Accepts (instances : Bool → PeeringInstance) (net : HandshakeNet) : Prop :=
  ∀ side requestId, net.accepted = some (side, requestId) →
    HasRow (net.peers side) (instances !side).instanceKey .active requestId ∧ (!side, requestId) ∈ net.activated

theorem Accepts.step (sane : net.Sane instances) (onCourse : OnCourse instances net event) :
    (net.step instances event).Accepts instances := by
  have quiet : ∀ {after : HandshakeNet}, after.accepted = none → after.Accepts instances := by
    intro after none_ side requestId some_
    rw [none_] at some_
    cases some_
  cases event with
  | initiate side targetDomain proposed requestId =>
    dsimp only [HandshakeNet.step]
    split
    · split
      · exact quiet rfl
      · exact quiet rfl
    · exact quiet rfl
  | deliverRequest i =>
    dsimp only [HandshakeNet.step]
    split
    · exact quiet rfl
    · exact quiet rfl
  | loseRequest i => exact quiet rfl
  | accept side requestId =>
    dsimp only [HandshakeNet.step]
    split
    · exact quiet rfl
    · split
      · exact quiet rfl
      · exact quiet rfl
  | deliverCallback i =>
    dsimp only [HandshakeNet.step]
    split
    · exact quiet rfl
    · exact quiet rfl
  | loseCallback i => exact quiet rfl
  | answer i =>
    dsimp only [HandshakeNet.step]
    split
    · exact quiet rfl
    · rename_i side body reply at_
      obtain ⟨used, known⟩ := sane.answers _ (mem_of_getElem? at_)
      split
      · rename_i waits
        rcases finishAccept_cases reply fun (row : PeeringRow) (mem : row ∈ net.peers side) number =>
          sane.alone used row mem number with ⟨isOk, rows, run, -, active, -⟩ | ⟨error, run⟩
        · rw [run]
          rintro _ _ ⟨⟩
          refine ⟨?_, known isOk⟩
          subst isOk
          dsimp only
          rw [update_self]
          exact active (onCourse side body at_ waits)
        · rw [run]
          exact quiet rfl
      · exact quiet rfl
  | loseAnswer i => exact quiet rfl
  | others side rows =>
    dsimp only [HandshakeNet.step]
    split
    · exact quiet rfl
    · exact quiet rfl

theorem Matched.completes (sane : net.Sane instances) (quiescent : net.Quiescent)
    (matched : net.Matched instances side) :
    ∃ requestId,
      let done := [HandshakeEvent.accept (!side) requestId, .deliverCallback 0, .answer 0].foldl
        (HandshakeNet.step instances) net;
      done.accepted = some (!side, requestId) ∧
        ∀ side, HasRow (done.peers side) (instances !side).instanceKey .active requestId := by
  obtain ⟨-, noCallbacks, noAnswers⟩ := quiescent
  obtain ⟨asked, received, isAsked, isReceived, isOut, isIn, sameNumber⟩ := matched
  have used := sane.own side asked isAsked
  rw [HandshakeNet.row, Bool.not_not] at isReceived
  have named := (peeringRow_mem isReceived).2
  have apart : side ≠ !side := by cases side <;> decide
  -- The accept finds the received row, and calls the asking side back.
  have found : (net.peers !side).find? (fun row => row.requestId = asked.requestId ∧ row.status = .pendingInbound) =
      some received := by
    rw [find?_of_alone (sane.unique !side) fun row mem test => by
      simpa using sane.alone used row mem (of_decide_eq_true test).1, isReceived]
    simp [Option.filter, sameNumber, isIn]
  obtain ⟨body, run, sent, honest, accepts⟩ : ∃ body, operatorAcceptPeerRequest (instances !side) (net.peers !side)
      asked.requestId = .ok ((instances side).instanceKey, body) ∧ body.requestId = asked.requestId ∧
        body.responderInstancePubkey = (instances !side).instanceKey ∧ body.decision = .accept := by
    refine ⟨{
      requestId := asked.requestId
      responderInstancePubkey := (instances !side).instanceKey
      decision := .accept
      agreedCapabilities := some (intersectCaps (instances !side).capabilities received.capabilities) },
      ?_, rfl, rfl, rfl⟩
    rw [operatorAcceptPeerRequest, found, ← named]
  -- The callback finds the asking row under its number.
  obtain ⟨isOk, activeAsked⟩ : (handlePeerResponse (net.peers side) (instances !side).instanceKey body).1 = .ok ∧
      HasRow (handlePeerResponse (net.peers side) (instances !side).instanceKey body).2 (instances !side).instanceKey
        .active body.requestId := by
    rcases handlePeerResponse_cases honest accepts (sane.unique side) fun row mem number =>
        sane.alone (sent ▸ used) row mem number with ⟨-, -, -, -, isOk, -, active⟩ | ⟨-, -, none_⟩
    · exact ⟨isOk, active⟩
    · exact absurd ⟨asked, isAsked, sent.symm, .inl isOut⟩ none_
  rcases finishAccept_cases .ok fun (row : PeeringRow) (mem : row ∈ net.peers !side) number =>
      sane.alone (sent ▸ used) row mem number with ⟨-, rows, finish, -, activeReceived, -⟩ | ⟨error, finish⟩
  · rw [Bool.not_not] at activeReceived
    have active := activeReceived ⟨received, isReceived, by rw [sameNumber, sent], .inl isIn⟩
    refine ⟨asked.requestId, ?_⟩
    simp only [foldl_cons, foldl_nil, HandshakeNet.step, run, Bool.not_not, if_true, noCallbacks, noAnswers,
      nil_append, getElem?_cons_zero, isOk, mem_append, mem_singleton, or_true,
      update_of_ne apart.symm, finish, sent]
    refine ⟨trivial, fun other => ?_⟩
    by_cases isSide : other = side
    · subst isSide
      rw [update_of_ne apart, update_self]
      rwa [sent] at activeAsked
    · obtain rfl : other = !side := by
        revert isSide
        cases other <;> cases side <;> simp
      rw [update_self, Bool.not_not]
      rwa [sent] at active
  · simp [finishAccept] at finish

end HandshakeNet

/--
In every run of two honest instances from settled rows whose steps keep the handshake on course: an accept that
returned `Ok` left the local row active, and the other side's row was made active under its number; and when no
message is under way and both rows are pending, one operator completes the peering by accepting.
-/
theorem handshake_completes (instances : Bool → PeeringInstance) (peers : Bool → List PeeringRow) (used : List Uuid)
    (sane : ({ peers, used } : HandshakeNet).Sane instances)
    (settled : ∃ side, ¬ ({ peers, used } : HandshakeNet).Pending instances side) (events : List HandshakeEvent)
    (onCourse : MeetAlong (HandshakeNet.step instances) (OnCourse instances) { peers, used } events) :
    let net := events.foldl (HandshakeNet.step instances) { peers, used }
    (∀ side requestId, net.accepted = some (side, requestId) →
      HasRow (net.peers side) (instances !side).instanceKey .active requestId ∧ (!side, requestId) ∈ net.activated) ∧
    (net.Quiescent → (∀ side, net.Pending instances side) → ∃ side requestId,
        let done := [HandshakeEvent.accept side requestId, .deliverCallback 0, .answer 0].foldl
          (HandshakeNet.step instances) net;
        done.accepted = some (side, requestId) ∧
          ∀ side, HasRow (done.peers side) (instances !side).instanceKey .active requestId) := by
  intro net
  have start : ({ peers, used } : HandshakeNet).Sane instances ∧ ({ peers, used } : HandshakeNet).Open instances ∧
      ({ peers, used } : HandshakeNet).Accepts instances := by
    refine ⟨sane, fun pending => ?_, nofun⟩
    obtain ⟨side, rest⟩ := settled
    exact absurd (pending side) rest
  have keeps : ∀ (before : HandshakeNet) event,
      before.Sane instances ∧ before.Open instances ∧ before.Accepts instances → OnCourse instances before event →
      (before.step instances event).Sane instances ∧ (before.step instances event).Open instances ∧
        (before.step instances event).Accepts instances :=
    fun before event inv onCourse =>
      ⟨inv.1.step event, inv.2.1.step inv.1 onCourse, HandshakeNet.Accepts.step inv.1 onCourse⟩
  obtain ⟨sane, isOpen, accepts⟩ := onCourse.invariant keeps start
  refine ⟨accepts, fun quiescent pending => ?_⟩
  obtain ⟨side, matched | ⟨asked, -, -, message⟩⟩ := isOpen pending
  · obtain ⟨requestId, completes⟩ := matched.completes sane quiescent
    exact ⟨!side, requestId, completes⟩
  · obtain ⟨noRequests, noCallbacks, -⟩ := quiescent
    rcases message with ⟨request, mem, -⟩ | ⟨callback, mem, -⟩
    · rw [noRequests] at mem
      cases mem
    · rw [noCallbacks] at mem
      cases mem

def strangers (side : Bool) : PeeringInstance where
  instanceKey := if side then 2 else 1
  instanceDomain := if side then "b.example" else "a.example"
  capabilities := []
  domainOk _ := true

def askedRun : List HandshakeEvent :=
  [.initiate false "b.example" [] 7, .deliverRequest 0, .loseRequest 0]

def peeredRun : List HandshakeEvent :=
  askedRun ++ [.accept true 7, .deliverCallback 0, .loseCallback 0, .answer 0]

theorem peered_run_completes : (∃ side requestId,
      let done := [HandshakeEvent.accept side requestId, .deliverCallback 0, .answer 0].foldl
        (HandshakeNet.step strangers) (askedRun.foldl (HandshakeNet.step strangers) { peers := fun _ => [] });
      done.accepted = some (side, requestId) ∧
        ∀ side, HasRow (done.peers side) (strangers !side).instanceKey .active requestId) ∧
    (let net := peeredRun.foldl (HandshakeNet.step strangers) { peers := fun _ => [] }
     HasRow (net.peers true) (strangers false).instanceKey .active 7 ∧ (false, 7) ∈ net.activated) := by
  have sane : ({ peers := fun _ => [] } : HandshakeNet).Sane strangers :=
    ⟨fun _ => nodup_nil, nofun, nofun, nofun, nofun, nofun⟩
  have settled : ∃ side, ¬ ({ peers := fun _ => [] } : HandshakeNet).Pending strangers side := by
    refine ⟨false, ?_⟩
    rintro ⟨row, isRow, -⟩
    cases isRow
  have asked : MeetAlong (HandshakeNet.step strangers) (OnCourse strangers) { peers := fun _ => [] } askedRun := by
    refine ⟨trivial, ?_, ?_, trivial⟩
    · intro side body at_ _ _ _
      cases at_
      exact ⟨_, rfl, rfl, .inl ⟨_, mem_singleton.mpr rfl, rfl, rfl⟩⟩
    · exact fun _ => ⟨false, .inl ⟨_, _, rfl, rfl, rfl, rfl, rfl⟩⟩
  have peered : MeetAlong (HandshakeNet.step strangers) (OnCourse strangers) { peers := fun _ => [] } peeredRun := by
    refine meetAlong_append.mpr ⟨asked, trivial, trivial, ?_, ?_, trivial⟩
    · intro pending
      obtain ⟨row, isRow, status⟩ := pending false
      cases isRow
      rcases status with impossible | impossible <;> cases impossible
    · intro side body at_ _
      cases at_
      exact ⟨_, rfl, rfl, .inl rfl⟩
  refine ⟨?_, ?_⟩
  · refine (handshake_completes strangers (fun _ => []) [] sane settled askedRun asked).2 (by decide) ?_
    intro side
    cases side
    · exact ⟨_, rfl, .inl rfl⟩
    · exact ⟨_, rfl, .inr rfl⟩
  · exact (handshake_completes strangers (fun _ => []) [] sane settled peeredRun peered).1 true 7 (by decide)

/-- Both sides ask, and both requests are received. -/
def crossedRun : List HandshakeEvent :=
  [.initiate false "b.example" [] 7, .initiate true "a.example" [] 8, .deliverRequest 0, .deliverRequest 1,
    .loseRequest 0, .loseRequest 0]

def overtakenRun : List HandshakeEvent :=
  askedRun ++ [.accept true 7, .deliverCallback 0, .loseCallback 0, .initiate true "a.example" [] 8, .answer 0]

/--
Crossed requests leave two pending rows that no accept completes: either callback is answered 404. And an accept
returns `Ok` with its row pending, when the row has another number by then.
-/
theorem handshake_stuck :
    (let net := crossedRun.foldl (HandshakeNet.step strangers) { peers := fun _ => [] }
     (net.requests = [] ∧ net.callbacks = [] ∧ net.answers = []) ∧
      (∀ side, (net.row strangers side).map (·.status) = some .pendingInbound) ∧
      ∀ side, (([HandshakeEvent.accept side (if side then 7 else 8), .deliverCallback 0].foldl
        (HandshakeNet.step strangers) net).answers.map fun answer => answer.2.2) = [.notFound "unknown_request"]) ∧
    (let net := overtakenRun.foldl (HandshakeNet.step strangers) { peers := fun _ => [] }
     net.accepted = some (true, 7) ∧ (net.row strangers true).map (·.status) = some .pendingOutbound ∧
      (net.row strangers false).map (·.status) = some .active) := by
  decide

end Prismoire
