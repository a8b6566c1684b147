import Prismoire.Signed
import Prismoire.Lib.Rows

namespace Prismoire

open Lib List Option

inductive PeerStatus where
  | pendingOutbound
  | pendingInbound
  | active
  | keyRotating
  | rejected
  | terminated
  | closed
  deriving DecidableEq

inductive PeerDirection where
  | outbound
  | inbound
  deriving DecidableEq

inductive TerminationReason where
  | operatorInitiated
  | compromiseResponse
  | policyViolation
  deriving DecidableEq

/-- A row of `peers`, less the times of its handshakes. -/
structure PeeringRow where
  instancePubkey : Key
  instanceDomain : Text
  status : PeerStatus
  direction : PeerDirection
  requestId : Uuid
  capabilities : List Text
  agreedCapabilities : Option (List Text) := none
  decisionMessage : Option Text := none
  terminationReason : Option TerminationReason := none
  deriving DecidableEq

structure PeerRequestBody where
  initiatorDomain : Text
  initiatorInstancePubkey : Key
  proposedCapabilities : List Text
  requestId : Uuid

inductive PeerDecision where
  | accept
  | reject
  deriving DecidableEq

structure PeerResponseBody where
  requestId : Uuid
  responderInstancePubkey : Key
  decision : PeerDecision
  agreedCapabilities : Option (List Text)
  decisionMessage : Option Text := none
  deriving DecidableEq

structure PeerRelationshipDeleteBody where
  terminatorDomain : Text
  reason : TerminationReason
  message : Option Text
  deriving DecidableEq

/-- What the handshake's handlers answer. -/
inductive PeerReply where
  | ok
  | accepted
  | badRequest (error : Text)
  | unauthorized
  | notFound (error : Text)
  | conflict (error : Text)
  deriving DecidableEq

inductive InitiateError where
  | unexpectedStatus (reply : PeerReply)
  | rowNotFound
  | selfPeering
  | domainConflict
  | invalidTargetDomain

/-- An instance as its handshake code sees it: `domainOk` is `parse_instance_domain(..).is_ok()`. -/
structure PeeringInstance where
  instanceKey : Key
  instanceDomain : Text
  capabilities : List Text
  domainOk : Text → Bool

section Handshake

variable (instance_ : PeeringInstance) (peers : List PeeringRow)

def upsertPeer (row : PeeringRow) (update : PeeringRow → PeeringRow) : List PeeringRow :=
  if peers.any (·.instancePubkey = row.instancePubkey) then
    updateWhere (·.instancePubkey = row.instancePubkey) update peers
  else peers ++ [row]

def domainTaken (domain : Text) (pubkey : Key) : Bool :=
  peers.any fun row => row.instanceDomain = domain ∧ row.instancePubkey ≠ pubkey

def intersectCaps (ours proposed : List Text) : List Text :=
  ours.filter (· ∈ proposed)

def operatorInitiatePeerRequest (targetPubkey : Key) (targetDomain : Text) (proposed : List Text)
    (requestId : Uuid) : Except InitiateError (PeerRequestBody × List PeeringRow) :=
  if targetPubkey = instance_.instanceKey then .error .selfPeering
  else if !instance_.domainOk targetDomain then .error .invalidTargetDomain
  else if domainTaken peers targetDomain targetPubkey then .error .domainConflict
  else
    let body : PeerRequestBody := {
      initiatorDomain := instance_.instanceDomain
      initiatorInstancePubkey := instance_.instanceKey
      proposedCapabilities := proposed
      requestId }
    let row : PeeringRow := {
      instancePubkey := targetPubkey
      instanceDomain := targetDomain
      status := .pendingOutbound
      direction := .outbound
      requestId
      capabilities := proposed }
    .ok (body, upsertPeer peers row fun old =>
      { old with status := .pendingOutbound, direction := .outbound, requestId, capabilities := proposed })

def handlePeerRequest (sender : Key) (body : PeerRequestBody) : PeerReply × List PeeringRow :=
  if body.initiatorInstancePubkey ≠ sender then (.unauthorized, peers)
  else if !instance_.domainOk body.initiatorDomain then (.badRequest "invalid_initiator_domain", peers)
  else if domainTaken peers body.initiatorDomain body.initiatorInstancePubkey then (.conflict "domain_taken", peers)
  else
    let row : PeeringRow := {
      instancePubkey := body.initiatorInstancePubkey
      instanceDomain := body.initiatorDomain
      status := .pendingInbound
      direction := .inbound
      requestId := body.requestId
      capabilities := body.proposedCapabilities }
    (.accepted, upsertPeer peers row fun old => { old with
      status := .pendingInbound
      direction := .inbound
      instanceDomain := body.initiatorDomain
      requestId := body.requestId
      capabilities := body.proposedCapabilities })

def operatorAcceptPeerRequest (requestId : Uuid) : Except InitiateError (Key × PeerResponseBody) :=
  match peers.find? fun row => row.requestId = requestId ∧ row.status = .pendingInbound with
  | none => .error .rowNotFound
  | some row => .ok (row.instancePubkey, {
      requestId
      responderInstancePubkey := instance_.instanceKey
      decision := .accept
      agreedCapabilities := some (intersectCaps instance_.capabilities row.capabilities) })

/-- The rest of `operator_accept_peer_request`, once the callback is answered. -/
def finishAccept (body : PeerResponseBody) (reply : PeerReply) : Except InitiateError (List PeeringRow) :=
  if reply ≠ .ok then .error (.unexpectedStatus reply)
  else .ok (updateWhere
    (fun row => row.requestId = body.requestId ∧ (row.status = .pendingInbound ∨ row.status = .active))
    (fun row => { row with status := .active, agreedCapabilities := body.agreedCapabilities }) peers)

def handlePeerResponse (sender : Key) (body : PeerResponseBody) : PeerReply × List PeeringRow :=
  if body.responderInstancePubkey ≠ sender then (.unauthorized, peers)
  else
    match peers.find? fun row =>
        row.requestId = body.requestId ∧ (row.status = .pendingOutbound ∨ row.status = .active) with
    | none => (.notFound "unknown_request", peers)
    | some row =>
      if row.instancePubkey ≠ body.responderInstancePubkey then (.unauthorized, peers)
      else
        match body.decision with
        | .accept => (.ok, updateWhere
            (fun row => row.requestId = body.requestId ∧ (row.status = .pendingOutbound ∨ row.status = .active))
            (fun row => { row with
              status := .active
              agreedCapabilities := some (body.agreedCapabilities.getD [])
              decisionMessage := body.decisionMessage }) peers)
        | .reject => (.ok, updateWhere (fun row => row.requestId = body.requestId ∧ row.status = .pendingOutbound)
            (fun row => { row with status := .rejected, decisionMessage := body.decisionMessage }) peers)

end Handshake

section Termination

variable (peers : List PeeringRow)

def maxDomainLen : Nat := 255

def maxMessageLen : Nat := 4096

def knownPeer (sender : Key) : Bool :=
  peers.any fun row => row.instancePubkey = sender ∧ row.status = .active

def handlePeerRelationshipDelete (sender : Key) (body : PeerRelationshipDeleteBody) : PeerReply × List PeeringRow :=
  if body.terminatorDomain.utf8ByteSize > maxDomainLen ∨
      body.message.any (fun message => decide (message.utf8ByteSize > maxMessageLen)) = true then
    (.badRequest "invalid_body", peers)
  else
    match peers.find? fun row => row.instancePubkey = sender ∧ row.status = .active with
    | none => (.unauthorized, peers)
    | some row =>
      if body.terminatorDomain ≠ row.instanceDomain then (.badRequest "invalid_body", peers)
      else (.ok, updateWhere (fun row => row.instancePubkey = sender ∧ row.status = .active) (fun row => { row with
          status := .terminated
          terminationReason := some body.reason
          decisionMessage := body.message }) peers)

def peerRelationshipRoute (sender : Key) (body : PeerRelationshipDeleteBody) : PeerReply × List PeeringRow :=
  if knownPeer peers sender then handlePeerRelationshipDelete peers sender body else (.unauthorized, peers)

/-- `operator_terminate_peer_relationship` once its request is answered. -/
def finishTerminate (peerPubkey : Key) (reason : TerminationReason) (reply : PeerReply) :
    Except InitiateError (List PeeringRow) :=
  if reply ≠ .ok then .error (.unexpectedStatus reply)
  else .ok (updateWhere (fun row => row.instancePubkey = peerPubkey ∧ row.status = .active)
    (fun row => { row with status := .terminated, terminationReason := some reason }) peers)

end Termination

variable {instance_ : PeeringInstance} {peers : List PeeringRow} {pubkey : Key}

def peeringRow (peers : List PeeringRow) (pubkey : Key) : Option PeeringRow :=
  peers.find? (·.instancePubkey = pubkey)

variable {row : PeeringRow} {keep : PeeringRow → Bool} {set : PeeringRow → PeeringRow} {body : PeerRequestBody}

theorem peeringRow_mem (found : peeringRow peers pubkey = some row) : row ∈ peers ∧ row.instancePubkey = pubkey := by
  have named : row.instancePubkey = pubkey := by simpa using find?_some found
  exact ⟨mem_of_find?_eq_some found, named⟩

theorem peeringRow_of_mem (unique : UniqueBy PeeringRow.instancePubkey peers) (mem : row ∈ peers) :
    peeringRow peers row.instancePubkey = some row := by
  cases found : peeringRow peers row.instancePubkey with
  | none => exact absurd (find?_eq_none.mp found row mem) (by simp)
  | some other =>
    obtain ⟨inPeers, same⟩ := peeringRow_mem found
    rw [unique.eq inPeers mem same]

theorem peeringRow_updateWhere (keeps : ∀ row, (set row).instancePubkey = row.instancePubkey) :
    peeringRow (updateWhere keep set peers) pubkey =
      (peeringRow peers pubkey).map fun row => if keep row = true then set row else row := by
  rw [peeringRow, find?_updateWhere (by intro row _; rw [keeps]), peeringRow]

theorem peeringRow_append (absent : peeringRow peers row.instancePubkey = none) :
    peeringRow (peers ++ [row]) row.instancePubkey = some row := by
  rw [peeringRow] at absent
  rw [peeringRow, find?_append, absent]
  simp

theorem any_pubkey : peers.any (·.instancePubkey = pubkey) = (peeringRow peers pubkey).isSome := by
  rw [peeringRow, Bool.eq_iff_iff, find?_isSome, List.any_eq_true]

structure Replaced (pubkey : Key) (peers rows : List PeeringRow) : Prop where
  unique : UniqueBy PeeringRow.instancePubkey peers → UniqueBy PeeringRow.instancePubkey rows
  others : ∀ row ∈ rows, row.instancePubkey ≠ pubkey → row ∈ peers

theorem Replaced.updateWhere (keeps : ∀ row, (set row).instancePubkey = row.instancePubkey)
    (alone : ∀ row ∈ peers, keep row = true → row.instancePubkey = pubkey) :
    Replaced pubkey peers (updateWhere keep set peers) := by
  refine ⟨fun unique => unique.update keeps, fun row mem other => ?_⟩
  obtain ⟨old, inPeers, ⟨kept, rfl⟩ | ⟨-, rfl⟩⟩ := mem_updateWhere.mp mem
  · exact absurd ((keeps old).trans (alone old inPeers kept)) other
  · exact inPeers

theorem upsertPeer_replaced (peers : List PeeringRow) (row : PeeringRow) {update : PeeringRow → PeeringRow}
    (keeps : ∀ row, (update row).instancePubkey = row.instancePubkey) :
    Replaced row.instancePubkey peers (upsertPeer peers row update) ∧
      peeringRow (upsertPeer peers row update) row.instancePubkey =
        some (((peeringRow peers row.instancePubkey).map update).getD row) := by
  unfold upsertPeer
  by_cases present : peers.any (·.instancePubkey = row.instancePubkey) = true
  · rw [if_pos present]
    refine ⟨.updateWhere keeps fun old _ named => of_decide_eq_true named, ?_⟩
    rw [any_pubkey] at present
    obtain ⟨old, found⟩ := isSome_iff_exists.mp present
    have named := (peeringRow_mem found).2
    rw [peeringRow_updateWhere keeps, found]
    simp [named]
  · rw [if_neg present]
    rw [any_pubkey, not_isSome_iff_eq_none] at present
    refine ⟨⟨fun unique => unique.insert fun old mem => ?_, fun other mem apart => ?_⟩, ?_⟩
    · intro same
      have none_ := find?_eq_none.mp present old mem
      exact none_ (decide_eq_true same)
    · rcases mem_concat.mp mem with old | isNew
      · exact old
      · exact absurd (by rw [isNew]) apart
    · rw [peeringRow_append present, present]
      rfl

theorem find?_of_alone {test : PeeringRow → Bool} (unique : UniqueBy PeeringRow.instancePubkey peers)
    (alone : ∀ row ∈ peers, test row = true → row.instancePubkey = pubkey) :
    peers.find? test = (peeringRow peers pubkey).filter test := by
  cases found : peers.find? test with
  | some row =>
    have passes := find?_some found
    have mem := mem_of_find?_eq_some found
    have named := alone row mem passes
    have isRow := peeringRow_of_mem unique mem
    rw [named] at isRow
    rw [isRow, Option.filter, if_pos passes]
  | none =>
    symm
    rw [filter_eq_none_iff]
    intro row isRow passes
    exact find?_eq_none.mp found row (peeringRow_mem isRow).1 passes

def HasRow (rows : List PeeringRow) (pubkey : Key) (status : PeerStatus) (requestId : Uuid) : Prop :=
  ∃ row, peeringRow rows pubkey = some row ∧ row.status = status ∧ row.requestId = requestId

theorem operatorInitiatePeerRequest_ok {targetDomain : Text} {proposed : List Text} {requestId : Uuid}
    {rows : List PeeringRow}
    (run : operatorInitiatePeerRequest instance_ peers pubkey targetDomain proposed requestId = .ok (body, rows)) :
    body.requestId = requestId ∧ body.initiatorInstancePubkey = instance_.instanceKey ∧
      Replaced pubkey peers rows ∧ HasRow rows pubkey .pendingOutbound requestId := by
  unfold operatorInitiatePeerRequest at run
  split at run
  · cases run
  · split at run
    · cases run
    · split at run
      · cases run
      · cases run
        obtain ⟨replaced, isRow⟩ := upsertPeer_replaced peers
          { instancePubkey := pubkey, instanceDomain := targetDomain, status := .pendingOutbound,
            direction := .outbound, requestId, capabilities := proposed }
          (show ∀ old : PeeringRow, ({ old with
            status := .pendingOutbound, direction := .outbound, requestId, capabilities := proposed } :
              PeeringRow).instancePubkey = old.instancePubkey from fun _ => rfl)
        refine ⟨rfl, rfl, replaced, _, isRow, ?_, ?_⟩
        all_goals cases peeringRow peers pubkey <;> rfl

theorem handlePeerRequest_cases (instance_ : PeeringInstance) (peers : List PeeringRow)
    (honest : body.initiatorInstancePubkey = pubkey) :
    (instance_.domainOk body.initiatorDomain = true ∧
        domainTaken peers body.initiatorDomain body.initiatorInstancePubkey = false ∧
        Replaced pubkey peers (handlePeerRequest instance_ peers pubkey body).2 ∧
        HasRow (handlePeerRequest instance_ peers pubkey body).2 pubkey .pendingInbound body.requestId) ∨
      (handlePeerRequest instance_ peers pubkey body).2 = peers := by
  subst honest
  unfold handlePeerRequest
  rw [if_neg (not_not.mpr rfl)]
  by_cases domain : instance_.domainOk body.initiatorDomain = true
  · rw [if_neg (by simp [domain])]
    by_cases taken : domainTaken peers body.initiatorDomain body.initiatorInstancePubkey = true
    · rw [if_pos taken]
      exact .inr rfl
    · rw [if_neg taken]
      obtain ⟨replaced, isRow⟩ := upsertPeer_replaced peers
        { instancePubkey := body.initiatorInstancePubkey, instanceDomain := body.initiatorDomain,
          status := .pendingInbound, direction := .inbound, requestId := body.requestId,
          capabilities := body.proposedCapabilities }
        (show ∀ old : PeeringRow, ({ old with
          status := .pendingInbound, direction := .inbound, instanceDomain := body.initiatorDomain,
          requestId := body.requestId, capabilities := body.proposedCapabilities } :
            PeeringRow).instancePubkey = old.instancePubkey from fun _ => rfl)
      refine .inl ⟨domain, by simpa using taken, replaced, _, isRow, ?_, ?_⟩
      all_goals cases peeringRow peers body.initiatorInstancePubkey <;> rfl
  · rw [if_pos (by simpa using domain)]
    exact .inr rfl

theorem handlePeerResponse_cases {body : PeerResponseBody} (honest : body.responderInstancePubkey = pubkey)
    (accepts : body.decision = .accept) (unique : UniqueBy PeeringRow.instancePubkey peers)
    (alone : ∀ row ∈ peers, row.requestId = body.requestId → row.instancePubkey = pubkey) :
    (∃ row, peeringRow peers pubkey = some row ∧ row.requestId = body.requestId ∧
        (row.status = .pendingOutbound ∨ row.status = .active) ∧
        (handlePeerResponse peers pubkey body).1 = .ok ∧
        Replaced pubkey peers (handlePeerResponse peers pubkey body).2 ∧
        HasRow (handlePeerResponse peers pubkey body).2 pubkey .active body.requestId) ∨
      (handlePeerResponse peers pubkey body).1 = .notFound "unknown_request" ∧
        (handlePeerResponse peers pubkey body).2 = peers ∧
        ¬ ∃ row, peeringRow peers pubkey = some row ∧ row.requestId = body.requestId ∧
          (row.status = .pendingOutbound ∨ row.status = .active) := by
  subst honest
  have search : peers.find? (fun row => row.requestId = body.requestId ∧
      (row.status = .pendingOutbound ∨ row.status = .active)) =
      (peeringRow peers body.responderInstancePubkey).filter fun row => row.requestId = body.requestId ∧
        (row.status = .pendingOutbound ∨ row.status = .active) :=
    find?_of_alone unique fun row mem passes => alone row mem (of_decide_eq_true passes).1
  unfold handlePeerResponse
  rw [if_neg (not_not.mpr rfl), search]
  cases isRow : peeringRow peers body.responderInstancePubkey with
  | none => exact .inr ⟨rfl, rfl, nofun⟩
  | some row =>
    have named := (peeringRow_mem isRow).2
    by_cases passes : row.requestId = body.requestId ∧ (row.status = .pendingOutbound ∨ row.status = .active)
    · simp only [Option.filter, passes, and_self, decide_true, if_true, named, ne_eq, not_true_eq_false, if_false, accepts]
      refine .inl ⟨row, rfl, passes.1, passes.2, trivial, ?_, ?_⟩
      · exact .updateWhere (fun _ => rfl) fun other mem test => alone other mem (of_decide_eq_true test).1
      · refine ⟨_, (peeringRow_updateWhere (by intro _; rfl)).trans (by rw [isRow]; rfl), ?_, ?_⟩
        all_goals simp [passes]
    · simp only [Option.filter, passes, decide_false, Bool.false_eq_true, if_false]
      refine .inr ⟨trivial, trivial, ?_⟩
      rintro ⟨other, same, passes'⟩
      cases same
      exact passes passes'

theorem finishAccept_cases {body : PeerResponseBody} (reply : PeerReply)
    (alone : ∀ row ∈ peers, row.requestId = body.requestId → row.instancePubkey = pubkey) :
    (reply = .ok ∧ ∃ rows, finishAccept peers body reply = .ok rows ∧ Replaced pubkey peers rows ∧
        ((∃ row, peeringRow peers pubkey = some row ∧ row.requestId = body.requestId ∧
            (row.status = .pendingInbound ∨ row.status = .active)) →
          HasRow rows pubkey .active body.requestId) ∧
        (HasRow rows pubkey .active body.requestId ∨ peeringRow rows pubkey = peeringRow peers pubkey)) ∨
      ∃ error, finishAccept peers body reply = .error error := by
  unfold finishAccept
  by_cases isOk : reply = .ok
  · rw [if_neg (not_not.mpr isOk)]
    have changed : ∀ {row}, peeringRow peers pubkey = some row → row.requestId = body.requestId →
        (row.status = .pendingInbound ∨ row.status = .active) →
        HasRow (updateWhere (fun row => row.requestId = body.requestId ∧
            (row.status = .pendingInbound ∨ row.status = .active))
          (fun row => { row with status := .active, agreedCapabilities := body.agreedCapabilities }) peers)
          pubkey .active body.requestId := by
      intro row isRow same status
      refine ⟨_, (peeringRow_updateWhere (by intro _; rfl)).trans (by rw [isRow]; rfl), ?_, ?_⟩
      all_goals simp [same, status]
    refine .inl ⟨isOk, _, rfl, .updateWhere (fun _ => rfl) fun other mem test =>
      alone other mem (of_decide_eq_true test).1, ?_, ?_⟩
    · rintro ⟨row, isRow, same, status⟩
      exact changed isRow same status
    · cases isRow : peeringRow peers pubkey with
      | none => exact .inr ((peeringRow_updateWhere (by intro _; rfl)).trans (by rw [isRow]; rfl))
      | some row =>
        by_cases passes : row.requestId = body.requestId ∧ (row.status = .pendingInbound ∨ row.status = .active)
        · exact .inl (changed isRow passes.1 passes.2)
        · refine .inr ((peeringRow_updateWhere (by intro _; rfl)).trans ?_)
          rw [isRow, map_some, if_neg (by simpa using passes)]
  · rw [if_pos isOk]
    exact .inr ⟨_, rfl⟩

end Prismoire
