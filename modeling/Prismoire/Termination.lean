import Prismoire.Lib.Run
import Prismoire.Peering

namespace Prismoire

open Lib List Function

/-- A call of `operator_terminate_peer_relationship` on one side, with its number. -/
structure TerminateCall where
  ticket : Nat
  side : Bool
  body : PeerRelationshipDeleteBody
  deriving DecidableEq

/-- Two peered instances, the requests and responses between them, and which calls have returned `Ok`. -/
structure TerminationNet where
  peers : Bool → List PeeringRow
  requests : List TerminateCall := []
  replies : List (TerminateCall × PeerReply) := []
  returned : List (Nat × Bool) := []
  nextTicket : Nat := 0

inductive TerminationEvent where
  | terminate (side : Bool) (reason : TerminationReason) (message : Option Text)
  | deliverRequest (i : Nat)
  | loseRequest (i : Nat)
  | deliverReply (i : Nat)
  | loseReply (i : Nat)

section Runs

variable (instances : Bool → PeeringInstance)

namespace TerminationNet

def row (net : TerminationNet) (side : Bool) : Option PeeringRow :=
  peeringRow (net.peers side) (instances !side).instanceKey

def status (net : TerminationNet) (side : Bool) : Option PeerStatus :=
  (net.row instances side).map (·.status)

def step (net : TerminationNet) : TerminationEvent → TerminationNet
  | .terminate side reason message =>
    let body := { terminatorDomain := (instances side).instanceDomain, reason, message }
    { net with
      requests := net.requests ++ [{ ticket := net.nextTicket, side, body }]
      nextTicket := net.nextTicket + 1 }
  | .deliverRequest i =>
    match net.requests[i]? with
    | none => net
    | some call =>
      let (reply, rows) := peerRelationshipRoute (net.peers !call.side) (instances call.side).instanceKey call.body
      { net with
        peers := update net.peers (!call.side) rows
        requests := net.requests.eraseIdx i
        replies := net.replies ++ [(call, reply)] }
  | .loseRequest i => { net with requests := net.requests.eraseIdx i }
  | .deliverReply i =>
    match net.replies[i]? with
    | none => net
    | some (call, reply) =>
      match finishTerminate (net.peers call.side) (instances !call.side).instanceKey call.body.reason reply with
      | .ok rows =>
        { net with
          peers := update net.peers call.side rows
          replies := net.replies.eraseIdx i
          returned := net.returned ++ [(call.ticket, true)] }
      | .error _ =>
        { net with replies := net.replies.eraseIdx i, returned := net.returned ++ [(call.ticket, false)] }
  | .loseReply i => { net with replies := net.replies.eraseIdx i }

end TerminationNet

end Runs

section Rows

variable {peers : List PeeringRow} {sender : Key}

theorem knownPeer_iff (unique : UniqueBy PeeringRow.instancePubkey peers) :
    knownPeer peers sender = true ↔ ∃ row, peeringRow peers sender = some row ∧ row.status = .active := by
  simp only [knownPeer, any_eq_true, decide_eq_true_eq]
  constructor
  · rintro ⟨row, mem, rfl, active⟩
    exact ⟨row, peeringRow_of_mem unique mem, active⟩
  · rintro ⟨row, found, active⟩
    obtain ⟨mem, named⟩ := peeringRow_mem found
    exact ⟨row, mem, named, active⟩

/-- The body is short enough for the handler to persist. -/
def fitsAuditRow (body : PeerRelationshipDeleteBody) : Prop :=
  body.terminatorDomain.utf8ByteSize ≤ maxDomainLen ∧
    ∀ message, body.message = some message → message.utf8ByteSize ≤ maxMessageLen

theorem fitsAuditRow_iff {body : PeerRelationshipDeleteBody} :
    fitsAuditRow body ↔ ¬ (body.terminatorDomain.utf8ByteSize > maxDomainLen ∨
      body.message.any (fun message => decide (message.utf8ByteSize > maxMessageLen)) = true) := by
  rw [not_or, Nat.not_lt, fitsAuditRow]
  refine and_congr_right fun _ => ?_
  cases body.message <;> simp

theorem peerRelationshipRoute_cases (unique : UniqueBy PeeringRow.instancePubkey peers) (sender : Key)
    (body : PeerRelationshipDeleteBody) :
    ((∃ row, peeringRow peers sender = some row ∧ row.status = .active ∧
          row.instanceDomain = body.terminatorDomain ∧ fitsAuditRow body) ∧
        peerRelationshipRoute peers sender body = (.ok, updateWhere
          (fun row => row.instancePubkey = sender ∧ row.status = .active)
          (fun row => { row with
            status := .terminated
            terminationReason := some body.reason
            decisionMessage := body.message }) peers)) ∨
      (¬ ∃ row, peeringRow peers sender = some row ∧ row.status = .active ∧
          row.instanceDomain = body.terminatorDomain ∧ fitsAuditRow body) ∧
        ∃ refusal, refusal ≠ .ok ∧ peerRelationshipRoute peers sender body = (refusal, peers) := by
  unfold peerRelationshipRoute
  by_cases known : knownPeer peers sender = true
  · obtain ⟨row, found, active⟩ := (knownPeer_iff unique).mp known
    obtain ⟨mem, named⟩ := peeringRow_mem found
    have located : peers.find? (fun row => row.instancePubkey = sender ∧ row.status = .active) = some row := by
      cases search : peers.find? (fun row => row.instancePubkey = sender ∧ row.status = .active) with
      | none => exact absurd (find?_eq_none.mp search row mem) (by simp [named, active])
      | some other =>
        have isOther : other.instancePubkey = sender ∧ other.status = .active := by
          simpa using find?_some search
        rw [unique.eq (mem_of_find?_eq_some search) mem (isOther.1.trans named.symm)]
    rw [if_pos known, handlePeerRelationshipDelete, located]
    by_cases fits : fitsAuditRow body
    · rw [if_neg (fitsAuditRow_iff.mp fits)]
      dsimp only
      by_cases domain : body.terminatorDomain = row.instanceDomain
      · rw [if_neg (not_not.mpr domain)]
        exact .inl ⟨⟨row, found, active, domain.symm, fits⟩, rfl⟩
      · rw [if_pos domain]
        refine .inr ⟨?_, .badRequest "invalid_body", nofun, rfl⟩
        rintro ⟨other, isOther, -, same, -⟩
        rw [found] at isOther
        cases isOther
        exact domain same.symm
    · rw [if_pos (not_not.mp (mt fitsAuditRow_iff.mpr fits))]
      refine .inr ⟨?_, .badRequest "invalid_body", nofun, rfl⟩
      rintro ⟨-, -, -, -, short⟩
      exact fits short
  · rw [if_neg known]
    refine .inr ⟨?_, .unauthorized, nofun, rfl⟩
    rintro ⟨row, found, active, -⟩
    exact known ((knownPeer_iff unique).mpr ⟨row, found, active⟩)

end Rows

namespace TerminationNet

variable {instances : Bool → PeeringInstance} {net : TerminationNet}

def tickets (net : TerminationNet) : List Nat :=
  net.requests.map (·.ticket) ++ net.replies.map (·.1.ticket) ++ net.returned.map (·.1)

/-- The calls in flight and those returned have distinct numbers. -/
def Ticketed (net : TerminationNet) : Prop :=
  net.tickets.Nodup ∧ ∀ ticket ∈ net.tickets, ticket < net.nextTicket

/-- In every state of a run: each side's row of the other is active or terminated. -/
structure Winding (instances : Bool → PeeringInstance) (net : TerminationNet) : Prop where
  unique : ∀ side, UniqueBy PeeringRow.instancePubkey (net.peers side)
  status : ∀ side, net.status instances side = some .active ∨ net.status instances side = some .terminated
  tickets : net.Ticketed

/-- What one event does to the rows: it may terminate one active row, and touches nothing else. -/
inductive Change (instances : Bool → PeeringInstance) (net after : TerminationNet) : Prop where
  | none (same : after.peers = net.peers)
  | terminate (side : Bool) (set : PeeringRow → PeeringRow)
      (sets : ∀ row, (set row).instancePubkey = row.instancePubkey ∧ (set row).status = .terminated)
      (change : after.peers = update net.peers side (updateWhere
        (fun row => row.instancePubkey = (instances !side).instanceKey ∧ row.status = .active) set (net.peers side)))

variable {reply : PeerReply} {after : TerminationNet} {call : TerminateCall}

theorem finishTerminate_ok {peers : List PeeringRow} {pubkey : Key} {reason : TerminationReason} :
    finishTerminate peers pubkey reason reply =
      if reply = .ok then .ok (updateWhere (fun row => row.instancePubkey = pubkey ∧ row.status = .active)
        (fun row => { row with status := .terminated, terminationReason := some reason }) peers)
      else .error (.unexpectedStatus reply) := by
  unfold finishTerminate
  by_cases same : reply = .ok <;> simp [same]

theorem step_change (winding : net.Winding instances) (event : TerminationEvent) :
    Change instances net (net.step instances event) := by
  cases event with
  | terminate side reason message => exact .none rfl
  | deliverRequest i =>
    dsimp only [step]
    split
    · exact .none rfl
    · rename_i call at_
      rcases peerRelationshipRoute_cases (winding.unique !call.side) (instances call.side).instanceKey call.body
        with ⟨-, route⟩ | ⟨-, refusal, -, route⟩
      · refine .terminate (!call.side) _ (fun row => ⟨?_, ?_⟩) (by rw [route, Bool.not_not])
        all_goals rfl
      · refine .none ?_
        rw [route]
        exact update_eq_self _ _
  | loseRequest i => exact .none rfl
  | deliverReply i =>
    dsimp only [step]
    split
    · exact .none rfl
    · rename_i call reply at_
      rw [finishTerminate_ok]
      by_cases same : reply = .ok
      · rw [if_pos same]
        exact .terminate call.side
          (fun row => { row with status := .terminated, terminationReason := some call.body.reason })
          (fun row => ⟨rfl, rfl⟩) rfl
      · rw [if_neg same]
        exact .none rfl
  | loseReply i => exact .none rfl

theorem Change.status (change : Change instances net after) (side : Bool) :
    after.status instances side = net.status instances side ∨
      net.status instances side = some .active ∧ after.status instances side = some .terminated := by
  cases change with
  | none same => exact .inl (by rw [TerminationNet.status, row, same, TerminationNet.status, row])
  | terminate changed set sets change =>
    by_cases isChanged : side = changed
    · subst isChanged
      simp only [TerminationNet.status, row, change, update_self, peeringRow_updateWhere fun row => (sets row).1]
      cases found : peeringRow (net.peers side) (instances !side).instanceKey with
      | none => exact .inl rfl
      | some row =>
        simp only [Option.map_some, Option.some.injEq]
        have named := (peeringRow_mem found).2
        by_cases active : row.status = .active
        · exact .inr ⟨active, by simp [named, active, sets]⟩
        · exact .inl (by simp [active])
    · refine .inl ?_
      rw [TerminationNet.status, row, change, update_of_ne isChanged, TerminationNet.status, row]

theorem Change.unique (change : Change instances net after)
    (unique : ∀ side, UniqueBy PeeringRow.instancePubkey (net.peers side)) (side : Bool) :
    UniqueBy PeeringRow.instancePubkey (after.peers side) := by
  cases change with
  | none same =>
    rw [same]
    exact unique side
  | terminate changed set sets change =>
    rw [change]
    by_cases isChanged : side = changed
    · subst isChanged
      rw [update_self]
      exact (unique side).update fun row => (sets row).1
    · rw [update_of_ne isChanged]
      exact unique side

theorem Ticketed.fewer (ticketed : net.Ticketed) (fewer : after.tickets.Subperm net.tickets)
    (next : after.nextTicket = net.nextTicket) : after.Ticketed := by
  obtain ⟨middle, perm, sublist⟩ := fewer
  refine ⟨perm.nodup_iff.mp (ticketed.1.sublist sublist), fun ticket mem => ?_⟩
  rw [next]
  exact ticketed.2 ticket (sublist.subset (perm.mem_iff.mpr mem))

theorem Ticketed.step (ticketed : net.Ticketed) (event : TerminationEvent) : (net.step instances event).Ticketed := by
  cases event with
  | terminate side reason message =>
    have perm : (net.step instances (.terminate side reason message)).tickets.Perm (net.nextTicket :: net.tickets) := by
      rw [perm_iff_count]
      intro ticket
      simp only [TerminationNet.step, tickets, map_append, map_cons, map_nil, count_append, count_cons,
        count_nil]
      omega
    refine ⟨perm.nodup_iff.mpr (nodup_cons.mpr ⟨?_, ticketed.1⟩), fun ticket mem => ?_⟩
    · intro mem
      exact (ticketed.2 _ mem).ne rfl
    · rcases mem_cons.mp (perm.mem_iff.mp mem) with rfl | old
      · exact Nat.lt_succ_self _
      · exact Nat.lt_succ_of_lt (ticketed.2 ticket old)
  | deliverRequest i =>
    dsimp only [TerminationNet.step]
    split
    · exact ticketed
    · rename_i call at_
      refine ticketed.fewer (List.Perm.subperm ?_) rfl
      have moved := (perm_cons_eraseIdx at_).map (·.ticket)
      rw [perm_iff_count] at moved ⊢
      intro ticket
      have count := moved ticket
      simp only [tickets, map_append, map_cons, map_nil, count_append, count_cons,
        count_nil] at count ⊢
      omega
  | loseRequest i =>
    refine ticketed.fewer (List.Sublist.subperm ?_) rfl
    exact (((eraseIdx_sublist _ _).map _).append_right _).append_right _
  | deliverReply i =>
    have moved : ∀ {entry : TerminateCall × PeerReply} {result : Bool}, net.replies[i]? = some entry →
        (net.requests.map (·.ticket) ++ (net.replies.eraseIdx i).map (·.1.ticket) ++
          (net.returned ++ [(entry.1.ticket, result)]).map (·.1)).Perm net.tickets := by
      intro entry result at_
      have moved := (perm_cons_eraseIdx at_).map (·.1.ticket)
      rw [perm_iff_count] at moved ⊢
      intro ticket
      have count := moved ticket
      simp only [tickets, map_append, map_cons, map_nil, count_append, count_cons,
        count_nil] at count ⊢
      omega
    dsimp only [TerminationNet.step]
    split
    · exact ticketed
    · rename_i call reply at_
      split
      · exact ticketed.fewer (moved at_).subperm rfl
      · exact ticketed.fewer (moved at_).subperm rfl
  | loseReply i =>
    refine ticketed.fewer (List.Sublist.subperm ?_) rfl
    exact (((eraseIdx_sublist _ _).map _).append_left _).append_right _

theorem Winding.step (winding : net.Winding instances) (event : TerminationEvent) :
    (net.step instances event).Winding instances := by
  have change := step_change winding event
  refine ⟨change.unique winding.unique, fun side => ?_, winding.tickets.step event⟩
  rcases change.status side with same | ⟨-, terminated⟩
  · rw [same]
    exact winding.status side
  · exact .inr terminated

theorem Winding.run (winding : net.Winding instances) (events : List TerminationEvent) :
    (events.foldl (TerminationNet.step instances) net).Winding instances := by
  induction events generalizing net with
  | nil => exact winding
  | cons event events ih => exact ih (winding.step event)

theorem Winding.run_terminated (winding : net.Winding instances) {side : Bool}
    (terminated : net.status instances side = some .terminated) (events : List TerminationEvent) :
    (events.foldl (TerminationNet.step instances) net).status instances side = some .terminated := by
  induction events generalizing net with
  | nil => exact terminated
  | cons event events ih =>
    refine ih (winding.step event) ?_
    rcases (step_change winding event).status side with same | ⟨-, terminated'⟩
    · rw [same, terminated]
    · exact terminated'

structure Answered (call : TerminateCall) (reply : PeerReply) (net : TerminationNet) : Prop where
  requests : ∀ other ∈ net.requests, other.ticket ≠ call.ticket
  replies : ∀ entry ∈ net.replies, entry.1.ticket = call.ticket → entry = (call, reply)
  old : call.ticket < net.nextTicket

theorem Answered.step (answered : Answered call reply net)
    (event : TerminationEvent) : Answered call reply (net.step instances event) := by
  cases event with
  | terminate side reason message =>
    refine ⟨fun other mem => ?_, answered.replies, Nat.lt_succ_of_lt answered.old⟩
    rcases mem_concat.mp mem with old | isNew
    · exact answered.requests other old
    · rw [isNew]
      exact answered.old.ne'
  | deliverRequest i =>
    dsimp only [TerminationNet.step]
    split
    · exact answered
    · rename_i other at_
      refine ⟨fun request mem => ?_, fun entry mem same => ?_, answered.old⟩
      · exact answered.requests request (mem_of_mem_eraseIdx mem)
      · rcases mem_concat.mp mem with old | isNew
        · exact answered.replies entry old same
        · rw [isNew] at same
          exact absurd same (answered.requests other (mem_of_getElem? at_))
  | loseRequest i =>
    exact ⟨fun other mem => answered.requests other (mem_of_mem_eraseIdx mem), answered.replies, answered.old⟩
  | deliverReply i =>
    have kept : ∀ entry ∈ net.replies.eraseIdx i, entry.1.ticket = call.ticket → entry = (call, reply) :=
      fun entry mem => answered.replies entry (mem_of_mem_eraseIdx mem)
    dsimp only [TerminationNet.step]
    split
    · exact answered
    · split
      · exact ⟨answered.requests, kept, answered.old⟩
      · exact ⟨answered.requests, kept, answered.old⟩
  | loseReply i =>
    exact ⟨answered.requests, fun entry mem => answered.replies entry (mem_of_mem_eraseIdx mem), answered.old⟩

theorem Answered.run (answered : Answered call reply net)
    (events : List TerminationEvent) : Answered call reply (events.foldl (TerminationNet.step instances) net) := by
  induction events generalizing net with
  | nil => exact answered
  | cons event events ih => exact ih (answered.step event)

theorem status_deliverRequest (winding : net.Winding instances) {i : Nat} (at_ : net.requests[i]? = some call) :
    ∃ reply, Answered call reply (net.step instances (.deliverRequest i)) ∧
      (reply = .ok ↔ ∃ row, net.row instances (!call.side) = some row ∧ row.status = .active ∧
        row.instanceDomain = call.body.terminatorDomain ∧ fitsAuditRow call.body) ∧
      (reply = .ok → (net.step instances (.deliverRequest i)).status instances (!call.side) = some .terminated) := by
  have mem := mem_of_getElem? at_
  have tickets := winding.tickets
  have inTickets : call.ticket ∈ net.tickets :=
    mem_append_left _ (mem_append_left _ (mem_map.mpr ⟨call, mem, rfl⟩))
  have alone : ∀ reply, Answered call reply { net with
      requests := net.requests.eraseIdx i
      replies := net.replies ++ [(call, reply)] } := by
    intro reply
    have split := nodup_append.mp (nodup_append.mp tickets.1).1
    have perm := (perm_cons_eraseIdx at_).map (·.ticket)
    refine ⟨fun other inRest => ?_, fun entry inReplies same => ?_, tickets.2 _ inTickets⟩
    · have nodup := perm.nodup_iff.mp split.1
      exact fun same => (nodup_cons.mp nodup).1 (mem_map.mpr ⟨other, inRest, same⟩)
    · rcases mem_concat.mp inReplies with old | isNew
      · exact absurd same.symm (split.2.2 _ (mem_map.mpr ⟨call, mem, rfl⟩) _ (mem_map.mpr ⟨entry, old, rfl⟩))
      · exact isNew
  have stepped : net.step instances (.deliverRequest i) = { net with
        peers := update net.peers (!call.side)
          (peerRelationshipRoute (net.peers !call.side) (instances call.side).instanceKey call.body).2
        requests := net.requests.eraseIdx i
        replies := net.replies ++
          [(call, (peerRelationshipRoute (net.peers !call.side) (instances call.side).instanceKey call.body).1)] } := by
    simp only [TerminationNet.step, at_]
  rw [stepped]
  have ofSide : net.row instances (!call.side) =
      peeringRow (net.peers !call.side) (instances call.side).instanceKey := by
    rw [row, Bool.not_not]
  rcases peerRelationshipRoute_cases (winding.unique !call.side) (instances call.side).instanceKey call.body
    with ⟨accepts, route⟩ | ⟨refuses, refusal, notOk, route⟩
  · rw [route]
    refine ⟨.ok, { alone .ok with }, by rw [ofSide]; exact iff_of_true rfl accepts, fun _ => ?_⟩
    obtain ⟨row, found, active, -⟩ := accepts
    simp only [status, TerminationNet.row, update_self, Bool.not_not]
    rw [peeringRow_updateWhere (by intro _; rfl), found]
    simp [(peeringRow_mem found).2, active]
  · rw [route]
    refine ⟨refusal, { alone refusal with }, by rw [ofSide]; exact iff_of_false notOk refuses, fun isOk => ?_⟩
    exact absurd isOk notOk

theorem Winding.start {peers : Bool → List PeeringRow} (unique : ∀ side, UniqueBy PeeringRow.instancePubkey (peers side))
    (active : ∀ side, ({ peers } : TerminationNet).status instances side = some .active) :
    ({ peers } : TerminationNet).Winding instances :=
  ⟨unique, fun side => .inl (active side), nodup_nil, nofun⟩

end TerminationNet

/--
In any run on an active peering, with calls of both sides and losses on either leg: a call whose request and
response are both delivered returns `Ok` with both rows terminated if and only if its request found the
receiver's row of the sender active, under the domain that the sender gave, and fits the audit row.
-/
theorem termination_settles_iff (instances : Bool → PeeringInstance) (peers : Bool → List PeeringRow)
    (unique : ∀ side, UniqueBy PeeringRow.instancePubkey (peers side))
    (active : ∀ side, ({ peers } : TerminationNet).status instances side = some .active)
    (before more : List TerminationEvent) (i j : Nat) (call : TerminateCall) (reply : PeerReply) :
    let found := before.foldl (TerminationNet.step instances) { peers }
    let answered := more.foldl (TerminationNet.step instances) (found.step instances (.deliverRequest i))
    let done := answered.step instances (.deliverReply j)
    found.requests[i]? = some call → answered.replies[j]? = some (call, reply) →
      (((call.ticket, true) ∈ done.returned ∧ ∀ side, done.status instances side = some .terminated) ↔
        ∃ row, found.row instances (!call.side) = some row ∧ row.status = .active ∧
          row.instanceDomain = call.body.terminatorDomain ∧ fitsAuditRow call.body) := by
  intro found answered done atRequest atReply
  have windingFound : found.Winding instances := (TerminationNet.Winding.start unique active).run before
  obtain ⟨sent, isAnswered, sentOk, sentTerminates⟩ := TerminationNet.status_deliverRequest windingFound atRequest
  have windingHandled := windingFound.step (.deliverRequest i)
  have windingAnswered : answered.Winding instances := windingHandled.run more
  have same : reply = sent :=
    congrArg Prod.snd ((isAnswered.run more).replies _ (mem_of_getElem? atReply) rfl)
  subst same
  have returned : (call.ticket, true) ∈ done.returned ↔ reply = .ok := by
    have fresh : (call.ticket, true) ∉ answered.returned := by
      intro already
      have apart := (nodup_append.mp windingAnswered.tickets.1).2.2
      exact apart call.ticket
        (mem_append_right _ (mem_map.mpr ⟨_, mem_of_getElem? atReply, rfl⟩)) call.ticket
        (mem_map.mpr ⟨_, already, rfl⟩) rfl
    show (call.ticket, true) ∈ (answered.step instances (.deliverReply j)).returned ↔ _
    simp only [TerminationNet.step, atReply, TerminationNet.finishTerminate_ok]
    by_cases isOk : reply = .ok
    · simp [isOk]
    · simp [isOk, fresh]
  rw [returned, ← sentOk]
  refine ⟨fun both => both.1, fun isOk => ⟨isOk, fun side => ?_⟩⟩
  by_cases own : side = call.side
  · -- The local row is flipped by the reply, unless a request of the other side did so before.
    subst own
    have settled : ∃ row, peeringRow (answered.peers call.side) (instances !call.side).instanceKey = some row ∧
        (row.status = .active ∨ row.status = .terminated) := by
      rcases windingAnswered.status call.side with active' | terminated
      · obtain ⟨row, isRow, isActive⟩ := Option.map_eq_some_iff.mp active'
        exact ⟨row, isRow, .inl isActive⟩
      · obtain ⟨row, isRow, isTerminated⟩ := Option.map_eq_some_iff.mp terminated
        exact ⟨row, isRow, .inr isTerminated⟩
    obtain ⟨row, isRow, either⟩ := settled
    show TerminationNet.status instances (answered.step instances (.deliverReply j)) call.side = _
    simp only [TerminationNet.step, atReply, TerminationNet.finishTerminate_ok, isOk, if_true, TerminationNet.status,
      TerminationNet.row, update_self]
    rw [peeringRow_updateWhere (by intro _; rfl), isRow]
    have named := (peeringRow_mem isRow).2
    rcases either with isActive | isTerminated
    · simp [named, isActive]
    · simp [isTerminated]
  · obtain rfl : side = !call.side := by
      revert own
      cases side <;> cases call.side <;> simp
    have handled := windingHandled.run_terminated (sentTerminates isOk) (more ++ [.deliverReply j])
    rwa [foldl_append] at handled

def peerPair (side : Bool) : PeeringInstance where
  instanceKey := if side then 2 else 1
  instanceDomain := if side then "b.example" else "a.example"
  capabilities := []
  domainOk _ := true

/-- Each side's row of the other, as an accepted handshake leaves it. -/
def peeredRows (side : Bool) : List PeeringRow :=
  [{ instancePubkey := (peerPair !side).instanceKey, instanceDomain := (peerPair !side).instanceDomain,
     status := .active, direction := if side then .inbound else .outbound, requestId := 7, capabilities := [] }]

theorem termination_delivered :
    let done := [TerminationEvent.terminate false .operatorInitiated none, .deliverRequest 0, .deliverReply 0].foldl
      (TerminationNet.step peerPair) { peers := peeredRows }
    (0, true) ∈ done.returned ∧ ∀ side, done.status peerPair side = some .terminated := by
  refine (termination_settles_iff peerPair peeredRows (fun side => nodup_singleton _)
    (fun side => by cases side <;> decide) [.terminate false .operatorInitiated none] [] 0 0
    ⟨0, false, ⟨"a.example", .operatorInitiated, none⟩⟩ .ok (by decide) (by decide)).mpr ?_
  exact ⟨_, rfl, rfl, rfl, by decide, nofun⟩

/-- The first response is lost: the retry is refused, and the side that ends the peering stays active. -/
theorem retry_refused :
    let done := [TerminationEvent.terminate false .operatorInitiated none, .deliverRequest 0, .loseReply 0,
      .terminate false .operatorInitiated none, .deliverRequest 0, .deliverReply 0].foldl
        (TerminationNet.step peerPair) { peers := peeredRows }
    done.returned = [(1, false)] ∧ done.status peerPair false = some .active ∧
      done.status peerPair true = some .terminated := by
  decide

end Prismoire
