import Prismoire.ActiveStance
import Prismoire.EdgeDelivery
import Prismoire.Lib.Run

namespace Prismoire

open Lib List Db

/-- A call of `forward_trust_edge`. -/
structure TrustEdgeForward where
  canonicalHash : Hash
  fromKey : Key
  toKey : Key
  wireBytes : Bytes
  arrivedFrom : Option Key

/-- The call that a delivery makes after its commit. -/
def forwardOf (state : AppState) (db : Db) (wireBytes : Bytes) (arrivedFrom : Key) : List TrustEdgeForward :=
  match state.platform.decodeSignedObject wireBytes with
  | none => []
  | some (payloadBytes, _) =>
    match state.platform.parse payloadBytes, applyOneEdgeInner state db wireBytes arrivedFrom with
    | some (.trustEdge edge), .ok ((result, _), _) =>
      if result.status = .applied then
        [⟨result.canonicalHash, edge.fromKey, edge.toKey, wireBytes, some arrivedFrom⟩]
      else
        []
    | _, _ => []

/-- A relay takes one delivery: its tables, and the calls it made so far. -/
def relayEdge (state : AppState) (relay : Db × List TrustEdgeForward) (delivery : SignedEdge state.platform × Key) :
    Db × List TrustEdgeForward :=
  (deliverEdge state relay.1 delivery.1.wire delivery.2,
    relay.2 ++ forwardOf state relay.1 delivery.1.wire delivery.2)

def Unawaited (state : AppState) (relay : Db × List TrustEdgeForward) (delivery : SignedEdge state.platform × Key) :
    Prop :=
  relay.1.hasEdge delivery.1.hash = true ∨ ∀ row ∈ relay.1.pendingTrustEdges, row.priorEdgeHash ≠ delivery.1.hash

/-- The relay knows both users, and has in force of the chain what it stores of it. -/
structure Relaying {platform : Platform} (source target : Key) (edges : List (SignedEdge platform)) (db : Db) :
    Prop where
  sourceKnown : db.hasUser source = true
  targetKnown : db.hasUser target = true
  onPair : ∀ row ∈ db.pairEdges source target, ∃ e ∈ edges, row.canonicalHash = e.hash ∧ row.priorEdgeHash = e.prior
  stored : ∀ e ∈ edges, db.hasObject e.hash = db.hasEdge e.hash

section Step

variable {state : AppState} {source target : Key} {edges : List (SignedEdge state.platform)} {db : Db}
  {e : SignedEdge state.platform}

theorem Db.hasEdge_of_grown {after : Db} {row : TrustEdgeRow} {hash : Hash}
    (rows : after.trustEdges = db.trustEdges ++ [row]) :
    after.hasEdge hash = true ↔ db.hasEdge hash = true ∨ row.canonicalHash = hash := by
  simp only [hasEdge, rows, any_append, any_cons, any_nil, Bool.or_false, Bool.or_eq_true,
    decide_eq_true_eq]

variable (relaying : Relaying source target edges db)
include relaying

theorem Relaying.unforked (free : ForkFree source target edges)
    (mem : e ∈ edges) : db.edgeForked e.edge e.hash = false := by
  rw [edgeForked, any_eq_false]
  intro row inRows forked
  obtain ⟨fromSource, toTarget⟩ := free.pair e mem
  simp only [fromSource, toTarget, decide_eq_true_eq] at forked
  obtain ⟨ofSource, ofTarget, samePrior, other⟩ := forked
  obtain ⟨f, inChain, isHash, isPrior⟩ := relaying.onPair row (by simp [pairEdges, inRows, ofSource, ofTarget])
  have same : f = e := free.linear f inChain e mem (isPrior.symm.trans samePrior)
  exact other (isHash.trans (congrArg _ same))

theorem Relaying.congr {after : Db} (users : after.users = db.users)
    (rows : after.trustEdges = db.trustEdges) (objects : after.signedObjects = db.signedObjects) :
    Relaying source target edges after := by
  obtain ⟨sourceKnown, targetKnown, onPair, stored⟩ := relaying
  constructor
  · simpa only [hasUser, users] using sourceKnown
  · simpa only [hasUser, users] using targetKnown
  · simpa only [pairEdges, rows] using onPair
  · simpa only [hasObject, hasEdge, rows, objects] using stored

theorem Relaying.insert (mem : e ∈ edges) {mid : Db}
    (inserted : insertTrustEdge state db e.edge e.hash e.signature e.payload = .ok mid) :
    Relaying source target edges (mid.storeSignedObject .trustEdge e.payload e.signature e.hash) := by
  have frame := insertTrustEdge_frame inserted
  have objects : ∀ hash, mid.hasObject hash = db.hasObject hash := by
    intro hash
    rw [insertTrustEdge] at inserted
    split at inserted
    · exact hasObject_erasePayloads inserted hash
    · cases inserted
      rfl
  have rows : mid.trustEdges = db.trustEdges ++ [edgeRow state e.edge e.hash e.signature] := by
    rw [frame]
    rfl
  have users : mid.users = db.users := by
    rw [frame]
    rfl
  refine ⟨?_, ?_, ?_, ?_⟩
  · simpa only [hasUser, storeSignedObject, users] using relaying.sourceKnown
  · simpa only [hasUser, storeSignedObject, users] using relaying.targetKnown
  · intro row inRows
    simp only [pairEdges, storeSignedObject, rows, filter_append, mem_append] at inRows
    rcases inRows with old | new
    · exact relaying.onPair row old
    · obtain rfl := mem_singleton.mp (mem_of_mem_filter new)
      exact ⟨e, mem, rfl, rfl⟩
  · intro f inChain
    have inForce : (mid.storeSignedObject .trustEdge e.payload e.signature e.hash).hasEdge f.hash = true ↔
        db.hasEdge f.hash = true ∨ e.hash = f.hash := hasEdge_of_grown rows
    rw [Bool.eq_iff_iff, hasObject_storeSignedObject, inForce, objects, relaying.stored f inChain, or_comm,
      eq_comm (a := f.hash)]

theorem Relaying.deliver (free : ForkFree source target edges)
    (mem : e ∈ edges) {peer : Key} {calls : List TrustEdgeForward}
    (unawaited : Unawaited state (db, calls) (e, peer)) :
    Relaying source target edges (deliverEdge state db e.wire peer) ∧
    ((deliverEdge state db e.wire peer).trustEdges = db.trustEdges ∧ forwardOf state db e.wire peer = [] ∨
      (deliverEdge state db e.wire peer).trustEdges = db.trustEdges ++ [edgeRow state e.edge e.hash e.signature] ∧
        forwardOf state db e.wire peer = [⟨e.hash, source, target, e.wire, some peer⟩]) := by
  have stored := relaying.stored e mem
  obtain ⟨fromSource, toTarget⟩ := free.pair e mem
  cases found : db.signedObjects.find? (·.canonicalHash = e.hash) with
  | some row =>
    have present : db.hasObject e.hash = true :=
      any_eq_true.mpr ⟨row, mem_of_find?_eq_some found, by simpa using find?_some found⟩
    have inForce : db.hasEdge e.hash = true := stored.symm.trans present
    have idle : ∃ status, status ≠ .applied ∧
        applyOneEdgeInner state db e.wire peer = .ok ((⟨e.hash, status⟩, none), db) := by
      have known : db.signedObjects.find? (·.canonicalHash = state.platform.sha256 e.payload) = some row := found
      have projected : db.hasEdge (state.platform.sha256 e.payload) = true := inForce
      simp only [applyOneEdgeInner, e.decodes, known, projected, if_true, SignedEdge.hash]
      split
      · exact ⟨_, by simp, rfl⟩
      · exact ⟨_, by simp, rfl⟩
    obtain ⟨status, notApplied, ran⟩ := idle
    simp only [deliverEdge, forwardOf, ran, e.decodes, e.parses, notApplied, if_false]
    exact ⟨relaying, .inl ⟨trivial, trivial⟩⟩
  | none =>
    have absent : db.hasObject e.hash = false := Db.hasObject_of_find?_none found
    have notInForce : db.hasEdge e.hash = false := stored.symm.trans absent
    have waited : ∀ row ∈ db.pendingTrustEdges, row.priorEdgeHash ≠ e.hash := by
      rcases unawaited with inForce | waited
      · exact absurd inForce (by simp [notInForce])
      · exact waited
    have endpoints : (!db.hasUser e.edge.fromKey || !db.hasUser e.edge.toKey) = false := by
      simp [fromSource, toTarget, relaying.sourceKnown, relaying.targetKnown]
    have unforked := relaying.unforked free mem
    have received : applyOneEdgeInner state db e.wire peer =
        (receiveEdge state db e.edge e.hash e.signature e.payload peer).map fun result =>
          ((⟨e.hash, result.1⟩, result.2.1), result.2.2) := by
      have unknown : db.signedObjects.find? (·.canonicalHash = state.platform.sha256 e.payload) = none := found
      simp only [applyOneEdgeInner, e.decodes, unknown, e.parses, e.verified, if_true, SignedEdge.hash, bind,
        Except.bind]
      cases receiveEdge state db e.edge (state.platform.sha256 e.payload) e.signature e.payload peer <;> rfl
    simp only [deliverEdge, forwardOf, received, e.decodes, e.parses, receiveEdge, tryProjectTrustEdge, endpoints,
      notInForce, unforked, Bool.false_eq_true, if_false]
    cases orphan : e.edge.priorEdgeHash.any fun prior => !db.hasPairEdge e.edge.fromKey e.edge.toKey prior with
    | true =>
      simp only [if_true, bind, Except.bind]
      cases prior : e.edge.priorEdgeHash with
      | none => exact ⟨relaying, .inl ⟨rfl, rfl⟩⟩
      | some hash =>
        simp only [enqueuePendingTrustEdge, prior]
        cases db.pendingTrustEdges.any fun row => decide (row.sourcePubkey = e.edge.fromKey ∧ row.priorEdgeHash = hash) with
        | true => exact ⟨relaying, .inl ⟨rfl, rfl⟩⟩
        | false => exact ⟨relaying.congr rfl rfl rfl, .inl ⟨rfl, rfl⟩⟩
    | false =>
      simp only [Bool.false_eq_true, if_false]
      cases inserted : insertTrustEdge state db e.edge e.hash e.signature e.payload with
      | error failure => exact ⟨relaying, .inl ⟨rfl, rfl⟩⟩
      | ok mid =>
        have frame := insertTrustEdge_frame inserted
        have none_ : (mid.storeSignedObject .trustEdge e.payload e.signature e.hash).pendingTrustEdges.filter
            (·.priorEdgeHash = e.hash) = [] := by
          have samePending : (mid.storeSignedObject .trustEdge e.payload e.signature e.hash).pendingTrustEdges =
              db.pendingTrustEdges := by
            rw [frame]
            rfl
          rw [samePending, filter_eq_nil_iff]
          simpa using waited
        have drained : drainPendingOrphansAfter state
            (mid.storeSignedObject .trustEdge e.payload e.signature e.hash) e.hash =
              .ok (mid.storeSignedObject .trustEdge e.payload e.signature e.hash) := by
          simp only [drainPendingOrphansAfter, drainLoop, none_, foldlM_nil]
          exact drainLoop_nil _
        simp only [bind, Except.bind, pure, Except.pure, drained, Except.map, if_true]
        refine ⟨relaying.insert mem inserted, .inr ⟨?_, by rw [fromSource, toTarget]⟩⟩
        rw [frame]
        rfl

end Step

def Offered {platform : Platform} (edges : List (SignedEdge platform)) (relay : Db × List TrustEdgeForward) : Prop :=
  ∀ e ∈ edges, relay.1.hasEdge e.hash = true ↔ ∃ call ∈ relay.2, call.canonicalHash = e.hash

section

variable {state : AppState} {source target : Key} {edges : List (SignedEdge state.platform)}
  (free : ForkFree source target edges)
include free

theorem relayEdge_offered {relay : Db × List TrustEdgeForward}
    {delivery : SignedEdge state.platform × Key} (mem : delivery.1 ∈ edges)
    (unawaited : Unawaited state relay delivery)
    (inv : Relaying source target edges relay.1 ∧ Offered edges relay) :
    Relaying source target edges (relayEdge state relay delivery).1 ∧
      Offered edges (relayEdge state relay delivery) := by
  obtain ⟨relaying, offered⟩ := inv
  obtain ⟨kept, same | grown⟩ := relaying.deliver free mem unawaited
  · refine ⟨kept, fun e inChain => ?_⟩
    simp only [relayEdge, hasEdge, same.1, same.2, append_nil]
    exact offered e inChain
  · refine ⟨kept, fun e inChain => ?_⟩
    have inForce : (relayEdge state relay delivery).1.hasEdge e.hash = true ↔
        relay.1.hasEdge e.hash = true ∨ delivery.1.hash = e.hash := hasEdge_of_grown grown.1
    rw [inForce, offered e inChain]
    simp only [relayEdge, grown.2, mem_append, or_and_right, exists_or, mem_singleton, exists_eq_left]

/--
Along every run in which no edge arrives while a buffered one waits for it, the relay has forwarded exactly the
edges of the chain that it has in force.
-/
theorem forwarded_unless_awaited (db : Db)
    (sourceKnown : db.hasUser source = true) (targetKnown : db.hasUser target = true)
    (noEdges : db.pairEdges source target = [])
    (unseen : ∀ e ∈ edges, db.hasEdge e.hash = false ∧ db.hasObject e.hash = false)
    (deliveries : List (SignedEdge state.platform × Key)) (ofChain : ∀ delivery ∈ deliveries, delivery.1 ∈ edges)
    (meets : MeetAlong (relayEdge state) (Unawaited state) (db, []) deliveries) :
    Offered edges (deliveries.foldl (relayEdge state) (db, [])) := by
  have chained : MeetAlong (relayEdge state) (fun _ delivery => delivery.1 ∈ edges) (db, []) deliveries :=
    .of_forall fun delivery mem _ => ofChain delivery mem
  have start : Relaying source target edges db ∧ Offered edges (db, []) := by
    refine ⟨⟨sourceKnown, targetKnown, by simp [noEdges], ?_⟩, ?_⟩
    · intro e inChain
      rw [(unseen e inChain).1, (unseen e inChain).2]
    · intro e inChain
      simp [(unseen e inChain).1]
  have ends : (fun relay => Relaying source target edges relay.1 ∧ Offered edges relay)
      (deliveries.foldl (relayEdge state) (db, [])) :=
    (meets.and chained).invariant (fun _ _ inv next => relayEdge_offered free next.2 next.1 inv) start
  exact ends.2

end

theorem flip_forkFree : ForkFree 1 2 [grant, slowReversal] := by
  have apart : grant.hash ≠ slowReversal.hash ∧ grant.prior ≠ slowReversal.prior := by decide
  constructor
  · simp [grant, slowReversal]
  · simp [apart.1, apart.1.symm]
  · simp [apart.2, apart.2.symm]

theorem grant_forwarded : Offered [grant, slowReversal]
      ([(grant, 7), (slowReversal, 7)].foldl (relayEdge (flipState 0)) (flipDb, [])) :=
  @forwarded_unless_awaited (flipState 0) 1 2 _ flip_forkFree flipDb rfl rfl rfl
    (by simp [flipDb, hasEdge, hasObject]) _ (forall_mem_cons.mpr
      ⟨.head _, forall_mem_singleton.mpr (.tail _ (.head _))⟩)
    ⟨.inr (by decide +kernel), .inr (by decide +kernel), trivial⟩

/-- The reversal waits in the buffer, and is in force once the grant arrives, with nobody told of it. -/
theorem drained_not_forwarded :
    let relay := [(slowReversal, 7), (grant, 7)].foldl (relayEdge (flipState 0)) (flipDb, [])
    relay.1.hasEdge slowReversal.hash = true ∧ relay.2.map (·.canonicalHash) = [grant.hash] ∧
      ¬ Offered [grant, slowReversal] relay := by
  intro relay
  have inForce : relay.1.hasEdge slowReversal.hash = true := by decide +kernel
  have calls : relay.2.map (·.canonicalHash) = [grant.hash] := by decide +kernel
  refine ⟨inForce, calls, fun offered => ?_⟩
  obtain ⟨call, made, isHash⟩ := (offered slowReversal (by simp)).mp inForce
  have isCalled : call.canonicalHash ∈ relay.2.map (·.canonicalHash) := mem_map_of_mem made
  rw [calls, isHash] at isCalled
  revert isCalled
  decide

end Prismoire
