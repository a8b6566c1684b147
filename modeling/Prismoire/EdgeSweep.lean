import Prismoire.EdgeDelivery
import Prismoire.RemoteUsers

namespace Prismoire

open Lib List Option Db

variable {platform : Platform} {source target : Key} {edges archived : List (SignedEdge platform)}
  {state : AppState} {db : Db} {e : SignedEdge platform}

/-- While an endpoint is unknown every delivered edge is stored and none is in force. -/
structure Parked (source target : Key) (edges : List (SignedEdge platform)) (state : AppState)
    (archived : List (SignedEdge platform)) (db : Db) : Prop where
  rep : Represents source target edges state [] archived db
  noPending : db.pendingTrustEdges = []
  nodup : archived.Nodup

theorem Represents.archive (rep : Represents source target edges state [] archived db)
    (mem : e ∈ edges) (unstored : Ledger.holds archived e.hash = false) :
    Represents source target edges state [] (archived ++ [e])
      (db.storeSignedObject .trustEdge e.payload e.signature e.hash) := by
  have absent : db.hasObject e.hash = false := by
    rw [Bool.eq_false_iff]
    intro present
    rcases (rep.hasObject_iff mem).mp present with held | held
    · simp [Ledger.holds] at held
    · simp [unstored] at held
  have stored : (db.storeSignedObject .trustEdge e.payload e.signature e.hash).signedObjects =
      db.signedObjects ++ [e.liveRow] := by
    simp [storeSignedObject, absent, SignedEdge.liveRow]
  refine ⟨rep.activeRows, by simp, ?_, by simp [Ledger.holds], trivial, ?_, by simp, ?_, by simp, ?_⟩
  · exact forall_mem_concat.mpr ⟨rep.archivedMem, mem⟩
  · intro row inStored
    rw [stored] at inStored
    rcases mem_concat.mp inStored with old | new
    · refine (rep.known row old).imp ?_ id
      rintro ⟨f, inLedger, sameHash, live⟩
      exact ⟨f, by simpa using Or.inl (by simpa using inLedger), sameHash, live⟩
    · rw [new]
      exact .inl ⟨e, by simp, rfl, fun _ => rfl⟩
  · intro f inArchived
    rw [stored]
    rcases mem_concat.mp inArchived with old | new
    · exact mem_append_left _ (rep.archivedLive f old)
    · exact mem_append_right _ (by simp [new])
  · have other : ∀ row ∈ db.signedObjects, row.canonicalHash ≠ e.hash := by
      intro row inOld same
      have present : db.hasObject e.hash = true :=
        List.any_eq_true.mpr ⟨row, inOld, by simpa using same⟩
      rw [absent] at present
      cases present
    rw [stored]
    intro row inRow row' inRow' same
    rcases mem_concat.mp inRow with old | new
    · rcases mem_concat.mp inRow' with old' | new'
      · exact rep.unique row old row' old' same
      · rw [new'] at same
        exact absurd same (other row old)
    · rcases mem_concat.mp inRow' with old' | new'
      · rw [new] at same
        exact absurd same.symm (other row' old')
      · rw [new, new']

variable {edge : TrustEdge} {hash : Hash} {signature payload : Bytes}

theorem recordEndpointMissing_frame {peer : Key} :
    ∃ frontier, (recordEndpointMissing db edge hash signature payload peer).2 =
      { db with frontierEdges := frontier } := by
  unfold recordEndpointMissing
  dsimp only
  split
  · exact ⟨_, rfl⟩
  · exact ⟨db.frontierEdges, rfl⟩

theorem tryProject_unknown (unknown : db.hasUser edge.fromKey = false ∨ db.hasUser edge.toKey = false) :
    tryProjectTrustEdge state db edge hash signature payload = .ok (.endpointMissing, db) := by
  have missing : (!db.hasUser edge.fromKey || !db.hasUser edge.toKey) = true := by
    rcases unknown with absent | absent <;> simp [absent]
  simp only [tryProjectTrustEdge, missing, if_true]

/-- What a delivery leaves parked while an endpoint is unknown. -/
def park (archived : List (SignedEdge platform)) (e : SignedEdge platform) : List (SignedEdge platform) :=
  if Ledger.holds archived e.hash then archived else archived ++ [e]

section

variable (parked : Parked source target edges state archived db)
include parked

section

variable (free : ForkFree source target edges) (same : state.platform = platform)
include free same

theorem Parked.deliver (unknown : db.hasUser source = false ∨ db.hasUser target = false)
    (mem : e ∈ edges) (peer : Key) :
    Parked source target edges state (park archived e) (deliverEdge state db e.wire peer) ∧
      (deliverEdge state db e.wire peer).users = db.users := by
  obtain ⟨fromSource, toTarget⟩ := free.pair e mem
  have missing : db.hasUser e.edge.fromKey = false ∨ db.hasUser e.edge.toKey = false := by
    rw [fromSource, toTarget]
    exact unknown
  unfold park
  cases stored : Ledger.holds archived e.hash with
  | true =>
    subst same
    have found : db.signedObjects.find? (·.canonicalHash = state.platform.sha256 e.payload) =
        some e.liveRow := parked.rep.find_archived free mem stored
    have unprojected : db.hasEdge (state.platform.sha256 e.payload) = false := by
      simp [hasEdge, parked.rep.activeRows]
    obtain ⟨frontier, frame⟩ := @recordEndpointMissing_frame db e.edge e.hash e.signature e.payload peer
    have ran : deliverEdge state db e.wire peer = { db with frontierEdges := frontier } := by
      rw [← frame]
      simp only [deliverEdge, applyOneEdgeInner, e.decodes, found, SignedEdge.liveRow, isNone_some,
        Bool.or_self, Bool.false_eq_true, if_false, unprojected, reattemptUnprojectedEdge, e.parses,
        tryProject_unknown missing]
      rfl
    rw [ran]
    exact ⟨⟨parked.rep.congr rfl rfl, parked.noPending, parked.nodup⟩, rfl⟩
  | false =>
    have fresh : Ledger.holds ([] : List (SignedEdge platform)) e.hash = false := rfl
    rw [deliverEdge_fresh same (parked.rep.find_fresh mem fresh stored) peer]
    simp only [receiveEdge, tryProject_unknown missing, bind, Except.bind, Bool.false_eq_true, if_false]
    obtain ⟨frontier, frame⟩ := @recordEndpointMissing_frame
      (db.storeSignedObject .trustEdge e.payload e.signature e.hash) e.edge e.hash e.signature e.payload peer
    simp only [pure, Except.pure, frame]
    refine ⟨⟨(parked.rep.archive mem stored).congr rfl rfl, parked.noPending, ?_⟩, rfl⟩
    refine nodup_append.mpr ⟨parked.nodup, by simp, ?_⟩
    rintro f old g new rfl
    rw [mem_singleton.mp new] at old
    exact absurd (Ledger.holds_iff.mpr ⟨e, old, rfl⟩) (by simp [stored])

def SignedEdge.candidate (e : SignedEdge platform) : SweepCandidate where
  edge := e.edge
  canonicalHash := e.hash
  signature := e.signature
  payload := e.payload

theorem Parked.candidates {key : Key} (endpoint : key = source ∨ key = target) (candidate : SweepCandidate) :
    candidate ∈ sweepCandidates state db key ↔ ∃ e ∈ archived, candidate = e.candidate := by
  subst same
  have noEdge : ∀ hash, db.hasEdge hash = false := by simp [hasEdge, parked.rep.activeRows]
  have fromLive : ∀ e : SignedEdge state.platform, e ∈ archived → e.edge.fromKey = key ∨ e.edge.toKey = key := by
    intro e inArchived
    obtain ⟨fromSource, toTarget⟩ := free.pair e (parked.rep.archivedMem e inArchived)
    rcases endpoint with rfl | rfl
    · exact .inl fromSource
    · exact .inr toTarget
  have taken : ∀ e ∈ archived, sweepCandidate state db key e.liveRow = some e.candidate := by
    intro e inArchived
    simp only [sweepCandidate, SignedEdge.liveRow, noEdge, and_self, if_true, e.parses, fromLive e inArchived]
    rfl
  simp only [sweepCandidates, mem_filterMap]
  constructor
  · rintro ⟨row, inStored, picked⟩
    rcases parked.rep.known row inStored with ⟨e, inLedger, -, live⟩ | ⟨otherClass, -⟩
    rotate_left
    · simp [sweepCandidate, otherClass] at picked
    have inArchived : e ∈ archived := by simpa using inLedger
    have isLive : row = e.liveRow := by
      apply live
      intro erased
      simp [sweepCandidate, erased] at picked
    subst isLive
    rw [taken e inArchived] at picked
    exact ⟨e, inArchived, (some.inj picked).symm⟩
  · rintro ⟨e, inArchived, rfl⟩
    exact ⟨e.liveRow, parked.rep.archivedLive e inArchived, taken e inArchived⟩

end

def hydrateAndSweep (state : AppState) (db : Db) (key : Key) (displayName : Text) (home : Key) : Db :=
  match sweepPendingProjections state (hydrateStubUser state db key displayName home) key with
  | .ok (after, _) => after
  | .error _ => db

variable {key home : Key} {displayName : Text}

theorem Parked.hydrated : Parked source target edges state archived (hydrateStubUser state db key displayName home) :=
  ⟨parked.rep.congr rfl rfl, parked.noPending, parked.nodup⟩

theorem Parked.hydrate_first
    (free : ForkFree source target edges) (same : state.platform = platform) (endpoint : key = source ∨ key = target)
    (unknown : (hydrateStubUser state db key displayName home).hasUser source = false ∨
      (hydrateStubUser state db key displayName home).hasUser target = false) :
    hydrateAndSweep state db key displayName home = hydrateStubUser state db key displayName home := by
  have swept : sweepPendingProjections state (hydrateStubUser state db key displayName home) key =
      .ok (hydrateStubUser state db key displayName home, false) := by
    apply settle_dropped
    intro candidate taken
    obtain ⟨e, inArchived, rfl⟩ := (parked.hydrated.candidates free same endpoint candidate).mp taken
    obtain ⟨fromSource, toTarget⟩ := free.pair e (parked.rep.archivedMem e inArchived)
    have missing : (hydrateStubUser state db key displayName home).hasUser e.candidate.edge.fromKey = false ∨
        (hydrateStubUser state db key displayName home).hasUser e.candidate.edge.toKey = false := by
      simp only [SignedEdge.candidate, fromSource, toTarget]
      exact unknown
    simp only [sweepAttempt, tryProject_unknown missing]
    rfl
  simp only [hydrateAndSweep, swept]

end

theorem drain_nothing {hash : Hash} (noPending : db.pendingTrustEdges = []) :
    drainPendingOrphansAfter state db hash = .ok db := by
  simp [drainPendingOrphansAfter, drainLoop, noPending, bind, Except.bind, pure, Except.pure]

theorem Ledger.land_of_empty {l : Ledger platform} (empty : l.buffered = []) :
    l.land e = l.activate e := by
  simp [Ledger.land, Ledger.follow, Ledger.activate, empty]

/-- What the sweep keeps while it runs: a ledger over the parked edges with an empty buffer. -/
def Swept (source target : Key) (edges : List (SignedEdge platform)) (state : AppState)
    (archived : List (SignedEdge platform)) (db : Db) : Prop :=
  ∃ l : Ledger platform, Tracks source target edges state l db ∧ l.buffered = [] ∧
    ∀ e ∈ edges, (Ledger.holds l.active e.hash = true ∨ Ledger.holds l.archived e.hash = true) ↔ e ∈ archived

theorem Swept.landing (free : ForkFree source target edges) (same : state.platform = platform)
    (sub : ∀ e ∈ archived, e ∈ edges) {pending : List SweepCandidate}
    (taken : ∀ candidate ∈ pending, ∃ e ∈ archived, candidate = e.candidate) :
    Landing (sweepAttempt state) (fun acc => Swept source target edges state archived acc.1)
      (fun candidate acc => acc.1.hasEdge candidate.canonicalHash = true) pending := by
  rintro candidate inPending ⟨db, flag⟩ ⟨l, (tracks : Tracks source target edges state l db), empty, covers⟩
  obtain ⟨e, inArchived, rfl⟩ := taken candidate inPending
  have mem := sub e inArchived
  have noPending : db.pendingTrustEdges = [] := by simp [tracks.pending, empty]
  have tried := tracks.rep.tryProject tracks.sourceKnown tracks.targetKnown free mem
  cases inForce : Ledger.holds l.active e.hash with
  | true =>
    left
    have projected : db.hasEdge e.hash = true := tracks.rep.hasEdge_iff.trans inForce
    refine ⟨(db, true), ?_, ⟨l, tracks, empty, covers⟩, projected, fun other before => before⟩
    simp only [inForce, if_true] at tried
    simp only [sweepAttempt, SignedEdge.candidate, tried, bind, Except.bind, drain_nothing noPending]
    rfl
  | false =>
    have stored : Ledger.holds l.archived e.hash = true := by
      rcases (covers e mem).mpr inArchived with held | held
      · rw [inForce] at held
        cases held
      · exact held
    cases ground : e.prior.all (Ledger.holds l.active) with
    | false =>
      right
      simp only [inForce, ground, Bool.false_eq_true, if_false] at tried
      simp only [sweepAttempt, SignedEdge.candidate, tried]
      rfl
    | true =>
      left
      have atTip := (Ledger.grounded_iff free tracks.rep.linked tracks.rep.activeMem mem inForce).mp ground
      obtain ⟨mid, inserted, kept, landed⟩ := tracks.land free same mem inForce atTip
        (by simp [empty]) (.inr (.inl stored))
      have present : mid.hasObject e.hash = true := by
        rw [kept]
        exact (tracks.rep.hasObject_iff mem).mpr (.inr stored)
      rw [storeSignedObject_of_present present, Ledger.land_of_empty empty] at landed
      simp only [inForce, ground, inserted, Bool.false_eq_true, if_false, if_true, Except.map] at tried
      cases drained : drainPendingOrphansAfter state mid e.hash with
      | error failure =>
        rw [drained] at landed
        have shrunk := congrArg (fun l : Ledger platform => l.active.length) landed
        simp [Ledger.activate] at shrunk
      | ok after =>
        rw [drained] at landed
        refine ⟨(after, true), ?_, ⟨l.activate e, landed, empty, ?_⟩, ?_, ?_⟩
        · simp only [sweepAttempt, SignedEdge.candidate, tried, bind, Except.bind, drained]
          rfl
        · intro f inEdges
          rw [← covers f inEdges, Ledger.holds_activate, Ledger.archived_activate]
          by_cases isE : e.hash = f.hash
          · simp [isE, isE ▸ stored]
          · simp [isE, Ne.symm isE]
        · exact landed.rep.hasEdge_iff.trans (Ledger.holds_activate.mpr (.inr rfl))
        · intro other before
          refine landed.rep.hasEdge_iff.trans (Ledger.holds_activate.mpr (.inl ?_))
          exact tracks.rep.hasEdge_iff.symm.trans before

theorem Parked.sweep (parked : Parked source target edges state archived db)
    (free : ForkFree source target edges) (same : state.platform = platform) {key : Key}
    (endpoint : key = source ∨ key = target)
    (sourceKnown : db.hasUser source = true) (targetKnown : db.hasUser target = true) :
    ∃ after flag, ∃ l : Ledger platform, sweepPendingProjections state db key = .ok (after, flag) ∧
      Tracks source target edges state l after ∧ l.buffered = [] ∧
      (∀ e ∈ edges, (Ledger.holds l.active e.hash = true ∨ Ledger.holds l.archived e.hash = true) ↔ e ∈ archived) ∧
      ∀ e ∈ l.archived, e.prior ≠ tip SignedEdge.hash l.active := by
  have taken := parked.candidates free same endpoint
  have start : Swept source target edges state archived db := by
    refine ⟨⟨[], archived, []⟩, ⟨parked.rep, sourceKnown, targetKnown, parked.noPending, by simp,
      by simp, by simp, by simp⟩, rfl, ?_⟩
    intro e inEdges
    rw [Ledger.holds_of_mem free inEdges parked.rep.archivedMem]
    simp [Ledger.holds]
  have landing := Swept.landing free same parked.rep.archivedMem fun candidate inPending =>
    (taken candidate).mp inPending
  have begun : (fun acc : Db × Bool => Swept source target edges state archived acc.1) (db, false) := start
  obtain ⟨⟨after, flag⟩, ran, ⟨l, tracks, empty, covers⟩, -, settled⟩ :=
    settle_landing landing (Nat.lt_succ_self _) begun
  refine ⟨after, flag, l, ran, tracks, empty, covers, ?_⟩
  intro e inArchived atTip
  have mem := tracks.rep.archivedMem e inArchived
  have fresh := tracks.rep.apart e inArchived
  have parkedE : e ∈ archived := (covers e mem).mp (.inr (Ledger.holds_iff.mpr ⟨e, inArchived, rfl⟩))
  have ground := (Ledger.grounded_iff free tracks.rep.linked tracks.rep.activeMem mem fresh).mpr atTip
  rcases settled e.candidate ((taken _).mpr ⟨e, parkedE, rfl⟩) with landed | stuck
  · rw [show (after, flag).1.hasEdge e.candidate.canonicalHash = Ledger.holds l.active e.hash from
      tracks.rep.hasEdge_iff, fresh] at landed
    cases landed
  · have tried := tracks.rep.tryProject tracks.sourceKnown tracks.targetKnown free mem
    obtain ⟨mid, inserted, -⟩ := tracks.rep.activate free mem fresh atTip
      (.inr (.inl (Ledger.holds_iff.mpr ⟨e, inArchived, rfl⟩)))
    simp only [fresh, ground, inserted, Bool.false_eq_true, if_false, if_true, Except.map] at tried
    simp only [sweepAttempt, SignedEdge.candidate, tried, bind, Except.bind] at stuck
    cases drained : drainPendingOrphansAfter state mid e.hash with
    | error failure => simp [drained] at stuck
    | ok done => simp [drained, pure, Except.pure] at stuck

theorem Parked.hydrate_second (parked : Parked source target edges state archived db)
    (free : ForkFree source target edges) (same : state.platform = platform) {key home : Key}
    {displayName : Text} (endpoint : key = source ∨ key = target)
    (sourceKnown : (hydrateStubUser state db key displayName home).hasUser source = true)
    (targetKnown : (hydrateStubUser state db key displayName home).hasUser target = true) :
    ∃ l : Ledger platform, Tracks source target edges state l (hydrateAndSweep state db key displayName home) ∧
      l.buffered = [] ∧
      (∀ e ∈ edges, (Ledger.holds l.active e.hash = true ∨ Ledger.holds l.archived e.hash = true) ↔ e ∈ archived) ∧
      ∀ e ∈ l.archived, e.prior ≠ tip SignedEdge.hash l.active := by
  obtain ⟨after, flag, l, swept, rest⟩ :=
    parked.hydrated.sweep free same endpoint sourceKnown targetKnown
  refine ⟨l, ?_⟩
  simp only [hydrateAndSweep, swept]
  exact rest

end Prismoire
