import Prismoire.Edges

namespace Prismoire

open Lib List Option

/-- A property that the projection of fit edges keeps. -/
structure EdgeProjecting (state : AppState) (fit : Bytes → Bytes → Hash → TrustEdge → Prop) (kept : Db → Prop) : Prop where
  project : ∀ {db payload signature hash edge}, kept db → fit payload signature hash edge →
    db.hasUser edge.fromKey = true → db.hasUser edge.toKey = true → db.edgeForked edge hash = false →
    (∀ prior ∈ edge.priorEdgeHash, db.hasPairEdge edge.fromKey edge.toKey prior = true) →
    kept (withTrustEdge state db edge hash signature payload)
  erase : ∀ {db after targeted authority}, kept db → (∀ hash, targeted hash = true → db.hasEdge hash = true) →
    db.erasePayloads targeted authority = .ok after → kept after

/-- The same for the drain and the sweep, which store and take from the buffer. -/
structure EdgeWalk (state : AppState) (fit : Bytes → Bytes → Hash → TrustEdge → Prop) (kept : Db → Prop) : Prop
    extends EdgeProjecting state fit kept where
  buffered : ∀ {db row edge}, kept db → row ∈ db.pendingTrustEdges →
    state.platform.parse row.payload = some (.trustEdge edge) → fit row.payload row.signature row.canonicalHash edge
  store : ∀ {db payload signature hash edge}, kept db → fit payload signature hash edge →
    kept (db.storeSignedObject .trustEdge payload signature hash)
  dequeue : ∀ {db} source prior, kept db → kept (deletePendingOrphan db source prior)

/-- The same for an arrival, which may also buffer its edge or note it for the frontier. -/
structure EdgeArrival (state : AppState) (fit : Bytes → Bytes → Hash → TrustEdge → Prop) (kept : Db → Prop) : Prop
    extends EdgeWalk state fit kept where
  enqueue : ∀ {db payload signature hash edge prior}, kept db → fit payload signature hash edge →
    edge.priorEdgeHash = some prior → kept { db with
      pendingTrustEdges := db.pendingTrustEdges ++
        [{ sourcePubkey := edge.fromKey, targetPubkey := edge.toKey, priorEdgeHash := prior,
           canonicalHash := hash, payload, signature }] }
  frontier : ∀ {db} rows, kept db → kept { db with frontierEdges := rows }

/-- The edge that a delivery tries: the stored one where the hash is known, else the one that it brings. -/
def attemptedEdge (state : AppState) (db : Db) (wireBytes : Bytes) : Option TrustEdge :=
  match state.platform.decodeSignedObject wireBytes with
  | none => none
  | some (payload, signature) =>
    match db.signedObjects.find? (·.canonicalHash = state.platform.sha256 payload) with
    | some row =>
      if row.erased || db.hasEdge (state.platform.sha256 payload) then
        none
      else
        match row.payload.bind state.platform.parse with
        | some (.trustEdge edge) => some edge
        | _ => none
    | none =>
      match state.platform.parse payload with
      | some (.trustEdge edge) => if signatureOk state.platform payload signature edge.fromKey then some edge else none
      | _ => none

/-- Where the bytes of an attempted edge come from: a stored object, or the wire. -/
def AttemptedBytes (state : AppState) (db : Db) (wire payload signature : Bytes) (hash : Hash) (edge : TrustEdge) :
    Prop :=
  edge ∈ attemptedEdge state db wire ∧ state.platform.parse payload = some (.trustEdge edge) ∧
    ((∃ row ∈ db.signedObjects, row.payload = some payload ∧ row.signature = signature ∧ row.canonicalHash = hash) ∨
      (hash = state.platform.sha256 payload ∧ state.platform.decodeSignedObject wire = some (payload, signature) ∧
        signatureOk state.platform payload signature edge.fromKey = true))

variable {candidate : SweepCandidate}

theorem mem_sweepCandidates {state : AppState} {db : Db} {key : Key}
    (mem : candidate ∈ sweepCandidates state db key) :
    (∃ row ∈ db.signedObjects, row.innerClass = .trustEdge ∧ row.payload = some candidate.payload ∧
      row.signature = candidate.signature ∧ row.canonicalHash = candidate.canonicalHash) ∧
    state.platform.parse candidate.payload = some (.trustEdge candidate.edge) ∧
    db.hasEdge candidate.canonicalHash = false ∧ (candidate.edge.fromKey = key ∨ candidate.edge.toKey = key) := by
  obtain ⟨row, stored, isCandidate⟩ := mem_filterMap.mp mem
  unfold sweepCandidate at isCandidate
  split at isCandidate
  · rename_i open'
    split at isCandidate
    · cases isCandidate
    · rename_i payload live
      split at isCandidate
      · rename_i edge parses
        split at isCandidate
        · rename_i names
          cases isCandidate
          exact ⟨⟨row, stored, open'.1, live, rfl, rfl⟩, parses, open'.2, names⟩
        · cases isCandidate
      · cases isCandidate
  · cases isCandidate

variable {state : AppState} {fit : Bytes → Bytes → Hash → TrustEdge → Prop} {kept : Db → Prop} {db after : Db}
  {edge : TrustEdge} {payload signature wire : Bytes} {hash : Hash} {peer : Key} {recovery : Option EdgeRecovery}
  {rows : List PendingTrustEdgeRow} {acc result : Db × List Hash} {fuel : Nat} {worklist : List Hash}

theorem EdgeProjecting.tryProject {projection : TrustEdgeProjection} (walk : EdgeProjecting state fit kept)
    (held : kept db) (isFit : fit payload signature hash edge)
    (run : tryProjectTrustEdge state db edge hash signature payload = .ok (projection, after)) : kept after := by
  unfold tryProjectTrustEdge at run
  split at run
  · cases run
    exact held
  · rename_i endpoints
    split at run
    · cases run
      exact held
    · split at run
      · cases run
        exact held
      · rename_i unforked
        split at run
        · cases run
          exact held
        · rename_i chained
          obtain ⟨mid, inserted, returned⟩ := bind_ok.mp run
          cases returned
          obtain ⟨source, target⟩ : db.hasUser edge.fromKey = true ∧ db.hasUser edge.toKey = true := by
            simpa using endpoints
          have linked : ∀ prior ∈ edge.priorEdgeHash, db.hasPairEdge edge.fromKey edge.toKey prior = true := by
            intro prior isPrior
            simpa [mem_def.mp isPrior] using chained
          have projected := walk.project held isFit source target (by simpa using unforked) linked
          simp only [insertTrustEdge] at inserted
          split at inserted
          · refine walk.erase projected ?_ inserted
            intro other targeted
            simp only [decide_eq_true_eq, List.any_eq_true] at targeted
            obtain ⟨-, row, mem, same, -⟩ := targeted
            exact List.any_eq_true.mpr ⟨row, mem, decide_eq_true same⟩
          · cases inserted
            exact projected

namespace EdgeWalk

variable {row : PendingTrustEdgeRow}

section Keeps

variable (walk : EdgeWalk state fit kept)
include walk

theorem drainRow (held : kept acc.1)
    (isFit : ∀ edge, state.platform.parse row.payload = some (.trustEdge edge) →
      fit row.payload row.signature row.canonicalHash edge)
    (run : Prismoire.drainRow state acc row = .ok result) : kept result.1 := by
  obtain ⟨start, worklist⟩ := acc
  unfold Prismoire.drainRow at run
  dsimp only at run
  split at run
  · rename_i edge parses
    obtain ⟨⟨projection, mid⟩, tried, rest⟩ := bind_ok.mp run
    have now := walk.tryProject held (isFit edge parses) tried
    have promoted := walk.dequeue row.sourcePubkey row.priorEdgeHash (walk.store now (isFit edge parses))
    cases projection with
    | projected => cases rest; exact promoted
    | chainFork => cases rest; exact promoted
    | endpointMissing => cases rest; exact promoted
    | deferred => cases rest; exact now
  · cases run
    exact walk.dequeue _ _ held

theorem drainLoop (held : kept db) (run : drainLoop state fuel worklist db = .ok after) : kept after := by
  induction fuel generalizing worklist db with
  | zero =>
    cases run
    exact held
  | succ fuel ih =>
    cases worklist with
    | nil =>
      cases run
      exact held
    | cons current rest =>
      obtain ⟨⟨mid, more⟩, drained, looped⟩ := bind_ok.mp run
      have rows : kept (mid, more).1 := foldlM_invariant (fun acc : Db × List Hash => kept acc.1)
        (fun row mem _ _ held' => walk.drainRow held' fun _ => walk.buffered held (mem_of_mem_filter mem))
        held drained
      exact ih rows looped

theorem sweepAttempt {outcome : Outcome} {acc result : Db × Bool} (held : kept acc.1)
    (isFit : fit candidate.payload candidate.signature candidate.canonicalHash candidate.edge)
    (run : sweepAttempt state acc candidate = .ok (outcome, result)) : kept result.1 := by
  obtain ⟨⟨projection, mid⟩, tried, rest⟩ := bind_ok.mp run
  have now := walk.tryProject held isFit tried
  cases projection with
  | projected =>
    obtain ⟨drained, ran, returned⟩ := bind_ok.mp rest
    cases returned
    exact walk.drainLoop now ran
  | deferred => cases rest; exact now
  | endpointMissing => cases rest; exact now
  | chainFork => cases rest; exact now

theorem sweep {key : Key} {flag : Bool} (held : kept db) (isFit : ∀ candidate ∈ sweepCandidates state db key,
      fit candidate.payload candidate.signature candidate.canonicalHash candidate.edge)
    (run : sweepPendingProjections state db key = .ok (after, flag)) : kept after := by
  have swept : kept (after, flag).1 := settle_invariant (fun acc : Db × Bool => kept acc.1)
    (fun candidate mem _ _ _ held' tried => walk.sweepAttempt held' (isFit candidate mem) tried) held run
  exact swept

end Keeps

variable (walk : EdgeWalk state fit kept)
  (inserts : ∀ {db payload signature hash edge}, kept db → fit payload signature hash edge →
    ∃ after, insertTrustEdge state db edge hash signature payload = .ok after)
include walk inserts

omit walk in
theorem tryProject_total (held : kept db) (isFit : fit payload signature hash edge) :
    ∃ result, tryProjectTrustEdge state db edge hash signature payload = .ok result := by
  unfold tryProjectTrustEdge
  split
  · exact ⟨_, rfl⟩
  · split
    · exact ⟨_, rfl⟩
    · split
      · exact ⟨_, rfl⟩
      · split
        · exact ⟨_, rfl⟩
        · obtain ⟨after, inserted⟩ := inserts held isFit
          exact ⟨_, bind_ok.mpr ⟨after, inserted, rfl⟩⟩

theorem drainRow_total (held : kept acc.1)
    (isFit : ∀ edge, state.platform.parse row.payload = some (.trustEdge edge) →
      fit row.payload row.signature row.canonicalHash edge) :
    ∃ result, Prismoire.drainRow state acc row = .ok result ∧ kept result.1 := by
  have runs : ∃ result, Prismoire.drainRow state acc row = .ok result := by
    obtain ⟨start, worklist⟩ := acc
    unfold Prismoire.drainRow
    dsimp only
    split
    · rename_i edge parses
      obtain ⟨⟨projection, mid⟩, tried⟩ := tryProject_total inserts held (isFit edge parses)
      rw [tried]
      cases projection <;> exact ⟨_, rfl⟩
    · exact ⟨_, rfl⟩
  obtain ⟨result, run⟩ := runs
  exact ⟨result, run, walk.drainRow held isFit run⟩

theorem drainLoop_total (held : kept db) : ∃ after, Prismoire.drainLoop state fuel worklist db = .ok after := by
  induction fuel generalizing worklist db with
  | zero => exact ⟨db, rfl⟩
  | succ fuel ih =>
    cases worklist with
    | nil => exact ⟨db, rfl⟩
    | cons current rest =>
      let waiting := db.pendingTrustEdges.filter (·.priorEdgeHash = current)
      have safe : ∀ row ∈ waiting, ∀ acc : Db × List Hash, kept acc.1 → True →
          ∃ result, Prismoire.drainRow state acc row = .ok result ∧ kept result.1 ∧
            ∀ other : PendingTrustEdgeRow, True → True → True := by
        intro row mem acc held' _
        obtain ⟨result, run, keeps⟩ := walk.drainRow_total inserts held' fun edge =>
          walk.buffered held (mem_of_mem_filter mem)
        exact ⟨result, run, keeps, fun _ _ _ => trivial⟩
      obtain ⟨⟨mid, more⟩, drained, keeps⟩ := @foldlM_total _ _ _ _ waiting (db, rest) (fun acc => kept acc.1)
        (fun _ _ => True) (fun _ _ => True) safe (pairwise_of_forall fun _ _ => trivial) held fun _ _ => trivial
      obtain ⟨after, run⟩ := @ih mid more keeps
      exact ⟨after, bind_ok.mpr ⟨_, drained, run⟩⟩

theorem sweep_total {key : Key} (held : kept db) (isFit : ∀ candidate ∈ sweepCandidates state db key,
      fit candidate.payload candidate.signature candidate.canonicalHash candidate.edge) :
    ∃ after flag, sweepPendingProjections state db key = .ok (after, flag) := by
  have safe : Safe (Prismoire.sweepAttempt state) (fun acc : Db × Bool => kept acc.1) (fun _ _ => True)
      (fun _ _ => True) (sweepCandidates state db key) := by
    rintro candidate mem ⟨mid, flag⟩ held' -
    have runs : ∃ outcome result, Prismoire.sweepAttempt state (mid, flag) candidate = .ok (outcome, result) := by
      obtain ⟨⟨projection, tried⟩, run⟩ := tryProject_total inserts held' (isFit candidate mem)
      have keeps := walk.tryProject held' (isFit candidate mem) run
      obtain ⟨last, drained⟩ := @drainLoop_total _ _ _ tried (tried.pendingTrustEdges.length + 1)
        [candidate.canonicalHash] walk inserts keeps
      simp only [Prismoire.sweepAttempt, run, bind, Except.bind, drainPendingOrphansAfter]
      cases projection with
      | projected => exact ⟨_, _, by rw [drained]; rfl⟩
      | deferred => exact ⟨_, _, rfl⟩
      | endpointMissing => exact ⟨_, _, rfl⟩
      | chainFork => exact ⟨_, _, rfl⟩
    obtain ⟨outcome, result, run⟩ := runs
    exact ⟨outcome, result, run, walk.sweepAttempt held' (isFit candidate mem) run, fun _ => trivial,
      fun _ _ _ => trivial⟩
  have start : (fun acc : Db × Bool => kept acc.1) (db, false) := held
  obtain ⟨⟨after, flag⟩, run, -⟩ := settle_total (fun _ _ _ => trivial) safe
    (pairwise_of_forall fun _ _ => trivial) start fun _ _ => trivial
  exact ⟨after, flag, run⟩

end EdgeWalk

namespace EdgeArrival

variable (walk : EdgeArrival state fit kept)
include walk

theorem endpointMissing (held : kept db) : kept (recordEndpointMissing db edge hash signature payload peer).2 := by
  simp only [recordEndpointMissing]
  split
  · exact walk.frontier _ held
  · exact held

theorem reattempt (held : kept db)
    (isFit : ∀ row ∈ db.signedObjects.find? (·.canonicalHash = hash), ∀ payload ∈ row.payload, ∀ edge,
      state.platform.parse payload = some (.trustEdge edge) → fit payload row.signature hash edge)
    (run : reattemptUnprojectedEdge state db hash peer = .ok (recovery, after)) : kept after := by
  unfold reattemptUnprojectedEdge at run
  split at run
  · cases run
    exact held
  · rename_i row found
    split at run
    · cases run
      exact held
    · rename_i payload live
      split at run
      · rename_i edge parses
        obtain ⟨⟨projection, mid⟩, tried, rest⟩ := bind_ok.mp run
        have now := walk.tryProject held (isFit row found payload live edge parses) tried
        cases projection with
        | projected =>
          obtain ⟨drained, ran, returned⟩ := bind_ok.mp rest
          cases returned
          exact walk.drainLoop now ran
        | endpointMissing =>
          have final := congrArg Prod.snd (Except.ok.inj rest)
          dsimp only at final
          rw [← final]
          exact walk.endpointMissing now
        | chainFork => cases rest; exact now
        | deferred => cases rest; exact now
      · cases run
        exact held

theorem receive {status : EdgeStatus} (held : kept db) (isFit : fit payload signature hash edge)
    (run : receiveEdge state db edge hash signature payload peer = .ok (status, recovery, after)) : kept after := by
  obtain ⟨⟨projection, mid⟩, tried, rest⟩ := bind_ok.mp run
  have now := walk.tryProject held isFit tried
  have stored := walk.store now isFit
  cases projection with
  | projected =>
    obtain ⟨drained, ran, returned⟩ := bind_ok.mp rest
    cases returned
    exact walk.drainLoop stored ran
  | endpointMissing =>
    cases rest
    exact walk.endpointMissing stored
  | chainFork =>
    cases rest
    exact stored
  | deferred =>
    dsimp only at rest
    split at rest
    · cases rest
      exact now
    · rename_i prior chained
      cases rest
      unfold enqueuePendingTrustEdge
      rw [chained]
      dsimp only
      split
      · exact now
      · exact walk.enqueue now isFit chained

theorem apply {answer : EdgeResult × Option EdgeRecovery} (held : kept db)
    (isFit : ∀ payload signature hash edge, AttemptedBytes state db wire payload signature hash edge →
      fit payload signature hash edge)
    (run : applyOneEdgeInner state db wire peer = .ok (answer, after)) : kept after := by
  unfold applyOneEdgeInner at run
  unfold AttemptedBytes attemptedEdge at isFit
  split at run
  · cases run
    exact held
  · rename_i payload signature decodes
    rw [decodes] at isFit
    dsimp only at run isFit
    split at run
    · rename_i row found
      rw [found] at isFit
      dsimp only at isFit
      split at run
      · cases run
        exact held
      · rename_i standing
        split at run
        · cases run
          exact held
        · rename_i unprojected
          obtain ⟨⟨recovery, mid⟩, reattempted, returned⟩ := bind_ok.mp run
          cases returned
          refine walk.reattempt held ?_ reattempted
          intro row' found' payload' live edge parses
          cases found.symm.trans found'
          refine isFit payload' row.signature _ edge ⟨?_, parses, .inl ⟨row, mem_of_find?_eq_some found, live, rfl,
            by simpa using find?_some found⟩⟩
          have open' : ¬ (row.erased || db.hasEdge (state.platform.sha256 payload)) = true := by
            simp only [Bool.or_eq_true, not_or] at standing ⊢
            exact ⟨standing.1, unprojected⟩
          rw [if_neg open', mem_def.mp live, bind_some, parses]
          rfl
    · rename_i unknown
      rw [unknown] at isFit
      dsimp only at isFit
      split at run
      · cases run
        exact held
      · rename_i edge parses
        rw [parses] at isFit
        dsimp only at isFit
        split at run
        · rename_i verified
          obtain ⟨⟨status, recovery, mid⟩, received, returned⟩ := bind_ok.mp run
          cases returned
          rw [if_pos verified] at isFit
          exact walk.receive held (isFit _ _ _ _ ⟨rfl, parses, .inr ⟨rfl, rfl, verified⟩⟩) received
        · cases run
          exact held
      · cases run
        exact held

theorem deliver (held : kept db)
    (isFit : ∀ payload signature hash edge, AttemptedBytes state db wire payload signature hash edge →
      fit payload signature hash edge) : kept (deliverEdge state db wire peer) := by
  unfold deliverEdge
  split
  · rename_i answer final run
    exact walk.apply held isFit run
  · exact held

theorem receive_total (inserts : ∀ {db payload signature hash edge}, kept db → fit payload signature hash edge →
      ∃ after, insertTrustEdge state db edge hash signature payload = .ok after)
    (held : kept db) (isFit : fit payload signature hash edge) :
    ∃ result, receiveEdge state db edge hash signature payload peer = .ok result := by
  obtain ⟨⟨projection, mid⟩, tried⟩ := EdgeWalk.tryProject_total inserts held isFit
  have stored := walk.store (walk.tryProject held isFit tried) isFit
  obtain ⟨after, drained⟩ := @EdgeWalk.drainLoop_total _ _ _ (mid.storeSignedObject .trustEdge payload signature hash)
    ((mid.storeSignedObject .trustEdge payload signature hash).pendingTrustEdges.length + 1) [hash] walk.toEdgeWalk inserts stored
  unfold receiveEdge
  simp only [tried, bind, Except.bind, drainPendingOrphansAfter]
  cases projection with
  | projected => exact ⟨_, by rw [drained]; rfl⟩
  | endpointMissing => exact ⟨_, rfl⟩
  | chainFork => exact ⟨_, rfl⟩
  | deferred => cases edge.priorEdgeHash <;> exact ⟨_, rfl⟩

end EdgeArrival

end Prismoire
