import Prismoire.EdgeRefinement

namespace Prismoire

open Lib List Option Db

variable {platform : Platform} {source target : Key} {edges : List (SignedEdge platform)}
  {state : AppState} {db : Db} {l : Ledger platform}

/-- A buffered edge stays new when another one is activated. -/
theorem Tracks.new_activate (tracks : Tracks source target edges state l db) {e f : SignedEdge platform}
    (inBuffer : f ∈ l.buffered) (differs : e.hash ≠ f.hash) :
    Ledger.holds (l.active ++ [e]) f.hash = false ∧ Ledger.holds (l.archived.filter (·.hash ≠ e.hash)) f.hash = false := by
  obtain ⟨fresh, unstored⟩ := tracks.bufferedNew f inBuffer
  constructor
  · simp only [Ledger.holds, any_append, any_cons, any_nil, Bool.or_false] at fresh ⊢
    rw [fresh, Bool.false_or]
    exact decide_eq_false differs
  · rw [Bool.eq_false_iff] at unstored ⊢
    intro held
    obtain ⟨g, inArchived, sameHash⟩ := Ledger.holds_iff.mp held
    exact unstored (Ledger.holds_iff.mpr ⟨g, (mem_filter.mp inArchived).1, sameHash⟩)

theorem Tracks.drainRow (tracks : Tracks source target edges state l db)
    (free : ForkFree source target edges) (same : state.platform = platform)
    {next : SignedEdge platform} (inBuffer : next ∈ l.buffered)
    (atTip : next.prior = tip SignedEdge.hash l.active) :
    (next.neutral = true → Prismoire.drainRow state (db, []) next.pendingRow = .error .foreignKey) ∧
    (next.neutral = false → ∃ after, Prismoire.drainRow state (db, []) next.pendingRow = .ok (after, [next.hash]) ∧
      Tracks source target edges state
        ({ l with buffered := l.buffered.filter (·.prior ≠ next.prior) }.activate next) after) := by
  subst same
  have mem := tracks.bufferedMem next inBuffer
  obtain ⟨fresh, unstored⟩ := tracks.bufferedNew next inBuffer
  have revokes := tracks.bufferedPrior next inBuffer
  have ground := (Ledger.grounded_iff free tracks.rep.linked tracks.rep.activeMem mem fresh).mpr atTip
  have tried := tracks.rep.tryProject tracks.sourceKnown tracks.targetKnown free mem
  rw [fresh, ground] at tried
  simp only [Bool.false_eq_true, if_false, if_true] at tried
  constructor
  · intro neutral
    have refused := tracks.rep.refuse free mem fresh atTip neutral unstored revokes
    rw [refused] at tried
    simp only [Prismoire.drainRow, SignedEdge.pendingRow, next.parses, tried]
    rfl
  · intro calm
    obtain ⟨after, inserted, users, frame, -, rep⟩ := tracks.rep.activate free mem fresh atTip (.inl calm)
    rw [inserted] at tried
    refine ⟨deletePendingOrphan (after.storeSignedObject .trustEdge next.payload next.signature next.hash)
      next.pendingRow.sourcePubkey next.pendingRow.priorEdgeHash, ?_, ?_⟩
    · simp only [Prismoire.drainRow, SignedEdge.pendingRow, next.parses, tried]
      rfl
    · have frameRep : Represents source target edges state (l.active ++ [next])
          (l.archived.filter (·.hash ≠ next.hash))
          (deletePendingOrphan (after.storeSignedObject .trustEdge next.payload next.signature next.hash)
            next.pendingRow.sourcePubkey next.pendingRow.priorEdgeHash) :=
        rep.congr rfl rfl
      have sameUsers : ∀ key, (deletePendingOrphan
          (after.storeSignedObject .trustEdge next.payload next.signature next.hash)
          next.pendingRow.sourcePubkey next.pendingRow.priorEdgeHash).hasUser key = db.hasUser key := by
        intro key
        simp only [hasUser, deletePendingOrphan, storeSignedObject, users]
      refine ⟨frameRep, (sameUsers _).trans tracks.sourceKnown, (sameUsers _).trans tracks.targetKnown,
        ?_, ?_, ?_, ?_, tracks.bufferedNodup.filter _⟩
      · simp only [deletePendingOrphan, storeSignedObject, frame, tracks.pending, List.filter_map, Ledger.activate]
        congr 1
        apply filter_congr
        intro e inE
        obtain ⟨fromE, -⟩ := free.pair e (tracks.bufferedMem e inE)
        obtain ⟨fromNext, -⟩ := free.pair next mem
        obtain ⟨prior, isPrior⟩ := ne_none_iff_exists'.mp (tracks.bufferedPrior e inE)
        obtain ⟨priorNext, isPriorNext⟩ := ne_none_iff_exists'.mp revokes
        simp [SignedEdge.pendingRow, fromE, fromNext, isPrior, isPriorNext]
      · intro e inE
        exact tracks.bufferedMem e (mem_filter.mp inE).1
      · intro e inE
        exact tracks.bufferedPrior e (mem_filter.mp inE).1
      · intro e inE
        obtain ⟨inOld, other⟩ := mem_filter.mp inE
        refine tracks.new_activate inOld ?_
        intro sameHash
        have isNext := free.distinct next mem e (tracks.bufferedMem e inOld) sameHash
        simp [isNext] at other

theorem drainLoop_nil (fuel : Nat) : drainLoop state fuel [] db = .ok db := by
  cases fuel <;> rfl

theorem Tracks.drainLoop {current : Hash} (tracks : Tracks source target edges state l db) (fuel : Nat)
    (free : ForkFree source target edges) (same : state.platform = platform)
    (atTip : tip SignedEdge.hash l.active = some current) :
    match Ledger.follow fuel l current with
    | none => Prismoire.drainLoop state fuel [current] db = .error .foreignKey
    | some landed => ∃ after, Prismoire.drainLoop state fuel [current] db = .ok after ∧
        Tracks source target edges state landed after := by
  induction fuel generalizing l db current with
  | zero => exact ⟨db, rfl, tracks⟩
  | succ fuel ih =>
    have waiting := tracks.waitingFor free current
    cases found : l.buffered.find? (·.prior = some current) with
    | none =>
      simp only [Ledger.follow, found]
      rw [found] at waiting
      refine ⟨db, ?_, tracks⟩
      simp only [Prismoire.drainLoop, waiting, toList_none, map_nil, foldlM_nil]
      exact drainLoop_nil fuel
    | some next =>
      have inBuffer := mem_of_find?_eq_some found
      have prior : next.prior = some current := by simpa using find?_some found
      obtain ⟨refused, landed⟩ := tracks.drainRow free same inBuffer (prior.trans atTip.symm)
      rw [found] at waiting
      simp only [Ledger.follow, found]
      cases neutral : next.neutral with
      | true =>
        simp only [if_true]
        simp only [Prismoire.drainLoop, waiting, toList_some, map_cons, map_nil,
          foldlM_cons, refused neutral]
        rfl
      | false =>
        obtain ⟨after, ran, tracksAfter⟩ := landed neutral
        simp only [Bool.false_eq_true, if_false]
        rw [prior] at tracksAfter
        have tipAfter : tip SignedEdge.hash ({ l with
            buffered := l.buffered.filter (·.prior ≠ some current) }.activate next).active =
            some next.hash := by
          simp [Ledger.activate, tip]
        have unrolled : Prismoire.drainLoop state (fuel + 1) [current] db =
            Prismoire.drainLoop state fuel [next.hash] after := by
          simp only [Prismoire.drainLoop, waiting, toList_some, map_cons, map_nil,
            foldlM_cons, foldlM_nil, ran]
          rfl
        rw [unrolled]
        exact ih tracksAfter tipAfter

theorem Tracks.land (tracks : Tracks source target edges state l db)
    (free : ForkFree source target edges) (same : state.platform = platform)
    {e : SignedEdge platform} (mem : e ∈ edges) (fresh : Ledger.holds l.active e.hash = false)
    (atTip : e.prior = tip SignedEdge.hash l.active) (unbuffered : e ∉ l.buffered)
    (allowed : e.neutral = false ∨ Ledger.holds l.archived e.hash = true ∨ e.prior = none) :
    ∃ mid, insertTrustEdge state db e.edge e.hash e.signature e.payload = .ok mid ∧ mid.hasObject = db.hasObject ∧
      match drainPendingOrphansAfter state (mid.storeSignedObject .trustEdge e.payload e.signature e.hash) e.hash with
      | .ok after => Tracks source target edges state (l.land e) after
      | .error _ => l.land e = l := by
  obtain ⟨mid, inserted, users, frame, kept, rep⟩ := tracks.rep.activate free mem fresh atTip allowed
  refine ⟨mid, inserted, kept, ?_⟩
  have tracksMid : Tracks source target edges state (l.activate e)
      (mid.storeSignedObject .trustEdge e.payload e.signature e.hash) := by
    have sameUsers : ∀ key, (mid.storeSignedObject .trustEdge e.payload e.signature e.hash).hasUser key =
        db.hasUser key := by
      intro key
      simp only [hasUser, storeSignedObject, users]
    refine ⟨rep, (sameUsers _).trans tracks.sourceKnown, (sameUsers _).trans tracks.targetKnown,
      frame.trans tracks.pending, tracks.bufferedMem, tracks.bufferedPrior, ?_, tracks.bufferedNodup⟩
    intro f inBuffer
    refine tracks.new_activate inBuffer fun sameHash => unbuffered ?_
    exact free.distinct e mem f (tracks.bufferedMem f inBuffer) sameHash ▸ inBuffer
  have fuel : (mid.storeSignedObject .trustEdge e.payload e.signature e.hash).pendingTrustEdges.length =
      l.buffered.length := by
    rw [tracksMid.pending, length_map]
    rfl
  have drained := tracksMid.drainLoop (l.buffered.length + 1) free same
    (show tip SignedEdge.hash (l.activate e).active = some e.hash by simp [Ledger.activate, tip])
  rw [drainPendingOrphansAfter, fuel]
  cases followed : Ledger.follow (l.buffered.length + 1) (l.activate e) e.hash with
  | none =>
    rw [followed] at drained
    simp only [drained, Ledger.land, followed, getD_none]
  | some landed =>
    rw [followed] at drained
    obtain ⟨after, ran, tracksAfter⟩ := drained
    simp only [ran, Ledger.land, followed, getD_some]
    exact tracksAfter

section

variable {active archived : List (SignedEdge platform)}
  (rep : Represents source target edges state active archived db)
include rep

theorem Represents.find_archived (free : ForkFree source target edges) {e : SignedEdge platform} (mem : e ∈ edges)
    (held : Ledger.holds archived e.hash = true) :
    db.signedObjects.find? (·.canonicalHash = e.hash) = some e.liveRow := by
  obtain ⟨f, inArchived, sameHash⟩ := Ledger.holds_iff.mp held
  obtain rfl := free.distinct f (rep.archivedMem f inArchived) e mem sameHash
  have live := rep.archivedLive f inArchived
  cases found : db.signedObjects.find? (·.canonicalHash = f.hash) with
  | none =>
    have := find?_eq_none.mp found f.liveRow live
    simp [SignedEdge.liveRow] at this
  | some row =>
    have atHash : row.canonicalHash = f.hash := by simpa using find?_some found
    rw [rep.unique row (mem_of_find?_eq_some found) f.liveRow live atHash]

theorem Represents.find_fresh {e : SignedEdge platform}
    (mem : e ∈ edges) (fresh : Ledger.holds active e.hash = false)
    (unstored : Ledger.holds archived e.hash = false) :
    db.signedObjects.find? (·.canonicalHash = e.hash) = none := by
  cases found : db.signedObjects.find? (·.canonicalHash = e.hash) with
  | none => rfl
  | some row =>
    have atHash : row.canonicalHash = e.hash := by simpa using find?_some found
    have present : db.hasObject e.hash = true :=
      List.any_eq_true.mpr ⟨row, mem_of_find?_eq_some found, by simpa using atHash⟩
    rcases (rep.hasObject_iff mem).mp present with held | held
    · simp [fresh] at held
    · simp [unstored] at held

end

theorem Tracks.deliver_active (tracks : Tracks source target edges state l db)
    (same : state.platform = platform) {e : SignedEdge platform} (mem : e ∈ edges)
    (inForce : Ledger.holds l.active e.hash = true) (peer : Key) :
    deliverEdge state db e.wire peer = db := by
  subst same
  have present := (tracks.rep.hasObject_iff mem).mpr (.inl inForce)
  have projected : db.hasEdge e.hash = true := tracks.rep.hasEdge_iff.trans inForce
  simp only [SignedEdge.hash] at present projected
  cases found : db.signedObjects.find? (·.canonicalHash = state.platform.sha256 e.payload) with
  | none =>
    obtain ⟨row, stored, atHash⟩ := List.any_eq_true.mp present
    exact absurd atHash (find?_eq_none.mp found row stored)
  | some row =>
    simp only [deliverEdge, applyOneEdgeInner, e.decodes, found, projected, if_true]
    cases row.erased || row.payload.isNone <;> rfl

theorem Tracks.deliver_archived (tracks : Tracks source target edges state l db)
    (free : ForkFree source target edges) (same : state.platform = platform)
    {e : SignedEdge platform} (mem : e ∈ edges) (waiting : l.Waiting)
    (fresh : Ledger.holds l.active e.hash = false) (stored : Ledger.holds l.archived e.hash = true)
    (peer : Key) :
    Tracks source target edges state (if l.grounded e then l.land e else l) (deliverEdge state db e.wire peer) := by
  subst same
  have found : db.signedObjects.find? (·.canonicalHash = state.platform.sha256 e.payload) =
      some e.liveRow := tracks.rep.find_archived free mem stored
  have unprojected : db.hasEdge e.hash = false := tracks.rep.hasEdge_iff.trans fresh
  have tried := tracks.rep.tryProject tracks.sourceKnown tracks.targetKnown free mem
  simp only [fresh, Bool.false_eq_true, if_false] at tried
  cases ground : l.grounded e with
  | false =>
    rw [Ledger.grounded] at ground
    simp only [ground, Bool.false_eq_true, if_false] at tried ⊢
    have idle : deliverEdge state db e.wire peer = db := by
      simp only [SignedEdge.hash] at unprojected tried
      simp only [deliverEdge, applyOneEdgeInner, e.decodes, found, SignedEdge.liveRow, isNone_some,
        Bool.or_self, Bool.false_eq_true, if_false, unprojected, reattemptUnprojectedEdge, e.parses, tried]
      rfl
    rw [idle]
    exact tracks
  | true =>
    rw [Ledger.grounded] at ground
    have atTip := (Ledger.grounded_iff free tracks.rep.linked tracks.rep.activeMem mem fresh).mp ground
    have unbuffered : e ∉ l.buffered := fun inBuffer => waiting e inBuffer atTip
    obtain ⟨mid, inserted, kept, landed⟩ :=
      tracks.land free rfl mem fresh atTip unbuffered (.inr (.inl stored))
    have present : mid.hasObject e.hash = true := by
      rw [kept]
      exact (tracks.rep.hasObject_iff mem).mpr (.inr stored)
    rw [storeSignedObject_of_present present] at landed
    rw [ground, inserted] at tried
    simp only [if_true] at tried ⊢
    have ran : deliverEdge state db e.wire peer =
        match drainPendingOrphansAfter state mid e.hash with
        | .ok after => after
        | .error _ => db := by
      simp only [SignedEdge.hash] at unprojected tried ⊢
      simp only [deliverEdge, applyOneEdgeInner, e.decodes, found, SignedEdge.liveRow, isNone_some,
        Bool.or_self, Bool.false_eq_true, if_false, unprojected, reattemptUnprojectedEdge, e.parses, tried,
        Except.map, bind, Except.bind]
      cases drainPendingOrphansAfter state mid (state.platform.sha256 e.payload) <;> rfl
    rw [ran]
    cases drained : drainPendingOrphansAfter state mid e.hash with
    | error failure =>
      rw [drained] at landed
      simp only at landed ⊢
      rw [landed]
      exact tracks
    | ok after =>
      rw [drained] at landed
      exact landed

theorem deliverEdge_fresh (same : state.platform = platform) {e : SignedEdge platform}
    (found : db.signedObjects.find? (·.canonicalHash = e.hash) = none) (peer : Key) :
    deliverEdge state db e.wire peer =
      match receiveEdge state db e.edge e.hash e.signature e.payload peer with
      | .ok (_, _, after) => after
      | .error _ => db := by
  subst same
  have absent : db.signedObjects.find? (·.canonicalHash = state.platform.sha256 e.payload) = none := found
  simp only [deliverEdge, applyOneEdgeInner, e.decodes, absent, e.parses, e.verified, if_true,
    SignedEdge.hash, bind, Except.bind]
  cases receiveEdge state db e.edge (state.platform.sha256 e.payload) e.signature e.payload peer <;> rfl

variable {e : SignedEdge platform} (tracks : Tracks source target edges state l db)
  (free : ForkFree source target edges) (same : state.platform = platform) (mem : e ∈ edges)
include tracks free same mem

theorem Tracks.deliver_fresh_grounded (waiting : l.Waiting)
    (fresh : Ledger.holds l.active e.hash = false) (unstored : Ledger.holds l.archived e.hash = false)
    (ground : l.grounded e = true) (peer : Key) :
    Tracks source target edges state (if e.neutral && e.prior.isSome then l else l.land e)
      (deliverEdge state db e.wire peer) := by
  rw [deliverEdge_fresh same (tracks.rep.find_fresh mem fresh unstored) peer]
  rw [Ledger.grounded] at ground
  have atTip := (Ledger.grounded_iff free tracks.rep.linked tracks.rep.activeMem mem fresh).mp ground
  have tried := tracks.rep.tryProject tracks.sourceKnown tracks.targetKnown free mem
  simp only [fresh, ground, Bool.false_eq_true, if_false, if_true] at tried
  simp only [receiveEdge, tried]
  cases revokes : e.neutral && e.prior.isSome with
  | true =>
    rw [Bool.and_eq_true] at revokes
    rw [tracks.rep.refuse free mem fresh atTip revokes.1 unstored (isSome_iff_ne_none.mp revokes.2)]
    exact tracks
  | false =>
    have allowed : e.neutral = false ∨ Ledger.holds l.archived e.hash = true ∨ e.prior = none := by
      rcases Bool.and_eq_false_iff.mp revokes with calm | root
      · exact .inl calm
      · exact .inr (.inr (by simpa using root))
    have unbuffered : e ∉ l.buffered := fun inBuffer => waiting e inBuffer atTip
    obtain ⟨mid, inserted, -, landed⟩ :=
      tracks.land free same mem fresh atTip unbuffered allowed
    rw [inserted]
    simp only [Bool.false_eq_true, if_false, Except.map, bind, Except.bind]
    cases drained : drainPendingOrphansAfter state
        (mid.storeSignedObject .trustEdge e.payload e.signature e.hash) e.hash with
    | error failure =>
      rw [drained] at landed
      simp only at landed ⊢
      rw [landed]
      exact tracks
    | ok after =>
      rw [drained] at landed
      exact landed

theorem Tracks.deliver_fresh_orphan
    (fresh : Ledger.holds l.active e.hash = false) (unstored : Ledger.holds l.archived e.hash = false)
    (orphan : l.grounded e = false) (peer : Key) :
    Tracks source target edges state
      (if l.buffered.any (·.prior = e.prior) then l else { l with buffered := l.buffered ++ [e] })
      (deliverEdge state db e.wire peer) := by
  rw [deliverEdge_fresh same (tracks.rep.find_fresh mem fresh unstored) peer]
  rw [Ledger.grounded] at orphan
  have tried := tracks.rep.tryProject tracks.sourceKnown tracks.targetKnown free mem
  simp only [fresh, orphan, Bool.false_eq_true, if_false] at tried
  cases prior : e.prior with
  | none => simp [prior] at orphan
  | some hash =>
    have isPrior : e.edge.priorEdgeHash = some hash := prior
    have sameKey : (db.pendingTrustEdges.any fun row =>
        decide (row.sourcePubkey = e.edge.fromKey ∧ row.priorEdgeHash = hash)) =
        l.buffered.any (·.prior = some hash) := by
      rw [tracks.pending, List.any_map, Bool.eq_iff_iff, List.any_eq_true, List.any_eq_true]
      refine exists_congr fun f => and_congr_right fun inBuffer => ?_
      obtain ⟨fromF, -⟩ := free.pair f (tracks.bufferedMem f inBuffer)
      obtain ⟨fromE, -⟩ := free.pair e mem
      simp only [Function.comp_apply, decide_eq_true_eq,
        SignedEdge.pendingRow_prior (tracks.bufferedPrior f inBuffer)]
      simp [SignedEdge.pendingRow, fromF, fromE]
    simp only [receiveEdge, tried, enqueuePendingTrustEdge, isPrior, sameKey, bind, Except.bind]
    cases taken : l.buffered.any (·.prior = some hash) with
    | true => exact tracks
    | false =>
      have untaken : ∀ f ∈ l.buffered, f.prior ≠ some hash := by simpa using taken
      refine ⟨tracks.rep.congr rfl rfl, tracks.sourceKnown, tracks.targetKnown, ?_, ?_, ?_, ?_, ?_⟩
      · simp [tracks.pending, SignedEdge.pendingRow, prior, pure, Except.pure]
      · exact forall_mem_concat.mpr ⟨tracks.bufferedMem, mem⟩
      · exact forall_mem_concat.mpr ⟨tracks.bufferedPrior, prior ▸ some_ne_none hash⟩
      · exact forall_mem_concat.mpr ⟨tracks.bufferedNew, ⟨fresh, unstored⟩⟩
      · refine nodup_append.mpr ⟨tracks.bufferedNodup, by simp, ?_⟩
        rintro f old g new rfl
        exact untaken f old (mem_singleton.mp new ▸ prior)

theorem Tracks.deliver (waiting : l.Waiting) (peer : Key) :
    Tracks source target edges state (l.deliver e) (deliverEdge state db e.wire peer) ∧ (l.deliver e).Waiting := by
  unfold Ledger.deliver
  cases inForce : Ledger.holds l.active e.hash with
  | true =>
    rw [tracks.deliver_active same mem inForce peer]
    exact ⟨tracks, waiting⟩
  | false =>
    cases stored : Ledger.holds l.archived e.hash with
    | true =>
      refine ⟨tracks.deliver_archived free same mem waiting inForce stored peer, ?_⟩
      simp only [Bool.false_eq_true, if_false, if_true]
      split
      · exact Ledger.land_waiting waiting
      · exact waiting
    | false =>
      cases ground : l.grounded e with
      | true =>
        refine ⟨tracks.deliver_fresh_grounded free same mem waiting inForce stored ground peer, ?_⟩
        simp only [Bool.false_eq_true, if_false, if_true]
        split
        · exact waiting
        · exact Ledger.land_waiting waiting
      | false =>
        refine ⟨tracks.deliver_fresh_orphan free same mem inForce stored ground peer, ?_⟩
        simp only [Bool.false_eq_true, if_false]
        split
        · exact waiting
        · refine forall_mem_concat.mpr ⟨waiting, ?_⟩
          intro atTip
          rw [Ledger.grounded, (Ledger.grounded_iff free tracks.rep.linked tracks.rep.activeMem mem
            inForce).mpr atTip] at ground
          cases ground

end Prismoire
