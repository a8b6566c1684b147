import Prismoire.EdgeLedger

namespace Prismoire

open Lib List Function Db

/-- The two tables of edges in force and of stored bytes agree with the ledger. -/
structure Represents {platform : Platform} (source target : Key) (edges : List (SignedEdge platform))
    (state : AppState) (active archived : List (SignedEdge platform)) (db : Db) : Prop where
  activeRows : db.trustEdges = active.map fun e => edgeRow state e.edge e.hash e.signature
  activeMem : ∀ e ∈ active, e ∈ edges
  archivedMem : ∀ e ∈ archived, e ∈ edges
  apart : ∀ e ∈ archived, Ledger.holds active e.hash = false
  linked : Linked SignedEdge.hash SignedEdge.prior none active
  known : ∀ row ∈ db.signedObjects,
    (∃ e ∈ active ++ archived, row.canonicalHash = e.hash ∧ (row.payload ≠ none → row = e.liveRow)) ∨
      (row.innerClass ≠ .trustEdge ∧ ∀ e ∈ edges, row.canonicalHash ≠ e.hash)
  activeStored : ∀ e ∈ active, db.hasObject e.hash = true
  archivedLive : ∀ e ∈ archived, e.liveRow ∈ db.signedObjects
  tipLive : ∀ e, active.getLast? = some e → e.liveRow ∈ db.signedObjects
  unique : ∀ row ∈ db.signedObjects, ∀ other ∈ db.signedObjects, row.canonicalHash = other.canonicalHash → row = other

variable {db : Db} {platform : Platform} {source target : Key} {state : AppState} {hash : Hash}

section Represents

variable {edges active archived : List (SignedEdge platform)}

theorem Ledger.holds_of_mem (free : ForkFree source target edges)
    {e : SignedEdge platform} (mem : e ∈ edges) (sub : ∀ f ∈ active, f ∈ edges) :
    Ledger.holds active e.hash = true ↔ e ∈ active := by
  rw [Ledger.holds_iff]
  constructor
  · rintro ⟨f, inActive, same⟩
    exact free.distinct f (sub f inActive) e mem same ▸ inActive
  · intro inActive
    exact ⟨e, inActive, rfl⟩

variable (rep : Represents source target edges state active archived db)
include rep

theorem Represents.hasEdge_iff : db.hasEdge hash = Ledger.holds active hash := by
  simp [hasEdge, rep.activeRows, Ledger.holds, any_map, edgeRow, comp_def]

theorem Represents.hasPairEdge_iff (free : ForkFree source target edges) :
    db.hasPairEdge source target hash = Ledger.holds active hash := by
  rw [Bool.eq_iff_iff]
  simp only [hasPairEdge, rep.activeRows, any_map, any_eq_true, comp_apply,
    edgeRow, decide_eq_true_eq, Ledger.holds_iff]
  constructor
  · rintro ⟨e, inActive, -, -, same⟩
    exact ⟨e, inActive, same⟩
  · rintro ⟨e, inActive, same⟩
    obtain ⟨fromSource, toTarget⟩ := free.pair e (rep.activeMem e inActive)
    exact ⟨e, inActive, fromSource, toTarget, same⟩

theorem Represents.not_forked (free : ForkFree source target edges) {e : SignedEdge platform} (mem : e ∈ edges) :
    db.edgeForked e.edge e.hash = false := by
  rw [Bool.eq_false_iff]
  intro forked
  simp only [edgeForked, rep.activeRows, any_map, any_eq_true, comp_apply,
    edgeRow, decide_eq_true_eq] at forked
  obtain ⟨f, inActive, -, -, samePrior, otherHash⟩ := forked
  exact otherHash (congrArg _ (free.linear f (rep.activeMem f inActive) e mem samePrior))

theorem Represents.hasObject_iff {e : SignedEdge platform} (mem : e ∈ edges) :
    db.hasObject e.hash = true ↔ Ledger.holds active e.hash = true ∨ Ledger.holds archived e.hash = true := by
  simp only [hasObject, any_eq_true, decide_eq_true_eq]
  constructor
  · rintro ⟨row, stored, same⟩
    rcases rep.known row stored with ⟨f, inLedger, sameHash, -⟩ | ⟨-, foreign⟩
    rotate_left
    · exact absurd same (foreign e mem)
    rcases mem_append.mp inLedger with inActive | inArchived
    · exact .inl (Ledger.holds_iff.mpr ⟨f, inActive, sameHash ▸ same⟩)
    · exact .inr (Ledger.holds_iff.mpr ⟨f, inArchived, sameHash ▸ same⟩)
  · rintro (held | held)
    · obtain ⟨f, inActive, same⟩ := Ledger.holds_iff.mp held
      have stored := rep.activeStored f inActive
      simp only [hasObject, any_eq_true, decide_eq_true_eq, same] at stored
      exact stored
    · obtain ⟨f, inArchived, same⟩ := Ledger.holds_iff.mp held
      exact ⟨f.liveRow, rep.archivedLive f inArchived, same⟩

theorem Represents.tryProject (sourceKnown : db.hasUser source = true) (targetKnown : db.hasUser target = true)
    (free : ForkFree source target edges) {e : SignedEdge platform} (mem : e ∈ edges) :
    tryProjectTrustEdge state db e.edge e.hash e.signature e.payload =
      if Ledger.holds active e.hash then .ok (.projected, db)
      else if e.prior.all (Ledger.holds active) then
        (insertTrustEdge state db e.edge e.hash e.signature e.payload).map fun db => (.projected, db)
      else .ok (.deferred, db) := by
  obtain ⟨fromSource, toTarget⟩ := free.pair e mem
  have endpoints : (!db.hasUser e.edge.fromKey || !db.hasUser e.edge.toKey) = false := by
    simp [fromSource, toTarget, sourceKnown, targetKnown]
  simp only [tryProjectTrustEdge, endpoints, rep.hasEdge_iff, rep.not_forked free mem,
    Bool.false_eq_true, if_false]
  split
  · rfl
  · rw [fromSource, toTarget]
    cases prior : e.edge.priorEdgeHash with
    | none =>
      simp only [SignedEdge.prior, prior, Option.any_none, Option.all_none, if_true]
      rfl
    | some hash =>
      simp only [SignedEdge.prior, prior, Option.any_some, Option.all_some,
        rep.hasPairEdge_iff free, Bool.not_eq_true']
      cases Ledger.holds active hash <;> rfl

theorem Represents.congr {other : Db}
    (sameEdges : other.trustEdges = db.trustEdges) (sameObjects : other.signedObjects = db.signedObjects) :
    Represents source target edges state active archived other := by
  have sameStored : other.hasObject = db.hasObject := by
    funext hash
    rw [hasObject, hasObject, sameObjects]
  exact ⟨sameEdges.trans rep.activeRows, rep.activeMem, rep.archivedMem, rep.apart, rep.linked,
    sameObjects ▸ rep.known, sameStored ▸ rep.activeStored, sameObjects ▸ rep.archivedLive,
    sameObjects ▸ rep.tipLive, sameObjects ▸ rep.unique⟩

/-- What a neutral edge would erase: the live payloads of the edges in force, its own excepted. -/
def Ledger.revoked (active : List (SignedEdge platform)) (e : SignedEdge platform) (hash : Hash) : Bool :=
  decide (hash ≠ e.hash) && Ledger.holds active hash

variable {e : SignedEdge platform} (free : ForkFree source target edges) (mem : e ∈ edges)
include free mem

theorem Represents.eraseChain : (withTrustEdge state db e.edge e.hash e.signature e.payload).eraseTrustEdgeChain
        e.edge.fromKey e.edge.toKey e.hash =
      (withTrustEdge state db e.edge e.hash e.signature e.payload).erasePayloads
        (Ledger.revoked active e) (some e.hash) := by
  obtain ⟨fromSource, toTarget⟩ := free.pair e mem
  have same : (fun hash => decide (hash ≠ e.hash ∧
      (withTrustEdge state db e.edge e.hash e.signature e.payload).trustEdges.any fun row =>
        row.canonicalHash = hash ∧ row.sourceUser = e.edge.fromKey ∧ row.targetUser = e.edge.toKey)) =
      Ledger.revoked active e := by
    funext hash
    rw [Bool.eq_iff_iff]
    simp only [withTrustEdge, rep.activeRows, fromSource, toTarget, any_append, any_map,
      any_cons, any_nil, Bool.or_false, Bool.or_eq_true, any_eq_true,
      comp_apply, edgeRow, decide_eq_true_eq, Ledger.revoked, Ledger.holds_iff,
      Bool.and_eq_true]
    refine and_congr_right fun other => ?_
    constructor
    · rintro (⟨f, inActive, sameHash, -⟩ | ⟨sameHash, -⟩)
      · exact ⟨f, inActive, sameHash⟩
      · exact absurd sameHash.symm other
    · rintro ⟨f, inActive, sameHash⟩
      exact .inl ⟨f, inActive, sameHash, free.pair f (rep.activeMem f inActive)⟩
  rw [eraseTrustEdgeChain, same]

variable (fresh : Ledger.holds active e.hash = false) (next : e.prior = tip SignedEdge.hash active)

include fresh next

theorem Represents.extend (erased : Hash → Bool) (frontier : List FrontierEdgeRow)
    (spares : ∀ hash, erased hash = true → hash ≠ e.hash ∧ Ledger.holds active hash = true) :
    Represents source target edges state (active ++ [e]) (archived.filter (·.hash ≠ e.hash))
      (storeSignedObject { db with
        trustEdges := db.trustEdges ++ [edgeRow state e.edge e.hash e.signature]
        frontierEdges := frontier
        signedObjects := updateWhere (erasable erased) (eraseRow (some e.hash)) db.signedObjects }
        .trustEdge e.payload e.signature e.hash) := by
  let rows := updateWhere (erasable erased) (eraseRow (some e.hash)) db.signedObjects
  let after := storeSignedObject { db with
    trustEdges := db.trustEdges ++ [edgeRow state e.edge e.hash e.signature]
    frontierEdges := frontier
    signedObjects := rows }
    .trustEdge e.payload e.signature e.hash
  have sameStored : ∀ hash, rows.any (fun row => decide (row.canonicalHash = hash)) = db.hasObject hash := by
    intro hash
    exact any_updateWhere (by intro row; rfl) db.signedObjects
  have stored : ∀ row, row ∈ after.signedObjects ↔ row ∈ rows ∨ (db.hasObject e.hash = false ∧ row = e.liveRow) := by
    intro row
    simp only [after, storeSignedObject, hasObject, sameStored]
    cases present : db.signedObjects.any (fun row => decide (row.canonicalHash = e.hash)) with
    | true => simp
    | false => simp [SignedEdge.liveRow]
  have survives : ∀ f : SignedEdge platform, f.liveRow ∈ db.signedObjects → erased f.hash = false → f.liveRow ∈ rows := by
    intro f live safe
    exact mem_updateWhere.mpr ⟨f.liveRow, live, .inr ⟨by simp [erasable, SignedEdge.liveRow, safe], rfl⟩⟩
  have origin : ∀ row ∈ rows, ∃ old ∈ db.signedObjects, row.canonicalHash = old.canonicalHash ∧
        row = (if erasable erased old then eraseRow (some e.hash) old else old) := by
    intro row inUpdated
    obtain ⟨old, inOld, ⟨hit, rfl⟩ | ⟨hit, rfl⟩⟩ := mem_updateWhere.mp inUpdated
    · exact ⟨old, inOld, rfl, by simp [hit]⟩
    · exact ⟨row, inOld, rfl, by simp [hit]⟩
  refine ⟨?_, ?_, ?_, ?_, ?_, ?_, ?_, ?_, ?_, ?_⟩
  · simp [storeSignedObject, rep.activeRows]
  · exact forall_mem_concat.mpr ⟨rep.activeMem, mem⟩
  · intro f inArchived
    exact rep.archivedMem f (mem_filter.mp inArchived).1
  · intro f inArchived
    obtain ⟨inOld, other⟩ := mem_filter.mp inArchived
    have apart := rep.apart f inOld
    simp only [Ledger.holds, any_append, any_cons, any_nil, Bool.or_false] at apart ⊢
    have differs : f.hash ≠ e.hash := by simpa using other
    rw [apart, Bool.false_or]
    exact decide_eq_false differs.symm
  · exact rep.linked.append (by rw [next, Option.or_none])
  · intro row inStored
    rcases (stored row).mp inStored with inUpdated | ⟨-, rfl⟩
    · obtain ⟨old, inOld, sameHash, shape⟩ := origin row inUpdated
      rcases rep.known old inOld with ⟨f, inLedger, hashF, liveF⟩ | ⟨otherClass, foreign⟩
      rotate_left
      · right
        have sameClass : row.innerClass = old.innerClass := by
          rw [shape]
          split <;> rfl
        exact ⟨sameClass ▸ otherClass, fun f inEdges => sameHash ▸ foreign f inEdges⟩
      left
      have live : row.payload ≠ none → row = f.liveRow := by
        intro some
        cases hit : erasable erased old with
        | true => simp [shape, hit, eraseRow] at some
        | false =>
          have unchanged : row = old := by simp [shape, hit]
          exact unchanged ▸ liveF (unchanged ▸ some)
      refine ⟨f, ?_, sameHash.trans hashF, live⟩
      rcases mem_append.mp inLedger with inActive | inArchived
      · exact mem_append_left _ (mem_append_left _ inActive)
      · by_cases same : f.hash = e.hash
        · have isE : f = e := free.distinct f (rep.archivedMem f inArchived) e mem same
          simp [isE]
        · exact mem_append_right _ (mem_filter.mpr ⟨inArchived, by simpa using same⟩)
    · exact .inl ⟨e, by simp, rfl, fun _ => rfl⟩
  · intro f inActive
    have present : ∃ row ∈ after.signedObjects, row.canonicalHash = f.hash := by
      cases known : db.hasObject f.hash with
      | true =>
        rw [← sameStored, any_eq_true] at known
        obtain ⟨row, inUpdated, same⟩ := known
        exact ⟨row, (stored row).mpr (.inl inUpdated), by simpa using same⟩
      | false =>
        rcases mem_concat.mp inActive with old | rfl
        · rw [rep.activeStored f old] at known
          cases known
        · exact ⟨f.liveRow, (stored _).mpr (.inr ⟨known, rfl⟩), rfl⟩
    simpa [hasObject] using present
  · intro f inArchived
    have inOld := (mem_filter.mp inArchived).1
    refine (stored _).mpr (.inl (survives f (rep.archivedLive f inOld) ?_))
    rw [Bool.eq_false_iff]
    intro doomed
    exact absurd (spares f.hash doomed).2 (by simp [rep.apart f inOld])
  · intro f last
    obtain rfl : e = f := by simpa using last
    cases known : db.hasObject e.hash with
    | false => exact (stored _).mpr (.inr ⟨known, rfl⟩)
    | true =>
      have held := (rep.hasObject_iff mem).mp known
      simp only [fresh, Bool.false_eq_true, false_or] at held
      obtain ⟨f, inArchived, same⟩ := Ledger.holds_iff.mp held
      obtain rfl := free.distinct f (rep.archivedMem f inArchived) e mem same
      refine (stored _).mpr (.inl (survives f (rep.archivedLive f inArchived) ?_))
      rw [Bool.eq_false_iff]
      exact fun doomed => (spares f.hash doomed).1 rfl
  · have absent : ∀ row ∈ rows, db.hasObject e.hash = false → row.canonicalHash ≠ e.hash := by
      intro row inUpdated unknown same
      rw [← sameStored, any_eq_false] at unknown
      exact unknown row inUpdated (by simpa using same)
    intro row inStored other inStored' same
    rcases (stored row).mp inStored with inUpdated | ⟨unknown, rfl⟩
    · rcases (stored other).mp inStored' with inUpdated' | ⟨unknown, rfl⟩
      · obtain ⟨old, inOld, hashOld, rfl⟩ := origin row inUpdated
        obtain ⟨old', inOld', hashOld', rfl⟩ := origin other inUpdated'
        rw [rep.unique old inOld old' inOld' (hashOld.symm.trans (same.trans hashOld'))]
      · exact absurd same (absent row inUpdated unknown)
    · rcases (stored other).mp inStored' with inUpdated' | ⟨-, rfl⟩
      · exact absurd same.symm (absent other inUpdated' unknown)
      · rfl

theorem Represents.activate (allowed : e.neutral = false ∨ Ledger.holds archived e.hash = true ∨ e.prior = none) :
    ∃ after, insertTrustEdge state db e.edge e.hash e.signature e.payload = .ok after ∧
      after.users = db.users ∧ after.pendingTrustEdges = db.pendingTrustEdges ∧
      after.hasObject = db.hasObject ∧
      Represents source target edges state (active ++ [e]) (archived.filter (·.hash ≠ e.hash))
        (after.storeSignedObject .trustEdge e.payload e.signature e.hash) := by
  cases neutral : e.neutral with
  | false =>
    have stance : e.edge.stance ≠ .neutral := by simpa [SignedEdge.neutral] using neutral
    have calm : updateWhere (erasable fun _ => false) (eraseRow (some e.hash)) db.signedObjects =
        db.signedObjects := updateWhere_eq_self (by simp [erasable])
    refine ⟨withTrustEdge state db e.edge e.hash e.signature e.payload, ?_, rfl, rfl, rfl, ?_⟩
    · simp only [insertTrustEdge, stance, if_false]
    · have extended := rep.extend free mem fresh next (fun _ => false)
        (withTrustEdge state db e.edge e.hash e.signature e.payload).frontierEdges (by simp)
      rw [calm] at extended
      exact extended
  | true =>
    have stance : e.edge.stance = .neutral := by simpa [SignedEdge.neutral] using neutral
    have stamps : ∀ row ∈ db.signedObjects, erasable (Ledger.revoked active e) row = true →
        (row.erasedBy.or (some e.hash)).all db.hasObject = true := by
      intro row inStored hit
      simp only [erasable, Ledger.revoked, Bool.and_eq_true] at hit
      have unstamped : row.erasedBy = none := by
        rcases rep.known row inStored with ⟨f, -, -, live⟩ | ⟨-, foreign⟩
        · rw [live (Option.isSome_iff_ne_none.mp hit.1)]
          rfl
        · obtain ⟨f, inActive, same⟩ := Ledger.holds_iff.mp hit.2.2
          exact absurd same.symm (foreign f (rep.activeMem f inActive))
      have presentE : db.hasObject e.hash = true := by
        rcases allowed with calm | stored | root
        · rw [neutral] at calm
          cases calm
        · exact (rep.hasObject_iff mem).mpr (.inr stored)
        · rw [next] at root
          obtain ⟨g, inActive, -⟩ := Ledger.holds_iff.mp hit.2.2
          have empty : active = [] := by
            simpa [tip] using root
          rw [empty] at inActive
          cases inActive
      simpa [unstamped] using presentE
    have erased : insertTrustEdge state db e.edge e.hash e.signature e.payload = .ok
        { withTrustEdge state db e.edge e.hash e.signature e.payload with
          signedObjects := updateWhere (erasable (Ledger.revoked active e))
            (eraseRow (some e.hash)) db.signedObjects } := by
      simp only [insertTrustEdge, stance, if_true]
      rw [rep.eraseChain free mem]
      have allowed : ∀ row ∈ (withTrustEdge state db e.edge e.hash e.signature e.payload).signedObjects,
          erasable (Ledger.revoked active e) row = true → (row.erasedBy.or (some e.hash)).all
            (withTrustEdge state db e.edge e.hash e.signature e.payload).hasObject = true := stamps
      exact erasePayloads_ok allowed
    have kept : ({ withTrustEdge state db e.edge e.hash e.signature e.payload with
        signedObjects := updateWhere (erasable (Ledger.revoked active e))
          (eraseRow (some e.hash)) db.signedObjects } : Db).hasObject = db.hasObject := by
      funext hash
      exact any_updateWhere (by intro row; rfl) db.signedObjects
    refine ⟨_, erased, rfl, rfl, kept, rep.extend free mem fresh next (Ledger.revoked active e)
      (withTrustEdge state db e.edge e.hash e.signature e.payload).frontierEdges ?_⟩
    · intro hash doomed
      simpa [Ledger.revoked] using doomed

theorem Represents.refuse (neutral : e.neutral = true) (unstored : Ledger.holds archived e.hash = false)
    (revokes : e.prior ≠ none) :
    insertTrustEdge state db e.edge e.hash e.signature e.payload = .error .foreignKey := by
  have stance : e.edge.stance = .neutral := by simpa [SignedEdge.neutral] using neutral
  obtain ⟨hash, atTip⟩ := Option.ne_none_iff_exists'.mp (next ▸ revokes)
  obtain ⟨p, inActive, last, -⟩ := Ledger.tip_mem atTip
  have other : p.hash ≠ e.hash := by
    intro same
    exact absurd (Ledger.holds_iff.mpr ⟨p, inActive, same⟩) (by simp [fresh])
  have absent : db.hasObject e.hash = false := by
    rw [Bool.eq_false_iff]
    intro present
    rcases (rep.hasObject_iff mem).mp present with held | held
    · simp [fresh] at held
    · simp [unstored] at held
  simp only [insertTrustEdge, stance, if_true]
  rw [rep.eraseChain free mem]
  refine erasePayloads_error (rep.tipLive p last) ?_ rfl absent
  simp only [erasable, SignedEdge.liveRow, Ledger.revoked, Option.isSome_some, Bool.true_and, Bool.and_eq_true]
  exact ⟨decide_eq_true other, Ledger.holds_iff.mpr ⟨p, inActive, rfl⟩⟩

end Represents

/-- The database holds exactly what the ledger says about the pair. -/
structure Tracks {platform : Platform} (source target : Key) (edges : List (SignedEdge platform))
    (state : AppState) (l : Ledger platform) (db : Db) : Prop where
  rep : Represents source target edges state l.active l.archived db
  sourceKnown : db.hasUser source = true
  targetKnown : db.hasUser target = true
  pending : db.pendingTrustEdges = l.buffered.map SignedEdge.pendingRow
  bufferedMem : ∀ e ∈ l.buffered, e ∈ edges
  bufferedPrior : ∀ e ∈ l.buffered, e.prior ≠ none
  bufferedNew : ∀ e ∈ l.buffered, Ledger.holds l.active e.hash = false ∧ Ledger.holds l.archived e.hash = false
  bufferedNodup : l.buffered.Nodup

variable {edges : List (SignedEdge platform)} {l : Ledger platform}

theorem SignedEdge.pendingRow_prior {e : SignedEdge platform} (waits : e.prior ≠ none) :
    e.pendingRow.priorEdgeHash = hash ↔ e.prior = some hash := by
  obtain ⟨prior, isPrior⟩ := Option.ne_none_iff_exists'.mp waits
  simp [SignedEdge.pendingRow, isPrior]

theorem Tracks.waitingFor (tracks : Tracks source target edges state l db)
    (free : ForkFree source target edges) (hash : Hash) :
    db.pendingTrustEdges.filter (·.priorEdgeHash = hash) =
      ((l.buffered.find? (·.prior = some hash)).toList).map SignedEdge.pendingRow := by
  rw [tracks.pending, filter_map]
  congr 1
  have same : l.buffered.filter ((fun row => decide (row.priorEdgeHash = hash)) ∘ SignedEdge.pendingRow) =
      l.buffered.filter (·.prior = some hash) := by
    apply filter_congr
    intro e inBuffer
    simp only [comp_apply, SignedEdge.pendingRow_prior (tracks.bufferedPrior e inBuffer)]
  rw [same]
  apply filter_eq_find? tracks.bufferedNodup
  intro e inE f inF waitsE waitsF
  rw [decide_eq_true_eq] at waitsE waitsF
  exact free.linear e (tracks.bufferedMem e inE) f (tracks.bufferedMem f inF) (waitsE.trans waitsF.symm)

end Prismoire
