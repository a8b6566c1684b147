import Prismoire.EdgeLedger
import Prismoire.FrontierStore

namespace Prismoire

open Lib List Db

/-- The edge that `current_trust_edges` ranks first for a pair, before it hides a neutral one. -/
def Db.viewChoice (db : Db) (source target : Key) : Option Hash :=
  (firstBy edgeNewer (db.pairEdges source target)).map (·.canonicalHash)

/-- The edge that the reverse frontier takes for a pair. -/
def Db.frontierChoice (db : Db) (source target : Key) : Option Hash :=
  ((activeEdgesBySource (db.frontierEdgesByTarget target)).find? (·.sourcePubkey = source)).map (·.canonicalHash)

section Chains

variable {state : AppState}

def projectChain (state : AppState) {platform : Platform} (db : Db) (chain : List (SignedEdge platform)) : Sql Db :=
  chain.foldlM (fun db e => do
    let (_, db) ← tryProjectTrustEdge state db e.edge e.hash e.signature e.payload
    return db) db

variable {platform : Platform} {source target : Key} {db after : Db} {done todo chain : List (SignedEdge platform)}
variable {e : SignedEdge platform} {edge : TrustEdge}

def edgeRef (generation : Nat) (e : SignedEdge platform) : FrontierEdgeRef where
  canonicalHash := e.hash
  sourcePubkey := e.edge.fromKey
  targetPubkey := e.edge.toKey
  priorEdgeHash := e.prior
  stance := e.edge.stance
  createdAt := clampI64 e.edge.createdAt
  generation := generation

/-- Both tables hold exactly the first part of a chain for its pair, and nothing of the rest. -/
structure Mirrored (state : AppState) (source target : Key) (done todo : List (SignedEdge platform)) (db : Db) :
    Prop where
  endpoints : db.hasUser source = true ∧ db.hasUser target = true
  view : db.pairEdges source target = done.map fun e => edgeRow state e.edge e.hash e.signature
  frontier : (db.frontierEdgesByTarget target).filter (·.sourcePubkey = source) =
    done.map (edgeRef db.currentGeneration)
  unseen : ∀ e ∈ todo, db.hasEdge e.hash = false ∧ ∀ row ∈ db.frontierEdges, row.canonicalHash ≠ e.hash

structure PairChain (source target : Key) (chain : List (SignedEdge platform)) : Prop where
  onPair : ∀ e ∈ chain, e.edge.fromKey = source ∧ e.edge.toKey = target
  linked : Linked SignedEdge.hash SignedEdge.prior none chain
  distinct : (chain.map SignedEdge.hash).Nodup

theorem Linked.priors {α η : Type} {hash : α → η} {prior : α → Option η} {start : Option η} {items : List α}
    (linked : Linked hash prior start items) :
    items.map prior = (start :: items.map fun item => some (hash item)).take items.length := by
  induction items generalizing start with
  | nil => rfl
  | cons item items ih => simp [linked.1, ih linked.2]

theorem PairChain.priors (whole : PairChain source target chain) : (chain.map SignedEdge.prior).Nodup := by
  rw [Linked.priors whole.linked]
  refine List.Nodup.sublist (take_sublist _ _) ?_
  rw [nodup_cons]
  refine ⟨by simp, ?_⟩
  have some_ : (chain.map fun item => some item.hash) = (chain.map SignedEdge.hash).map some := by
    rw [map_map]
    rfl
  rw [some_]
  exact whole.distinct.map (Option.some_injective _)

theorem Mirrored.projects (mirrored : Mirrored state source target done (e :: todo) db)
    (whole : PairChain source target (done ++ e :: todo)) :
    tryProjectTrustEdge state db e.edge e.hash e.signature e.payload =
      (insertTrustEdge state db e.edge e.hash e.signature e.payload).map fun db => (.projected, db) := by
  obtain ⟨fromSource, toTarget⟩ := whole.onPair e (by simp)
  obtain ⟨unknown, -⟩ := mirrored.unseen e (by simp)
  have inPair : ∀ row ∈ db.trustEdges, row.sourceUser = source → row.targetUser = target →
      ∃ f ∈ done, row = edgeRow state f.edge f.hash f.signature := by
    intro row mem isSource isTarget
    have inRows : row ∈ db.pairEdges source target := mem_filter.mpr ⟨mem, by simp [isSource, isTarget]⟩
    rw [mirrored.view] at inRows
    obtain ⟨f, inDone, rfl⟩ := mem_map.mp inRows
    exact ⟨f, inDone, rfl⟩
  have notForked : db.edgeForked e.edge e.hash = false := by
    rw [edgeForked, any_eq_false]
    intro row mem forked
    simp only [decide_eq_true_eq] at forked
    obtain ⟨isSource, isTarget, samePrior, -⟩ := forked
    obtain ⟨f, inDone, rfl⟩ := inPair row mem (isSource.trans fromSource) (isTarget.trans toTarget)
    have priors := whole.priors
    rw [map_append, nodup_append] at priors
    exact priors.2.2 f.prior (mem_map.mpr ⟨f, inDone, rfl⟩) e.prior (by simp) samePrior
  have notOrphan : (e.edge.priorEdgeHash.any fun prior => !db.hasPairEdge e.edge.fromKey e.edge.toKey prior) = false := by
    have isPrior := whole.linked.prior_eq
    rw [Option.or_none] at isPrior
    cases last : done.getLast? with
    | none =>
      have none : e.edge.priorEdgeHash = none := by
        rw [show e.edge.priorEdgeHash = e.prior from rfl, isPrior, tip, last, Option.map_none]
      rw [none]
      rfl
    | some f =>
      have isLast : e.edge.priorEdgeHash = some f.hash := by
        rw [show e.edge.priorEdgeHash = e.prior from rfl, isPrior, tip, last, Option.map_some]
      have inRows : edgeRow state f.edge f.hash f.signature ∈ db.pairEdges source target := by
        rw [mirrored.view]
        exact mem_map.mpr ⟨f, mem_of_getLast? last, rfl⟩
      obtain ⟨mem, isPair⟩ := mem_filter.mp inRows
      simp only [isLast, Option.any_some, Bool.not_eq_false', hasPairEdge, any_eq_true, fromSource, toTarget]
      simp only [decide_eq_true_eq] at isPair
      exact ⟨_, mem, decide_eq_true ⟨isPair.1, isPair.2, rfl⟩⟩
  have present : (!db.hasUser e.edge.fromKey || !db.hasUser e.edge.toKey) = false := by
    simp [fromSource, toTarget, mirrored.endpoints]
  simp only [tryProjectTrustEdge, present, unknown, notForked, notOrphan, Bool.false_eq_true, if_false]
  cases insertTrustEdge state db e.edge e.hash e.signature e.payload <;> rfl

theorem insertTrustEdge_frame {hash : Hash} {signature payload : Bytes}
    (run : insertTrustEdge state db edge hash signature payload = .ok after) :
    after = { withTrustEdge state db edge hash signature payload with
      signedObjects := after.signedObjects } := by
  rw [insertTrustEdge] at run
  split at run
  · rw [eraseTrustEdgeChain] at run
    rw [erasePayloads_frame run]
  · cases run
    rfl

theorem Mirrored.insert (mirrored : Mirrored state source target done (e :: todo) db)
    (whole : PairChain source target (done ++ e :: todo))
    (run : insertTrustEdge state db e.edge e.hash e.signature e.payload = .ok after) :
    Mirrored state source target (done ++ [e]) todo after := by
  obtain ⟨fromSource, toTarget⟩ := whole.onPair e (by simp)
  obtain ⟨unknown, unstored⟩ := mirrored.unseen e (by simp)
  have notStored : (db.frontierEdges.any (·.canonicalHash = e.hash)) = false := by
    rw [any_eq_false]
    intro row mem same
    exact unstored row mem (by simpa using same)
  have isSigned : e.signature.length = 64 := signatureOk_length e.verified
  have frontier : after.frontierEdges = db.frontierEdges ++
      [{ canonicalHash := e.hash, sourcePubkey := e.edge.fromKey, targetPubkey := e.edge.toKey,
         priorEdgeHash := e.edge.priorEdgeHash, stance := e.edge.stance,
         createdAt := clampI64 e.edge.createdAt, payload := e.payload, signature := e.signature,
         generation := db.currentGeneration }] := by
    rw [insertTrustEdge_frame run]
    simp only [withTrustEdge, isSigned, if_true, insertFrontierEdge, notStored, Bool.false_eq_true, if_false]
    rfl
  have edges : after.trustEdges = db.trustEdges ++ [edgeRow state e.edge e.hash e.signature] := by
    rw [insertTrustEdge_frame run, withTrustEdge]
  have users : after.users = db.users := by
    rw [insertTrustEdge_frame run, withTrustEdge]
  have generation : after.currentGeneration = db.currentGeneration := by
    rw [insertTrustEdge_frame run, withTrustEdge]
    rfl
  constructor
  · simpa only [hasUser, users] using mirrored.endpoints
  · rw [pairEdges, edges, filter_append, map_append, ← mirrored.view]
    congr 1
    simp [edgeRow, fromSource, toTarget]
  · rw [generation, map_append, ← mirrored.frontier, frontierEdgesByTarget, frontier, filter_append,
      map_append, filter_append, ← frontierEdgesByTarget]
    congr 1
    simp [fromSource, toTarget, FrontierEdgeRow.ref, edgeRef, SignedEdge.prior]
  · intro f later
    obtain ⟨unknownF, unstoredF⟩ := mirrored.unseen f (mem_cons_of_mem _ later)
    have apart : e.hash ≠ f.hash := by
      have distinct := whole.distinct
      rw [map_append, map_cons, nodup_append] at distinct
      intro same
      exact (nodup_cons.mp distinct.2.1).1 (same ▸ mem_map.mpr ⟨f, later, rfl⟩)
    constructor
    · rw [hasEdge, edges, any_append, ← hasEdge, unknownF]
      simp [edgeRow, apart]
    · rw [frontier]
      exact forall_mem_append.mpr ⟨unstoredF, forall_mem_singleton.mpr apart⟩

theorem projectChain_mirrored (mirrored : Mirrored state source target done todo db)
    (whole : PairChain source target (done ++ todo)) (run : projectChain state db todo = .ok after) :
    Mirrored state source target (done ++ todo) [] after := by
  induction todo generalizing done db with
  | nil =>
    cases run
    rw [append_nil]
    exact mirrored
  | cons e todo ih =>
    rw [projectChain, foldlM_cons, mirrored.projects whole] at run
    cases insert : insertTrustEdge state db e.edge e.hash e.signature e.payload with
    | error err =>
      rw [insert] at run
      cases run
    | ok mid =>
      rw [insert] at run
      have longer := mirrored.insert whole insert
      rw [← singleton_append, ← append_assoc] at whole ⊢
      exact ih longer whole run

/-- A database that differs from another one in the row ids of its edges at most. -/
structure Alike (db other : Db) : Prop where
  frame : other = { db with
    trustEdges := other.trustEdges }
  rows : (other.trustEdges.map fun row => { row with
    id := 0 }) = db.trustEdges.map fun row => { row with
      id := 0 }

variable {other : Db}

section

variable (alike : Alike db other)
include alike

theorem Alike.any {test : TrustEdgeRow → Bool} (blind : ∀ row, test { row with
      id := 0 } = test row) : other.trustEdges.any test = db.trustEdges.any test := by
  have hidden : ∀ rows : List TrustEdgeRow, rows.any test = (rows.map fun row => { row with
      id := 0 }).any test := by
    intro rows
    rw [any_map]
    congr 1
    funext row
    exact (blind row).symm
  rw [hidden, alike.rows, ← hidden]

theorem Alike.withTrustEdge (ids : Hash → Uuid) (edge : TrustEdge) (hash : Hash) (signature payload : Bytes) :
    Alike (Prismoire.withTrustEdge state db edge hash signature payload) (Prismoire.withTrustEdge { state with
      edgeRowId := ids } other edge hash signature payload) := by
  constructor
  · simp only [Prismoire.withTrustEdge, insertFrontierEdge, currentGeneration]
    rw [alike.frame]
  · simp only [Prismoire.withTrustEdge, map_append, alike.rows]
    rfl

theorem Alike.erase {targeted : Hash → Bool} {authority : Option Hash}
    (run : db.erasePayloads targeted authority = .ok after) :
    ∃ after', other.erasePayloads targeted authority = .ok after' ∧ Alike after after' := by
  have objects : other.signedObjects = db.signedObjects := by rw [alike.frame]
  have stored : other.hasObject = db.hasObject := by
    funext hash
    rw [alike.frame]
    rfl
  simp only [Db.erasePayloads, require_bind_ok] at run
  obtain ⟨allowed, run⟩ := run
  cases run
  refine ⟨{ other with
    signedObjects := updateWhere (erasable targeted) (Db.eraseRow authority) db.signedObjects }, ?_, ?_⟩
  · simp only [Db.erasePayloads, objects, stored]
    rw [require_bind_ok]
    exact ⟨allowed, rfl⟩
  · refine ⟨?_, alike.rows⟩
    rw [alike.frame]

theorem Alike.insert (ids : Hash → Uuid) {hash : Hash}
    {signature payload : Bytes} (run : insertTrustEdge state db edge hash signature payload = .ok after) :
    ∃ after', insertTrustEdge { state with
        edgeRowId := ids } other edge hash signature payload = .ok after' ∧ Alike after after' := by
  have both : Alike (Prismoire.withTrustEdge state db edge hash signature payload) _ :=
    alike.withTrustEdge ids edge hash signature payload
  rw [insertTrustEdge] at run ⊢
  split at run
  · rename_i neutral
    simp only [neutral, if_true]
    obtain ⟨after', erased, alike'⟩ := both.erase run
    refine ⟨after', ?_, alike'⟩
    rw [← erased, eraseTrustEdgeChain]
    congr 1
    funext target
    rw [both.any fun _ => rfl]
  · rename_i standing
    simp only [standing, if_false]
    cases run
    exact ⟨_, rfl, both⟩

end

theorem projectChain_ids (ids : Hash → Uuid) (mirrored : Mirrored state source target done todo db)
    (mirrored' : Mirrored { state with
      edgeRowId := ids } source target done todo other) (alike : Alike db other)
    (whole : PairChain source target (done ++ todo)) (run : projectChain state db todo = .ok after) :
    ∃ after', projectChain { state with
      edgeRowId := ids } other todo = .ok after' := by
  induction todo generalizing done db other with
  | nil => exact ⟨other, rfl⟩
  | cons e todo ih =>
    rw [projectChain, foldlM_cons, mirrored.projects whole] at run
    rw [projectChain, foldlM_cons, mirrored'.projects whole]
    cases insert : insertTrustEdge state db e.edge e.hash e.signature e.payload with
    | error err =>
      rw [insert] at run
      cases run
    | ok mid =>
      rw [insert] at run
      obtain ⟨mid', insert', alike'⟩ := alike.insert ids insert
      rw [insert']
      have longer := mirrored.insert whole insert
      have longer' := mirrored'.insert whole insert'
      rw [← singleton_append, ← append_assoc] at whole
      exact ih longer longer' alike' whole run

/-- Later by the signed millisecond, as far as the column holds it, and then by the hash. -/
def SignedEdge.Later (e f : SignedEdge platform) : Prop :=
  clampI64 f.edge.createdAt < clampI64 e.edge.createdAt ∨
    clampI64 e.edge.createdAt = clampI64 f.edge.createdAt ∧ f.hash < e.hash

instance (e f : SignedEdge platform) : Decidable (e.Later f) :=
  inferInstanceAs (Decidable (_ ∨ _ ∧ _))

def Newest (chain : List (SignedEdge platform)) (latest : SignedEdge platform) : Prop :=
  ∀ e ∈ chain, e.hash ≠ latest.hash → latest.Later e

theorem PairChain.eq (whole : PairChain source target chain) {f : SignedEdge platform} (inE : e ∈ chain)
    (inF : f ∈ chain) (same : e.hash = f.hash) : e = f :=
  inj_on_of_nodup_map whole.distinct inE inF same

section

variable (mirrored : Mirrored state source target chain [] db)
include mirrored

theorem Mirrored.frontierChoice (some_ : chain ≠ []) :
    ∃ latest ∈ chain, Newest chain latest ∧ db.frontierChoice source target = some latest.hash := by
  have filled : chain.map (edgeRef db.currentGeneration) ≠ [] := by simpa using some_
  obtain ⟨ref, inRefs, isFirst, first⟩ := firstBy_spec refNewer_trans refNewer_irrefl filled
  obtain ⟨latest, inChain, rfl⟩ := mem_map.mp inRefs
  refine ⟨latest, inChain, ?_, ?_⟩
  · intro e inE apart
    have notNewer := first _ (mem_map.mpr ⟨e, inE, rfl⟩)
    rw [Bool.eq_false_iff, ne_eq, refNewer_iff] at notNewer
    simp only [edgeRef, not_or, not_and, BitVec.not_lt] at notNewer
    rcases Nat.lt_or_eq_of_le (Nat.le_of_not_lt notNewer.1) with earlier | same
    · exact .inl earlier
    · exact .inr ⟨same.symm, BitVec.lt_of_le_ne (notNewer.2 same) apart⟩
  · rw [Db.frontierChoice, find?_activeEdgesBySource, mirrored.frontier, isFirst]
    rfl

variable {latest : SignedEdge platform} (whole : PairChain source target chain) (inChain : latest ∈ chain)
include whole inChain

theorem Mirrored.viewChoice_first (chosen : db.viewChoice source target = some latest.hash) (inE : e ∈ chain) :
    edgeNewer (edgeRow state e.edge e.hash e.signature)
      (edgeRow state latest.edge latest.hash latest.signature) = false := by
  have filled : (chain.map fun e => edgeRow state e.edge e.hash e.signature) ≠ [] := by
    simpa using ne_nil_of_mem inChain
  obtain ⟨row, inRows, isFirst, first⟩ := firstBy_spec edgeNewer_trans edgeNewer_irrefl filled
  obtain ⟨f, inF, rfl⟩ := mem_map.mp inRows
  rw [viewChoice, mirrored.view, isFirst, Option.map_some, Option.some.injEq] at chosen
  obtain rfl := whole.eq inF inChain chosen
  exact first _ (mem_map.mpr ⟨e, inE, rfl⟩)

theorem Mirrored.viewChoice_latest (later : ∀ e ∈ chain, e.hash ≠ latest.hash →
      edgeCreatedAtIso state e.edge e.hash < edgeCreatedAtIso state latest.edge latest.hash) :
    db.viewChoice source target = some latest.hash := by
  have isFirst : firstBy edgeNewer (chain.map fun e => edgeRow state e.edge e.hash e.signature) =
      some (edgeRow state latest.edge latest.hash latest.signature) := by
    apply firstBy_eq_some edgeNewer_trans edgeNewer_irrefl (mem_map.mpr ⟨latest, inChain, rfl⟩)
    intro row inRows apart
    obtain ⟨e, inE, rfl⟩ := mem_map.mp inRows
    have other : e.hash ≠ latest.hash := by
      intro same
      rw [whole.eq inE inChain same] at apart
      exact apart rfl
    simp [edgeNewer, edgeRow, later e inE other]
  rw [viewChoice, mirrored.view, isFirst]
  rfl

end

theorem Newest.unique {latest other : SignedEdge platform} (newest : Newest chain latest) (inOther : other ∈ chain)
    (inLatest : latest ∈ chain) (otherNewest : Newest chain other) : other.hash = latest.hash := by
  by_contra apart
  rcases newest other inOther apart with later | ⟨same, larger⟩
  · rcases otherNewest latest inLatest (Ne.symm apart) with later' | ⟨same', -⟩
    · omega
    · omega
  · rcases otherNewest latest inLatest (Ne.symm apart) with later' | ⟨-, larger'⟩
    · omega
    · exact absurd (BitVec.lt_trans larger larger') (BitVec.lt_irrefl _)

theorem Mirrored.ids (mirrored : Mirrored state source target [] todo db) (ids : Hash → Uuid) : Mirrored { state with
      edgeRowId := ids } source target [] todo db :=
  ⟨mirrored.endpoints, mirrored.view, mirrored.frontier, mirrored.unseen⟩

theorem exists_favouring {hashes : Set Hash} {ids : Hash → Uuid} (fresh : Set.InjOn ids hashes) {a b : Hash}
    (inA : a ∈ hashes) (inB : b ∈ hashes) (apart : a ≠ b) :
    ∃ ids' : Hash → Uuid, Set.InjOn ids' hashes ∧ ids' b < ids' a := by
  by_cases less : ids b < ids a
  · exact ⟨ids, fresh, less⟩
  · refine ⟨ids ∘ Equiv.swap a b, ?_, ?_⟩
    · have stays : Set.MapsTo (Equiv.swap a b) hashes hashes := by
        intro hash mem
        rcases eq_or_ne hash a with rfl | notA
        · rwa [Equiv.swap_apply_left]
        · rcases eq_or_ne hash b with rfl | notB
          · rwa [Equiv.swap_apply_right]
          · rwa [Equiv.swap_apply_of_ne_of_ne notA notB]
      exact fresh.comp (Equiv.injective _).injOn stays
    · simp only [Function.comp_apply, Equiv.swap_apply_left, Equiv.swap_apply_right]
      exact BitVec.lt_of_le_ne (BitVec.not_lt.mp less) fun same => apart (fresh inA inB same)

/-- For whatever row ids, the view and the frontier resolve a projected chain to the same edge
exactly when the newest edge shows a later text than every other one. -/
theorem resolvers_agree_iff {chain : List (SignedEdge state.platform)} (whole : PairChain source target chain)
    (start : Mirrored state source target [] chain db)
    (fresh : Set.InjOn state.edgeRowId { hash | ∃ e ∈ chain, e.hash = hash })
    (run : projectChain state db chain = .ok after) :
    (∀ ids, Set.InjOn ids { hash | ∃ e ∈ chain, e.hash = hash } → ∀ projected, projectChain { state with
        edgeRowId := ids } db chain = .ok projected →
      projected.viewChoice source target = projected.frontierChoice source target) ↔
    ∀ latest ∈ chain, Newest chain latest → ∀ e ∈ chain, e.hash ≠ latest.hash →
      edgeCreatedAtIso state e.edge e.hash < edgeCreatedAtIso state latest.edge latest.hash := by
  constructor
  · intro agree latest inLatest newest e inE apart
    obtain ⟨ids, freshIds, larger⟩ := exists_favouring fresh ⟨e, inE, rfl⟩ ⟨latest, inLatest, rfl⟩ apart
    obtain ⟨projected, run'⟩ := projectChain_ids ids start (start.ids ids) ⟨rfl, rfl⟩ whole run
    have mirrored := projectChain_mirrored (start.ids ids) whole run'
    obtain ⟨found, inFound, foundNewest, frontier⟩ := mirrored.frontierChoice (ne_nil_of_mem inLatest)
    have same := newest.unique inFound inLatest foundNewest
    have chosen := (agree ids freshIds projected run').trans frontier
    rw [same] at chosen
    have notBefore := mirrored.viewChoice_first whole inLatest chosen inE
    simp only [edgeNewer, edgeRow, Bool.or_eq_false_iff, Bool.and_eq_false_iff, beq_eq_false_iff_ne] at notBefore
    obtain ⟨notLater, other | notLarger⟩ := notBefore
    · exact lt_of_le_of_ne (not_lt.mp (of_decide_eq_false notLater)) other
    · exact absurd larger (of_decide_eq_false notLarger)
  · intro later ids freshIds projected run'
    have mirrored := projectChain_mirrored (start.ids ids) whole run'
    rcases eq_or_ne chain [] with rfl | some_
    · rw [viewChoice, mirrored.view, Db.frontierChoice, find?_activeEdgesBySource, mirrored.frontier]
      rfl
    · obtain ⟨latest, inLatest, newest, frontier⟩ := mirrored.frontierChoice some_
      rw [frontier]
      exact mirrored.viewChoice_latest whole inLatest (later latest inLatest newest)

end Chains

/-- A platform with the texts of the first minute of the calendar. -/
def flipPlatform : Platform :=
  { Platform.ofTable [.trustEdge ⟨1, 2, .trust, 1000, none⟩, .trustEdge ⟨1, 2, .distrust, 1500, some 1⟩,
      .trustEdge ⟨1, 2, .distrust, 2000, some 1⟩] with
    formatTimestamp := fun secs => if secs < 60 then some ("1970-01-01T00:00:" ++ decimal 2 secs ++ "Z") else none }

def flipState (favoured : Hash) : AppState where
  platform := flipPlatform
  instanceKey := 9
  edgeRowId hash := if hash = favoured then 2 else 1
  edgeClock _ := "2026-01-01T00:00:00Z"

def flipDb : Db where
  users := [⟨1, "a", "a", .invite, none, false⟩, ⟨2, "b", "b", .invite, none, false⟩]

def grant : SignedEdge flipPlatform where
  wire := [0]
  payload := [0]
  signature := List.replicate 64 0
  edge := ⟨1, 2, .trust, 1000, none⟩
  decodes := rfl
  parses := rfl
  verified := by decide

/-- Half a second after the grant. -/
def quickReversal : SignedEdge flipPlatform where
  wire := [1]
  payload := [1]
  signature := List.replicate 64 0
  edge := ⟨1, 2, .distrust, 1500, some 1⟩
  decodes := rfl
  parses := rfl
  verified := by decide

/-- A second after the grant. -/
def slowReversal : SignedEdge flipPlatform where
  wire := [2]
  payload := [2]
  signature := List.replicate 64 0
  edge := ⟨1, 2, .distrust, 2000, some 1⟩
  decodes := rfl
  parses := rfl
  verified := by decide

/-- A stance reversed within the second in which it was taken: the view may stay with the first edge,
and the frontier moves on. -/
theorem quick_reversal_disagrees : (projectChain (flipState grant.hash) flipDb [grant, quickReversal]).toOption.map
      (fun db => (db.viewChoice 1 2, db.frontierChoice 1 2)) = some (some grant.hash, some quickReversal.hash) ∧
    grant.hash ≠ quickReversal.hash := by
  decide

theorem slow_reversal_agrees :
    (projectChain (flipState grant.hash) flipDb [grant, slowReversal]).toOption.isSome = true ∧
    ∀ ids, Set.InjOn ids { hash | ∃ e ∈ [grant, slowReversal], e.hash = hash } →
      ∀ projected, projectChain { flipState grant.hash with
          edgeRowId := ids } flipDb [grant, slowReversal] = .ok projected →
        projected.viewChoice 1 2 = projected.frontierChoice 1 2 := by
  have whole : PairChain 1 2 [grant, slowReversal] := by
    refine ⟨?_, ⟨rfl, rfl, trivial⟩, by decide⟩
    intro e mem
    rcases mem_cons.mp mem with rfl | mem
    · exact ⟨rfl, rfl⟩
    · rw [mem_singleton.mp mem]
      exact ⟨rfl, rfl⟩
  have start : Mirrored (flipState grant.hash) 1 2 [] [grant, slowReversal] flipDb :=
    ⟨⟨rfl, rfl⟩, rfl, rfl, fun _ _ => ⟨rfl, by simp [flipDb]⟩⟩
  have fresh : Set.InjOn (flipState grant.hash).edgeRowId { hash | ∃ e ∈ [grant, slowReversal], e.hash = hash } := by
    rintro a ⟨e, inE, rfl⟩ b ⟨f, inF, rfl⟩ same
    rcases mem_pair.mp inE with rfl | rfl <;> rcases mem_pair.mp inF with rfl | rfl
    · rfl
    · exact absurd same (by decide)
    · exact absurd same (by decide)
    · rfl
  have ends : (projectChain (flipState grant.hash) flipDb [grant, slowReversal]).toOption.isSome = true := by
    decide
  refine ⟨ends, ?_⟩
  cases run : projectChain (flipState grant.hash) flipDb [grant, slowReversal] with
  | error err =>
    rw [run] at ends
    exact absurd ends (by simp [Except.toOption])
  | ok after =>
    refine (resolvers_agree_iff whole start fresh run).mpr ?_
    intro latest inLatest newest e inE apart
    rcases mem_pair.mp inLatest with rfl | rfl <;> rcases mem_pair.mp inE with rfl | rfl
    · exact absurd rfl apart
    · have notLater : ¬ grant.Later slowReversal := by decide
      exact absurd (newest slowReversal (mem_pair.mpr (.inr rfl)) apart) notLater
    · decide
    · exact absurd rfl apart

end Prismoire
