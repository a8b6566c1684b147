import Prismoire.FrontierRebuild
import Prismoire.Lib.Run

namespace Prismoire

open Lib List Db

def Db.ActiveHash (db : Db) (hash : Hash) : Prop :=
  ∃ node, ∃ edge ∈ activeEdgesBySource (db.frontierEdgesByTarget node), edge.canonicalHash = hash

def MarksActive (tables : FrontierTables) : FrontierWrite → Prop
  | .mark canonicalHash generation => generation = tables.db.currentGeneration ∧ tables.db.ActiveHash canonicalHash
  | _ => True

section Marks

variable {tables : FrontierTables} {readers : List FrontierReader} {generation maxDepth : Nat} {sweep : FrontierSweep}
  {hash : Hash}

theorem Db.ActiveHash.of_frontierEdges {db other : Db} (same : db.frontierEdges = other.frontierEdges)
    (active : db.ActiveHash hash) : other.ActiveHash hash := by
  obtain ⟨node, edge, mem, isHash⟩ := active
  rw [frontierEdgesByTarget, same] at mem
  exact ⟨node, edge, mem, isHash⟩

theorem Db.ActiveHash.mark {db : Db} (active : db.ActiveHash hash) (other : Hash) (generation : Nat) :
    (db.markFrontierEdgeLive other generation).ActiveHash hash := by
  obtain ⟨node, edge, mem, isHash⟩ := active
  have stamped : (db.markFrontierEdgeLive other generation).frontierEdges =
      (db.swept generation [other] []).frontierEdges := by
    simp [markFrontierEdgeLive, Db.swept, stampRow]
  refine ActiveHash.of_frontierEdges stamped.symm ⟨node, stampRef [other] generation edge, ?_, ?_⟩
  · rw [activeEdgesBySource_swept]
    exact mem_map_of_mem mem
  · rw [stampRef_canonicalHash, isHash]

/-- The statements of a sweep so far. -/
structure Tended (tables : FrontierTables) (generation : Nat) (sweep : FrontierSweep) : Prop where
  logged : Logged tables generation sweep
  marks : MeetAlong FrontierTables.apply MarksActive tables (.advance :: sweep.writes)
  current : sweep.db.currentGeneration = generation

theorem Tended.mark (tended : Tended tables generation sweep) (active : sweep.db.ActiveHash hash) :
    Tended tables generation (sweep.mark hash generation) where
  logged := tended.logged.mark hash
  marks := by
    refine tended.marks.concat ?_
    show MarksActive (tables.replay (.advance :: sweep.writes)) _
    rw [tended.logged.replayed]
    exact ⟨tended.current.symm, active⟩
  current := tended.current

theorem reach_last (hop : Nat) (source : Key) :
    ((FrontierSweep.reach readers generation hop sweep source).last.writes = sweep.writes ∨
      (FrontierSweep.reach readers generation hop sweep source).last.writes =
        sweep.writes ++ [.stub source generation hop]) ∧
    (FrontierSweep.reach readers generation hop sweep source).last.db.frontierEdges = sweep.db.frontierEdges ∧
    (FrontierSweep.reach readers generation hop sweep source).last.db.currentGeneration = sweep.db.currentGeneration := by
  rw [FrontierSweep.reach]
  by_cases admitted : (sweep.offers readers source).any Prod.snd = true
  · rw [if_neg (not_not.mpr admitted)]
    cases materialized : sweep.db.materializeFrontierNode source generation hop with
    | error error => exact ⟨.inl rfl, rfl, rfl⟩
    | ok result =>
      obtain ⟨after, how⟩ := result
      obtain ⟨rfl, upserted, low, high⟩ | ⟨other, rfl⟩ := materialize_ok materialized
      · rw [Rebuilding.upsert_eq low high] at upserted
        cases upserted
        exact ⟨.inr rfl, rfl, rfl⟩
      · refine ⟨.inl ?_, rfl, rfl⟩
        simp [SweepResult.last, pure, Except.pure, other]
  · rw [if_pos admitted]
    exact ⟨.inl rfl, rfl, rfl⟩

theorem Tended.visitEdge (tended : Tended tables generation sweep) (depth : Nat) (edge : FrontierEdgeRef)
    (active : sweep.db.ActiveHash edge.canonicalHash) :
    Tended tables generation (FrontierSweep.visitEdge readers generation depth sweep edge).last ∧
      ∀ hash, sweep.db.ActiveHash hash →
        (FrontierSweep.visitEdge readers generation depth sweep edge).last.db.ActiveHash hash := by
  have marks := tended.mark active
  have stays : ∀ hash, sweep.db.ActiveHash hash → (sweep.mark edge.canonicalHash generation).db.ActiveHash hash :=
    fun hash isActive => isActive.mark edge.canonicalHash generation
  rw [FrontierSweep.visitEdge]
  by_cases trusts : edge.stance = .trust
  · rw [if_neg (not_not.mpr trusts)]
    by_cases old : edge.sourcePubkey ∈ (sweep.mark edge.canonicalHash generation).visited
    · rw [if_pos old]
      exact ⟨marks, stays⟩
    · rw [if_neg old]
      obtain ⟨writes, edges, current⟩ := @reach_last readers generation (sweep.mark edge.canonicalHash generation)
        (depth + 1) edge.sourcePubkey
      refine ⟨⟨marks.logged.reach old (depth + 1), ?_, current.trans marks.current⟩,
        fun hash isActive => (stays hash isActive).of_frontierEdges edges.symm⟩
      rcases writes with same | stub
      · rw [same]
        exact marks.marks
      · rw [stub]
        exact marks.marks.concat trivial
  · rw [if_pos trusts]
    exact ⟨marks, stays⟩

theorem tended_reverseFrontierBfs (fuel : Nat) (tables : FrontierTables) (readers : List FrontierReader)
    (capN maxDepth : Nat) : Tended tables (tables.apply .advance).db.currentGeneration
      (reverseFrontierBfs fuel (tables.apply .advance).db readers capN (tables.apply .advance).db.currentGeneration
        maxDepth).last := by
  rw [reverseFrontierBfs, foldl_seed readers _ rfl]
  refine loop_last (Tended tables _) ?_ ?_ fuel ⟨⟨.advance, by simp, by simp, rfl⟩, ⟨trivial, trivial⟩, rfl⟩
  · intro sweep rest tended
    have logged := tended.logged
    exact ⟨⟨logged.writes, logged.stubs, logged.unswept, logged.replayed⟩, tended.marks, tended.current⟩
  · intro sweep node depth tended
    -- The edges were read before the first of them was marked, and stay active while the others are.
    let edges := activeEdgesBySource (sweep.db.frontierEdgesByTarget node)
    have start : ∀ edge ∈ edges, sweep.db.ActiveHash edge.canonicalHash :=
      fun edge mem => ⟨node, edge, mem, rfl⟩
    refine (foldlM_last (fun sweep => Tended tables _ sweep ∧ ∀ edge ∈ edges, sweep.db.ActiveHash edge.canonicalHash)
      ?_ ⟨tended, start⟩).1
    rintro sweep edge mem ⟨tended, active⟩
    obtain ⟨visited, stays⟩ := tended.visitEdge depth edge (active edge mem)
    exact ⟨visited, fun other isOther => stays _ (active other isOther)⟩

theorem marksActive_writes (fuel : Nat) (tables : FrontierTables) (readers : List FrontierReader)
    (capN maxDepth : Nat) (k : Int) : MeetAlong FrontierTables.apply MarksActive tables
      (rebuildReverseFrontier fuel tables readers capN maxDepth k).writes := by
  have tended := tended_reverseFrontierBfs fuel tables readers capN maxDepth
  rw [rebuildReverseFrontier]
  cases result : reverseFrontierBfs fuel (tables.apply .advance).db readers capN
      (tables.apply .advance).db.currentGeneration maxDepth with
  | error failed =>
    rw [result] at tended
    exact tended.marks
  | ok sweep =>
    rw [result] at tended
    have unmarked : ∀ write ∈ sweepFrontier (tables.apply .advance).db.currentGeneration k ++
        publishLocalAgeCeilings readers sweep.caps, ∀ tables, MarksActive tables write := by
      intro write mem tables
      rcases mem_append.mp mem with swept | published
      · rcases mem_cons.mp swept with rfl | last
        · trivial
        · obtain rfl := mem_singleton.mp last
          trivial
      · obtain ⟨n, inside, isWrite⟩ := getElem_of_mem published
        simp only [publishLocalAgeCeilings, getElem_zipWith] at isWrite
        rw [← isWrite]
        split <;> trivial
    show MeetAlong _ _ _ (.advance :: (sweep.writes ++ _ ++ _))
    rw [append_assoc, ← cons_append]
    exact meetAlong_append.mpr ⟨tended.marks, MeetAlong.of_forall fun write mem state => unmarked write mem state⟩

end Marks

namespace FrontierEdgeRow

def samePair (a b : FrontierEdgeRow) : Prop :=
  a.sourcePubkey = b.sourcePubkey ∧ a.targetPubkey = b.targetPubkey

instance (a b : FrontierEdgeRow) : Decidable (a.samePair b) :=
  inferInstanceAs (Decidable (_ ∧ _))

/-- Later by `created_at`, ties by the larger hash. -/
def newer (a b : FrontierEdgeRow) : Bool :=
  refNewer a.ref b.ref

variable {a b : FrontierEdgeRow}

theorem newer_iff : a.newer b = true ↔
    b.createdAt < a.createdAt ∨ a.createdAt = b.createdAt ∧ b.canonicalHash < a.canonicalHash :=
  refNewer_iff

theorem newer_congr {c d : FrontierEdgeRow} (times : a.createdAt = c.createdAt)
    (hashes : a.canonicalHash = c.canonicalHash) (times' : b.createdAt = d.createdAt)
    (hashes' : b.canonicalHash = d.canonicalHash) : a.newer b = c.newer d := by
  rw [Bool.eq_iff_iff, newer_iff, newer_iff, times, hashes, times', hashes']

theorem canonicalHash_eq (first : a.newer b = false) (second : b.newer a = false) : a.canonicalHash = b.canonicalHash := by
  rw [← Bool.not_eq_true, newer_iff, BitVec.lt_def] at first second
  apply BitVec.eq_of_toNat_eq
  omega

end FrontierEdgeRow

/-- The frontier's edges, with all rows that were ever written. -/
structure EdgeStore where
  tables : FrontierTables
  history : List FrontierEdgeRow := []

def frontierRow (edge : TrustEdge) (canonicalHash : Hash) (signature payload : Bytes) (generation : Nat) :
    FrontierEdgeRow :=
  { canonicalHash, sourcePubkey := edge.fromKey, targetPubkey := edge.toKey, priorEdgeHash := edge.priorEdgeHash,
    stance := edge.stance, createdAt := clampI64 edge.createdAt, payload, signature, generation }

/-- An edge comes in, for the first time or again; a rebuild gets through some of its statements, or all; the other
tables become what they will. -/
inductive EdgeStoreEvent
  | insert (edge : TrustEdge) (canonicalHash : Hash) (signature payload : Bytes)
  | rebuild (fuel : Nat) (readers : List FrontierReader) (capN maxDepth : Nat) (k : Int) (sent : Nat)
  | elsewhere (db : Db)

namespace EdgeStore

def step (store : EdgeStore) : EdgeStoreEvent → EdgeStore
  | .insert edge canonicalHash signature payload =>
    let db := store.tables.db
    { tables := { store.tables with
        db := db.insertFrontierEdge edge canonicalHash signature payload db.currentGeneration }
      history :=
        if db.frontierEdges.any (·.canonicalHash = canonicalHash) then store.history
        else store.history ++ [frontierRow edge canonicalHash signature payload db.currentGeneration] }
  | .rebuild fuel readers capN maxDepth k sent => { store with
      tables := store.tables.replay
        ((rebuildReverseFrontier fuel store.tables readers capN maxDepth k).writes.take sent) }
  | .elsewhere db => { store with
      tables := { store.tables with
        db := { db with
          frontierEdges := store.tables.db.frontierEdges
          frontierGeneration := store.tables.db.frontierGeneration } } }

/-- The newest edge of a pair that was ever written is there whenever any edge of the pair is, and the active edge of a
pair is not older than any that was written. -/
structure NewestKept (store : EdgeStore) : Prop where
  present : ∀ row ∈ store.tables.db.frontierEdges, ∀ newest ∈ store.history, newest.samePair row →
    (∀ old ∈ store.history, old.samePair row → old.newer newest = false) →
    ∃ kept ∈ store.tables.db.frontierEdges, kept.canonicalHash = newest.canonicalHash
  resolved : ∀ source target edge, store.tables.db.activeEdge source target = some edge →
    ∀ old ∈ store.history, old.sourcePubkey = source → old.targetPubkey = target → refNewer old.ref edge = false

/-- An edge that comes in is there already, or is the newest of its pair so far, or the newest of its pair so far is
there and not of an earlier generation. -/
def InOrder (store : EdgeStore) : EdgeStoreEvent → Prop
  | .insert edge canonicalHash signature payload =>
    let db := store.tables.db
    let row := frontierRow edge canonicalHash signature payload db.currentGeneration
    (∃ kept ∈ db.frontierEdges, kept.canonicalHash = canonicalHash) ∨
      (∀ old ∈ store.history, old.samePair row → old.newer row = false) ∨
      ∃ top ∈ db.frontierEdges, top.samePair row ∧ top.generation = db.currentGeneration ∧ row.newer top = false ∧
        ∀ old ∈ store.history, old.samePair row → old.newer top = false
  | .rebuild .. => True
  | .elsewhere _ => True

instance (store : EdgeStore) (event : EdgeStoreEvent) : Decidable (InOrder store event) :=
  match event with
  | .insert .. => inferInstanceAs (Decidable (_ ∨ _ ∨ _))
  | .rebuild .. => isTrue trivial
  | .elsewhere _ => isTrue trivial

structure Kept (history : List FrontierEdgeRow) (db : Db) : Prop where
  distinct : (db.frontierEdges.map (·.canonicalHash)).Nodup
  stamped : ∀ row ∈ db.frontierEdges, row.generation ≤ db.currentGeneration
  written : ∀ row ∈ db.frontierEdges, ∃ old ∈ history, old.samePair row ∧ old.createdAt = row.createdAt ∧
    old.canonicalHash = row.canonicalHash
  newest : ∀ row ∈ db.frontierEdges, ∃ top ∈ db.frontierEdges, top.samePair row ∧ row.generation ≤ top.generation ∧
    ∀ old ∈ history, old.samePair row → old.newer top = false

section Steps

variable {history : List FrontierEdgeRow} {db after : Db} {row top : FrontierEdgeRow}

theorem Kept.not_newer (kept : Kept history db) (mem : row ∈ db.frontierEdges)
    (newest : ∀ old ∈ history, old.samePair row → old.newer top = false) : row.newer top = false := by
  obtain ⟨old, isOld, same, times, hashes⟩ := kept.written row mem
  rw [← newest old isOld same]
  exact FrontierEdgeRow.newer_congr times.symm hashes.symm rfl rfl

theorem Kept.row_eq (kept : Kept history db) (mem : row ∈ db.frontierEdges) (isTop : top ∈ db.frontierEdges)
    (hashes : row.canonicalHash = top.canonicalHash) : row = top :=
  inj_on_of_nodup_map kept.distinct mem isTop hashes

theorem exists_activeEdge (mem : row ∈ db.frontierEdges) : ∃ active ∈ db.frontierEdges, active.samePair row ∧
    db.activeEdge row.sourcePubkey row.targetPubkey = some active.ref := by
  have isRef : row.ref ∈ (db.frontierEdgesByTarget row.targetPubkey).filter (·.sourcePubkey = row.sourcePubkey) :=
    mem_filter.mpr ⟨mem_map_of_mem (mem_filter.mpr ⟨mem, decide_eq_true rfl⟩), decide_eq_true rfl⟩
  obtain ⟨first, inRows, isSome, -⟩ := firstBy_spec refNewer_trans refNewer_irrefl (ne_nil_of_mem isRef)
  obtain ⟨isFirst, source⟩ := mem_filter.mp inRows
  obtain ⟨active, isActive, rfl⟩ := mem_map.mp isFirst
  obtain ⟨isActive, target⟩ := mem_filter.mp isActive
  exact ⟨active, isActive, ⟨of_decide_eq_true source, of_decide_eq_true target⟩, isSome⟩

section

variable (kept : Kept history db)
include kept

theorem Kept.active_row {node : Key} {edge : FrontierEdgeRef}
    (mem : edge ∈ activeEdgesBySource (db.frontierEdgesByTarget node)) :
    ∃ row ∈ db.frontierEdges, row.ref = edge ∧ row.targetPubkey = node ∧
      ∀ old ∈ history, old.samePair row → old.newer row = false := by
  obtain ⟨row, isRow, rfl, isTarget, least⟩ := row_of_active mem
  refine ⟨row, isRow, rfl, isTarget, ?_⟩
  obtain ⟨top, isTop, ⟨source, target⟩, -, newest⟩ := kept.newest row isRow
  have below : top.newer row = false := least top isTop (target.trans isTarget) source
  obtain rfl := kept.row_eq isRow isTop (FrontierEdgeRow.canonicalHash_eq (kept.not_newer isRow newest) below)
  exact newest

theorem Kept.advance (edges : after.frontierEdges = db.frontierEdges)
    (onward : db.currentGeneration ≤ after.currentGeneration) : Kept history after where
  distinct := edges ▸ kept.distinct
  stamped row mem := Nat.le_trans (kept.stamped row (edges ▸ mem)) onward
  written row mem := kept.written row (edges ▸ mem)
  newest row mem := by
    obtain ⟨top, isTop, rest⟩ := kept.newest row (edges ▸ mem)
    exact ⟨top, edges ▸ isTop, rest⟩

theorem Kept.mark {hash : Hash} (active : db.ActiveHash hash) :
    Kept history (db.markFrontierEdgeLive hash db.currentGeneration) := by
  have stamps : (db.markFrontierEdgeLive hash db.currentGeneration).frontierEdges =
      db.frontierEdges.map (stampRow [hash] db.currentGeneration) := by
    simp [markFrontierEdgeLive, stampRow]
  have hashes : ∀ row : FrontierEdgeRow, (stampRow [hash] db.currentGeneration row).canonicalHash = row.canonicalHash := by
    intro row
    rw [stampRow]
    split <;> rfl
  have times : ∀ row : FrontierEdgeRow, (stampRow [hash] db.currentGeneration row).createdAt = row.createdAt := by
    intro row
    rw [stampRow]
    split <;> rfl
  have pairs : ∀ row : FrontierEdgeRow, (stampRow [hash] db.currentGeneration row).samePair row := by
    intro row
    rw [stampRow]
    split <;> exact ⟨rfl, rfl⟩
  have raised : ∀ row ∈ db.frontierEdges, row.generation ≤ (stampRow [hash] db.currentGeneration row).generation ∧
      (stampRow [hash] db.currentGeneration row).generation ≤ db.currentGeneration := by
    intro row mem
    have bound := kept.stamped row mem
    rw [stampRow]
    split
    · exact ⟨bound, le_rfl⟩
    · exact ⟨le_rfl, bound⟩
  constructor
  case distinct =>
    rw [stamps, map_map]
    simpa only [Function.comp_def, hashes] using kept.distinct
  case stamped =>
    rw [stamps]
    intro row mem
    obtain ⟨old, isOld, rfl⟩ := mem_map.mp mem
    exact (raised old isOld).2
  case written =>
    rw [stamps]
    intro row mem
    obtain ⟨old, isOld, rfl⟩ := mem_map.mp mem
    obtain ⟨first, isFirst, same, time, isHash⟩ := kept.written old isOld
    exact ⟨first, isFirst, ⟨same.1.trans (pairs old).1.symm, same.2.trans (pairs old).2.symm⟩, by rw [time, times],
      by rw [isHash, hashes]⟩
  case newest =>
    rw [stamps]
    intro row mem
    obtain ⟨old, isOld, rfl⟩ := mem_map.mp mem
    obtain ⟨top, isTop, same, older, newest⟩ := kept.newest old isOld
    refine ⟨stampRow [hash] db.currentGeneration top, mem_map_of_mem isTop, ?_, ?_, ?_⟩
    · exact ⟨(pairs top).1.trans (same.1.trans (pairs old).1.symm), (pairs top).2.trans (same.2.trans (pairs old).2.symm)⟩
    · by_cases hit : old.canonicalHash = hash
      · -- Only the newest row of a pair is marked, so that the row is its own newest.
        obtain ⟨node, edge, isActive, isHash⟩ := active
        obtain ⟨marked, isMarked, rfl, -, top_⟩ := kept.active_row isActive
        obtain rfl := kept.row_eq isMarked isOld (isHash.trans hit.symm)
        have below : top.newer marked = false := kept.not_newer isTop fun other isOther samePair =>
          top_ other isOther ⟨samePair.1.trans same.1, samePair.2.trans same.2⟩
        have isTop' := FrontierEdgeRow.canonicalHash_eq below (kept.not_newer isMarked newest)
        rw [kept.row_eq isTop isMarked isTop']
      · rw [show stampRow [hash] db.currentGeneration old = old from if_neg (by simpa using hit)]
        exact Nat.le_trans older (raised top isTop).1
    · intro other isOther samePair
      rw [← newest other isOther ⟨samePair.1.trans (pairs old).1, samePair.2.trans (pairs old).2⟩]
      exact FrontierEdgeRow.newer_congr rfl rfl (times top) (hashes top)

theorem Kept.sweep (watermark : Int) :
    Kept history { db with frontierEdges := db.frontierEdges.filter (watermark ≤ ·.generation) } where
  distinct := kept.distinct.sublist (filter_sublist.map _)
  stamped row mem := kept.stamped row (mem_filter.mp mem).1
  written row mem := kept.written row (mem_filter.mp mem).1
  newest row mem := by
    obtain ⟨isRow, young⟩ := mem_filter.mp mem
    obtain ⟨top, isTop, same, older, newest⟩ := kept.newest row isRow
    refine ⟨top, mem_filter.mpr ⟨isTop, ?_⟩, same, older, newest⟩
    simp only [decide_eq_true_eq] at young ⊢
    omega

end

theorem Kept.apply {tables : FrontierTables} (kept : Kept history tables.db) {write : FrontierWrite}
    (marks : MarksActive tables write) : Kept history (tables.apply write).db := by
  cases write with
  | advance => exact kept.advance rfl (Nat.le_succ _)
  | mark hash generation =>
    obtain ⟨rfl, active⟩ := marks
    exact kept.mark active
  | stub key generation hop =>
    rw [FrontierTables.apply]
    cases upserted : tables.db.upsertFrontierUserStub key generation hop with
    | error error => exact kept
    | ok db =>
      rw [upsertFrontierUserStub, require_bind_ok] at upserted
      obtain ⟨-, isDb⟩ := upserted
      cases isDb
      exact kept.advance rfl le_rfl
  | sweepEdges watermark => exact kept.sweep watermark
  | sweepStubs watermark => exact kept.advance rfl le_rfl
  | publishCeiling root cutoff => exact kept
  | clearCeiling root => exact kept

theorem Kept.insert (kept : Kept history db) {new : FrontierEdgeRow} (fresh : new.generation = db.currentGeneration)
    (absent : ∀ row ∈ db.frontierEdges, row.canonicalHash ≠ new.canonicalHash)
    (inOrder : (∀ old ∈ history, old.samePair new → old.newer new = false) ∨
      ∃ top ∈ db.frontierEdges, top.samePair new ∧ top.generation = db.currentGeneration ∧ new.newer top = false ∧
        ∀ old ∈ history, old.samePair new → old.newer top = false) :
    Kept (history ++ [new]) { db with frontierEdges := db.frontierEdges ++ [new] } := by
  -- The newest row of the pair afterwards: the new row itself, or the one that was the newest already.
  obtain ⟨first, isFirst, samePair, young, newest⟩ : ∃ first ∈ db.frontierEdges ++ [new], first.samePair new ∧
      db.currentGeneration ≤ first.generation ∧ ∀ old ∈ history ++ [new], old.samePair new → old.newer first = false := by
    rcases inOrder with highest | ⟨top, isTop, same, current, below, highest⟩
    · refine ⟨new, by simp, ⟨rfl, rfl⟩, fresh.ge, ?_⟩
      exact forall_mem_append.mpr ⟨highest, forall_mem_singleton.mpr fun _ => refNewer_irrefl _⟩
    · refine ⟨top, mem_append_left _ isTop, same, current.ge, ?_⟩
      exact forall_mem_append.mpr ⟨highest, forall_mem_singleton.mpr fun _ => below⟩
  constructor
  case distinct =>
    show ((db.frontierEdges ++ [new]).map _).Nodup
    rw [map_append, map_singleton]
    refine kept.distinct.append (nodup_singleton _) ?_
    rw [disjoint_singleton]
    intro mem
    obtain ⟨row, isRow, same⟩ := mem_map.mp mem
    exact absent row isRow same
  case stamped => exact forall_mem_append.mpr ⟨kept.stamped, forall_mem_singleton.mpr fresh.le⟩
  case written =>
    refine forall_mem_append.mpr ⟨fun row mem => ?_, forall_mem_singleton.mpr ⟨new, by simp, ⟨rfl, rfl⟩, rfl, rfl⟩⟩
    obtain ⟨old, isOld, rest⟩ := kept.written row mem
    exact ⟨old, mem_append_left _ isOld, rest⟩
  case newest =>
    intro row mem
    have older : row.generation ≤ db.currentGeneration := by
      rcases mem_concat.mp mem with old | isNew
      · exact kept.stamped row old
      · rw [isNew, fresh]
    by_cases same : row.samePair new
    · exact ⟨first, isFirst, ⟨samePair.1.trans same.1.symm, samePair.2.trans same.2.symm⟩, Nat.le_trans older young,
        fun old isOld ofRow => newest old isOld ⟨ofRow.1.trans same.1, ofRow.2.trans same.2⟩⟩
    · have isOld : row ∈ db.frontierEdges := by
        rcases mem_concat.mp mem with old | isNew
        · exact old
        · exact absurd ⟨congrArg _ isNew, congrArg _ isNew⟩ same
      obtain ⟨top, isTop, ofRow, below, highest⟩ := kept.newest row isOld
      refine ⟨top, mem_append_left _ isTop, ofRow, below, ?_⟩
      refine forall_mem_append.mpr ⟨highest, forall_mem_singleton.mpr fun again => ?_⟩
      exact absurd ⟨again.1.symm, again.2.symm⟩ same

end Steps

theorem kept_step (store : EdgeStore) (event : EdgeStoreEvent) (kept : Kept store.history store.tables.db)
    (inOrder : InOrder store event) : Kept (store.step event).history (store.step event).tables.db := by
  cases event with
  | insert edge canonicalHash signature payload =>
    rw [step, insertFrontierEdge]
    by_cases present : store.tables.db.frontierEdges.any (·.canonicalHash = canonicalHash) = true
    · simp only [present, if_true]
      exact kept
    · simp only [present, if_false, Bool.false_eq_true]
      have absent : ∀ row ∈ store.tables.db.frontierEdges, row.canonicalHash ≠ canonicalHash := by simpa using present
      refine kept.insert rfl absent (inOrder.resolve_left ?_)
      rintro ⟨row, isRow, same⟩
      exact absent row isRow same
  | rebuild fuel readers capN maxDepth k sent =>
    have marks := (marksActive_writes fuel store.tables readers capN maxDepth k).of_shorter ( take_prefix sent _)
    exact marks.invariant (fun tables write kept marks => Kept.apply kept marks) kept
  | elsewhere db => exact kept.advance rfl le_rfl

theorem Kept.newestKept {store : EdgeStore} (kept : Kept store.history store.tables.db) : NewestKept store where
  present row mem newest isNewest same highest := by
    obtain ⟨top, isTop, ofRow, -, below⟩ := kept.newest row mem
    refine ⟨top, isTop, FrontierEdgeRow.canonicalHash_eq ?_ (below newest isNewest same)⟩
    exact kept.not_newer isTop fun old isOld ofTop => highest old isOld ⟨ofTop.1.trans ofRow.1, ofTop.2.trans ofRow.2⟩
  resolved source target edge isActive old isOld ofSource ofTarget := by
    have own : edge.sourcePubkey = source := by
      simpa using find?_some ((find?_activeEdgesBySource _ source).trans isActive)
    subst own
    obtain ⟨row, -, rfl, isTarget, highest⟩ := kept.active_row (mem_activeEdgesBySource.mpr isActive)
    exact highest old isOld ⟨ofSource, ofTarget.trans isTarget.symm⟩

theorem step_idleRebuild (store : EdgeStore) : (store.step (.rebuild 0 [] 0 0 1 3)).history = store.history ∧
    (store.step (.rebuild 0 [] 0 0 1 3)).tables.db.frontierEdges =
      store.tables.db.frontierEdges.filter fun row => store.tables.db.currentGeneration ≤ row.generation := by
  refine ⟨rfl, ?_⟩
  show store.tables.db.frontierEdges.filter (fun row =>
    decide (((store.tables.db.currentGeneration + 1 : Nat) : Int) - 1 ≤ row.generation)) = _
  apply filter_congr
  intro row _
  simp

theorem Kept.overtaken {store : EdgeStore} (kept : Kept store.history store.tables.db) {event : EdgeStoreEvent}
    (outOfOrder : ¬ InOrder store event) : ¬ NewestKept ((store.step event).step (.rebuild 0 [] 0 0 1 3)) := by
  cases event with
  | rebuild | elsewhere => exact absurd trivial outOfOrder
  | insert edge canonicalHash signature payload =>
    obtain ⟨absent, overtaken, stale⟩ := by simpa only [InOrder, not_or] using outOfOrder
    generalize isRow : frontierRow edge canonicalHash signature payload store.tables.db.currentGeneration = row at *
    have isNew : store.tables.db.frontierEdges.any (·.canonicalHash = canonicalHash) = false := by
      rw [Bool.eq_false_iff]
      intro present
      obtain ⟨other, mem, same⟩ := any_eq_true.mp present
      exact absent ⟨other, mem, by simpa using same⟩
    have edges : (store.step (.insert edge canonicalHash signature payload)).tables.db.frontierEdges =
        store.tables.db.frontierEdges ++ [row] := by
      simp only [step, insertFrontierEdge, isNew, Bool.false_eq_true, if_false, ← isRow]
      rfl
    have history : (store.step (.insert edge canonicalHash signature payload)).history = store.history ++ [row] := by
      simp only [step, isNew, Bool.false_eq_true, if_false, ← isRow]
    have current : row.generation = store.tables.db.currentGeneration := by rw [← isRow]; rfl
    obtain ⟨sameHistory, sweptEdges⟩ := step_idleRebuild (store.step (.insert edge canonicalHash signature payload))
    have sameGeneration : (store.step (.insert edge canonicalHash signature payload)).tables.db.currentGeneration =
      store.tables.db.currentGeneration := rfl
    rw [edges, sameGeneration] at sweptEdges
    rw [history] at sameHistory
    generalize (store.step (.insert edge canonicalHash signature payload)).step (.rebuild 0 [] 0 0 1 3) = later at *
    intro newest
    have isRowLeft : row ∈ later.tables.db.frontierEdges := by
      rw [sweptEdges]
      exact mem_filter.mpr ⟨by simp, decide_eq_true current.ge⟩
    obtain ⟨active, isActive, ⟨source, target⟩, found⟩ := exists_activeEdge isRowLeft
    have highest : ∀ old ∈ later.history, old.samePair row → old.newer active = false := fun old isOld same =>
      newest.resolved row.sourcePubkey row.targetPubkey active.ref found old isOld same.1 same.2
    rw [sameHistory] at highest
    rw [sweptEdges] at isActive
    obtain ⟨isActive, young⟩ := mem_filter.mp isActive
    rw [decide_eq_true_eq] at young
    rcases mem_concat.mp isActive with old | isNew
    · exact stale ⟨active, old, ⟨source, target⟩, Nat.le_antisymm (kept.stamped active old) young,
        highest row (by simp) ⟨rfl, rfl⟩, fun other isOther => highest other (mem_append_left _ isOther)⟩
    · rw [isNew] at highest
      exact overtaken fun other isOther => highest other (mem_append_left _ isOther)

/-- Edges that come in in order keep the newest of every pair, over rebuilds and sweeps of any window; after the first
one out of order the newest can be lost. -/
theorem newest_edge_kept (db : Db) (none_ : db.frontierEdges = []) (ceilings : Table Key Int)
    (events : List EdgeStoreEvent)
    (inOrder : MeetAlong step InOrder { tables := { db, localAgeCeilings := ceilings } } events) :
    (∀ reached, reached <+: events →
      NewestKept (reached.foldl step { tables := { db, localAgeCeilings := ceilings } })) ∧
    ∀ event, ¬ InOrder (events.foldl step { tables := { db, localAgeCeilings := ceilings } }) event → ∃ more,
      ¬ NewestKept ((events ++ event :: more).foldl step { tables := { db, localAgeCeilings := ceilings } }) := by
  have start : Kept [] db := by
    constructor <;> simp [none_]
  refine ⟨fun reached within => ((inOrder.of_shorter within).invariant kept_step start).newestKept, ?_⟩
  intro event outOfOrder
  refine ⟨[.rebuild 0 [] 0 0 1 3], ?_⟩
  rw [foldl_append]
  exact (inOrder.invariant kept_step start).overtaken outOfOrder

def stanceOn (stance : TrustStance) (createdAt : Nat) : TrustEdge where
  fromKey := 1
  toKey := 0
  stance := stance
  createdAt := createdAt
  priorEdgeHash := none

def trustThenDistrust : List EdgeStoreEvent :=
  [.insert (stanceOn .trust 5) 1 [] [], .insert (stanceOn .distrust 9) 2 [] []]

theorem trust_then_distrust_kept : MeetAlong step InOrder { tables := { db := {} } } trustThenDistrust ∧
    (∀ reached, reached <+: trustThenDistrust → NewestKept (reached.foldl step { tables := { db := {} } })) ∧
    ∀ event, ¬ InOrder (trustThenDistrust.foldl step { tables := { db := {} } }) event →
      ∃ more, ¬ NewestKept ((trustThenDistrust ++ event :: more).foldl step { tables := { db := {} } }) := by
  have inOrder : MeetAlong step InOrder { tables := { db := {} } } trustThenDistrust := by
    decide +kernel
  exact ⟨inOrder, newest_edge_kept {} rfl [] trustThenDistrust inOrder⟩

/-- The target is no reader for four rebuilds, the distrust is swept, and the trust before it comes in once more. -/
def revivedTrust : List EdgeStoreEvent :=
  trustThenDistrust ++ List.replicate 4 (.rebuild 1 [] 500 3 3 9) ++ [.insert (stanceOn .trust 5) 1 [] []]

theorem distrust_forgotten : ¬ ∀ (db : Db) (events reached : List EdgeStoreEvent), db.frontierEdges = [] →
    reached <+: events → NewestKept (reached.foldl step { tables := { db } }) := by
  intro all
  have kept := all {} revivedTrust revivedTrust rfl (prefix_refl _)
  have lost : ¬ ∃ row ∈ (revivedTrust.foldl step { tables := { db := {} } }).tables.db.frontierEdges,
      row.canonicalHash = 2 := by
    decide +kernel
  exact lost (kept.present (frontierRow (stanceOn .trust 5) 1 [] [] 4) (by decide +kernel)
    (frontierRow (stanceOn .distrust 9) 2 [] [] 0) (by decide +kernel) (by decide +kernel) (by decide +kernel))

end EdgeStore

end Prismoire
