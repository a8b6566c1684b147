import Prismoire.ReverseBall

namespace Prismoire

open Lib List Db

/-- The tables that a rebuild of the reverse frontier writes to. -/
structure FrontierTables where
  db : Db
  localAgeCeilings : Table Key Int := []

/-- A statement that fails changes nothing. -/
def FrontierTables.apply (tables : FrontierTables) : FrontierWrite → FrontierTables
  | .advance => { tables with db := { tables.db with frontierGeneration := tables.db.frontierGeneration + 1 } }
  | .mark canonicalHash generation => { tables with db := tables.db.markFrontierEdgeLive canonicalHash generation }
  | .stub key generation reverseHop =>
    match tables.db.upsertFrontierUserStub key generation reverseHop with
    | .ok db => { tables with db := db }
    | .error _ => tables
  | .sweepEdges watermark => { tables with
      db := { tables.db with frontierEdges := tables.db.frontierEdges.filter (watermark ≤ ·.generation) } }
  | .sweepStubs watermark => { tables with
      db := { tables.db with frontierUsers := tables.db.frontierUsers.filter (watermark ≤ ·.generation) } }
  | .publishCeiling root cutoff => { tables with
      localAgeCeilings := tables.localAgeCeilings.filter (·.1 ≠ root) ++ [(root, cutoff)] }
  | .clearCeiling root => { tables with localAgeCeilings := tables.localAgeCeilings.filter (·.1 ≠ root) }

def FrontierTables.replay (tables : FrontierTables) (writes : List FrontierWrite) : FrontierTables :=
  writes.foldl FrontierTables.apply tables

def deriveAgeCeiling (cap : AdmissionCap) : Option Int :=
  if ¬ cap.isFull then none else cap.worstAdmitted.bind (·.genesisAt)

def publishLocalAgeCeilings (readers : List FrontierReader) (caps : List AdmissionCap) : List FrontierWrite :=
  readers.zipWith (fun reader cap =>
    match deriveAgeCeiling cap with
    | some cutoff => .publishCeiling reader.key cutoff
    | none => .clearCeiling reader.key) caps

def sweepFrontier (current k : Int) : List FrontierWrite :=
  [.sweepEdges (current - k), .sweepStubs (current - k)]

/-- What a rebuild sends to the database, in order, and the error of its own that it stopped at. One that fails for
another reason has sent the first few of these. -/
structure Rebuild where
  writes : List FrontierWrite
  error : Option SqlError := none

def rebuildReverseFrontier (fuel : Nat) (tables : FrontierTables) (readers : List FrontierReader)
    (capN maxDepth : Nat) (k : Int) : Rebuild :=
  let advanced := tables.apply .advance
  let generation := advanced.db.currentGeneration
  match reverseFrontierBfs fuel advanced.db readers capN generation maxDepth with
  | .error (error, failed) => { writes := .advance :: failed.writes, error := some error }
  | .ok sweep => { writes := .advance :: (sweep.writes ++ sweepFrontier generation k ++
      publishLocalAgeCeilings readers sweep.caps) }

structure FrontierStubKeys where
  visible : List Key
  expansion : List Key

def Db.loadFrontierStubKeys (db : Db) (generation : Nat) : FrontierStubKeys where
  visible := (db.frontierUsers.filter (·.generation = generation)).map (·.userKey)
  expansion := ((db.frontierUsers.filter (·.generation = generation)).filter (·.reverseHop ≤ 2)).map (·.userKey)

/-- `active` is the status column of `users`. -/
def Db.rootKeys (db : Db) (active : Key → Bool) : List Key :=
  (db.users.filter fun row => row.homeInstance = none ∧ active row.publicKey).map (·.publicKey)

def computeLocalKeys (active : Key → Bool) (first later : Db) : FrontierStubKeys :=
  let stubs := later.loadFrontierStubKeys first.currentGeneration
  { visible := first.rootKeys active ++ stubs.visible
    expansion := first.rootKeys active ++ stubs.expansion }

/-- What is asked about a key while a rebuild may be going on. -/
inductive FrontierQuery
  | targetInExpansionSet
  | visibleFilter
  | expansionFilter

namespace FrontierQuery

variable (query : FrontierQuery) (active : Key → Bool)

def reports (first later : Db) (key : Key) : Bool :=
  match query with
  | .targetInExpansionSet => first.isLocalUser key || later.frontierUsers.any fun row =>
      row.userKey = key ∧ row.generation = first.currentGeneration ∧ row.reverseHop ≤ 2
  | .visibleFilter => key ∈ (computeLocalKeys active first later).visible
  | .expansionFilter => key ∈ (computeLocalKeys active first later).expansion

/-- The keys that do not depend on the stubs. -/
def rooted (db : Db) (key : Key) : Bool :=
  match query with
  | .targetInExpansionSet => db.isLocalUser key
  | .visibleFilter | .expansionFilter => key ∈ db.rootKeys active

def takesHop (hop : Nat) : Bool :=
  match query with
  | .visibleFilter => true
  | .targetInExpansionSet | .expansionFilter => hop ≤ 2

variable {query} {active}

theorem reports_iff {first later : Db} {key : Key} : query.reports active first later key = true ↔
    query.rooted active first key = true ∨ ∃ row ∈ later.frontierUsers,
      row.userKey = key ∧ row.generation = first.currentGeneration ∧ query.takesHop row.reverseHop = true := by
  cases query with
  | targetInExpansionSet => simp [reports, rooted, takesHop]
  | visibleFilter =>
    refine decide_eq_true_iff.trans ?_
    simp only [rooted, takesHop, computeLocalKeys, loadFrontierStubKeys, decide_eq_true_eq, mem_append,
      mem_map, mem_filter]
    refine or_congr_right (exists_congr fun row => ?_)
    tauto
  | expansionFilter =>
    refine decide_eq_true_iff.trans ?_
    simp only [rooted, takesHop, computeLocalKeys, loadFrontierStubKeys, decide_eq_true_eq, mem_append,
      mem_map, mem_filter]
    refine or_congr_right (exists_congr fun row => ?_)
    tauto

end FrontierQuery

/-- The statements that touch neither the stubs nor the generation. -/
def FrontierWrite.plain : FrontierWrite → Bool
  | .mark .. | .sweepEdges _ | .publishCeiling .. | .clearCeiling _ => true
  | .advance | .stub .. | .sweepStubs _ => false

/-- What a rebuild sends before it ends or fails: each stub once, none after the stubs are swept. -/
inductive Rebuilding (generation : Nat) : List FrontierWrite → Prop
  | idle : Rebuilding generation []
  | advance : Rebuilding generation [.advance]
  | other {writes : List FrontierWrite} {write : FrontierWrite} (before : Rebuilding generation writes)
      (begun : writes ≠ []) (plain : write.plain = true) : Rebuilding generation (writes ++ [write])
  | stub {writes : List FrontierWrite} {key : Key} {hop : Nat} (before : Rebuilding generation writes)
      (begun : writes ≠ []) (new : ∀ stamp hop, .stub key stamp hop ∉ writes)
      (unswept : ∀ watermark : Int, .sweepStubs watermark ∉ writes) (low : 1 ≤ hop) (high : hop ≤ 3) :
      Rebuilding generation (writes ++ [.stub key generation hop])
  | sweepStubs {writes : List FrontierWrite} (before : Rebuilding generation writes) (begun : writes ≠ [])
      (watermark : Int) : Rebuilding generation (writes ++ [.sweepStubs watermark])

variable {generation : Nat} {tables : FrontierTables} {writes : List FrontierWrite}

namespace Rebuilding

theorem replay_append (tables : FrontierTables) (writes : List FrontierWrite) (write : FrontierWrite) :
    tables.replay (writes ++ [write]) = (tables.replay writes).apply write := by
  rw [FrontierTables.replay, foldl_append]
  rfl

theorem apply_plain {write : FrontierWrite} (plain : write.plain = true) (tables : FrontierTables) :
    (tables.apply write).db.frontierUsers = tables.db.frontierUsers ∧
      (tables.apply write).db.currentGeneration = tables.db.currentGeneration := by
  cases write with
  | mark | sweepEdges | publishCeiling | clearCeiling => exact ⟨rfl, rfl⟩
  | advance | stub | sweepStubs => cases plain

theorem upsert_eq {db : Db} {key : Key} {hop : Nat} (low : 1 ≤ hop) (high : hop ≤ 3) :
    db.upsertFrontierUserStub key generation hop =
      .ok { db with frontierUsers := upsertStub generation db.frontierUsers (key, hop) } := by
  simp [upsertFrontierUserStub, require, low, high, upsertStub, bind, Except.bind, pure, Except.pure]

variable (rebuilding : Rebuilding generation writes)
include rebuilding

theorem mem_frontierUsers {row : FrontierUserRow} : row ∈ (tables.replay writes).db.frontierUsers ↔
      ((.stub row.userKey generation row.reverseHop ∈ writes ∧ row.generation = generation) ∨
        (row ∈ tables.db.frontierUsers ∧ ∀ stamp hop, .stub row.userKey stamp hop ∉ writes)) ∧
      ∀ watermark : Int, .sweepStubs watermark ∈ writes → watermark ≤ row.generation := by
  induction rebuilding generalizing row with
  | idle => simp [FrontierTables.replay]
  | advance => simp [FrontierTables.replay, FrontierTables.apply]
  | other before begun plain ih =>
    rw [replay_append, (apply_plain plain _).1, ih]
    rename_i write
    cases write with
    | mark | sweepEdges | publishCeiling | clearCeiling => simp
    | advance | stub | sweepStubs => cases plain
  | sweepStubs before begun watermark ih =>
    rw [replay_append]
    simp only [FrontierTables.apply, mem_filter, decide_eq_true_eq, ih]
    simp [or_imp, forall_and, and_assoc]
  | @stub writes key hop before begun new unswept low high ih =>
    have free : ∀ watermark : Int, .sweepStubs watermark ∉ writes ++ [FrontierWrite.stub key generation hop] := by
      simpa using unswept
    rw [replay_append]
    simp only [FrontierTables.apply, upsert_eq low high, mem_upsertStub, ih]
    by_cases own : row.userKey = key
    · have unwritten : ∀ stamp hop, .stub row.userKey stamp hop ∉ writes := own ▸ new
      have isNew : row = stubRow generation (key, hop) ↔ row.reverseHop = hop ∧ row.generation = generation := by
        cases row
        simp only at own
        simp [stubRow, own, and_comm]
      simp [own, isNew, new, free]
    · have isOld : row ≠ stubRow generation (key, hop) := fun same => own (same ▸ rfl)
      simp [own, isOld, free, unswept]

theorem currentGeneration_replay :
    (tables.replay writes).db.currentGeneration = tables.db.currentGeneration + if writes = [] then 0 else 1 := by
  induction rebuilding with
  | idle => rfl
  | advance => rfl
  | other before begun plain ih =>
    rw [replay_append, (apply_plain plain _).2, ih, if_neg begun, if_neg (by simp)]
  | sweepStubs before begun watermark ih =>
    rw [if_neg begun] at ih
    rw [replay_append, if_neg (by simp)]
    exact ih
  | stub before begun new unswept low high ih =>
    rw [if_neg begun] at ih
    rw [replay_append, if_neg (by simp), FrontierTables.apply, upsert_eq low high]
    exact ih

theorem users_replay : (tables.replay writes).db.users = tables.db.users := by
  induction rebuilding with
  | idle => rfl
  | advance => rfl
  | other before begun plain ih =>
    rw [replay_append, ← ih]
    rename_i write
    cases write with
    | mark | sweepEdges | publishCeiling | clearCeiling => rfl
    | advance | stub | sweepStubs => cases plain
  | sweepStubs before begun watermark ih =>
    rw [replay_append]
    exact ih
  | stub before begun new unswept low high ih =>
    rw [replay_append, FrontierTables.apply, upsert_eq low high]
    exact ih

theorem take (n : Nat) : Rebuilding generation (writes.take n) := by
  have whole : ∀ {writes : List FrontierWrite} (write : FrontierWrite), Rebuilding generation (writes ++ [write]) →
      Rebuilding generation (writes.take n) → Rebuilding generation ((writes ++ [write]).take n) := by
    intro writes write all part
    by_cases short : n ≤ writes.length
    · rwa [take_append_of_le_length short]
    · rwa [take_of_length_le (by simp; omega)]
  induction rebuilding with
  | idle =>
    rw [take_nil]
    exact .idle
  | advance =>
    refine @whole [] .advance .advance ?_
    rw [take_nil]
    exact .idle
  | other before begun plain ih => exact whole _ (.other before begun plain) ih
  | stub before begun new unswept low high ih => exact whole _ (.stub before begun new unswept low high) ih
  | sweepStubs before begun watermark ih => exact whole _ (.sweepStubs before begun watermark) ih

end Rebuilding

section Logged

/-- Where a sweep got, whether it went through or not. -/
def SweepResult.last : SweepResult FrontierSweep → FrontierSweep
  | .ok sweep => sweep
  | .error (_, failed) => failed

/-- The tables of a sweep are what its statements made of those it started with. -/
structure Logged (tables : FrontierTables) (generation : Nat) (sweep : FrontierSweep) : Prop where
  writes : Rebuilding generation (.advance :: sweep.writes)
  stubs : ∀ key stamp hop, .stub key stamp hop ∈ sweep.writes → key ∈ sweep.visited
  unswept : ∀ watermark : Int, .sweepStubs watermark ∉ sweep.writes
  replayed : tables.replay (.advance :: sweep.writes) = { tables with db := sweep.db }

variable {readers : List FrontierReader} {maxDepth : Nat} {sweep : FrontierSweep}

theorem foldlM_last {α : Type} (Inv : FrontierSweep → Prop) {round : FrontierSweep → α → SweepResult FrontierSweep}
    {items : List α} (keeps : ∀ sweep, ∀ item ∈ items, Inv sweep → Inv (round sweep item).last) (start : Inv sweep) :
    Inv (items.foldlM round sweep).last := by
  induction items generalizing sweep with
  | nil => exact start
  | cons item items ih =>
    have next := keeps sweep item mem_cons_self start
    rw [foldlM_cons]
    cases result : round sweep item with
    | error failed =>
      rw [result] at next
      exact next
    | ok after =>
      rw [result] at next
      exact ih (fun sweep item later => keeps sweep item (mem_cons_of_mem _ later)) next

theorem loop_last (Inv : FrontierSweep → Prop) (pops : ∀ sweep rest, Inv sweep → Inv { sweep with queue := rest })
    (visits : ∀ sweep node depth, Inv sweep → Inv ((activeEdgesBySource (sweep.db.frontierEdgesByTarget node)).foldlM
      (FrontierSweep.visitEdge readers generation depth) sweep).last) (fuel : Nat) (start : Inv sweep) :
    Inv (FrontierSweep.loop readers generation maxDepth fuel sweep).last := by
  induction fuel generalizing sweep with
  | zero => exact start
  | succ fuel ih =>
    rw [FrontierSweep.loop]
    cases queue : sweep.queue with
    | nil => exact start
    | cons next rest =>
      obtain ⟨node, depth⟩ := next
      have expanded :
          Inv (FrontierSweep.expand readers generation maxDepth { sweep with queue := rest } node depth).last := by
        rw [FrontierSweep.expand]
        by_cases deep : maxDepth ≤ depth
        · rw [if_pos deep]
          exact pops sweep rest start
        · rw [if_neg deep]
          exact visits _ node depth (pops sweep rest start)
      cases result : FrontierSweep.expand readers generation maxDepth { sweep with queue := rest } node depth with
      | error failed =>
        rw [result] at expanded
        simpa [result, bind, Except.bind] using expanded
      | ok swept =>
        rw [result] at expanded
        have next : Inv swept := expanded
        simpa [result, bind, Except.bind] using ih next

theorem Logged.mark (logged : Logged tables generation sweep) (hash : Hash) :
    Logged tables generation (sweep.mark hash generation) where
  writes := .other logged.writes (by simp) rfl
  stubs key stamp hop mem := logged.stubs key stamp hop (by simpa [FrontierSweep.mark] using mem)
  unswept watermark mem := logged.unswept watermark (by simpa [FrontierSweep.mark] using mem)
  replayed := by
    rw [FrontierSweep.mark, ← cons_append, Rebuilding.replay_append, logged.replayed]
    rfl

theorem materialize_ok {db after : Db} {key : Key} {hop : Nat} {how : NodeMaterialization}
    (isOk : db.materializeFrontierNode key generation hop = .ok (after, how)) :
    (how = .stub ∧ db.upsertFrontierUserStub key generation hop = .ok after ∧ 1 ≤ hop ∧ hop ≤ 3) ∨
      (how ≠ .stub ∧ after = db) := by
  rw [materializeFrontierNode] at isOk
  by_cases isLocal : db.isLocalUser key = true
  · rw [if_pos isLocal] at isOk
    cases isOk
    exact .inr ⟨by decide, rfl⟩
  · rw [if_neg isLocal] at isOk
    cases home : db.resolveFrontierHome key with
    | none =>
      rw [home] at isOk
      cases isOk
      exact .inr ⟨by decide, rfl⟩
    | some found =>
      rw [home] at isOk
      cases upserted : db.upsertFrontierUserStub key generation hop with
      | error error => simp [upserted, bind, Except.bind] at isOk
      | ok result =>
        have inRange := upserted
        rw [upsertFrontierUserStub, require_bind_ok, Bool.and_eq_true, decide_eq_true_eq, decide_eq_true_eq] at inRange
        simp only [upserted, bind, Except.bind, pure, Except.pure, Except.ok.injEq, Prod.mk.injEq] at isOk
        obtain ⟨rfl, rfl⟩ := isOk
        exact .inl ⟨rfl, rfl, inRange.1⟩

theorem Logged.reach (logged : Logged tables generation sweep) {source : Key} (new : source ∉ sweep.visited) (hop : Nat) :
    Logged tables generation (FrontierSweep.reach readers generation hop sweep source).last := by
  have seen : ∀ key stamp hop, .stub key stamp hop ∈ sweep.writes → key ∈ sweep.visited ++ [source] :=
    fun key stamp hop mem => mem_append_left _ (logged.stubs key stamp hop mem)
  rw [FrontierSweep.reach]
  by_cases admitted : (sweep.offers readers source).any Prod.snd = true
  · rw [if_neg (not_not.mpr admitted)]
    cases materialized : sweep.db.materializeFrontierNode source generation hop with
    | error error => exact ⟨logged.writes, seen, logged.unswept, logged.replayed⟩
    | ok result =>
      obtain ⟨after, how⟩ := result
      obtain ⟨rfl, upserted, low, high⟩ | ⟨other, rfl⟩ := materialize_ok materialized
      · have unwritten : ∀ stamp hop, FrontierWrite.stub source stamp hop ∉ .advance :: sweep.writes := by
          intro stamp hop mem
          exact new (logged.stubs source stamp hop (by simpa using mem))
        refine ⟨.stub logged.writes (by simp) unwritten (by simpa using logged.unswept) low high, ?_, ?_, ?_⟩
        · intro key stamp hop mem
          simp only [SweepResult.last, pure, Except.pure, if_true, mem_append, mem_singleton,
            FrontierWrite.stub.injEq] at mem ⊢
          rcases mem with old | ⟨rfl, -⟩
          · exact .inl (logged.stubs key stamp hop old)
          · exact .inr rfl
        · intro watermark mem
          exact logged.unswept watermark (by simpa [SweepResult.last, pure, Except.pure] using mem)
        · show tables.replay (.advance :: sweep.writes ++ [.stub source generation hop]) = _
          rw [Rebuilding.replay_append, logged.replayed, FrontierTables.apply]
          simp only [upserted]
          rfl
      · have none_ : (if how = .stub then [FrontierWrite.stub source generation hop] else []) = [] := if_neg other
        simp only [none_, append_nil]
        exact ⟨logged.writes, seen, logged.unswept, logged.replayed⟩
  · rw [if_pos admitted]
    exact ⟨logged.writes, seen, logged.unswept, logged.replayed⟩

theorem Logged.visitEdge (logged : Logged tables generation sweep) (depth : Nat) (edge : FrontierEdgeRef) :
    Logged tables generation (FrontierSweep.visitEdge readers generation depth sweep edge).last := by
  have marks := logged.mark edge.canonicalHash
  rw [FrontierSweep.visitEdge]
  by_cases trusts : edge.stance = .trust
  · rw [if_neg (not_not.mpr trusts)]
    by_cases old : edge.sourcePubkey ∈ (sweep.mark edge.canonicalHash generation).visited
    · rw [if_pos old]
      exact marks
    · rw [if_neg old]
      exact marks.reach old (depth + 1)
  · rw [if_pos trusts]
    exact marks

theorem logged_reverseFrontierBfs (fuel : Nat) (tables : FrontierTables) (readers : List FrontierReader)
    (capN maxDepth : Nat) : Logged tables (tables.apply .advance).db.currentGeneration
      (reverseFrontierBfs fuel (tables.apply .advance).db readers capN (tables.apply .advance).db.currentGeneration
        maxDepth).last := by
  rw [reverseFrontierBfs, foldl_seed readers _ rfl]
  refine loop_last (Logged tables _) (fun sweep rest logged => ⟨logged.writes, logged.stubs, logged.unswept, logged.replayed⟩) ?_ fuel ?_
  · intro sweep node depth logged
    exact foldlM_last (Logged tables _) (fun sweep edge _ logged => logged.visitEdge depth edge) logged
  · exact ⟨.advance, by simp, by simp, rfl⟩

theorem Rebuilding.others {generation : Nat} {writes more : List FrontierWrite} (before : Rebuilding generation writes)
    (begun : writes ≠ []) (plain : ∀ write ∈ more, write.plain = true) : Rebuilding generation (writes ++ more) := by
  induction more generalizing writes with
  | nil => rwa [append_nil]
  | cons write more ih =>
    rw [append_cons]
    exact ih (.other before begun (plain write mem_cons_self)) (by simp) fun write later =>
      plain write (mem_cons_of_mem _ later)

theorem rebuilding_writes (fuel : Nat) (tables : FrontierTables) (readers : List FrontierReader) (capN maxDepth : Nat)
    (k : Int) : Rebuilding (tables.db.currentGeneration + 1)
      (rebuildReverseFrontier fuel tables readers capN maxDepth k).writes := by
  have logged := logged_reverseFrontierBfs fuel tables readers capN maxDepth
  rw [rebuildReverseFrontier]
  cases result : reverseFrontierBfs fuel (tables.apply .advance).db readers capN
      (tables.apply .advance).db.currentGeneration maxDepth with
  | error failed =>
    rw [result] at logged
    exact logged.writes
  | ok sweep =>
    rw [result] at logged
    have clean : Logged tables (tables.apply .advance).db.currentGeneration sweep := logged
    have swept := (clean.writes.others (by simp) (forall_mem_singleton.mpr
      (show (FrontierWrite.sweepEdges ((tables.apply .advance).db.currentGeneration - k)).plain = true from rfl))).sweepStubs
      (by simp) ((tables.apply .advance).db.currentGeneration - k)
    have published : ∀ write ∈ publishLocalAgeCeilings readers sweep.caps, write.plain = true := by
      intro write mem
      obtain ⟨n, inside, isWrite⟩ := getElem_of_mem mem
      simp only [publishLocalAgeCeilings, getElem_zipWith] at isWrite
      rw [← isWrite]
      split <;> rfl
    have all := swept.others (by simp) published
    rw [append_assoc, append_assoc] at all
    have shape : tables.db.currentGeneration + 1 = (tables.apply .advance).db.currentGeneration := rfl
    rw [shape]
    simpa [sweepFrontier] using all

end Logged

def Untouched (generation : Nat) (key : Key) (writes : List FrontierWrite) : Prop :=
  (∀ stamp hop, .stub key stamp hop ∉ writes) ∧ ∀ watermark : Int, .sweepStubs watermark ∈ writes → watermark ≤ generation

def Restamped (query : FrontierQuery) (generation : Nat) (key : Key) (writes : List FrontierWrite) : Prop :=
  (∃ hop, query.takesHop hop = true ∧ .stub key generation hop ∈ writes) ∧
    ∀ watermark : Int, .sweepStubs watermark ∈ writes → watermark ≤ generation

def FrontierTables.during (tables : FrontierTables) (rebuild : Rebuild) (sent : Nat) : Db :=
  (tables.replay (rebuild.writes.take sent)).db

section Calls

variable {query : FrontierQuery} {active : Key → Bool} {key : Key}

theorem Rebuilding.reports_iff (rebuilding : Rebuilding (tables.db.currentGeneration + 1) writes)
    (keyed : (tables.db.frontierUsers.map (·.userKey)).Nodup)
    (before : query.reports active tables.db tables.db key = true) {i j : Nat} (later : i ≤ j) (within : j ≤ writes.length) :
    query.reports active (tables.replay (writes.take i)).db (tables.replay (writes.take j)).db key = true ↔
      query.rooted active tables.db key = true ∨
        if i = 0 then Untouched tables.db.currentGeneration key (writes.take j)
        else Restamped query (tables.db.currentGeneration + 1) key (writes.take j) := by
  have sameRoots : query.rooted active (tables.replay (writes.take i)).db key = query.rooted active tables.db key := by
    have users := @users_replay _ tables _ (rebuilding.take i)
    have roots : (tables.replay (writes.take i)).db.rootKeys active = tables.db.rootKeys active := by
      rw [rootKeys, users, rootKeys]
    cases query with
    | targetInExpansionSet => simp only [FrontierQuery.rooted, isLocalUser, users]
    | visibleFilter | expansionFilter => simp only [FrontierQuery.rooted, roots]
  rw [FrontierQuery.reports_iff, sameRoots, (rebuilding.take i).currentGeneration_replay]
  rcases FrontierQuery.reports_iff.mp before with isRoot | ⟨old, isOld, ownKey, stamp, takes⟩
  · exact ⟨fun _ => .inl isRoot, fun _ => .inl isRoot⟩
  refine or_congr_right ?_
  have only : ∀ row ∈ tables.db.frontierUsers, row.userKey = key → row = old := fun row mem same =>
    inj_on_of_nodup_map keyed mem isOld (same.trans ownKey.symm)
  have started : writes.take i = [] ↔ i = 0 := by
    rw [take_eq_nil_iff]
    constructor
    · rintro (zero | none_)
      · exact zero
      · have length : writes.length = 0 := by rw [none_, length_nil]
        omega
    · exact .inl
  simp only [started, (rebuilding.take j).mem_frontierUsers]
  by_cases first : i = 0
  · rw [if_pos first]
    simp only [first, if_true, Nat.add_zero]
    constructor
    · rintro ⟨row, ⟨⟨-, new⟩ | ⟨-, unwritten⟩, unswept⟩, rfl, isStamp, -⟩
      · omega
      · exact ⟨unwritten, fun watermark mem => isStamp ▸ unswept watermark mem⟩
    · rintro ⟨unwritten, unswept⟩
      refine ⟨old, ⟨.inr ⟨isOld, ownKey ▸ unwritten⟩, ?_⟩, ownKey, stamp, takes⟩
      exact fun watermark mem => stamp ▸ unswept watermark mem
  · rw [if_neg first]
    simp only [first, if_false]
    constructor
    · rintro ⟨row, ⟨⟨written, isNew⟩ | ⟨isRow, -⟩, unswept⟩, rfl, isStamp, takes⟩
      · exact ⟨⟨row.reverseHop, takes, written⟩, fun watermark mem => isNew ▸ unswept watermark mem⟩
      · have stale := only row isRow rfl
        rw [stale] at isStamp
        omega
    · rintro ⟨⟨hop, takes, written⟩, unswept⟩
      exact ⟨stubRow (tables.db.currentGeneration + 1) (key, hop), ⟨.inl ⟨written, rfl⟩, unswept⟩, rfl, rfl, takes⟩

end Calls

/-- Which calls report a key that was reported before a rebuild: all of them only for a key that needs no stub. -/
theorem rebuild_reports_iff (fuel : Nat) (tables : FrontierTables) (readers : List FrontierReader) (capN maxDepth : Nat)
    (k : Int) (query : FrontierQuery) (active : Key → Bool) (key : Key)
    (keyed : (tables.db.frontierUsers.map (·.userKey)).Nodup)
    (before : query.reports active tables.db tables.db key = true) :
    let rebuild := rebuildReverseFrontier fuel tables readers capN maxDepth k
    (∀ i j, i ≤ j → j ≤ rebuild.writes.length →
      (query.reports active (tables.during rebuild i) (tables.during rebuild j) key = true ↔
        query.rooted active tables.db key = true ∨
          if i = 0 then Untouched tables.db.currentGeneration key (rebuild.writes.take j)
          else Restamped query (tables.db.currentGeneration + 1) key (rebuild.writes.take j))) ∧
    ((∀ i j, i ≤ j → j ≤ rebuild.writes.length →
      query.reports active (tables.during rebuild i) (tables.during rebuild j) key = true) ↔
        query.rooted active tables.db key = true) := by
  intro rebuild
  have rebuilding := rebuilding_writes fuel tables readers capN maxDepth k
  have calls : ∀ i j, i ≤ j → j ≤ rebuild.writes.length → _ :=
    fun i j later within => rebuilding.reports_iff keyed before later within
  refine ⟨calls, fun all => ?_, fun isRoot i j later within => (calls i j later within).mpr (.inl isRoot)⟩
  obtain ⟨more, isAdvance⟩ : ∃ more, rebuild.writes = .advance :: more := by
    show ∃ more, (rebuildReverseFrontier fuel tables readers capN maxDepth k).writes = .advance :: more
    rw [rebuildReverseFrontier]
    split <;> exact ⟨_, rfl⟩
  have atAdvance : 1 ≤ rebuild.writes.length := by rw [isAdvance]; simp
  rcases (calls 1 1 (Nat.le_refl 1) atAdvance).mp (all 1 1 (Nat.le_refl 1) atAdvance) with isRoot | restamped
  · exact isRoot
  · obtain ⟨⟨hop, -, written⟩, -⟩ := restamped
    rw [isAdvance] at written
    simp at written

/-- The remote key `1` trusts the reader, and a rebuild has found that out before. -/
def stubbedTables : FrontierTables where
  db := { trustChain 1 with
    frontierUsers := [{ userKey := 1, generation := 0, reverseHop := 1 }] }

theorem stubbed_key_calls :
    FrontierQuery.reports .visibleFilter (fun _ => true) stubbedTables.db stubbedTables.db 1 = true ∧
    let rebuild := rebuildReverseFrontier 2 stubbedTables chainReaders 500 3 3
    (∀ i j, i ≤ j → j ≤ rebuild.writes.length →
      (FrontierQuery.reports .visibleFilter (fun _ => true) (stubbedTables.during rebuild i)
          (stubbedTables.during rebuild j) 1 = true ↔
        FrontierQuery.rooted .visibleFilter (fun _ => true) stubbedTables.db 1 = true ∨
          if i = 0 then Untouched 0 1 (rebuild.writes.take j)
          else Restamped .visibleFilter 1 1 (rebuild.writes.take j))) ∧
    ((∀ i j, i ≤ j → j ≤ rebuild.writes.length →
      FrontierQuery.reports .visibleFilter (fun _ => true) (stubbedTables.during rebuild i)
          (stubbedTables.during rebuild j) 1 = true) ↔
        FrontierQuery.rooted .visibleFilter (fun _ => true) stubbedTables.db 1 = true) :=
  ⟨by decide, rebuild_reports_iff 2 stubbedTables chainReaders 500 3 3 .visibleFilter (fun _ => true) 1 (by decide)
    (by decide)⟩

/-- Once the generation is advanced and before the stub is written again, the key is gone. -/
theorem stubbed_key_lost : ¬ ∀ (fuel : Nat) (tables : FrontierTables) (readers : List FrontierReader) (capN maxDepth : Nat)
    (k : Int) (query : FrontierQuery) (active : Key → Bool) (key : Key),
    let rebuild := rebuildReverseFrontier fuel tables readers capN maxDepth k
    rebuild.error = none →
    query.reports active tables.db tables.db key = true →
    query.reports active (tables.during rebuild rebuild.writes.length) (tables.during rebuild rebuild.writes.length)
      key = true →
    ∀ i j, i ≤ j → j ≤ rebuild.writes.length →
      query.reports active (tables.during rebuild i) (tables.during rebuild j) key = true := by
  intro all
  have reported := all 2 stubbedTables chainReaders 500 3 3 .visibleFilter (fun _ => true) 1 (by decide +kernel)
    (by decide +kernel) (by decide +kernel) 1 1 (by decide) (by decide +kernel)
  have lost : FrontierQuery.reports .visibleFilter (fun _ => true)
      (stubbedTables.during (rebuildReverseFrontier 2 stubbedTables chainReaders 500 3 3) 1)
      (stubbedTables.during (rebuildReverseFrontier 2 stubbedTables chainReaders 500 3 3) 1) 1 = false := by
    decide +kernel
  rw [lost] at reported
  cases reported

end Prismoire
