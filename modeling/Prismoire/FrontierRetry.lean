import Prismoire.FrontierCeilings

namespace Prismoire

open Lib FrontierStore

namespace FrontierStore

variable (store : FrontierStore)

def statement (coverage : Coverage) (fails : Bool) (stage : ApplyStage) : FrontierStore × ApplyStage :=
  if fails then (store, stage.failed) else store.advance coverage stage

/-- A handler that runs alone, one of its statements failing or none. -/
def attempt (coverage : Coverage) (request : FrontierRequest) (failing : Option Nat) : FrontierStore × ApplyStage :=
  let (store, stage) := store.statement coverage (failing == some 0) request.start
  let (store, stage) := store.statement coverage (failing == some 1) stage
  store.statement coverage (failing == some 2) stage

end FrontierStore

def ApplyStage.reportsError : ApplyStage → Bool
  | .answered (.badRequest _) | .answered .internalError | .answered (.versionMismatch _) | .answered .pullFailed => true
  | _ => false

def FrontierRequest.write : FrontierRequest → Option Applied
  | .announce body => some (.snapshot body)
  | .delta body => some (.delta body)
  | .pull reply => reply.map fun snapshot => .snapshot snapshot.inbound

/-- The two tables say the same of the sender. -/
structure FrontierStore.SameTables (store other : FrontierStore) : Prop where
  row : store.row = other.row
  ceilings : ∀ root, store.ceilings.get? root = other.ceilings.get? root

/-- The filters are valid, the row passes the `CHECK`s and its version is newer than the stored one. -/
structure FrontierStore.TakesSnapshot (store : FrontierStore) (inbound : FrontierAnnounce) : Prop where
  visible : ∃ bloom, inbound.visibleFilter.intoBloom = .ok bloom
  expansion : ∃ bloom, inbound.expansionFilter.intoBloom = .ok bloom
  checked : (inbound.row .filtered).checked = true
  newer : ∀ row ∈ store.row, row.appliedVersion < asI64 inbound.version.toNat

/-- The delta is for the stored version, its masks fit, the row it makes passes the `CHECK`s, and it has ceilings. -/
structure FrontierStore.TakesDelta (store : FrontierStore) (body : FrontierDelta) : Prop where
  newer : body.prevVersion < body.newVersion
  ceilings : body.ageCeilings.entries ≠ []
  fits : ∃ write : DeltaWrite, write.delta = body ∧ write.ReadFrom store.row ∧
    (write.read.updated write .filtered).checked = true

def FrontierStore.Takes (store : FrontierStore) : FrontierRequest → Prop
  | .announce body => store.TakesSnapshot body ∧ ∀ row ∈ store.row, asU64 row.appliedVersion < body.version
  | .delta body => store.TakesDelta body
  | .pull reply => ∃ snapshot ∈ reply, store.TakesSnapshot snapshot.inbound

section Steps

variable {store : FrontierStore} {coverage : Coverage} {inbound : FrontierAnnounce} {caller : ApplyCaller}

theorem FrontierAnnounce.checked_row (inbound : FrontierAnnounce) (mode other : Mode) :
    (inbound.row mode).checked = (inbound.row other).checked :=
  rfl

theorem FrontierRow.checked_updated (row : FrontierRow) (write : DeltaWrite) (mode other : Mode) :
    (row.updated write mode).checked = (row.updated write other).checked :=
  rfl

theorem beginApply_ok {visible expansion : BloomFilter} (isVisible : inbound.visibleFilter.intoBloom = .ok visible)
    (isExpansion : inbound.expansionFilter.intoBloom = .ok expansion) (prior : Mode) :
    beginApply caller inbound prior = .upserting caller inbound prior := by
  rw [beginApply, isVisible, isExpansion]

theorem upsert_takes (takes : store.TakesSnapshot inbound) (caller : ApplyCaller) (mode : Mode) :
    store.upsert caller inbound mode = ({ store with
        row := some (inbound.row mode)
        applied := store.applied ++ [.snapshot inbound] }, .replacing caller inbound) := by
  have checked := takes.checked
  rw [inbound.checked_row .filtered mode] at checked
  rw [upsert.eq_def]
  simp only [checked, not_true_eq_false, if_false]
  cases found : store.row with
  | none => rfl
  | some old => simp only [takes.newer old found, if_true]

section

variable (store : FrontierStore) (coverage : Coverage)

@[simp] theorem statement_answered (fails : Bool) (answer : FrontierAnswer) :
    store.statement coverage fails (.answered answer) = (store, .answered answer) := by
  cases fails <;> rfl

@[simp] theorem statement_fails (stage : ApplyStage) : store.statement coverage true stage = (store, stage.failed) :=
  rfl

@[simp] theorem statement_advance (stage : ApplyStage) :
    store.statement coverage false stage = store.advance coverage stage :=
  rfl

@[simp] theorem advance_upserting (prior : Mode) : store.advance coverage (.upserting caller inbound prior) =
      store.upsert caller inbound (classifyMode prior coverage) :=
  rfl

@[simp] theorem advance_updating (write : DeltaWrite) :
    store.advance coverage (.updating write) = store.update write (write.reclassify coverage) :=
  rfl

theorem statement_rereading (fails : Bool) : (store.statement coverage fails (.rereading inbound)).1 = store := by
  cases fails with
  | true => rfl
  | false =>
    rw [statement_advance, advance]
    split <;> rfl

end

theorem upsert_refused (caller : ApplyCaller) (mode : Mode) (refused : (inbound.row .filtered).checked = true →
      ∃ old, store.row = some old ∧ ¬ old.appliedVersion < asI64 inbound.version.toNat) :
    (store.upsert caller inbound mode).1 = store ∧ ∀ coverage fails,
      (store.statement coverage fails (store.upsert caller inbound mode).2).1 = store := by
  rw [upsert.eq_def]
  by_cases checked : (inbound.row mode).checked = true
  · obtain ⟨old, found, late⟩ := refused checked
    simp only [checked, not_true_eq_false, if_false, found, late]
    cases caller with
    | announce => exact ⟨trivial, fun coverage fails => statement_rereading store coverage fails⟩
    | pull => exact ⟨trivial, fun coverage fails => by simp⟩
  · simp [checked]

variable {row : FrontierRow} {write : DeltaWrite} {request : FrontierRequest} {mode : Mode} {stage : ApplyStage}

theorem writeCeilings_ok (found : store.row = some row) (start : Table Key Int) (ceilings : AgeCeilings) :
    store.writeCeilings start ceilings = some { store with
      ceilings := ceilings.entries.foldl upsertCeiling start } := by
  simp [writeCeilings, found]

theorem advance_replacing (found : store.row = some row) : store.advance coverage (.replacing caller inbound) =
      ({ store with
        ceilings := inbound.ageCeilings.entries.foldl upsertCeiling [] }, .answered (caller.onApplied inbound)) := by
  simp only [advance, replacePeerAgeCeilings, writeCeilings_ok found]

theorem advance_merging (found : store.row = some row) (delta : FrontierDelta) (cursor : Bytes) :
    store.advance coverage (.merging delta cursor) = ({ store with
        ceilings := delta.ageCeilings.entries.foldl upsertCeiling store.ceilings },
        .answered (.applied delta.newVersion cursor)) := by
  simp only [advance, mergePeerAgeCeilings, writeCeilings_ok found]

theorem update_checked (found : store.row = some write.read)
    (checked : (write.read.updated write .filtered).checked = true) (mode : Mode) :
    store.update write mode = ({ store with
        row := some (write.read.updated write mode)
        applied := store.applied ++ [.delta write.delta] },
        if write.delta.ageCeilings.entries = [] then
          .answered (.applied write.delta.newVersion
            (encodeCursor write.delta.newVersion (asU64 write.read.epochStart)))
        else .merging write.delta (encodeCursor write.delta.newVersion (asU64 write.read.epochStart))) := by
  rw [write.read.checked_updated write .filtered mode] at checked
  simp only [FrontierStore.update, found, checked, not_true_eq_false, if_false]

theorem update_refused (found : store.row = some write.read)
    (refused : ¬ (write.read.updated write .filtered).checked = true) (mode : Mode) :
    store.update write mode = (store, .answered .internalError) := by
  rw [write.read.checked_updated write .filtered mode] at refused
  simp [FrontierStore.update, found, refused]

theorem reportsError_onApplied (caller : ApplyCaller) (inbound : FrontierAnnounce) :
    (ApplyStage.answered (caller.onApplied inbound)).reportsError = false := by
  cases caller <;> rfl

/-- A handler after its first statement: it has answered, or it comes to its write of the row. -/
inductive Opened (store : FrontierStore) (request : FrontierRequest) : ApplyStage → Prop
  | answered (answer : FrontierAnswer) : Opened store request (.answered answer)
  | snapshot {caller : ApplyCaller} {inbound : FrontierAnnounce} {prior : Mode}
      (asks : request.write = some (.snapshot inbound))
      (visible : ∃ bloom, inbound.visibleFilter.intoBloom = .ok bloom)
      (expansion : ∃ bloom, inbound.expansionFilter.intoBloom = .ok bloom)
      (fresh : ∀ body, request = .announce body → ∀ row ∈ store.row, asU64 row.appliedVersion < body.version) :
      Opened store request (.upserting caller inbound prior)
  | delta {write : DeltaWrite} (isDelta : request = .delta write.delta) (read : write.ReadFrom store.row) :
      Opened store request (.updating write)

theorem opened_beginApply (asks : request.write = some (.snapshot inbound))
    (fresh : ∀ body, request = .announce body → ∀ row ∈ store.row, asU64 row.appliedVersion < body.version)
    (prior : Mode) : Opened store request (beginApply caller inbound prior) := by
  rcases beginApply_split caller inbound prior with ⟨answer, done⟩ | ⟨begun, visible, expansion⟩
  · rw [done]
    exact .answered answer
  · rw [begun]
    exact .snapshot asks visible expansion fresh

theorem opened_readForAnnounce (announce : FrontierAnnounce) :
    Opened store (.announce announce) (readForAnnounce announce store.row) := by
  cases found : store.row with
  | none =>
    refine opened_beginApply rfl ?_ _
    intro body isBody row isRow
    rw [found] at isRow
    cases isRow
  | some row =>
    rw [readForAnnounce]
    split
    · exact .answered _
    · rename_i notOlder
      split
      · exact .answered _
      · rename_i notSame
        refine opened_beginApply rfl ?_ _
        intro body isBody other isRow
        rw [found] at isRow
        cases isRow
        cases isBody
        have unequal : announce.version.toNat ≠ (asU64 row.appliedVersion).toNat :=
          fun same => notSame (UInt64.toNat_inj.mp same)
        rw [UInt64.lt_iff_toNat_lt] at notOlder ⊢
        omega

theorem opened_readForDelta (delta : FrontierDelta) : Opened store (.delta delta) (readForDelta delta store.row) := by
  have spec := (readForDelta_spec delta store.row).2
  rw [readForDelta.eq_def] at spec ⊢
  split
  · exact .answered _
  · rename_i newer
    rw [if_neg newer] at spec
    split
    · exact .answered _
    · rename_i filled
      rw [if_neg filled] at spec
      cases found : store.row with
      | none => exact .answered _
      | some row =>
        simp only [found] at spec ⊢
        split
        · exact .answered _
        · rename_i base
          rw [if_neg base, mergeMasks] at spec
          rw [mergeMasks]
          split
          · exact .answered _
          · exact .answered _
          · rename_i visible expansion masked masked'
            simp only [masked, masked'] at spec
            refine .delta rfl ?_
            rw [found]
            exact spec _ rfl

theorem opened_statement (store : FrontierStore) (coverage : Coverage) (fails : Bool) (request : FrontierRequest) :
    (store.statement coverage fails request.start).1 = store ∧
      Opened store request (store.statement coverage fails request.start).2 := by
  cases fails with
  | true =>
    refine ⟨rfl, ?_⟩
    cases request with
    | announce body => exact .answered _
    | delta body => exact .answered _
    | pull reply =>
      cases reply with
      | none => exact .answered _
      | some snapshot => exact opened_beginApply rfl (by simp) _
  | false =>
    cases request with
    | announce body => exact ⟨rfl, opened_readForAnnounce body⟩
    | delta body => exact ⟨rfl, opened_readForDelta body⟩
    | pull reply =>
      cases reply with
      | none => exact ⟨rfl, .answered _⟩
      | some snapshot => exact ⟨rfl, opened_beginApply rfl (by simp) _⟩

theorem takes_of_snapshot (asks : request.write = some (.snapshot inbound))
    (fresh : ∀ body, request = .announce body → ∀ row ∈ store.row, asU64 row.appliedVersion < body.version)
    (takes : store.TakesSnapshot inbound) : store.Takes request := by
  cases request with
  | announce body =>
    cases asks
    exact ⟨takes, fresh _ rfl⟩
  | delta body => cases asks
  | pull reply =>
    cases reply with
    | none => cases asks
    | some snapshot =>
      cases asks
      exact ⟨snapshot, rfl, takes⟩

theorem finish_error {second third : Bool} (opened : Opened store request stage)
    (reported : ((store.statement coverage second stage).1.statement coverage third
      (store.statement coverage second stage).2).2.reportsError = true) :
    ((store.statement coverage second stage).1.statement coverage third
      (store.statement coverage second stage).2).1 = store ∨ second = false ∧ third = true ∧ store.Takes request := by
  cases second with
  | true =>
    refine .inl ?_
    cases opened <;> simp [ApplyStage.failed]
  | false =>
    cases opened with
    | answered answer => exact .inl (by simp)
    | @snapshot caller inbound prior asks visible expansion fresh =>
      by_cases takes : store.TakesSnapshot inbound
      · cases third with
        | true => exact .inr ⟨rfl, rfl, takes_of_snapshot asks fresh takes⟩
        | false =>
          simp only [statement_advance, advance_upserting, upsert_takes takes] at reported
          rw [advance_replacing rfl, reportsError_onApplied] at reported
          cases reported
      · have refused : (inbound.row .filtered).checked = true →
            ∃ old, store.row = some old ∧ ¬ old.appliedVersion < asI64 inbound.version.toNat := by
          intro checked
          by_contra newer
          refine takes ⟨visible, expansion, checked, fun row isRow => ?_⟩
          by_contra late
          exact newer ⟨row, isRow, late⟩
        obtain ⟨kept, after⟩ := upsert_refused caller (classifyMode prior coverage) refused
        left
        simp only [statement_advance, advance_upserting, kept]
        exact after coverage third
    | @delta write isDelta read =>
      by_cases checked : (write.read.updated write .filtered).checked = true
      · have isWritten := update_checked read.found checked (write.reclassify coverage)
        by_cases none : write.delta.ageCeilings.entries = []
        · simp [advance, isWritten, none, ApplyStage.reportsError] at reported
        · cases third with
          | true =>
            subst isDelta
            exact .inr ⟨rfl, rfl, read.newer, none, write, rfl, read, checked⟩
          | false =>
            simp only [statement_advance, advance_updating, isWritten, if_neg none] at reported
            rw [advance_merging rfl] at reported
            cases reported
      · left
        simp [advance, update_refused read.found checked]

/-- A request of which a second delivery changes nothing. -/
def FrontierStore.Settled (store : FrontierStore) (request : FrontierRequest) : Prop :=
  ∀ coverage, (store.attempt coverage request none).1 = store

theorem settled_announce (found : store.row = some (inbound.row mode)) : store.Settled (.announce inbound) := by
  intro coverage
  have same : asU64 (inbound.row mode).appliedVersion = inbound.version := asU64_asI64 inbound.version
  have read : readForAnnounce inbound store.row = .answered (.applied inbound.version (inbound.row mode).cursor) := by
    rw [found, readForAnnounce, same, if_neg (UInt64.lt_irrefl _), if_pos rfl]
  simp [FrontierStore.attempt, FrontierRequest.start, advance, read]

theorem settled_pull {snapshot : FrontierSnapshot}
    (found : store.row = some (snapshot.inbound.row mode)) : store.Settled (.pull (some snapshot)) := by
  intro coverage
  have refused := fun prior => upsert_refused .pull (classifyMode prior coverage)
    (fun _ => ⟨_, found, Int.lt_irrefl _⟩)
  rcases beginApply_split .pull snapshot.inbound ((store.row.map FrontierRow.outboundMode).getD .filtered) with
    ⟨answer, done⟩ | ⟨begun, -, -⟩
  · simp [FrontierStore.attempt, FrontierRequest.start, advance, done]
  · show ((store.advance coverage (beginApply _ _ _)).1.advance coverage
      (store.advance coverage (beginApply _ _ _)).2).1 = store
    rw [begun, advance_upserting, (refused _).1]
    exact (refused _).2 coverage false

theorem settled_delta (newer : write.delta.prevVersion < write.delta.newVersion)
    (found : store.row = some (row.updated write mode)) : store.Settled (.delta write.delta) := by
  intro coverage
  have other : write.delta.prevVersion ≠ asU64 (row.updated write mode).appliedVersion := by
    rw [show asU64 (row.updated write mode).appliedVersion = _ from asU64_asI64 write.delta.newVersion]
    exact UInt64.ne_of_lt newer
  have read : ∃ answer, readForDelta write.delta store.row = .answered answer := by
    rw [found, readForDelta, if_neg (UInt64.not_le.mpr newer), if_pos other]
    split <;> exact ⟨_, rfl⟩
  obtain ⟨answer, read⟩ := read
  simp [FrontierStore.attempt, FrontierRequest.start, advance, read]

/-- What the write of the row leads to when it takes effect. -/
structure Written (store : FrontierStore) (coverage : Coverage) (request : FrontierRequest) (row : FrontierRow)
    (write : Applied) (stage : ApplyStage) : Prop where
  asks : request.write = some write
  changed : store.row ≠ some row
  owes : stage.owed = some write
  runs : store.advance coverage (store.advance coverage request.start).2 = ({ store with
      row := some row
      applied := store.applied ++ [write] }, stage)
  settled : ∀ other : FrontierStore, other.row = some row → other.Settled request

theorem TakesSnapshot.changed (takes : store.TakesSnapshot inbound) (mode : Mode) :
    store.row ≠ some (inbound.row mode) := by
  intro same
  exact absurd (takes.newer _ same) (Int.lt_irrefl _)

theorem written_of_takes (takes : store.Takes request) (coverage : Coverage) :
    ∃ row write stage, Written store coverage request row write stage := by
  cases request with
  | announce body =>
    obtain ⟨takes, fresh⟩ := takes
    obtain ⟨⟨visible, isVisible⟩, ⟨expansion, isExpansion⟩, -, -⟩ := id takes
    have read : ∃ prior, readForAnnounce body store.row = .upserting .announce body prior := by
      cases found : store.row with
      | none => exact ⟨_, beginApply_ok isVisible isExpansion _⟩
      | some row =>
        have less := fresh row found
        rw [readForAnnounce, if_neg (UInt64.lt_asymm less), if_neg (UInt64.ne_of_lt less).symm]
        exact ⟨_, beginApply_ok isVisible isExpansion _⟩
    obtain ⟨prior, read⟩ := read
    refine ⟨body.row (classifyMode prior coverage), _, .replacing .announce body, rfl, TakesSnapshot.changed takes _, rfl, ?_,
      fun other => settled_announce⟩
    show store.advance coverage (readForAnnounce body store.row) = _
    rw [read, advance_upserting, upsert_takes takes]
  | delta body =>
    obtain ⟨newer, ceilings, write, rfl, read, checked⟩ := takes
    have begun : readForDelta write.delta store.row = .updating write := by
      rw [read.found, readForDelta, if_neg (UInt64.not_le.mpr newer), if_neg (by simp [ceilings])]
      simp only [read.base, ne_eq, not_true_eq_false, if_false, mergeMasks, read.visible, read.expansion]
    have changed : store.row ≠ some (write.read.updated write (write.reclassify coverage)) := by
      intro same
      have equal := congrArg FrontierRow.appliedVersion (Option.some.inj (read.found.symm.trans same))
      have versions := asU64_asI64 write.delta.newVersion
      rw [show asI64 write.delta.newVersion.toNat = write.read.appliedVersion from equal.symm, ← read.base] at versions
      exact UInt64.ne_of_lt newer versions
    let cursor := encodeCursor write.delta.newVersion (asU64 write.read.epochStart)
    refine ⟨_, _, .merging write.delta cursor, rfl, changed, rfl, ?_, fun other => settled_delta newer⟩
    show store.advance coverage (readForDelta write.delta store.row) = _
    rw [begun, advance_updating, update_checked read.found checked, if_neg ceilings]
  | pull reply =>
    obtain ⟨snapshot, isReply, takes⟩ := takes
    obtain ⟨⟨visible, isVisible⟩, ⟨expansion, isExpansion⟩, -, -⟩ := id takes
    cases isReply
    let prior := (store.row.map FrontierRow.outboundMode).getD .filtered
    refine ⟨snapshot.inbound.row (classifyMode prior coverage), _, .replacing .pull snapshot.inbound, rfl,
      TakesSnapshot.changed takes _, rfl, ?_, fun other => settled_pull⟩
    show store.advance coverage (beginApply _ _ _) = _
    rw [beginApply_ok isVisible isExpansion, advance_upserting, upsert_takes takes]

theorem Written.attempt {write : Applied}
    (written : Written store coverage request row write stage) :
    (store.attempt coverage request (some 2)).1 = { store with
      row := some row
      applied := store.applied ++ [write] } ∧
    (store.attempt coverage request none).1.row = some row ∧
    ∀ root, (store.attempt coverage request none).1.ceilings.get? root =
      write.overlay (fun root => store.ceilings.get? root) root := by
  have first := (opened_statement store coverage false request).1
  obtain ⟨asks, changed, owes, runs, settled⟩ := written
  have attempt : ∀ third, store.attempt coverage request (if third then some 2 else none) = ({ store with
        row := some row
        applied := store.applied ++ [write] } : FrontierStore).statement coverage third stage := by
    intro third
    rw [statement_advance] at first
    cases third <;> simp [FrontierStore.attempt, first, runs]
  have failed := attempt true
  have succeeded := attempt false
  rw [if_pos rfl, statement_fails] at failed
  simp only [Bool.false_eq_true, if_false, statement_advance] at succeeded
  refine ⟨by rw [failed], ?_⟩
  rw [succeeded]
  cases stage with
  | replacing caller inbound =>
    cases owes
    rw [advance_replacing rfl]
    exact ⟨rfl, fun root => get?_write (.snapshot inbound) root⟩
  | merging delta cursor =>
    cases owes
    rw [advance_merging rfl]
    exact ⟨rfl, fun root => get?_write (.delta delta) root⟩
  | _ => cases owes

theorem attempt_error {failing : Option Nat}
    (reported : (store.attempt coverage request failing).2.reportsError = true) :
    (store.attempt coverage request failing).1 = store ∨ failing = some 2 ∧ store.Takes request := by
  obtain ⟨first, opened⟩ := opened_statement store coverage (failing == some 0) request
  simp only [FrontierStore.attempt, first] at reported ⊢
  rcases finish_error opened reported with unchanged | ⟨-, third, takes⟩
  · exact .inl unchanged
  · exact .inr ⟨beq_iff_eq.mp third, takes⟩

end Steps

/-- An attempt that reports an error has left both tables as they were, or is made good by a second delivery,
exactly when it is not the statement after the write of the row that failed, or the ceilings that it should have
written are there already. -/
theorem failed_apply_repaired_iff {store : FrontierStore} {coverage later : Coverage} {request : FrontierRequest}
    {failing : Option Nat} (reported : (store.attempt coverage request failing).2.reportsError = true) :
    (store.SameTables (store.attempt coverage request failing).1 ∨
      ((store.attempt coverage request failing).1.attempt later request none).1.SameTables
        (store.attempt coverage request none).1) ↔
    (failing = some 2 → store.Takes request → ∀ write ∈ request.write, ∀ root,
      write.overlay (fun root => store.ceilings.get? root) root = store.ceilings.get? root) := by
  by_cases broken : failing = some 2 ∧ store.Takes request
  · obtain ⟨rfl, takes⟩ := broken
    obtain ⟨row, write, stage, written⟩ := written_of_takes takes coverage
    obtain ⟨failed, sameRow, ceilings⟩ := written.attempt
    have retried := written.settled (store.attempt coverage request (some 2)).1 (by rw [failed]) later
    rw [retried, failed]
    constructor
    · rintro (same | same) - - other isWrite root
      · exact absurd same.row written.changed
      · cases written.asks.symm.trans isWrite
        rw [← ceilings root]
        exact (same.ceilings root).symm
    · intro already
      refine .inr ⟨sameRow.symm, fun root => ?_⟩
      rw [ceilings root]
      exact (already rfl takes write written.asks root).symm
  · have unchanged := (attempt_error reported).resolve_right broken
    rw [unchanged]
    constructor
    · intro _ isThird takes
      exact absurd ⟨isThird, takes⟩ broken
    · intro _
      exact .inl ⟨rfl, fun _ => rfl⟩

/-- A first announce without ceilings, whose last statement fails. -/
theorem plain_announce_repaired :
    (({} : FrontierStore).attempt .noUsers (.announce (plainAnnounce 5 1)) (some 2)).2.reportsError = true ∧
    (({} : FrontierStore).SameTables (({} : FrontierStore).attempt .noUsers (.announce (plainAnnounce 5 1)) (some 2)).1 ∨
      ((({} : FrontierStore).attempt .noUsers (.announce (plainAnnounce 5 1)) (some 2)).1.attempt .noUsers
        (.announce (plainAnnounce 5 1)) none).1.SameTables
        (({} : FrontierStore).attempt .noUsers (.announce (plainAnnounce 5 1)) none).1) := by
  have reported : (({} : FrontierStore).attempt .noUsers (.announce (plainAnnounce 5 1)) (some 2)).2.reportsError =
      true := by decide
  refine ⟨reported, (failed_apply_repaired_iff reported).mpr ?_⟩
  intro _ _ write isWrite root
  cases isWrite
  rfl

/-- A first announce with a ceiling, whose last statement fails. -/
theorem cleaving_announce_not_repaired :
    (({} : FrontierStore).attempt .noUsers (.announce (cleavingAnnounce 6 1 600)) (some 2)).2.reportsError = true ∧
    ¬ (({} : FrontierStore).SameTables
        (({} : FrontierStore).attempt .noUsers (.announce (cleavingAnnounce 6 1 600)) (some 2)).1 ∨
      ((({} : FrontierStore).attempt .noUsers (.announce (cleavingAnnounce 6 1 600)) (some 2)).1.attempt .noUsers
        (.announce (cleavingAnnounce 6 1 600)) none).1.SameTables
        (({} : FrontierStore).attempt .noUsers (.announce (cleavingAnnounce 6 1 600)) none).1) := by
  refine ⟨by decide, ?_⟩
  rintro (same | same)
  · exact absurd same.row (by decide)
  · exact absurd (same.ceilings 1) (by decide)

end Prismoire
