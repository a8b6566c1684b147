import Prismoire.PeerFrontier

namespace Prismoire

open Lib List

section Columns

variable {a b : UInt64}

theorem asU64_asI64 (a : UInt64) : asU64 (asI64 a.toNat) = a := by
  rw [asU64_asI64_ofNat, UInt64.ofNat_toNat]

theorem asI64_nonneg : 0 ≤ asI64 a.toNat ↔ a.toNat < 2 ^ 63 := by
  have bound := a.toNat_lt
  rw [asI64]
  split <;> omega

theorem asI64_lt (fits : 0 ≤ asI64 b.toNat) (less : a < b) : asI64 a.toNat < asI64 b.toNat := by
  rw [asI64_nonneg] at fits
  rw [UInt64.lt_iff_toNat_lt] at less
  rw [asI64, asI64]
  split <;> split <;> omega

theorem lt_of_asI64_lt (fits : 0 ≤ asI64 a.toNat) (less : asI64 a.toNat < asI64 b.toNat) : a < b := by
  have fits' : 0 ≤ asI64 b.toNat := by omega
  rw [asI64_nonneg] at fits fits'
  rw [UInt64.lt_iff_toNat_lt]
  rw [asI64, asI64] at less
  split at less <;> split at less <;> omega

end Columns

/-- The write that a handler has made to the row and not yet to the ceilings. -/
def ApplyStage.owed : ApplyStage → Option Applied
  | .replacing _ inbound => some (.snapshot inbound)
  | .merging delta _ => some (.delta delta)
  | _ => none

def ApplyStage.writes : ApplyStage → Option DeltaWrite
  | .updating write => some write
  | _ => none

structure DeltaWrite.ReadFrom (write : DeltaWrite) (row : Option FrontierRow) : Prop where
  found : row = some write.read
  base : write.delta.prevVersion = asU64 write.read.appliedVersion
  newer : write.delta.prevVersion < write.delta.newVersion
  visible : orMask write.read.visible.bytes write.delta.visibleMask = .ok write.visible
  expansion : orMask write.read.expansion.bytes write.delta.expansionMask = .ok write.expansion

def Applied.ceilings : Applied → AgeCeilings
  | .snapshot inbound => inbound.ageCeilings
  | .delta body => body.ageCeilings

/-- The ceilings that a write starts from. -/
def Applied.base (ceilings : Table Key Int) : Applied → Table Key Int
  | .snapshot _ => []
  | .delta _ => ceilings

/-- All that one statement of a handler can do. -/
inductive Advance (store : FrontierStore) : ApplyStage → FrontierStore → ApplyStage → Prop
  | quiet {stage next : ApplyStage} (free : stage.owed = none) (settled : next.owed = none)
      (read : ∀ write, next.writes = some write → write.ReadFrom store.row) : Advance store stage store next
  | snapshot {caller : ApplyCaller} {inbound : FrontierAnnounce} {prior outboundMode : Mode}
      (checked : (inbound.row outboundMode).checked = true)
      (newer : ∀ old, store.row = some old → old.appliedVersion < asI64 inbound.version.toNat) :
      Advance store (.upserting caller inbound prior) { store with
          row := some (inbound.row outboundMode)
          applied := store.applied ++ [.snapshot inbound] }
        (.replacing caller inbound)
  | delta {write : DeltaWrite} {current : FrontierRow} {outboundMode : Mode} {next : ApplyStage}
      (found : store.row = some current) (checked : (current.updated write outboundMode).checked = true)
      (settled : next.writes = none)
      (owes : next.owed = if write.delta.ageCeilings.entries = [] then none else some (.delta write.delta)) :
      Advance store (.updating write) { store with
          row := some (current.updated write outboundMode)
          applied := store.applied ++ [.delta write.delta] }
        next
  | ceilings {stage : ApplyStage} {write : Applied} {answer : FrontierAnswer} (owes : stage.owed = some write) :
      Advance store stage { store with
          ceilings := write.ceilings.entries.foldl upsertCeiling (write.base store.ceilings) }
        (.answered answer)
  | missing {stage next : ApplyStage} (missing : store.row = none) (busy : stage.owed ≠ none ∨ stage.writes ≠ none)
      (settled : next.writes = none) : Advance store stage store next

section

variable {store : FrontierStore}

theorem Advance.idle {stage next : ApplyStage} (free : stage.owed = none)
    (settled : next.owed = none ∧ next.writes = none) : Advance store stage store next :=
  .quiet free settled.1 (by simp [settled.2])

theorem settled_beginApply (caller : ApplyCaller) (inbound : FrontierAnnounce) (prior : Mode) :
    (beginApply caller inbound prior).owed = none ∧ (beginApply caller inbound prior).writes = none := by
  rw [beginApply]
  split <;> exact ⟨rfl, rfl⟩

theorem settled_readForAnnounce (announce : FrontierAnnounce) (row : Option FrontierRow) :
    (readForAnnounce announce row).owed = none ∧ (readForAnnounce announce row).writes = none := by
  rw [readForAnnounce.eq_def]
  split
  · exact settled_beginApply _ _ _
  · split
    · exact ⟨rfl, rfl⟩
    · split
      · exact ⟨rfl, rfl⟩
      · exact settled_beginApply _ _ _

theorem readForDelta_spec (delta : FrontierDelta) (row : Option FrontierRow) : (readForDelta delta row).owed = none ∧
      ∀ write, (readForDelta delta row).writes = some write → write.ReadFrom row := by
  rw [readForDelta.eq_def]
  split
  · exact ⟨rfl, by simp [ApplyStage.writes]⟩
  · rename_i newer
    split
    · exact ⟨rfl, by simp [ApplyStage.writes]⟩
    · split
      · exact ⟨rfl, by simp [ApplyStage.writes]⟩
      · rename_i read
        split
        · exact ⟨rfl, by simp [ApplyStage.writes]⟩
        · rename_i base
          rw [mergeMasks]
          split
          · exact ⟨rfl, by simp [ApplyStage.writes]⟩
          · exact ⟨rfl, by simp [ApplyStage.writes]⟩
          · rename_i masked masked'
            refine ⟨rfl, ?_⟩
            intro write isWrite
            cases isWrite
            exact ⟨rfl, not_not.mp base, UInt64.not_le.mp newer, masked, masked'⟩

variable (store : FrontierStore)

theorem advance_upsert (caller : ApplyCaller) (inbound : FrontierAnnounce) (prior outboundMode : Mode) :
    Advance store (.upserting caller inbound prior) (store.upsert caller inbound outboundMode).1
      (store.upsert caller inbound outboundMode).2 := by
  rw [FrontierStore.upsert.eq_def]
  by_cases checked : (inbound.row outboundMode).checked = true
  · simp only [checked, not_true_eq_false, if_false]
    cases found : store.row with
    | none => exact .snapshot checked (by simp [found])
    | some old =>
      by_cases newer : old.appliedVersion < asI64 inbound.version.toNat
      · simp only [newer, if_true]
        refine .snapshot checked ?_
        intro row isRow
        rw [found] at isRow
        cases isRow
        exact newer
      · simp only [newer, if_false]
        cases caller with
        | announce => exact .idle rfl ⟨rfl, rfl⟩
        | pull => exact .idle rfl ⟨rfl, rfl⟩
  · simp only [checked]
    exact .idle rfl ⟨rfl, rfl⟩

theorem advance_update (write : DeltaWrite) (outboundMode : Mode) :
    Advance store (.updating write) (store.update write outboundMode).1 (store.update write outboundMode).2 := by
  rw [FrontierStore.update]
  cases found : store.row with
  | none =>
    refine .missing found (.inr (by simp [ApplyStage.writes])) ?_
    dsimp only
    split <;> rfl
  | some current =>
    by_cases checked : (current.updated write outboundMode).checked = true
    · simp only [checked, not_true_eq_false, if_false]
      refine .delta found checked ?_ ?_ <;> split <;> rfl
    · simp only [checked]
      exact .idle rfl ⟨rfl, rfl⟩

theorem advance_ceilings {stage : ApplyStage} {write : Applied}
    (owes : stage.owed = some write) (failed applied : FrontierAnswer) :
    Advance store stage (match store.writeCeilings (write.base store.ceilings) write.ceilings with
        | none => (store, ApplyStage.answered failed)
        | some store => (store, ApplyStage.answered applied)).1
      (match store.writeCeilings (write.base store.ceilings) write.ceilings with
        | none => (store, ApplyStage.answered failed)
        | some store => (store, ApplyStage.answered applied)).2 := by
  rw [FrontierStore.writeCeilings]
  by_cases refused : store.row = none ∧ write.ceilings.entries ≠ []
  · rw [if_pos refused]
    exact .missing refused.1 (.inl (by simp [owes])) rfl
  · rw [if_neg refused]
    exact .ceilings owes

theorem advance_spec (coverage : Coverage) (stage : ApplyStage) :
    Advance store stage (store.advance coverage stage).1 (store.advance coverage stage).2 := by
  cases stage with
  | announced announce => exact .idle rfl (settled_readForAnnounce announce store.row)
  | pulled snapshot => exact .idle rfl (settled_beginApply .pull snapshot.inbound _)
  | notModified => exact .idle rfl ⟨rfl, rfl⟩
  | upserting caller inbound prior => exact advance_upsert store caller inbound prior _
  | replacing caller inbound => exact @advance_ceilings store _ (.snapshot inbound) rfl _ _
  | rereading inbound =>
    rw [FrontierStore.advance]
    split <;> exact .idle rfl ⟨rfl, rfl⟩
  | delivered delta =>
    obtain ⟨settled, read⟩ := readForDelta_spec delta store.row
    exact .quiet rfl settled read
  | updating write => exact advance_update store write _
  | merging delta cursor => exact @advance_ceilings store _ (.delta delta) rfl _ _
  | answered answer => exact .idle rfl ⟨rfl, rfl⟩

end

/-- What a stored row says of the frontier of the peer. -/
structure FrontierContent where
  version : Int
  visible : FilterSpec
  expansion : FilterSpec
  deriving DecidableEq

def FrontierRow.content (row : FrontierRow) : FrontierContent where
  version := row.appliedVersion
  visible := row.visible
  expansion := row.expansion

/-- A frontier built up as the protocol has it: the filters of a full snapshot, and on top of it deltas,
each made for the version that it found, with exactly their masks or-ed in. -/
inductive Layered : List Applied → FrontierContent → Prop
  | snapshot (earlier : List Applied) (inbound : FrontierAnnounce) :
      Layered (earlier ++ [.snapshot inbound])
        { version := asI64 inbound.version.toNat
          visible := inbound.visibleFilter
          expansion := inbound.expansionFilter }
  | delta {earlier : List Applied} {content : FrontierContent} {delta : FrontierDelta} {visible expansion : Bytes}
      (below : Layered earlier content) (base : content.version = asI64 delta.prevVersion.toNat)
      (masked : orMask content.visible.bytes delta.visibleMask = .ok visible)
      (masked' : orMask content.expansion.bytes delta.expansionMask = .ok expansion) :
      Layered (earlier ++ [.delta delta])
        { version := asI64 delta.newVersion.toNat
          visible := { content.visible with bytes := visible }
          expansion := { content.expansion with bytes := expansion } }

theorem Layered.version {applied : List Applied} {content : FrontierContent} (layered : Layered applied content) :
    ∃ write, applied.getLast? = some write ∧ content.version = asI64 write.version.toNat := by
  cases layered with
  | snapshot earlier inbound => exact ⟨_, getLast?_concat .., rfl⟩
  | delta => exact ⟨_, getLast?_concat .., rfl⟩

/-- The row is built up from the writes recorded for it. -/
structure FrontierStore.Sound (store : FrontierStore) : Prop where
  unwritten : store.row = none → store.applied = []
  layered : ∀ row, store.row = some row → Layered store.applied row.content
  signed : ∀ row, store.row = some row → 0 ≤ row.appliedVersion

/-- A delta about to be written was merged into a row that is there still, or into an older one. -/
structure DeltaWrite.Pending (write : DeltaWrite) (row : Option FrontierRow) : Prop where
  grown : ∃ current, row = some current ∧ (write.read = current ∨ write.read.appliedVersion < current.appliedVersion)
  base : write.read.appliedVersion = asI64 write.delta.prevVersion.toNat
  newer : write.delta.prevVersion < write.delta.newVersion
  visible : orMask write.read.visible.bytes write.delta.visibleMask = .ok write.visible
  expansion : orMask write.read.expansion.bytes write.delta.expansionMask = .ok write.expansion

structure FrontierServer.Sound (server : FrontierServer) : Prop where
  store : server.store.Sound
  pending : ∀ stage ∈ server.tasks, ∀ write, stage.writes = some write → write.Pending server.store.row

def DeltaCurrent (server : FrontierServer) : FrontierEvent → Prop
  | .advance task _ => ∀ write ∈ server.tasks[task]?.bind ApplyStage.writes, ∀ row ∈ server.store.row,
      row.appliedVersion = asI64 write.delta.prevVersion.toNat
  | _ => True

instance (server : FrontierServer) : (event : FrontierEvent) → Decidable (DeltaCurrent server event)
  | .arrive _ => isTrue trivial
  | .advance task _ => inferInstanceAs (Decidable (∀ write ∈ server.tasks[task]?.bind ApplyStage.writes,
      ∀ row ∈ server.store.row, row.appliedVersion = asI64 write.delta.prevVersion.toNat))
  | .fail _ => isTrue trivial

/-- The row stays, or gives way to one of a later version. -/
def RowAdvances (before after : Option FrontierRow) : Prop :=
  ∀ row, before = some row → ∃ row', after = some row' ∧ (row = row' ∨ row.appliedVersion < row'.appliedVersion)

section

variable {store after : FrontierStore} {stage next : ApplyStage}

theorem RowAdvances.refl (row : Option FrontierRow) : RowAdvances row row :=
  fun row isRow => ⟨row, isRow, .inl rfl⟩

theorem RowAdvances.trans {first second third : Option FrontierRow} (one : RowAdvances first second)
    (two : RowAdvances second third) : RowAdvances first third := by
  intro row isRow
  obtain ⟨middle, isMiddle, grown⟩ := one row isRow
  obtain ⟨last, isLast, grown'⟩ := two middle isMiddle
  refine ⟨last, isLast, ?_⟩
  rcases grown with rfl | grown
  · exact grown'
  · rcases grown' with rfl | grown'
    · exact .inr grown
    · exact .inr (Int.lt_trans grown grown')

variable {write : DeltaWrite}

theorem DeltaWrite.Pending.advances {row row' : Option FrontierRow} (pending : write.Pending row)
    (advances : RowAdvances row row') : write.Pending row' := by
  obtain ⟨current, found, grown⟩ := pending.grown
  have start : RowAdvances (some write.read) row := by
    intro row isRow
    cases isRow
    exact ⟨current, found, grown⟩
  exact { pending with grown := (start.trans advances) write.read rfl }

theorem signed_of_checked {row : FrontierRow} (checked : row.checked = true) : 0 ≤ row.appliedVersion := by
  simp only [FrontierRow.checked, Bool.and_eq_true, decide_eq_true_eq] at checked
  exact checked.1.1.1.1

theorem DeltaWrite.Pending.meets {current : FrontierRow} {outboundMode : Mode} (pending : write.Pending (some current))
    (version : current.appliedVersion = asI64 write.delta.prevVersion.toNat)
    (checked : (current.updated write outboundMode).checked = true) :
    write.read = current ∧ current.appliedVersion < asI64 write.delta.newVersion.toNat := by
  obtain ⟨row, isRow, grown⟩ := pending.grown
  cases isRow
  have base := pending.base
  refine ⟨?_, ?_⟩
  · rcases grown with same | grown
    · exact same
    · omega
  · rw [version]
    exact asI64_lt (signed_of_checked checked) pending.newer

theorem Advance.sound (advance : Advance store stage after next) (sound : store.Sound)
    (pending : ∀ write, stage.writes = some write → write.Pending store.row)
    (current : ∀ write, stage.writes = some write → ∀ row, store.row = some row →
      row.appliedVersion = asI64 write.delta.prevVersion.toNat) :
    after.Sound ∧ RowAdvances store.row after.row := by
  cases advance with
  | quiet free settled read => exact ⟨sound, .refl _⟩
  | missing missing busy settled => exact ⟨sound, .refl _⟩
  | ceilings owes => exact ⟨⟨sound.unwritten, sound.layered, sound.signed⟩, .refl _⟩
  | snapshot checked newer =>
    refine ⟨⟨by simp, ?_, ?_⟩, ?_⟩
    · intro row isRow
      cases isRow
      exact .snapshot _ _
    · intro row isRow
      cases isRow
      exact signed_of_checked checked
    · intro row isRow
      exact ⟨_, rfl, .inr (newer row isRow)⟩
  | @delta write found outboundMode _ isRow checked settled owes =>
    have version := current write rfl found isRow
    have pending := pending write rfl
    rw [isRow] at pending
    obtain ⟨same, newer⟩ := pending.meets version checked
    refine ⟨⟨by simp, ?_, ?_⟩, ?_⟩
    · intro row isUpdated
      cases isUpdated
      exact .delta (sound.layered _ isRow) version (same ▸ pending.visible) (same ▸ pending.expansion)
    · intro row isUpdated
      cases isUpdated
      exact signed_of_checked checked
    · intro row wasRow
      rw [isRow] at wasRow
      cases wasRow
      exact ⟨_, rfl, .inr newer⟩

theorem Advance.pending (advance : Advance store stage after next)
    (isWrite : next.writes = some write) (sound : store.Sound) : write.Pending after.row := by
  cases advance with
  | quiet free settled readFrom =>
    obtain ⟨found, base, newer, masked, masked'⟩ := readFrom write isWrite
    obtain ⟨last, -, isVersion⟩ := (sound.layered write.read found).version
    have version : write.read.appliedVersion = asI64 write.delta.prevVersion.toNat := by
      change write.read.appliedVersion = _ at isVersion
      rw [base, isVersion, asU64_asI64]
    exact ⟨⟨write.read, found, .inl rfl⟩, version, newer, masked, masked'⟩
  | snapshot checked newer => cases isWrite
  | delta found checked settled owes => exact absurd (settled.symm.trans isWrite) nofun
  | ceilings owes => cases isWrite
  | missing missing busy settled => exact absurd (settled.symm.trans isWrite) nofun

end

variable {server : FrontierServer}

theorem sound_start : ({} : FrontierServer).Sound :=
  ⟨⟨fun _ => rfl, by simp, by simp⟩, by simp⟩

theorem FrontierRequest.settled_start (request : FrontierRequest) :
    request.start.owed = none ∧ request.start.writes = none := by
  rw [FrontierRequest.start.eq_def]
  split <;> exact ⟨rfl, rfl⟩

theorem ApplyStage.settled_failed (stage : ApplyStage) : stage.failed.owed = none ∧ stage.failed.writes = none := by
  rw [ApplyStage.failed.eq_def]
  split
  · exact settled_beginApply _ _ _
  all_goals exact ⟨rfl, rfl⟩

theorem FrontierServer.step_advance {task : Nat} {stage : ApplyStage} (isTask : server.tasks[task]? = some stage)
    (coverage : Coverage) : ∃ after next, Advance server.store stage after next ∧
      server.step (.advance task coverage) = { store := after, tasks := server.tasks.set task next } := by
  refine ⟨_, _, advance_spec server.store coverage stage, ?_⟩
  simp only [FrontierServer.step, isTask]

theorem FrontierServer.Sound.step (sound : server.Sound) {event : FrontierEvent} (current : DeltaCurrent server event) :
    (server.step event).Sound ∧ RowAdvances server.store.row (server.step event).store.row := by
  cases event with
  | arrive request =>
    refine ⟨⟨sound.store, ?_⟩, .refl _⟩
    intro stage mem write isWrite
    rcases mem_append.mp mem with old | new
    · exact sound.pending stage old write isWrite
    · rw [mem_singleton.mp new, request.settled_start.2] at isWrite
      cases isWrite
  | advance task coverage =>
    cases isTask : server.tasks[task]? with
    | none =>
      rw [FrontierServer.step, isTask]
      exact ⟨sound, .refl _⟩
    | some stage =>
      obtain ⟨after, next, advance, isStep⟩ := server.step_advance isTask coverage
      rw [isStep]
      obtain ⟨soundAfter, advances⟩ := advance.sound sound.store (sound.pending stage (mem_of_getElem? isTask))
        (fun write isWrite row isRow => current write (by simpa [isTask] using isWrite) row isRow)
      refine ⟨⟨soundAfter, ?_⟩, advances⟩
      intro other inTasks write isWrite
      rcases mem_or_eq_of_mem_set inTasks with old | rfl
      · exact (sound.pending other old write isWrite).advances advances
      · exact advance.pending isWrite sound.store
  | fail task =>
    cases isTask : server.tasks[task]? with
    | none =>
      rw [FrontierServer.step, isTask]
      exact ⟨sound, .refl _⟩
    | some stage =>
      simp only [FrontierServer.step, isTask]
      refine ⟨⟨sound.store, ?_⟩, .refl _⟩
      intro other inTasks write isWrite
      rcases mem_or_eq_of_mem_set inTasks with old | rfl
      · exact sound.pending other old write isWrite
      · rw [stage.settled_failed.2] at isWrite
        cases isWrite

/-- In a run whose deltas are all written onto the version they were made for, whatever the order of the
statements of whatever handlers, the stored version never decreases, and what is stored is a full
snapshot with the masks of the deltas on top of it. -/
theorem frontier_never_rolled_back {events : List FrontierEvent}
    (current : MeetAlong FrontierServer.step DeltaCurrent {} events) :
    (∀ earlier later, earlier <+: later → later <+: events →
      ∀ before, (FrontierServer.run earlier).store.row = some before →
        ∃ after, (FrontierServer.run later).store.row = some after ∧ before.appliedVersion ≤ after.appliedVersion) ∧
    ∀ reached, reached <+: events → ∀ row, (FrontierServer.run reached).store.row = some row →
      Layered (FrontierServer.run reached).store.applied row.content := by
  have keeps : ∀ (server : FrontierServer) (event : FrontierEvent), server.Sound → DeltaCurrent server event →
      (server.step event).Sound := fun server event sound current => (sound.step current).1
  refine ⟨?_, ?_⟩
  · intro earlier later before within row isRow
    have advances := @MeetAlong.related _ _ _ _ _ _ (fun before after => RowAdvances before.store.row after.store.row)
      earlier later events current keeps (fun server event sound current => (sound.step current).2)
      (fun server => .refl _) (fun first second third => RowAdvances.trans) sound_start before within
    obtain ⟨after, isAfter, grown⟩ := advances row isRow
    refine ⟨after, isAfter, ?_⟩
    rcases grown with rfl | grown
    · exact Int.le_refl _
    · exact Int.le_of_lt grown
  · intro reached within row isRow
    have sound := (current.of_shorter within).invariant keeps sound_start
    exact sound.store.layered row isRow

def plainFilter (byte : UInt8) : FilterSpec where
  family := bloomFamily
  k := 7
  m := 64
  nEst := 1
  bytes := List.replicate 8 byte

def plainAnnounce (version : UInt64) (byte : UInt8) : FrontierAnnounce where
  version := version
  epochStart := 1000
  activeHorizonDays := 0
  visibleFilter := plainFilter byte
  expansionFilter := plainFilter byte
  mode := .filtered
  ageCeilings := {}

def plainDelta (prevVersion newVersion : UInt64) (byte : UInt8) : FrontierDelta where
  prevVersion := prevVersion
  newVersion := newVersion
  visibleMask := some (List.replicate 8 byte)
  expansionMask := none
  mode := .filtered
  ageCeilings := {}

/-- A handler that runs by itself to its end. -/
def alone (task : Nat) (request : FrontierRequest) : List FrontierEvent :=
  [.arrive request, .advance task .noUsers, .advance task .noUsers, .advance task .noUsers]

theorem delta_after_announce_not_rolled_back : MeetAlong FrontierServer.step DeltaCurrent {}
      (alone 0 (.announce (plainAnnounce 5 1)) ++ alone 1 (.delta (plainDelta 5 6 2))) ∧
    ∀ row, (FrontierServer.run (alone 0 (.announce (plainAnnounce 5 1)) ++
        alone 1 (.delta (plainDelta 5 6 2)))).store.row = some row →
      Layered (FrontierServer.run (alone 0 (.announce (plainAnnounce 5 1)) ++
        alone 1 (.delta (plainDelta 5 6 2)))).store.applied row.content := by
  have current : MeetAlong FrontierServer.step DeltaCurrent {}
      (alone 0 (.announce (plainAnnounce 5 1)) ++ alone 1 (.delta (plainDelta 5 6 2))) := by decide
  exact ⟨current, (frontier_never_rolled_back current).2 _ (prefix_refl _)⟩

/-- The delta has read version 5; an announce of version 10 is applied; then the delta is written. -/
def staleDelta : List FrontierEvent :=
  alone 0 (.announce (plainAnnounce 5 1)) ++ [.arrive (.delta (plainDelta 5 6 2)), .advance 1 .noUsers] ++
    alone 2 (.announce (plainAnnounce 10 16)) ++ [.advance 1 .noUsers]

theorem stale_delta_rolls_back : (FrontierServer.run staleDelta.dropLast).store.row.map FrontierRow.content =
        some ⟨10, plainFilter 16, plainFilter 16⟩ ∧
      (FrontierServer.run staleDelta).store.row.map FrontierRow.content = some ⟨6, plainFilter 3, plainFilter 1⟩ := by
  decide

end Prismoire
