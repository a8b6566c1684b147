import Prismoire.FrontierVersions
import Prismoire.Lib.Rows

namespace Prismoire

open Lib List Option

def AgeCeilings.stored (ceilings : AgeCeilings) (root : Key) : Option Int :=
  (ceilings.entries.get? root).map fun cutoff => asI64 cutoff.toNat

def Applied.overlay (held : Key → Option Int) : Applied → Key → Option Int
  | .snapshot inbound => inbound.ageCeilings.stored
  | .delta body => fun root => (body.ageCeilings.stored root).or (held root)

def ceilingsAfter (applied : List Applied) : Key → Option Int :=
  applied.foldl Applied.overlay fun _ => none

section Ceilings

variable {ceilings : Table Key Int} {entries : Table Key UInt64} {root : Key}

theorem get?_upsertCeiling_self (entry : Key × UInt64) :
    (upsertCeiling ceilings entry).get? entry.1 = some (asI64 entry.2.toNat) := by
  rw [upsertCeiling]
  split
  · rename_i missing
    rw [Table.get?_append, missing, none_or]
    simp [Table.get?]
  · rename_i found
    rw [Table.get?_modify_self, found, map_some]

theorem get?_upsertCeiling_other {entry : Key × UInt64} (apart : root ≠ entry.1) :
    (upsertCeiling ceilings entry).get? root = ceilings.get? root := by
  rw [upsertCeiling]
  split
  · rw [Table.get?_append]
    simp [Table.get?, apart.symm]
  · exact Table.get?_modify_other apart

theorem get?_foldl_upsertCeiling (keyed : entries.Keyed) : (entries.foldl upsertCeiling ceilings).get? root =
      ((entries.get? root).map fun cutoff => asI64 cutoff.toNat).or (ceilings.get? root) := by
  induction entries generalizing ceilings with
  | nil => rfl
  | cons entry entries ih =>
    obtain ⟨fresh, keyed⟩ := nodup_cons.mp keyed
    rw [foldl_cons, ih keyed]
    by_cases same : root = entry.1
    · subst same
      have missing : Table.get? entries entry.1 = none := by
        rw [Table.get?_eq_none]
        intro other mem equal
        exact fresh (List.mem_map.mpr ⟨other, mem, equal⟩)
      rw [missing, get?_upsertCeiling_self]
      simp [Table.get?]
    · rw [get?_upsertCeiling_other same]
      simp [Table.get?, Ne.symm same]

theorem get?_write (write : Applied) (root : Key) :
    (write.ceilings.entries.foldl upsertCeiling (write.base ceilings)).get? root =
      write.overlay (fun root => ceilings.get? root) root := by
  rw [get?_foldl_upsertCeiling write.ceilings.keyed]
  cases write with
  | snapshot inbound => exact or_none
  | delta body => rfl

end Ceilings

def Applied.Inert (write : Applied) : Prop :=
  ∃ body, write = .delta body ∧ body.ageCeilings.entries = []

variable {write : Applied}

theorem Applied.Inert.overlay (inert : write.Inert) (held : Key → Option Int) :
    write.overlay held = held := by
  obtain ⟨body, rfl, none⟩ := inert
  funext root
  simp [Applied.overlay, AgeCeilings.stored, none, Table.get?]

theorem foldl_overlay_inert {writes : List Applied} (inert : ∀ write ∈ writes, write.Inert) (held : Key → Option Int) :
    writes.foldl Applied.overlay held = held := by
  induction writes generalizing held with
  | nil => rfl
  | cons write writes ih =>
    rw [foldl_cons, (inert write (mem_cons_self ..)).overlay]
    exact ih (fun other mem => inert other (mem_cons_of_mem _ mem)) held

/-- The recorded writes are in the order of their versions, none of them past the row. -/
structure FrontierStore.Ordered (store : FrontierStore) : Prop where
  ascending : store.applied.Pairwise fun first second => first.version < second.version
  bounded : ∀ write ∈ store.applied, ∃ row, store.row = some row ∧
    0 ≤ asI64 write.version.toNat ∧ asI64 write.version.toNat ≤ row.appliedVersion

section Ordered

variable {store after : FrontierStore} {stage next : ApplyStage}

theorem FrontierStore.Ordered.push (ordered : store.Ordered) {row : FrontierRow}
    (version : row.appliedVersion = asI64 write.version.toNat) (signed : 0 ≤ row.appliedVersion)
    (newer : ∀ old, store.row = some old → old.appliedVersion < row.appliedVersion) :
    ({ store with
      row := some row
      applied := store.applied ++ [write] } : FrontierStore).Ordered := by
  constructor
  · rw [pairwise_append]
    refine ⟨ordered.ascending, pairwise_singleton _ _, ?_⟩
    intro earlier mem other isWrite
    rw [mem_singleton.mp isWrite]
    obtain ⟨old, isOld, fits, bound⟩ := ordered.bounded earlier mem
    have grown := newer old isOld
    exact lt_of_asI64_lt fits (by omega)
  · intro other mem
    refine ⟨row, rfl, ?_⟩
    rcases mem_concat.mp mem with earlier | isWrite
    · obtain ⟨old, isOld, fits, bound⟩ := ordered.bounded other earlier
      have grown := newer old isOld
      exact ⟨fits, by omega⟩
    · rw [isWrite]
      exact ⟨version ▸ signed, by omega⟩

theorem Advance.ordered (advance : Advance store stage after next) (ordered : store.Ordered)
    (pending : ∀ write, stage.writes = some write → write.Pending store.row)
    (current : ∀ write, stage.writes = some write → ∀ row, store.row = some row →
      row.appliedVersion = asI64 write.delta.prevVersion.toNat) : after.Ordered := by
  cases advance with
  | quiet free settled read => exact ordered
  | missing missing busy settled => exact ordered
  | ceilings owes => exact ⟨ordered.ascending, ordered.bounded⟩
  | snapshot checked newer => exact ordered.push rfl (signed_of_checked checked) newer
  | @delta write found outboundMode _ isRow checked settled owes =>
    have version := current write rfl found isRow
    have pending := pending write rfl
    rw [isRow] at pending
    refine ordered.push rfl (signed_of_checked checked) ?_
    intro old isOld
    rw [isRow] at isOld
    cases isOld
    exact (pending.meets version checked).2

end Ordered

/-- The ceilings are those after the first of the recorded writes; each of the others is still owed by a
handler, or changes nothing. -/
structure Waits (store : FrontierStore) (tasks : List ApplyStage) (settled waiting : List Applied) : Prop where
  applied : store.applied = settled ++ waiting
  ceilings : ∀ root, store.ceilings.get? root = ceilingsAfter settled root
  owed : ∀ write ∈ waiting, write.Inert ∨ ∃ stage ∈ tasks, stage.owed = some write
  waiting : ∀ stage ∈ tasks, ∀ write, stage.owed = some write → write ∈ waiting

structure FrontierServer.Ceiled (server : FrontierServer) : Prop where
  sound : server.Sound
  ordered : server.store.Ordered
  waits : ∃ settled waiting, Waits server.store server.tasks settled waiting

/-- The ceilings of a write are stored before those of any later write, none of them fails, and deltas
are written onto the version that they were made for. -/
def CeilingsInOrder (server : FrontierServer) : FrontierEvent → Prop
  | .arrive _ => True
  | .advance task coverage => DeltaCurrent server (.advance task coverage) ∧
      ∀ write ∈ server.tasks[task]?.bind ApplyStage.owed, ∀ stage ∈ server.tasks.eraseIdx task,
        ∀ other ∈ stage.owed, write.version < other.version
  | .fail task => server.tasks[task]?.bind ApplyStage.owed = none

instance (server : FrontierServer) : (event : FrontierEvent) → Decidable (CeilingsInOrder server event)
  | .arrive _ => isTrue trivial
  | .advance task coverage => inferInstanceAs (Decidable (DeltaCurrent server (.advance task coverage) ∧
      ∀ write ∈ server.tasks[task]?.bind ApplyStage.owed, ∀ stage ∈ server.tasks.eraseIdx task,
        ∀ other ∈ stage.owed, write.version < other.version))
  | .fail task => inferInstanceAs (Decidable (server.tasks[task]?.bind ApplyStage.owed = none))

section Waits

variable {store after : FrontierStore} {stage next : ApplyStage} {tasks rest : List ApplyStage}
  {settled waiting : List Applied} {others : List ApplyStage}

theorem Waits.congr (waits : Waits store tasks settled waiting)
    (same : ∀ write, (∃ stage ∈ others, stage.owed = some write) ↔ ∃ stage ∈ tasks, stage.owed = some write) :
    Waits store others settled waiting := by
  refine ⟨waits.applied, waits.ceilings, ?_, ?_⟩
  · intro write mem
    exact (waits.owed write mem).imp_right (same write).mpr
  · intro stage mem write owes
    obtain ⟨other, inTasks, owes'⟩ := (same write).mp ⟨stage, mem, owes⟩
    exact waits.waiting other inTasks write owes'

theorem Waits.perm (waits : Waits store tasks settled waiting) (perm : others.Perm tasks) :
    Waits store others settled waiting :=
  waits.congr (by simp [perm.mem_iff])

section

variable (waits : Waits store (stage :: rest) settled waiting)
include waits

theorem Waits.idle (free : stage.owed = none)
    (settledNext : next.owed = none) : Waits store (next :: rest) settled waiting :=
  waits.congr (by simp [free, settledNext])

theorem Waits.push (free : stage.owed = none)
    {row : Option FrontierRow} (owes : next.owed = none ∧ write.Inert ∨ next.owed = some write) :
    Waits { store with
      row := row
      applied := store.applied ++ [write] } (next :: rest) settled (waiting ++ [write]) := by
  refine ⟨by simp [waits.applied], waits.ceilings, ?_, ?_⟩
  · intro other mem
    rcases mem_concat.mp mem with old | new
    · rcases waits.owed other old with inert | ⟨task, inTasks, owed⟩
      · exact .inl inert
      · rcases mem_cons.mp inTasks with rfl | inRest
        · exact absurd (free.symm.trans owed) (by simp)
        · exact .inr ⟨task, mem_cons_of_mem _ inRest, owed⟩
    · rw [new]
      rcases owes with ⟨-, inert⟩ | owed
      · exact .inl inert
      · exact .inr ⟨next, mem_cons_self .., owed⟩
  · intro task inTasks other owed
    rcases mem_cons.mp inTasks with rfl | inRest
    · rcases owes with ⟨none, -⟩ | owes
      · exact absurd (none.symm.trans owed) (by simp)
      · rw [owes] at owed
        cases owed
        exact mem_append_right _ (mem_singleton.mpr rfl)
    · exact mem_append_left _ (waits.waiting task (mem_cons_of_mem _ inRest) other owed)

theorem Waits.pop {answer : FrontierAnswer} (ordered : store.Ordered) (owes : stage.owed = some write)
    (first : ∀ other ∈ rest, ∀ later, other.owed = some later → write.version < later.version) :
    ∃ settled waiting, Waits { store with
      ceilings := write.ceilings.entries.foldl upsertCeiling (write.base store.ceilings) }
      (.answered answer :: rest) settled waiting := by
  obtain ⟨before, behind, rfl⟩ :=
    append_of_mem (waits.waiting stage (mem_cons_self ..) write owes)
  have ascending := ordered.ascending
  rw [waits.applied, pairwise_append] at ascending
  obtain ⟨-, tail, beforeWrite⟩ := pairwise_append.mp ascending.2.1
  have earlier : ∀ other ∈ before, other.version < write.version := fun other mem =>
    beforeWrite other mem write (mem_cons_self ..)
  have later : ∀ other ∈ behind, write.version < other.version := (pairwise_cons.mp tail).1
  have inert : ∀ other ∈ before, other.Inert := by
    intro other mem
    rcases waits.owed other (mem_append_left _ mem) with inert | ⟨task, inTasks, owed⟩
    · exact inert
    · have less := UInt64.lt_iff_toNat_lt.mp (earlier other mem)
      rcases mem_cons.mp inTasks with rfl | inRest
      · rw [owes] at owed
        cases owed
        omega
      · have more := UInt64.lt_iff_toNat_lt.mp (first task inRest other owed)
        omega
  refine ⟨settled ++ (before ++ [write]), behind, by simp [waits.applied], ?_, ?_, ?_⟩
  · intro root
    have held : (fun root => store.ceilings.get? root) = ceilingsAfter settled := funext waits.ceilings
    rw [get?_write, held, ceilingsAfter, ceilingsAfter, foldl_append, foldl_append,
      foldl_overlay_inert inert]
    rfl
  · intro other mem
    rcases waits.owed other (by simp [mem]) with inert | ⟨task, inTasks, owed⟩
    · exact .inl inert
    · rcases mem_cons.mp inTasks with rfl | inRest
      · have less := UInt64.lt_iff_toNat_lt.mp (later other mem)
        rw [owes] at owed
        cases owed
        omega
      · exact .inr ⟨task, mem_cons_of_mem _ inRest, owed⟩
  · intro task inTasks other owed
    rcases mem_cons.mp inTasks with rfl | inRest
    · cases owed
    · have more := UInt64.lt_iff_toNat_lt.mp (first task inRest other owed)
      rcases mem_append.mp (waits.waiting task (mem_cons_of_mem _ inRest) other owed) with inBefore | inTail
      · have less := UInt64.lt_iff_toNat_lt.mp (earlier other inBefore)
        omega
      · rcases mem_cons.mp inTail with rfl | inBehind
        · omega
        · exact inBehind

end

theorem Advance.waits (advance : Advance store stage after next) (sound : store.Sound) (ordered : store.Ordered)
    (pending : ∀ write, stage.writes = some write → write.Pending store.row)
    (waits : Waits store (stage :: rest) settled waiting)
    (first : ∀ write, stage.owed = some write → ∀ other ∈ rest, ∀ later, other.owed = some later →
      write.version < later.version) :
    ∃ settled waiting, Waits after (next :: rest) settled waiting := by
  cases advance with
  | quiet free settledNext read => exact ⟨settled, waiting, waits.idle free settledNext⟩
  | snapshot checked newer => exact ⟨settled, _, waits.push rfl (.inr rfl)⟩
  | @delta write _ _ _ found checked settledNext owes =>
    refine ⟨settled, _, waits.push rfl ?_⟩
    by_cases none : write.delta.ageCeilings.entries = []
    · rw [if_pos none] at owes
      exact .inl ⟨owes, write.delta, rfl, none⟩
    · rw [if_neg none] at owes
      exact .inr owes
  | ceilings owes => exact waits.pop ordered owes (first _ owes)
  | missing missing busy settledNext =>
    -- A handler past its write to the row, or about to update it, has found the row there.
    rcases busy with owes | writes
    · obtain ⟨write, owes⟩ := ne_none_iff_exists'.mp owes
      have recorded : write ∈ store.applied := by
        rw [waits.applied]
        exact mem_append_right _ (waits.waiting stage (mem_cons_self ..) write owes)
      rw [sound.unwritten missing] at recorded
      cases recorded
    · obtain ⟨write, writes⟩ := ne_none_iff_exists'.mp writes
      obtain ⟨current, found, -⟩ := (pending write writes).grown
      rw [missing] at found
      cases found

end Waits

variable {server : FrontierServer}

theorem ceiled_start : ({} : FrontierServer).Ceiled :=
  ⟨sound_start, ⟨.nil, by simp⟩, [], [], rfl, fun _ => rfl, by simp, by simp⟩

theorem FrontierServer.Ceiled.step (ceiled : server.Ceiled) {event : FrontierEvent}
    (inOrder : CeilingsInOrder server event) : (server.step event).Ceiled := by
  obtain ⟨sound, ordered, settled, waiting, waits⟩ := ceiled
  have current : DeltaCurrent server event := by
    cases event with
    | arrive request => trivial
    | advance task coverage => exact inOrder.1
    | fail task => trivial
  suffices kept : (server.step event).store.Ordered ∧
      ∃ settled waiting, Waits (server.step event).store (server.step event).tasks settled waiting from
    ⟨(sound.step current).1, kept.1, kept.2⟩
  cases event with
  | arrive request =>
    refine ⟨ordered, settled, waiting, ?_⟩
    have started : Waits server.store (request.start :: server.tasks) settled waiting :=
      waits.congr (by simp [request.settled_start.1])
    exact started.perm (perm_append_singleton _ _)
  | advance task coverage =>
    cases isTask : server.tasks[task]? with
    | none =>
      rw [FrontierServer.step, isTask]
      exact ⟨ordered, settled, waiting, waits⟩
    | some stage =>
      obtain ⟨after, next, advance, isStep⟩ := server.step_advance isTask coverage
      rw [isStep]
      have pending := sound.pending stage (mem_of_getElem? isTask)
      refine ⟨advance.ordered ordered pending ?_, ?_⟩
      · intro write isWrite row isRow
        exact inOrder.1 write (by simpa [isTask] using isWrite) row isRow
      · obtain ⟨settled, waiting, waits⟩ := advance.waits sound.store ordered pending
          (waits.perm (perm_cons_eraseIdx isTask).symm)
          (fun write owes other inRest later owed =>
            inOrder.2 write (by simpa [isTask] using owes) other inRest later owed)
        exact ⟨settled, waiting, waits.perm (set_perm_of_some isTask next)⟩
  | fail task =>
    cases isTask : server.tasks[task]? with
    | none =>
      rw [FrontierServer.step, isTask]
      exact ⟨ordered, settled, waiting, waits⟩
    | some stage =>
      have free : stage.owed = none := by
        rw [CeilingsInOrder, isTask] at inOrder
        exact inOrder
      simp only [FrontierServer.step, isTask]
      refine ⟨ordered, settled, waiting, ?_⟩
      have failed := (waits.perm (perm_cons_eraseIdx isTask).symm).idle free stage.settled_failed.1
      exact failed.perm (set_perm_of_some isTask _)

/-- In a run that stores the ceilings of the writes in the order of the writes, whenever no handler is
between the two, the ceilings are what the snapshot and the deltas that made the stored version say. -/
theorem ceilings_belong_to_version {events reached : List FrontierEvent}
    (inOrder : MeetAlong FrontierServer.step CeilingsInOrder {} events) (within : reached <+: events)
    (idle : ∀ stage ∈ (FrontierServer.run reached).tasks, stage.owed = none) :
    (∀ root, (FrontierServer.run reached).store.ceilings.get? root =
      ceilingsAfter (FrontierServer.run reached).store.applied root) ∧
    (FrontierServer.run reached).store.applied.Pairwise (fun first second => first.version < second.version) ∧
    ∀ row, (FrontierServer.run reached).store.row = some row →
      Layered (FrontierServer.run reached).store.applied row.content := by
  have ceiled : (FrontierServer.run reached).Ceiled := (inOrder.of_shorter within).invariant
    (fun server event ceiled inOrder => ceiled.step inOrder) ceiled_start
  obtain ⟨settled, waiting, waits⟩ := ceiled.waits
  have inert : ∀ write ∈ waiting, write.Inert := by
    intro write mem
    rcases waits.owed write mem with inert | ⟨stage, inTasks, owed⟩
    · exact inert
    · exact absurd ((idle stage inTasks).symm.trans owed) (by simp)
  refine ⟨?_, ceiled.ordered.ascending, ceiled.sound.store.layered⟩
  intro root
  rw [waits.ceilings root, waits.applied, ceilingsAfter, ceilingsAfter, foldl_append, foldl_overlay_inert inert]

def cleavingAnnounce (version : UInt64) (root : Key) (cutoff : UInt64) : FrontierAnnounce :=
  { plainAnnounce version 1 with ageCeilings := { entries := [(root, cutoff)], keyed := by simp [Table.Keyed] } }

theorem ceilings_of_announces_in_turn : MeetAlong FrontierServer.step CeilingsInOrder {}
      (alone 0 (.announce (cleavingAnnounce 6 1 600)) ++ alone 1 (.announce (cleavingAnnounce 7 2 700))) ∧
    ∀ root, (FrontierServer.run (alone 0 (.announce (cleavingAnnounce 6 1 600)) ++
        alone 1 (.announce (cleavingAnnounce 7 2 700)))).store.ceilings.get? root =
      ceilingsAfter (FrontierServer.run (alone 0 (.announce (cleavingAnnounce 6 1 600)) ++
        alone 1 (.announce (cleavingAnnounce 7 2 700)))).store.applied root := by
  have inOrder : MeetAlong FrontierServer.step CeilingsInOrder {}
      (alone 0 (.announce (cleavingAnnounce 6 1 600)) ++ alone 1 (.announce (cleavingAnnounce 7 2 700))) := by decide
  exact ⟨inOrder, (ceilings_belong_to_version inOrder (prefix_refl _) (by decide)).1⟩

/-- Two announces win the guard in the order of their versions and store their ceilings in the other. -/
def crossedCeilings : List FrontierEvent :=
  [.arrive (.announce (cleavingAnnounce 6 1 600)), .arrive (.announce (cleavingAnnounce 7 2 700)),
    .advance 0 .noUsers, .advance 1 .noUsers, .advance 0 .noUsers, .advance 1 .noUsers,
    .advance 1 .noUsers, .advance 0 .noUsers]

theorem crossed_ceilings_are_stale : (FrontierServer.run crossedCeilings).tasks =
        [.answered (.applied 6 (encodeCursor 6 1000)), .answered (.applied 7 (encodeCursor 7 1000))] ∧
      (FrontierServer.run crossedCeilings).store.row.map FrontierRow.appliedVersion = some 7 ∧
      (FrontierServer.run crossedCeilings).store.ceilings = [(1, 600)] ∧
      ceilingsAfter (FrontierServer.run crossedCeilings).store.applied 1 = none ∧
      ceilingsAfter (FrontierServer.run crossedCeilings).store.applied 2 = some 700 :=
  ⟨rfl, by decide⟩

end Prismoire
