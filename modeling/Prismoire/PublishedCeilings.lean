import Prismoire.FrontierPairs

namespace Prismoire

open Lib List FrontierTables Table

def ceilingsOf (readers : List FrontierReader) (caps : List AdmissionCap) : Table Key Int :=
  (readers.zip caps).filterMap fun entry => (deriveAgeCeiling entry.2).map (entry.1.key, ·)

variable {caps : List AdmissionCap} {entry : Key × Int} {readers : List FrontierReader}

section Publish

variable {tables : FrontierTables}

theorem keyed_apply (keyed : tables.localAgeCeilings.Keyed) (write : FrontierWrite) :
    (tables.apply write).localAgeCeilings.Keyed := by
  cases write with
  | advance | mark | sweepEdges | sweepStubs => exact keyed
  | stub key generation hop =>
    rw [apply]
    split <;> exact keyed
  | clearCeiling root => exact keyed.remove
  | publishCeiling root cutoff =>
    show (remove tables.localAgeCeilings root ++ [(root, cutoff)]).Keyed
    rw [Keyed, map_append, nodup_append]
    refine ⟨keyed.remove, nodup_singleton _, ?_⟩
    rintro _ mem _ isRoot rfl
    obtain ⟨other, isOther, same⟩ := mem_map.mp mem
    exact (mem_remove.mp isOther).2 (same.trans (mem_singleton.mp isRoot))

theorem keyed_replay (writes : List FrontierWrite) (keyed : tables.localAgeCeilings.Keyed) :
    (tables.replay writes).localAgeCeilings.Keyed := by
  induction writes generalizing tables with
  | nil => exact keyed
  | cons write writes ih => exact ih (keyed_apply keyed write)

theorem mem_replay_publish (distinct : (readers.map (·.key)).Nodup) (paired : caps.length = readers.length) :
    entry ∈ (tables.replay (publishLocalAgeCeilings readers caps)).localAgeCeilings ↔
      entry ∈ ceilingsOf readers caps ∨ entry ∈ tables.localAgeCeilings ∧ entry.1 ∉ readers.map (·.key) := by
  induction readers generalizing tables caps with
  | nil => simp [publishLocalAgeCeilings, ceilingsOf, replay]
  | cons reader readers ih =>
    obtain ⟨cap, caps, rfl⟩ := exists_cons_of_length_eq_add_one paired
    obtain ⟨absent, distinct⟩ := nodup_cons.mp distinct
    have rest : entry.1 = reader.key → entry.1 ∉ readers.map (·.key) := fun same => same ▸ absent
    rw [publishLocalAgeCeilings, zipWith_cons_cons, replay, foldl_cons]
    refine (ih distinct (Nat.succ.inj paired)).trans ?_
    cases ceiling : deriveAgeCeiling cap with
    | none =>
      simp only [apply, mem_filter, decide_eq_true_eq, ceilingsOf, zip_cons_cons,
        filterMap_cons, ceiling, Option.map_none, map_cons, mem_cons, not_or]
      tauto
    | some cutoff =>
      have isRow : entry = (reader.key, cutoff) → entry.1 = reader.key := fun same => same ▸ rfl
      simp only [apply, mem_append, mem_filter, decide_eq_true_eq,
        ceilingsOf, zip_cons_cons, filterMap_cons, ceiling, Option.map_some, map_cons, mem_cons,
        not_or]
      tauto

theorem ceilingsOf_nodup (distinct : (readers.map (·.key)).Nodup) : (ceilingsOf readers caps).Nodup := by
  refine List.Nodup.of_map Prod.fst ?_
  have sublist : ((ceilingsOf readers caps).map Prod.fst).Sublist (readers.map (·.key)) := by
    induction readers generalizing caps with
    | nil => exact List.Sublist.refl _
    | cons reader readers ih =>
      cases caps with
      | nil => exact nil_sublist _
      | cons cap caps =>
        rw [ceilingsOf, zip_cons_cons, filterMap_cons]
        have rest := @ih caps (nodup_cons.mp distinct).2
        cases deriveAgeCeiling cap with
        | none => exact rest.cons _
        | some cutoff => exact rest.cons_cons _
  exact distinct.sublist sublist

end Publish

section Caps

variable {sweep : FrontierSweep}

theorem reverseFrontierBfs_caps {db : Db} {fuel capN generation maxDepth : Nat}
    (isOk : reverseFrontierBfs fuel db readers capN generation maxDepth = .ok sweep) :
    sweep.caps.length = readers.length := by
  have kept : (reverseFrontierBfs fuel db readers capN generation maxDepth).last.caps.length = readers.length := by
    rw [reverseFrontierBfs, foldl_seed readers _ rfl]
    refine loop_last (·.caps.length = readers.length) (fun sweep rest paired => paired) ?_ fuel (length_map _)
    intro sweep node depth paired
    refine foldlM_last (·.caps.length = readers.length) (fun sweep edge _ paired => ?_) paired
    have offered : ((sweep.mark edge.canonicalHash generation).offers readers edge.sourcePubkey).length =
        readers.length := by
      rw [FrontierSweep.offers, length_zipWith]
      exact min_eq_left paired.ge
    rw [FrontierSweep.visitEdge]
    split
    · exact paired
    · split
      · exact paired
      · rw [FrontierSweep.reach]
        split
        · exact (length_map _).trans offered
        · split <;> exact (length_map _).trans offered
  rwa [isOk] at kept

end Caps

namespace EdgeStore

def DistinctReaders : EdgeStoreEvent → Prop
  | .rebuild _ readers .. => (readers.map (·.key)).Nodup
  | .insert .. | .elsewhere _ => True

def Succeeds (store : EdgeStore) (fuel : Nat) (readers : List FrontierReader) (capN maxDepth : Nat) (k : Int) (sent : Nat)
    (caps : List AdmissionCap) : Prop :=
  (rebuildReverseFrontier fuel store.tables readers capN maxDepth k).writes.length ≤ sent ∧
    ∃ sweep, sweep.caps = caps ∧ reverseFrontierBfs fuel (store.tables.apply .advance).db readers capN
      (store.tables.apply .advance).db.currentGeneration maxDepth = .ok sweep

def CeilingsMirror (store : EdgeStore) (event : EdgeStoreEvent) : Prop :=
  match event with
  | .rebuild fuel readers capN maxDepth k sent => ∀ caps, store.Succeeds fuel readers capN maxDepth k sent caps →
      (store.step event).tables.localAgeCeilings.Perm (ceilingsOf readers caps)
  | .insert .. | .elsewhere _ => True

def ReadersStay (store : EdgeStore) : EdgeStoreEvent → Prop
  | .rebuild fuel readers capN maxDepth k sent => ∀ caps, store.Succeeds fuel readers capN maxDepth k sent caps →
      ∀ entry ∈ store.tables.localAgeCeilings, entry.1 ∈ readers.map (·.key)
  | .insert .. | .elsewhere _ => True

section

variable {store : EdgeStore} {fuel capN maxDepth sent : Nat} {k : Int}

theorem step_keyed (keyed : store.tables.localAgeCeilings.Keyed) (event : EdgeStoreEvent) :
    (store.step event).tables.localAgeCeilings.Keyed := by
  cases event with
  | insert | elsewhere => exact keyed
  | rebuild => exact keyed_replay _ keyed

theorem mem_step_rebuild (distinct : (readers.map (·.key)).Nodup)
    (succeeds : store.Succeeds fuel readers capN maxDepth k sent caps) :
    entry ∈ (store.step (.rebuild fuel readers capN maxDepth k sent)).tables.localAgeCeilings ↔
      entry ∈ ceilingsOf readers caps ∨ entry ∈ store.tables.localAgeCeilings ∧ entry.1 ∉ readers.map (·.key) := by
  obtain ⟨all, sweep, rfl, isOk⟩ := succeeds
  have paired := reverseFrontierBfs_caps isOk
  have logged := logged_reverseFrontierBfs fuel store.tables readers capN maxDepth
  rw [isOk] at logged
  have writes : (rebuildReverseFrontier fuel store.tables readers capN maxDepth k).writes =
      (.advance :: sweep.writes) ++ sweepFrontier (store.tables.apply .advance).db.currentGeneration k ++
        publishLocalAgeCeilings readers sweep.caps := by
    rw [rebuildReverseFrontier, isOk]
    simp
  have replayed : store.tables.replay (.advance :: sweep.writes) = { store.tables with db := sweep.db } := logged.replayed
  rw [step, take_of_length_le all, writes, replay, foldl_append, foldl_append]
  refine (mem_replay_publish distinct paired).trans ?_
  rw [replay] at replayed
  rw [replayed]
  rfl

theorem ceilingsMirror_iff (keyed : store.tables.localAgeCeilings.Keyed) {event : EdgeStoreEvent}
    (distinct : DistinctReaders event) : CeilingsMirror store event ↔ ReadersStay store event := by
  cases event with
  | insert | elsewhere => exact Iff.rfl
  | rebuild fuel readers capN maxDepth k sent =>
    refine forall_congr' fun caps => forall_congr' fun succeeds => ?_
    have rows := fun entry => @mem_step_rebuild caps entry readers store fuel capN maxDepth sent k distinct succeeds
    have once := (step_keyed keyed (.rebuild fuel readers capN maxDepth k sent)).nodup
    rw [perm_ext_iff_of_nodup once (ceilingsOf_nodup distinct)]
    constructor
    · intro same entry mem
      by_contra gone
      have asked := (same entry).mp ((rows entry).mpr (.inr ⟨mem, gone⟩))
      obtain ⟨⟨reader, cap⟩, isPair, isEntry⟩ := mem_filterMap.mp asked
      obtain ⟨cutoff, -, rfl⟩ := Option.map_eq_some_iff.mp isEntry
      exact gone (mem_map_of_mem (of_mem_zip isPair).1)
    · intro stay entry
      refine (rows entry).trans (or_iff_left ?_)
      rintro ⟨mem, gone⟩
      exact gone (stay entry mem)

end

/-- In a run that starts without published ceilings they mirror the readers of every successful rebuild exactly as long
as nobody with a published ceiling is missing among the readers of one. -/
theorem ceilings_mirror_iff_readers_stay (db : Db) {events : List EdgeStoreEvent}
    (distinct : ∀ event ∈ events, DistinctReaders event) :
    MeetAlong step CeilingsMirror { tables := { db } } events ↔ MeetAlong step ReadersStay { tables := { db } } events := by
  have general : ∀ store : EdgeStore, store.tables.localAgeCeilings.Keyed →
      (MeetAlong step CeilingsMirror store events ↔ MeetAlong step ReadersStay store events) := by
    induction events with
    | nil => exact fun store keyed => Iff.rfl
    | cons event events ih =>
      intro store keyed
      refine and_congr (ceilingsMirror_iff keyed (distinct event mem_cons_self)) ?_
      exact ih (fun event later => distinct event (mem_cons_of_mem _ later)) _ (step_keyed keyed event)
  exact general _ nodup_nil

/-- The key `1`, whose age is known, trusts the reader `0`. -/
def agedTruster : Db := { trustChain 1 with
  userGenesis := [{ userKey := 1, genesisAt := 100, birthInstanceKey := 9, attestationSig := [] }] }

def fullRebuild (readers : List FrontierReader) : EdgeStoreEvent :=
  .rebuild 3 readers 1 3 3 9

theorem same_reader_mirrored :
    MeetAlong step CeilingsMirror { tables := { db := agedTruster } } [fullRebuild chainReaders, fullRebuild chainReaders] := by
  refine (ceilings_mirror_iff_readers_stay agedTruster ?_).mpr ⟨fun _ _ => ?_, fun _ _ => ?_, trivial⟩
  · exact forall_mem_cons.mpr ⟨nodup_singleton _, forall_mem_singleton.mpr (nodup_singleton _)⟩
  · decide +kernel
  · decide +kernel

/-- The reader is suspended before the next rebuild, and the ceiling stays. -/
theorem former_reader_published : ¬ ∀ (db : Db) (events : List EdgeStoreEvent),
    (∀ event ∈ events, DistinctReaders event) → MeetAlong step CeilingsMirror { tables := { db } } events := by
  intro all
  obtain ⟨-, mirrored, -⟩ := all agedTruster [fullRebuild chainReaders, fullRebuild []]
    (forall_mem_cons.mpr ⟨nodup_singleton _, forall_mem_singleton.mpr nodup_nil⟩)
  have same := mirrored [] ⟨by decide +kernel, _, rfl, rfl⟩
  exact absurd same.length_eq (by decide +kernel)

end EdgeStore

end Prismoire
