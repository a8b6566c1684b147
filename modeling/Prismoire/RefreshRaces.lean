import Prismoire.LocalRefresh

namespace Prismoire

open Lib List Option Table

def RefreshStage.Saw (tables : LocalTables) : RefreshStage → Prop
  | started | returned _ | failed => True
  | rooted roots => roots = tables.rootRows
  | numbered roots generation => roots = tables.rootRows ∧ generation = tables.db.currentGeneration
  | stubbed visible expansion => visible = tables.visibleSlice ∧ expansion = tables.expansionSlice
  | computed reads => reads.visible = tables.visibleSlice ∧ reads.expansion = tables.expansionSlice ∧
      reads.ageCeilings = tables.loadLocalAgeCeilings

variable {stage : RefreshStage} {frontier : LocalFrontier}

section Stages

variable {tables : LocalTables}

theorem RefreshStage.Saw.read (saw : stage.Saw tables) (now : UInt64) (fits : 0 ≤ asI64 now.toNat) :
    (stage.read tables now fits).Saw tables := by
  cases stage with
  | started => exact rfl
  | rooted roots => exact ⟨saw, rfl⟩
  | numbered roots generation =>
    obtain ⟨rfl, rfl⟩ := saw
    exact ⟨rfl, rfl⟩
  | stubbed visible expansion => exact ⟨saw.1, saw.2, rfl⟩
  | computed reads => exact saw
  | returned | failed => trivial

theorem RefreshStage.Saw.fail (saw : stage.Saw tables) : stage.fail.Saw tables := by
  cases stage with
  | computed reads => exact saw
  | started | rooted | numbered | stubbed | returned | failed => trivial

theorem RefreshStage.swapped_read (now : UInt64) (fits : 0 ≤ asI64 now.toNat) :
    (stage.read tables now fits).swapped = stage.swapped := by
  cases stage <;> rfl

theorem RefreshStage.swapped_fail : stage.fail.swapped = stage.swapped := by
  cases stage <;> rfl

theorem RefreshStage.returned_of_read {now : UInt64} {fits : 0 ≤ asI64 now.toNat}
    (returned : stage.read tables now fits = .returned frontier) : stage = .returned frontier := by
  cases stage with
  | returned other => exact returned
  | started | rooted | numbered | stubbed | computed | failed => cases returned

theorem RefreshStage.returned_of_fail (returned : stage.fail = .returned frontier) :
    stage = .returned frontier := by
  cases stage with
  | returned other => exact returned
  | started | rooted | numbered | stubbed | computed | failed => cases returned

end Stages

variable {cache : FrontierCache} {reads : LocalReads}

namespace FrontierCache

variable {hashes : BloomHashes} {sizing : BloomSizing}

/-- A call that started after the last change has read nothing but the tables as they are. -/
structure Tracked (cache : FrontierCache) : Prop where
  started : ∀ call ∈ cache.calls, call.started ≤ cache.changes
  saw : ∀ call ∈ cache.calls, call.started = cache.changes → call.stage.Saw cache.tables

variable {i : Nat} {call : RefreshCall}

theorem mem_setStage {other : RefreshCall} (mem : other ∈ (cache.setStage i call stage).calls) :
    other ∈ cache.calls ∨ other = { call with stage := stage } :=
  mem_or_eq_of_mem_set mem

theorem Tracked.setStage (tracked : cache.Tracked)
    (found : cache.calls[i]? = some call) (saw : call.started = cache.changes → stage.Saw cache.tables) :
    (cache.setStage i call stage).Tracked := by
  have mem := mem_of_getElem? found
  constructor
  · intro other isCall
    rcases mem_setStage isCall with old | rfl
    · exact tracked.started other old
    · exact tracked.started call mem
  · intro other isCall fresh
    rcases mem_setStage isCall with old | rfl
    · exact tracked.saw other old fresh
    · exact saw fresh

theorem Tracked.step (tracked : cache.Tracked) (event : RefreshEvent) : (cache.step hashes sizing event).Tracked := by
  cases event with
  | change tables =>
    constructor
    · intro call isCall
      exact (tracked.started call isCall).trans (Nat.le_succ _)
    · intro call isCall fresh
      have before := tracked.started call isCall
      change call.started = cache.changes + 1 at fresh
      omega
  | start =>
    constructor
    · exact forall_mem_concat.mpr ⟨tracked.started, le_rfl⟩
    · exact forall_mem_concat.mpr ⟨tracked.saw, fun _ => trivial⟩
  | read i now fits =>
    rw [FrontierCache.step]
    split
    · exact tracked
    · rename_i call found
      exact tracked.setStage found fun fresh => (tracked.saw call (mem_of_getElem? found) fresh).read now fits
  | fail i =>
    rw [FrontierCache.step]
    split
    · exact tracked
    · rename_i call found
      exact tracked.setStage found fun fresh => (tracked.saw call (mem_of_getElem? found) fresh).fail
  | swap i =>
    rw [FrontierCache.step]
    split
    · rename_i started reads found
      have kept : (cache.setStage i { started, stage := .computed reads }
          (.returned (cache.cached.refresh (computeLocalFrontier hashes sizing reads)))).Tracked :=
        tracked.setStage found fun _ => trivial
      exact ⟨kept.started, kept.saw⟩
    · exact tracked
  | announce i =>
    rw [FrontierCache.step]
    split
    · exact ⟨tracked.started, tracked.saw⟩
    · exact tracked
  | get since =>
    rw [FrontierCache.step]
    split
    · exact tracked
    · exact ⟨tracked.started, tracked.saw⟩

theorem tracked_boot (tables : LocalTables) (now : UInt64) (fits : 0 ≤ asI64 now.toNat) : (boot tables now fits).Tracked :=
  ⟨fun _ isCall => absurd isCall not_mem_nil, fun _ isCall => absurd isCall not_mem_nil⟩

end FrontierCache

section Refresh

variable {prev next : LocalFrontier}

theorem filterBytesDiffer_self (filter : BloomFilter) : filterBytesDiffer filter filter = false := by
  simp [filterBytesDiffer]

theorem LocalFrontier.refresh_filters (prev next : LocalFrontier) :
    filterBytesDiffer (prev.refresh next).visibleFilter next.visibleFilter = false ∧
      filterBytesDiffer (prev.refresh next).expansionFilter next.expansionFilter = false := by
  rw [LocalFrontier.refresh]
  split
  · exact ⟨filterBytesDiffer_self _, filterBytesDiffer_self _⟩
  · rename_i same
    rw [Bool.not_eq_true, LocalFrontier.changed, Bool.or_eq_false_iff] at same
    exact same

end Refresh

namespace FrontierCache

variable (hashes : BloomHashes) (sizing : BloomSizing)

def Current (cache : FrontierCache) : Prop :=
  filterBytesDiffer cache.cached.visibleFilter (buildBloomFromKeys hashes sizing cache.tables.visibleSlice) = false ∧
  filterBytesDiffer cache.cached.expansionFilter (buildBloomFromKeys hashes sizing cache.tables.expansionSlice) = false

def Refreshed (cache : FrontierCache) : Prop :=
  ∃ call ∈ cache.calls, call.started = cache.changes ∧ call.stage.swapped = true

/-- Once every call has ended, one that started after the last change is enough. -/
def NothingLost (cache : FrontierCache) : Prop :=
  (∀ call ∈ cache.calls, call.stage.ended = true) → cache.Refreshed → cache.Current hashes sizing

def InTurn (cache : FrontierCache) : RefreshEvent → Prop
  | .swap i => ∀ call reads, cache.calls[i]? = some call → call.stage = .computed reads → cache.Refreshed →
      (∀ key, key ∈ reads.visible.keys ↔ key ∈ cache.tables.visibleSlice.keys) ∧
      ∀ key, key ∈ reads.expansion.keys ↔ key ∈ cache.tables.expansionSlice.keys
  | _ => True

variable {hashes} {sizing}

theorem Refreshed.setStage {i : Nat} {call : RefreshCall} {stage : RefreshStage}
    (refreshed : (cache.setStage i call stage).Refreshed) (found : cache.calls[i]? = some call) :
    cache.Refreshed ∨ call.started = cache.changes ∧ stage.swapped = true ∧ call.stage.swapped = false := by
  obtain ⟨other, isCall, fresh, swapped⟩ := refreshed
  rcases mem_setStage isCall with old | rfl
  · exact .inl ⟨other, old, fresh, swapped⟩
  · cases before : call.stage.swapped with
    | true => exact .inl ⟨call, mem_of_getElem? found, fresh, before⟩
    | false => exact .inr ⟨fresh, swapped, rfl⟩

theorem Tracked.swap_current (tracked : cache.Tracked) {i started : Nat}
    (found : cache.calls[i]? = some { started, stage := .computed reads }) (inTurn : cache.InTurn (.swap i))
    (refreshed : cache.Refreshed ∨ started = cache.changes) :
    filterBytesDiffer (cache.cached.refresh (computeLocalFrontier hashes sizing reads)).visibleFilter
        (buildBloomFromKeys hashes sizing cache.tables.visibleSlice) = false ∧
      filterBytesDiffer (cache.cached.refresh (computeLocalFrontier hashes sizing reads)).expansionFilter
        (buildBloomFromKeys hashes sizing cache.tables.expansionSlice) = false := by
  have same : (∀ key, key ∈ reads.visible.keys ↔ key ∈ cache.tables.visibleSlice.keys) ∧
      ∀ key, key ∈ reads.expansion.keys ↔ key ∈ cache.tables.expansionSlice.keys := by
    rcases refreshed with before | fresh
    · exact inTurn _ reads found rfl before
    · obtain ⟨visible, expansion, -⟩ := tracked.saw _ (mem_of_getElem? found) fresh
      rw [visible, expansion]
      exact ⟨fun _ => Iff.rfl, fun _ => Iff.rfl⟩
  have filters := cache.cached.refresh_filters (computeLocalFrontier hashes sizing reads)
  rw [← buildBloomFromKeys_congr same.1, ← buildBloomFromKeys_congr same.2]
  exact filters

theorem current_step (cache : FrontierCache) (event : RefreshEvent)
    (inv : cache.Tracked ∧ (cache.Refreshed → cache.Current hashes sizing)) (inTurn : cache.InTurn event) :
    (cache.step hashes sizing event).Tracked ∧
      ((cache.step hashes sizing event).Refreshed → (cache.step hashes sizing event).Current hashes sizing) := by
  obtain ⟨tracked, current⟩ := inv
  refine ⟨tracked.step event, ?_⟩
  cases event with
  | change tables =>
    rintro ⟨call, isCall, fresh, -⟩
    have before := tracked.started call isCall
    change call.started = cache.changes + 1 at fresh
    omega
  | start =>
    rintro ⟨call, isCall, fresh, swapped⟩
    rcases mem_concat.mp isCall with old | new
    · exact current ⟨call, old, fresh, swapped⟩
    · rw [new] at swapped
      cases swapped
  | read i now fits =>
    rw [step]
    split
    · exact current
    · rename_i call found
      intro refreshed
      rcases refreshed.setStage found with before | ⟨-, swapped, notYet⟩
      · exact current before
      · rw [RefreshStage.swapped_read, notYet] at swapped
        cases swapped
  | fail i =>
    rw [step]
    split
    · exact current
    · rename_i call found
      intro refreshed
      rcases refreshed.setStage found with before | ⟨-, swapped, notYet⟩
      · exact current before
      · rw [RefreshStage.swapped_fail, notYet] at swapped
        cases swapped
  | swap i =>
    rw [step]
    split
    · rename_i started reads found
      rintro ⟨call, isCall, fresh, swapped⟩
      have refreshed := Refreshed.setStage ⟨call, isCall, fresh, swapped⟩ found
      exact tracked.swap_current found inTurn (refreshed.imp_right And.left)
    · exact current
  | announce i =>
    rw [step]
    split
    · exact current
    · exact current
  | get since =>
    rw [step]
    split
    · exact current
    · exact current

/-- Calls that swap in turn lose no change, in any interleaving of their queries with the changes. -/
theorem refreshes_lose_nothing (hashes : BloomHashes) (sizing : BloomSizing) (tables : LocalTables) (now : UInt64)
    (fits : 0 ≤ asI64 now.toNat) (events : List RefreshEvent)
    (inTurn : MeetAlong (step hashes sizing) InTurn (boot tables now fits) events) (reached : List RefreshEvent)
    (within : reached <+: events) :
    (reached.foldl (step hashes sizing) (boot tables now fits)).NothingLost hashes sizing := by
  have start : (boot tables now fits).Tracked ∧
      ((boot tables now fits).Refreshed → (boot tables now fits).Current hashes sizing) := by
    refine ⟨tracked_boot tables now fits, ?_⟩
    rintro ⟨call, isCall, -⟩
    exact absurd isCall not_mem_nil
  intro _
  exact ((inTurn.of_shorter within).invariant current_step start).2

instance (cache : FrontierCache) : Decidable cache.Refreshed :=
  inferInstanceAs (Decidable (∃ call ∈ cache.calls, call.started = cache.changes ∧ call.stage.swapped = true))

theorem few_stubs : ([] : List FrontierUserRow).length < 2 ^ 62 := by
  decide

theorem few_root (key : Key) : [(⟨key, "root", "root", .invite, none, false⟩ : UserRow)].length < 2 ^ 62 := by
  simp

def rootTables (key : Key) : LocalTables where
  db := { users := [⟨key, "root", "root", .invite, none, false⟩] }
  keyed := keyed_nil
  fewUsers := few_root key
  fewStubs := few_stubs

/-- A key sets the bit of its own number. -/
def plainHashes : BloomHashes :=
  fun key => (UInt64.ofNat key.toNat, 0)

def smallSizing : BloomSizing where
  recommendM _ := 64
  recommendK _ _ := 1
  low _ := by decide
  whole _ := by decide
  clamped _ _ := by decide

def readAll (call : Nat) : List RefreshEvent :=
  List.replicate 4 (.read call 0 (by decide))

def twoRefreshes (swaps : List Nat) : List RefreshEvent :=
  [.start] ++ readAll 0 ++ [.change (rootTables 6), .start] ++ readAll 1 ++ swaps.map .swap

theorem older_swaps_first :
    MeetAlong (step plainHashes smallSizing) InTurn (boot (rootTables 5) 0 (by decide)) (twoRefreshes [0, 1]) ∧
    ((twoRefreshes [0, 1]).foldl (step plainHashes smallSizing) (boot (rootTables 5) 0 (by decide))).Current
      plainHashes smallSizing := by
  have inTurn : MeetAlong (step plainHashes smallSizing) InTurn (boot (rootTables 5) 0 (by decide))
      (twoRefreshes [0, 1]) := by
    refine ⟨trivial, trivial, trivial, trivial, trivial, trivial, trivial, trivial, trivial, trivial, trivial, ?_, ?_,
      trivial⟩
    · intro call reads _ _ refreshed
      exact absurd refreshed (by decide +kernel)
    · intro call reads _ _ refreshed
      exact absurd refreshed (by decide +kernel)
  exact ⟨inTurn, refreshes_lose_nothing plainHashes smallSizing (rootTables 5) 0 (by decide) (twoRefreshes [0, 1]) inTurn
    (twoRefreshes [0, 1]) (prefix_refl _) (by decide +kernel) (by decide +kernel)⟩

/-- The call that read before the change swaps last, and what the other one found is gone. -/
theorem older_swaps_last : ¬ ∀ (hashes : BloomHashes) (sizing : BloomSizing) (tables : LocalTables) (now : UInt64)
    (fits : 0 ≤ asI64 now.toNat) (events : List RefreshEvent),
    (events.foldl (step hashes sizing) (boot tables now fits)).NothingLost hashes sizing := by
  intro all
  have current := all plainHashes smallSizing (rootTables 5) 0 (by decide) (twoRefreshes [1, 0]) (by decide +kernel)
    (by decide +kernel)
  have lost : filterBytesDiffer ((twoRefreshes [1, 0]).foldl (step plainHashes smallSizing)
        (boot (rootTables 5) 0 (by decide))).cached.visibleFilter
      (buildBloomFromKeys plainHashes smallSizing ((twoRefreshes [1, 0]).foldl (step plainHashes smallSizing)
        (boot (rootTables 5) 0 (by decide))).tables.visibleSlice) = true := by
    decide +kernel
  rw [current.1] at lost
  cases lost

end FrontierCache

theorem LocalTables.get?_loadLocalAgeCeilings (tables : LocalTables) (root : Key) :
    tables.loadLocalAgeCeilings.entries.get? root =
      (tables.localAgeCeilings.get? root).bind fun cutoff => if 0 ≤ cutoff then some (asU64 cutoff) else none := by
  apply ext
  intro cutoff
  constructor
  · intro found
    obtain ⟨row, isRow, loaded⟩ := mem_filterMap.mp (mem_of_get? found)
    rw [loadCutoff] at loaded
    split at loaded
    · rename_i signed
      cases loaded
      rw [tables.keyed.get? isRow]
      exact if_pos signed
    · cases loaded
  · intro published
    obtain ⟨column, found, loaded⟩ := bind_eq_some_iff.mp published
    split at loaded
    · rename_i signed
      cases loaded
      apply tables.loadLocalAgeCeilings.keyed.get?
      exact mem_filterMap.mpr ⟨(root, column), mem_of_get? found, if_pos signed⟩
    · cases loaded

theorem LocalFrontier.refresh_version {prev next : LocalFrontier}
    (fits : prev.changed next = true → prev.version.toNat + 1 < 2 ^ 64) :
    prev.refresh next = prev ∨ prev.version.toNat < (prev.refresh next).version.toNat := by
  rw [LocalFrontier.refresh]
  split
  · rename_i changed
    right
    have bound := fits changed
    simp only [saturatingSucc, bound, if_true, UInt64.toNat_add]
    rw [show (1 : UInt64).toNat = 1 from rfl, Nat.mod_eq_of_lt bound]
    exact Nat.lt_succ_self _
  · exact .inl rfl

namespace FrontierCache

/-- A version and its cursor stand for one frontier, and a call that saw the tables leaves their ceilings. -/
structure Faithful (cache : FrontierCache) : Prop where
  same : ∀ a ∈ cache.sent, ∀ b ∈ cache.sent, a.version = b.version → a.cursor = b.cursor →
    a.visibleFilter = b.visibleFilter ∧ a.expansionFilter = b.expansionFilter ∧ a.ageCeilings = b.ageCeilings
  ceilings : cache.lastSwap = some cache.changes → ∀ root, cache.cached.ageCeilings.entries.get? root =
    (cache.tables.localAgeCeilings.get? root).bind fun cutoff => if 0 ≤ cutoff then some (asU64 cutoff) else none

/-- A call that leaves the filters as they are, and started after the last change, read the ceilings that are cached;
one that changes them has a version left to count with. -/
def Noticed (hashes : BloomHashes) (sizing : BloomSizing) (cache : FrontierCache) : RefreshEvent → Prop
  | .swap i => ∀ call reads, cache.calls[i]? = some call → call.stage = .computed reads →
      if cache.cached.changed (computeLocalFrontier hashes sizing reads) = true then
        cache.cached.version.toNat + 1 < 2 ^ 64
      else call.started = cache.changes → ∀ root,
        cache.cached.ageCeilings.entries.get? root = reads.ageCeilings.entries.get? root
  | _ => True

def Known (cache : FrontierCache) (frontier : LocalFrontier) : Prop :=
  frontier = cache.cached ∨ frontier ∈ cache.sent ∨ ∃ call ∈ cache.calls, call.stage = .returned frontier

structure Versioned (cache : FrontierCache) : Prop where
  tracked : cache.Tracked
  low : ∀ frontier, cache.Known frontier → frontier.version.toNat ≤ cache.cached.version.toNat
  unique : ∀ a b, cache.Known a → cache.Known b → a.version = b.version → a = b
  swapped : ∀ started, cache.lastSwap = some started → started ≤ cache.changes
  ceilings : cache.lastSwap = some cache.changes → ∀ root, cache.cached.ageCeilings.entries.get? root =
    cache.tables.loadLocalAgeCeilings.entries.get? root

variable {hashes : BloomHashes} {sizing : BloomSizing}

theorem Known.setStage {i : Nat} {call : RefreshCall} {stage : RefreshStage}
    (known : (cache.setStage i call stage).Known frontier) : cache.Known frontier ∨ stage = .returned frontier := by
  rcases known with isCached | isSent | ⟨other, isCall, returned⟩
  · exact .inl (.inl isCached)
  · exact .inl (.inr (.inl isSent))
  · rcases mem_setStage isCall with old | rfl
    · exact .inl (.inr (.inr ⟨other, old, returned⟩))
    · exact .inr returned

theorem Known.step {event : RefreshEvent}
    (known : (cache.step hashes sizing event).Known frontier) :
    cache.Known frontier ∨ frontier = (cache.step hashes sizing event).cached := by
  cases event with
  | change tables => exact .inl known
  | start =>
    rcases known with isCached | isSent | ⟨call, isCall, returned⟩
    · exact .inl (.inl isCached)
    · exact .inl (.inr (.inl isSent))
    · rcases mem_concat.mp isCall with old | new
      · exact .inl (.inr (.inr ⟨call, old, returned⟩))
      · rw [new] at returned
        cases returned
  | read i now fits =>
    rw [FrontierCache.step] at known
    split at known
    · exact .inl known
    · rename_i call found
      rcases known.setStage with before | returned
      · exact .inl before
      · exact .inl (.inr (.inr ⟨call, mem_of_getElem? found, RefreshStage.returned_of_read returned⟩))
  | fail i =>
    rw [FrontierCache.step] at known
    split at known
    · exact .inl known
    · rename_i call found
      rcases known.setStage with before | returned
      · exact .inl before
      · exact .inl (.inr (.inr ⟨call, mem_of_getElem? found, RefreshStage.returned_of_fail returned⟩))
  | swap i =>
    rw [FrontierCache.step] at known ⊢
    split at known
    · rename_i started reads found
      rcases known with isCached | isSent | returned
      · exact .inr isCached
      · exact .inl (.inr (.inl isSent))
      · rcases Known.setStage (.inr (.inr returned)) with before | same
        · exact .inl before
        · cases same
          exact .inr rfl
    · exact .inl known
  | announce i =>
    rw [FrontierCache.step] at known
    split at known
    · rename_i started returned found
      rcases known with isCached | isSent | isReturned
      · exact .inl (.inl isCached)
      · rcases mem_concat.mp isSent with old | new
        · exact .inl (.inr (.inl old))
        · rw [new]
          exact .inl (.inr (.inr ⟨_, mem_of_getElem? found, rfl⟩))
      · exact .inl (.inr (.inr isReturned))
    · exact .inl known
  | get since =>
    rw [FrontierCache.step] at known
    split at known
    · exact .inl known
    · rcases known with isCached | isSent | isReturned
      · exact .inl (.inl isCached)
      · rcases mem_concat.mp isSent with old | new
        · exact .inl (.inr (.inl old))
        · exact .inl (.inl new)
      · exact .inl (.inr (.inr isReturned))

theorem step_cached (cache : FrontierCache) (event : RefreshEvent) :
    ((cache.step hashes sizing event).cached = cache.cached ∧ (cache.step hashes sizing event).lastSwap = cache.lastSwap) ∨
    ∃ i started reads, event = .swap i ∧ cache.calls[i]? = some { started, stage := .computed reads } ∧
      (cache.step hashes sizing event).cached = cache.cached.refresh (computeLocalFrontier hashes sizing reads) ∧
      (cache.step hashes sizing event).lastSwap = some started := by
  cases event with
  | change | start => exact .inl ⟨rfl, rfl⟩
  | swap i =>
    rw [step]
    split
    · rename_i started reads found
      exact .inr ⟨i, started, reads, rfl, found, rfl, rfl⟩
    · exact .inl ⟨rfl, rfl⟩
  | read | fail | announce | get =>
    left
    rw [step]
    split <;> exact ⟨rfl, rfl⟩

theorem step_swap_tables (cache : FrontierCache) (i : Nat) :
    (cache.step hashes sizing (.swap i)).tables = cache.tables ∧
      (cache.step hashes sizing (.swap i)).changes = cache.changes := by
  rw [step]
  split <;> exact ⟨rfl, rfl⟩

theorem step_tables (cache : FrontierCache) (event : RefreshEvent) :
    (cache.step hashes sizing event).changes = cache.changes + 1 ∨
    (cache.step hashes sizing event).tables = cache.tables ∧ (cache.step hashes sizing event).changes = cache.changes := by
  cases event with
  | change => exact .inl rfl
  | start => exact .inr ⟨rfl, rfl⟩
  | swap i => exact .inr (step_swap_tables cache i)
  | read | fail | announce | get =>
    right
    rw [step]
    split <;> exact ⟨rfl, rfl⟩

theorem versioned_step (cache : FrontierCache) (event : RefreshEvent) (versioned : cache.Versioned)
    (noticed : cache.Noticed hashes sizing event) : (cache.step hashes sizing event).Versioned := by
  have moved : (cache.step hashes sizing event).cached = cache.cached ∨
      cache.cached.version.toNat < (cache.step hashes sizing event).cached.version.toNat := by
    rcases step_cached cache event with ⟨same, -⟩ | ⟨i, started, reads, rfl, found, isCached, -⟩
    · exact .inl same
    · rw [isCached]
      apply LocalFrontier.refresh_version
      intro changed
      have bound := noticed _ reads found rfl
      rwa [if_pos changed] at bound
  refine ⟨versioned.tracked.step event, ?_, ?_, ?_, ?_⟩
  · intro frontier known
    rcases known.step with before | rfl
    · have low := versioned.low frontier before
      rcases moved with same | later
      · rwa [same]
      · omega
    · exact le_rfl
  · intro a b isA isB version
    rcases moved with same | later
    · have old : ∀ frontier, (cache.step hashes sizing event).Known frontier → cache.Known frontier := by
        intro frontier known
        rcases known.step with before | rfl
        · exact before
        · exact .inl same
      exact versioned.unique a b (old a isA) (old b isB) version
    · rcases isA.step with beforeA | rfl <;> rcases isB.step with beforeB | rfl
      · exact versioned.unique a b beforeA beforeB version
      · have low := versioned.low a beforeA
        rw [version] at low
        omega
      · have low := versioned.low b beforeB
        rw [← version] at low
        omega
      · rfl
  · intro started isLast
    rcases step_cached cache event with ⟨-, same⟩ | ⟨i, before, reads, rfl, found, -, isNew⟩
    · have bound := versioned.swapped started (same ▸ isLast)
      rcases @step_tables hashes sizing cache event with more | ⟨-, equal⟩
      · omega
      · omega
    · rw [isNew] at isLast
      cases isLast
      rw [(step_swap_tables cache i).2]
      exact versioned.tracked.started _ (mem_of_getElem? found)
  · intro isLast
    rcases step_cached cache event with ⟨isCached, same⟩ | ⟨i, before, reads, rfl, found, isCached, isNew⟩
    · rw [same] at isLast
      rcases @step_tables hashes sizing cache event with more | ⟨tables, equal⟩
      · have bound := versioned.swapped _ isLast
        omega
      · rw [isCached, tables]
        exact versioned.ceilings (equal ▸ isLast)
    · rw [isNew] at isLast
      obtain ⟨sameTables, sameChanges⟩ := @step_swap_tables hashes sizing cache i
      rw [sameChanges] at isLast
      obtain ⟨-, -, ceilings⟩ := versioned.tracked.saw _ (mem_of_getElem? found) (some.inj isLast)
      rw [isCached, sameTables, ← ceilings]
      intro root
      have unnoticed := noticed _ reads found rfl
      rw [LocalFrontier.refresh]
      split
      · rfl
      · rename_i unchanged
        rw [if_neg unchanged] at unnoticed
        exact unnoticed (some.inj isLast) root

/-- A run that notices every change of the ceilings serves one frontier for each version, and its ceilings are those
of the tables after every call that saw them. -/
theorem matching_cursor_unchanged (hashes : BloomHashes) (sizing : BloomSizing) (tables : LocalTables) (now : UInt64)
    (fits : 0 ≤ asI64 now.toNat) (events : List RefreshEvent)
    (noticed : MeetAlong (step hashes sizing) (Noticed hashes sizing) (boot tables now fits) events)
    (reached : List RefreshEvent) (within : reached <+: events) :
    (reached.foldl (step hashes sizing) (boot tables now fits)).Faithful := by
  have start : (boot tables now fits).Versioned := by
    have only : ∀ frontier, (boot tables now fits).Known frontier → frontier = .empty now fits := by
      rintro frontier (isCached | isSent | ⟨call, isCall, -⟩)
      · exact isCached
      · exact absurd isSent not_mem_nil
      · exact absurd isCall not_mem_nil
    refine ⟨tracked_boot tables now fits, ?_, ?_, ?_, ?_⟩
    · intro frontier known
      rw [only frontier known]
      exact le_rfl
    · intro a b isA isB _
      rw [only a isA, only b isB]
    · intro started isLast
      cases isLast
    · intro isLast
      cases isLast
  have versioned := (noticed.of_shorter within).invariant versioned_step start
  constructor
  · intro a isA b isB version _
    rw [versioned.unique a b (.inr (.inl isA)) (.inr (.inl isB)) version]
    exact ⟨rfl, rfl, rfl⟩
  · intro isLast root
    rw [versioned.ceilings isLast root, LocalTables.get?_loadLocalAgeCeilings]

theorem noticed_swap {i started : Nat}
    (found : cache.calls[i]? = some { started, stage := .computed reads })
    (changed : cache.cached.changed (computeLocalFrontier hashes sizing reads) = true)
    (bound : cache.cached.version.toNat + 1 < 2 ^ 64) : cache.Noticed hashes sizing (.swap i) := by
  intro call other isCall stage
  rw [found] at isCall
  cases isCall
  cases stage
  rw [if_pos changed]
  exact bound

def cappedTables (key : Key) : LocalTables :=
  { rootTables key with
    localAgeCeilings := [(key, 1000)]
    keyed := by simp [Keyed] }

def refreshTwice (tables : LocalTables) : List RefreshEvent :=
  [.start] ++ readAll 0 ++ [.swap 0, .get none, .change tables, .start] ++ readAll 1 ++ [.swap 1, .get none]

theorem ceiling_of_new_root :
    MeetAlong (step plainHashes smallSizing) (Noticed plainHashes smallSizing) (boot (rootTables 5) 0 (by decide))
      (refreshTwice (cappedTables 6)) ∧
    ((refreshTwice (cappedTables 6)).foldl (step plainHashes smallSizing)
      (boot (rootTables 5) 0 (by decide))).Faithful := by
  have noticed : MeetAlong (step plainHashes smallSizing) (Noticed plainHashes smallSizing)
      (boot (rootTables 5) 0 (by decide)) (refreshTwice (cappedTables 6)) := by
    refine ⟨trivial, trivial, trivial, trivial, trivial, ?_, trivial, trivial, trivial, trivial, trivial, trivial, trivial,
      ?_, trivial, trivial⟩
    · exact noticed_swap rfl (by decide +kernel) (by decide +kernel)
    · exact noticed_swap rfl (by decide +kernel) (by decide +kernel)
  exact ⟨noticed, matching_cursor_unchanged plainHashes smallSizing (rootTables 5) 0 (by decide)
    (refreshTwice (cappedTables 6)) noticed _ (prefix_refl _)⟩

/-- Only the ceiling is new: the filters are the same, and what is cached stays. -/
theorem ceiling_of_old_root : ¬ ∀ (hashes : BloomHashes) (sizing : BloomSizing) (tables : LocalTables) (now : UInt64)
    (fits : 0 ≤ asI64 now.toNat) (events : List RefreshEvent),
    (events.foldl (step hashes sizing) (boot tables now fits)).Faithful := by
  intro all
  have ceilings := (all plainHashes smallSizing (rootTables 5) 0 (by decide) (refreshTwice (cappedTables 5))).ceilings
    (by decide +kernel) 5
  have hidden : ((refreshTwice (cappedTables 5)).foldl (step plainHashes smallSizing)
      (boot (rootTables 5) 0 (by decide))).cached.ageCeilings.entries.get? 5 = none := by
    decide +kernel
  have published : ((refreshTwice (cappedTables 5)).foldl (step plainHashes smallSizing)
      (boot (rootTables 5) 0 (by decide))).tables.localAgeCeilings.get? 5 = some 1000 := by
    decide +kernel
  rw [hidden, published] at ceilings
  cases ceilings

end FrontierCache

end Prismoire
