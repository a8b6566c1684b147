import Prismoire.Bloom
import Prismoire.FrontierRebuild

namespace Prismoire

open Lib List Db

/-- The sizes of a filter for a number of keys. The source computes them with floats, for the target rate
of its own filters, and then clamps them into the range of the format. -/
structure BloomSizing where
  recommendM : UInt64 → UInt32
  recommendK : UInt32 → UInt64 → UInt32
  low : ∀ n, minMBits ≤ recommendM n
  whole : ∀ n, recommendM n % 64 = 0
  clamped : ∀ m n, minK ≤ recommendK m n ∧ recommendK m n ≤ maxK

/-- The filter that `build_bloom_from_keys` starts with. -/
def BloomSizing.emptyFor (sizing : BloomSizing) (n : UInt64) : BloomFilter where
  k := sizing.recommendK (sizing.recommendM n) n
  m := sizing.recommendM n
  nEst := n
  bits := List.replicate (sizing.recommendM n / 8).toNat 0

theorem BloomSizing.newEmpty (sizing : BloomSizing) (n : UInt64) :
    BloomFilter.newEmpty (sizing.recommendK (sizing.recommendM n) n) (sizing.recommendM n) n =
      .ok (sizing.emptyFor n) := by
  rw [BloomFilter.newEmpty, if_neg (not_not.mpr (sizing.clamped _ n)),
    if_neg (m_in_range (sizing.low n) (sizing.whole n))]
  rfl

/-- The keys of one slice of the frontier, each of them once. A table has fewer rows than its row ids can number. -/
structure FrontierSlice where
  keys : List Key
  once : keys.Nodup
  few : keys.length < 2 ^ 63

def buildBloomFromKeys (hashes : BloomHashes) (sizing : BloomSizing) (slice : FrontierSlice) : BloomFilter :=
  slice.keys.foldl (BloomFilter.insert hashes) (sizing.emptyFor (UInt64.ofNat slice.keys.length))

section Build

variable {hashes : BloomHashes} {sizing : BloomSizing}

theorem nEst_inserts (keys : List Key) (filter : BloomFilter) :
    (keys.foldl (BloomFilter.insert hashes) filter).nEst = filter.nEst := by
  rw [BloomFilter.inserts_eq]

theorem buildBloomFromKeys_checked (slice : FrontierSlice) :
    (FilterSpec.fromBloom (buildBloomFromKeys hashes sizing slice)).checked = true := by
  have formed := @BloomFilter.formed_inserts hashes _
    (BloomFilter.newEmpty_formed (sizing.newEmpty (UInt64.ofNat slice.keys.length))) slice.keys
  have count : (buildBloomFromKeys hashes sizing slice).nEst.toNat = slice.keys.length := by
    have few := slice.few
    rw [buildBloomFromKeys, nEst_inserts, BloomSizing.emptyFor, UInt64.toNat_ofNat']
    omega
  have signed : 0 ≤ asI64 (buildBloomFromKeys hashes sizing slice).nEst.toNat := by
    apply asI64_nonneg.mpr
    rw [count]
    exact slice.few
  simp only [FilterSpec.checked, FilterSpec.fromBloom, Bool.and_eq_true, beq_iff_eq]
  exact ⟨⟨⟨⟨⟨decide_eq_true formed.k.1, decide_eq_true formed.k.2⟩, decide_eq_true formed.m⟩, formed.whole⟩,
    decide_eq_true signed⟩, formed.length⟩

theorem buildBloomFromKeys_congr {slice other : FrontierSlice} (same : ∀ key, key ∈ slice.keys ↔ key ∈ other.keys) :
    buildBloomFromKeys hashes sizing slice = buildBloomFromKeys hashes sizing other := by
  have perm : slice.keys.Perm other.keys := (perm_ext_iff_of_nodup slice.once other.once).mpr same
  rw [buildBloomFromKeys, perm.length_eq]
  exact BloomFilter.inserts_perm perm _

end Build

/-- What one query for keys returns. -/
structure KeyRows where
  keys : List Key
  few : keys.length < 2 ^ 62

def FrontierSlice.union (roots stubs : KeyRows) : FrontierSlice where
  keys := (roots.keys ++ stubs.keys).dedup
  once := nodup_dedup _
  few := by
    have shorter := (dedup_sublist (roots.keys ++ stubs.keys)).length_le
    rw [length_append] at shorter
    have := roots.few
    have := stubs.few
    omega

/-- The tables that `compute_local_frontier` reads; `active` is the status column of `users`. -/
structure LocalTables where
  db : Db
  active : Key → Bool := fun _ => true
  localAgeCeilings : Table Key Int := []
  keyed : localAgeCeilings.Keyed := by decide
  fewUsers : db.users.length < 2 ^ 62 := by decide
  fewStubs : db.frontierUsers.length < 2 ^ 62 := by decide

namespace LocalTables

variable (tables : LocalTables)

def rootRows : KeyRows where
  keys := tables.db.rootKeys tables.active
  few := by
    rw [rootKeys, length_map]
    exact Nat.lt_of_le_of_lt (length_filter_le _ _) tables.fewUsers

def visibleStubs (generation : Nat) : KeyRows where
  keys := (tables.db.loadFrontierStubKeys generation).visible
  few := by
    rw [loadFrontierStubKeys, length_map]
    exact Nat.lt_of_le_of_lt (length_filter_le _ _) tables.fewStubs

def expansionStubs (generation : Nat) : KeyRows where
  keys := (tables.db.loadFrontierStubKeys generation).expansion
  few := by
    rw [loadFrontierStubKeys, length_map]
    exact Nat.lt_of_le_of_lt ((length_filter_le _ _).trans (length_filter_le _ _)) tables.fewStubs

/-- A cutoff below zero is skipped. -/
def loadCutoff (row : Key × Int) : Option (Key × UInt64) :=
  if 0 ≤ row.2 then some (row.1, asU64 row.2) else none

def loadLocalAgeCeilings : AgeCeilings where
  entries := tables.localAgeCeilings.filterMap loadCutoff
  keyed := by
    have keys : ∀ rows : Table Key Int, ((rows.filterMap loadCutoff).map Prod.fst).Sublist (rows.map Prod.fst) := by
      intro rows
      induction rows with
      | nil => exact List.Sublist.refl _
      | cons row rows ih =>
        rw [filterMap_cons, loadCutoff]
        by_cases signed : 0 ≤ row.2
        · simpa [signed] using ih
        · simpa [signed] using ih.cons row.1
    exact List.Nodup.sublist (keys _) tables.keyed

/-- The slices as they are computed when nothing changes in between. -/
def visibleSlice : FrontierSlice :=
  .union tables.rootRows (tables.visibleStubs tables.db.currentGeneration)

def expansionSlice : FrontierSlice :=
  .union tables.rootRows (tables.expansionStubs tables.db.currentGeneration)

end LocalTables

/-- All that `compute_local_frontier` has read, and the clock when it had. -/
structure LocalReads where
  visible : FrontierSlice
  expansion : FrontierSlice
  ageCeilings : AgeCeilings
  now : UInt64
  fits : 0 ≤ asI64 now.toNat

def computeLocalFrontier (hashes : BloomHashes) (sizing : BloomSizing) (reads : LocalReads) : LocalFrontier where
  version := 0
  epochStart := reads.now
  visibleFilter := buildBloomFromKeys hashes sizing reads.visible
  expansionFilter := buildBloomFromKeys hashes sizing reads.expansion
  ageCeilings := reads.ageCeilings
  epochFits := reads.fits
  visibleFits := buildBloomFromKeys_checked reads.visible
  expansionFits := buildBloomFromKeys_checked reads.expansion

/-- A call of `refresh_local_frontier_detailed` between two of its statements, with what it has so far. -/
inductive RefreshStage
  | started
  | rooted (roots : KeyRows)
  | numbered (roots : KeyRows) (generation : Nat)
  | stubbed (visible expansion : FrontierSlice)
  | computed (reads : LocalReads)
  | returned (frontier : LocalFrontier)
  | failed

namespace RefreshStage

/-- The next of the four queries. -/
def read (tables : LocalTables) (now : UInt64) (fits : 0 ≤ asI64 now.toNat) : RefreshStage → RefreshStage
  | started => rooted tables.rootRows
  | rooted roots => numbered roots tables.db.currentGeneration
  | numbered roots generation =>
    stubbed (.union roots (tables.visibleStubs generation)) (.union roots (tables.expansionStubs generation))
  | stubbed visible expansion =>
    computed { visible, expansion, ageCeilings := tables.loadLocalAgeCeilings, now, fits }
  | stage => stage

def fail : RefreshStage → RefreshStage
  | computed reads => computed reads
  | returned frontier => returned frontier
  | _ => failed

def ended : RefreshStage → Bool
  | returned _ | failed => true
  | _ => false

def swapped : RefreshStage → Bool
  | returned _ => true
  | _ => false

end RefreshStage

/-- A call, and how often the tables had changed before it. -/
structure RefreshCall where
  started : Nat
  stage : RefreshStage

/-- The tables, the frontier that is cached, every call so far, before which change the last one to swap had
started, and every frontier that was served or announced. -/
structure FrontierCache where
  tables : LocalTables
  changes : Nat := 0
  cached : LocalFrontier
  calls : List RefreshCall := []
  lastSwap : Option Nat := none
  sent : List LocalFrontier := []

/-- `read`, `fail` and `swap` are the next step of a call, `announce` sends what it returned. The cursor of a `get`
is decoded, and there if it was not empty. -/
inductive RefreshEvent
  | change (tables : LocalTables)
  | start
  | read (call : Nat) (now : UInt64) (fits : 0 ≤ asI64 now.toNat)
  | fail (call : Nat)
  | swap (call : Nat)
  | announce (call : Nat)
  | get (since : Option Bytes)

def LocalFrontier.cursor (frontier : LocalFrontier) : Bytes :=
  encodeCursor frontier.version frontier.epochStart

namespace FrontierCache

/-- What the process starts with. -/
def boot (tables : LocalTables) (now : UInt64) (fits : 0 ≤ asI64 now.toNat) : FrontierCache where
  tables := tables
  cached := .empty now fits

def setStage (cache : FrontierCache) (i : Nat) (call : RefreshCall) (stage : RefreshStage) : FrontierCache :=
  { cache with calls := cache.calls.set i { call with stage := stage } }

def step (hashes : BloomHashes) (sizing : BloomSizing) (cache : FrontierCache) : RefreshEvent → FrontierCache
  | .change tables => { cache with
      tables := tables
      changes := cache.changes + 1 }
  | .start => { cache with calls := cache.calls ++ [{ started := cache.changes, stage := .started }] }
  | .read i now fits =>
    match cache.calls[i]? with
    | none => cache
    | some call => cache.setStage i call (call.stage.read cache.tables now fits)
  | .fail i =>
    match cache.calls[i]? with
    | none => cache
    | some call => cache.setStage i call call.stage.fail
  | .swap i =>
    match cache.calls[i]? with
    | some { started, stage := .computed reads } =>
      let frontier := cache.cached.refresh (computeLocalFrontier hashes sizing reads)
      { cache.setStage i { started, stage := .computed reads } (.returned frontier) with
        cached := frontier
        lastSwap := some started }
    | _ => cache
  | .announce i =>
    match cache.calls[i]? with
    | some { stage := .returned frontier, .. } => { cache with sent := cache.sent ++ [frontier] }
    | _ => cache
  | .get since =>
    if since = some cache.cached.cursor then cache
    else { cache with sent := cache.sent ++ [cache.cached] }

end FrontierCache

end Prismoire
