import Prismoire.InterestRouting

namespace Prismoire

open Lib List Option

/-- Double precision, as far as `coverage` uses it. -/
structure DoubleRounding where
  round : ℚ → ℚ
  monotone : Monotone round
  zero : round 0 = 0

section

variable (double : DoubleRounding) (hashes : BloomHashes)

def BloomFilter.coverage (filter : BloomFilter) (keys : List Key) : ℚ :=
  if keys.isEmpty then 1
  else
    let hits := keys.countP fun key => filter.contains hashes key
    double.round (double.round hits / double.round keys.length)

def highThreshold : ℚ := double.round (4 / 5)

def lowThreshold : ℚ := double.round (3 / 5)

/-- What `classify_mode` tells apart. -/
def BloomFilter.measured (filter : BloomFilter) (localUserKeys : List Key) : Coverage :=
  if localUserKeys.isEmpty then .noUsers
  else if highThreshold double ≤ filter.coverage double hashes localUserKeys then .high
  else if filter.coverage double hashes localUserKeys < lowThreshold double then .low
  else .between

/-- The filter that the columns stand for. -/
def FilterSpec.stored (spec : FilterSpec) : BloomFilter where
  k := spec.k
  m := spec.m
  nEst := spec.nEst
  bits := spec.bytes

namespace FrontierStore

variable (localUserKeys : List Key) (store : FrontierStore)

/-- A delta goes through its handler, which measures the filter with the mask in it. -/
def handleDelta (delta : FrontierDelta) : FrontierStore :=
  let coverage := match store.row with
    | none => .noUsers
    | some row => match orMask row.visible.bytes delta.visibleMask with
      | .error _ => .noUsers
      | .ok merged => ({ row.visible with bytes := merged } : FilterSpec).stored.measured double hashes localUserKeys
  (store.handle coverage (.delta delta)).1

def afterDeltas (deltas : List FrontierDelta) : FrontierStore :=
  deltas.foldl (handleDelta double hashes localUserKeys) store

/-- The row is in mode `all` although its filter covers too few of the local users by now. -/
def Faded : Prop :=
  ∃ row, store.row = some row ∧ row.outboundMode = .all ∧ row.visible.stored.measured double hashes localUserKeys = .low

end FrontierStore

end

section

variable {double : DoubleRounding} {hashes : BloomHashes} {filter other : BloomFilter} {keys : List Key}

theorem BloomFilter.Within.coverage_le (within : filter.Within other) :
    filter.coverage double hashes keys ≤ other.coverage double hashes keys := by
  unfold BloomFilter.coverage
  split
  · exact le_rfl
  · have hits : (keys.countP fun key => filter.contains hashes key) ≤ keys.countP fun key => other.contains hashes key :=
      countP_mono_left fun key _ old => within.contains old
    have positive : 0 ≤ double.round keys.length := by
      rw [← double.zero]
      exact double.monotone (Nat.cast_nonneg _)
    exact double.monotone (div_le_div_of_nonneg_right (double.monotone (Nat.cast_le.mpr hits)) positive)

theorem BloomFilter.Within.not_low (within : filter.Within other)
    (covered : filter.measured double hashes keys ≠ .low) : other.measured double hashes keys ≠ .low := by
  have more : filter.coverage double hashes keys ≤ other.coverage double hashes keys := within.coverage_le
  intro low
  unfold BloomFilter.measured at covered low
  split at low
  · cases low
  · rename_i some_
    rw [if_neg some_] at covered
    split at low
    · cases low
    · rename_i notHigh
      split at low
      · rename_i faded
        rw [if_neg fun high => notHigh (high.trans more), if_pos (more.trans_lt faded)] at covered
        exact covered rfl
      · cases low

/-- The same filter with more bits. -/
structure FilterSpec.Grows (spec spec' : FilterSpec) : Prop where
  same : spec' = { spec with bytes := spec'.bytes }
  length : spec'.bytes.length = spec.bytes.length
  bits : ∀ i mask, hasBit spec.bytes i mask = true → hasBit spec'.bytes i mask = true

variable {spec spec' : FilterSpec} {nEst : UInt64} {bytes : Bytes}

theorem FilterSpec.Grows.refl : spec.Grows spec :=
  ⟨rfl, rfl, fun _ _ old => old⟩

theorem FilterSpec.Grows.masked {mask : Option Bytes} {merged : Bytes} (isMerged : orMask spec.bytes mask = .ok merged) :
    spec.Grows { spec with bytes := merged } :=
  ⟨rfl, (orMask_keeps isMerged).1, (orMask_keeps isMerged).2⟩

theorem FilterSpec.Grows.trans {third : FilterSpec} (first : spec.Grows spec') (second : spec'.Grows third) :
    spec.Grows third where
  same := by rw [second.same, first.same]
  length := second.length.trans first.length
  bits i mask old := second.bits i mask (first.bits i mask old)

theorem FilterSpec.Grows.within (grows : spec.Grows spec') : spec.stored.Within spec'.stored where
  k := by rw [grows.same]; rfl
  m := by rw [grows.same]; rfl
  bits _ old := grows.bits _ _ old

theorem fromParts_bytes {k m : UInt32} {bytes more : Bytes} (same : more.length = bytes.length) :
    BloomFilter.fromParts k m nEst more =
      (BloomFilter.fromParts k m nEst bytes).map fun filter => { filter with bits := more } := by
  unfold BloomFilter.fromParts
  rw [same]
  split_ifs <;> rfl

theorem fromParts_bits {k m : UInt32}
    (built : BloomFilter.fromParts k m nEst bytes = .ok filter) : filter.bits = bytes := by
  unfold BloomFilter.fromParts at built
  split_ifs at built
  cases built
  rfl

theorem buildFilter_bytes {columns : FilterColumns} (same : bytes.length = columns.bytes.length)
    (built : buildFilter (some columns) = some filter) :
    filter.bits = columns.bytes ∧ buildFilter (some { columns with bytes }) = some { filter with bits := bytes } := by
  obtain ⟨kColumn, mColumn, nColumn, old⟩ := columns
  rw [buildFilter, bind_eq_bind, bind_some] at built ⊢
  obtain ⟨k, isK, built⟩ := bind_eq_some_iff.mp built
  obtain ⟨m, isM, built⟩ := bind_eq_some_iff.mp built
  obtain ⟨n, isN, built⟩ := bind_eq_some_iff.mp built
  dsimp only at isK isM isN same built ⊢
  simp only [isK, isM, isN, bind_eq_bind, bind_some, fromParts_bytes same]
  cases isFilter : BloomFilter.fromParts k m n old with
  | error error =>
    rw [isFilter] at built
    cases built
  | ok found =>
    rw [isFilter] at built
    cases built
    exact ⟨fromParts_bits isFilter, rfl⟩

theorem FilterSpec.Grows.buildFilter (grows : spec.Grows spec')
    (built : Prismoire.buildFilter (some spec.columns) = some filter) :
    ∃ wider, Prismoire.buildFilter (some spec'.columns) = some wider ∧ filter.Within wider := by
  obtain ⟨bits, wider⟩ := buildFilter_bytes grows.length built
  rw [grows.same]
  refine ⟨_, wider, rfl, rfl, fun p old => ?_⟩
  rw [bits] at old
  exact grows.bits _ _ old

end

section

variable {double : DoubleRounding} {hashes : BloomHashes} {localUserKeys : List Key} {store : FrontierStore}
  {cls : ForwardingClass}

/-- What deltas make of a row: its filters have more bits, and it stays in mode `all`. -/
structure FrontierRow.Widens (row row' : FrontierRow) : Prop where
  visible : row.visible.Grows row'.visible
  expansion : row.expansion.Grows row'.expansion
  mode : row.outboundMode = .all → row'.outboundMode = .all

theorem FrontierRow.Widens.routes {row row' : FrontierRow} (widens : row.Widens row')
    {key pubkey : Key} (routed : (routePeer hashes cls key pubkey (some row)).isSome) :
    (routePeer hashes cls key pubkey (some row')).isSome := by
  unfold routePeer at routed ⊢
  cases bypasses : cls.bypassesFilters with
  | true => rfl
  | false =>
    simp only [bypasses, Bool.false_eq_true, if_false, map_some, bind_eq_bind, getD_some] at routed ⊢
    obtain ⟨routing, routed⟩ := isSome_iff_exists.mp routed
    obtain ⟨visible, isVisible, routed⟩ := bind_eq_some_iff.mp routed
    obtain ⟨expansion, isExpansion, routed⟩ := bind_eq_some_iff.mp routed
    obtain ⟨visible', isVisible', within⟩ := widens.visible.buildFilter isVisible
    obtain ⟨expansion', isExpansion', within'⟩ := widens.expansion.buildFilter isExpansion
    rw [isVisible', isExpansion', bind_some, bind_some]
    cases mode' : row'.outboundMode with
    | all => rfl
    | filtered =>
      cases mode : row.outboundMode with
      | all => cases mode'.symm.trans (widens.mode mode)
      | filtered =>
        have admitted : cls.admits hashes visible expansion key = true := by
          by_contra refused
          simp [mode, refused] at routed
        have still : cls.admits hashes visible' expansion' key = true := by
          cases cls with
          | trustEdge => exact within'.contains admitted
          | authored | threadStatus => exact within.contains admitted
          | userStatus =>
            rw [ForwardingClass.admits, Bool.or_eq_true] at admitted ⊢
            exact admitted.imp within.contains within'.contains
          | move => cases bypasses
        simp [still]

theorem classifyMode_all {coverage : Coverage} (covered : coverage ≠ .low) : classifyMode .all coverage = .all := by
  cases coverage <;> first | rfl | exact absurd rfl covered

theorem FrontierStore.handleDelta_widens (unfaded : ¬ store.Faded double hashes localUserKeys) (delta : FrontierDelta) :
    ¬ (store.handleDelta double hashes localUserKeys delta).Faded double hashes localUserKeys ∧
      ∀ row, store.row = some row →
        ∃ row', (store.handleDelta double hashes localUserKeys delta).row = some row' ∧ row.Widens row' := by
  unfold handleDelta
  dsimp only
  generalize isCoverage : (match store.row with
    | none => Coverage.noUsers
    | some row => match orMask row.visible.bytes delta.visibleMask with
      | .error _ => .noUsers
      | .ok merged => ({ row.visible with bytes := merged } : FilterSpec).stored.measured double hashes localUserKeys) = coverage
  rcases handle_delta_row store coverage delta with same | ⟨write, isRead, masked, masked', isRow⟩
  · rw [same]
    refine ⟨fun faded => unfaded ?_, fun row found => ⟨row, found, .refl, .refl, id⟩⟩
    rwa [Faded, same] at faded
  · rw [isRead] at isCoverage
    dsimp only at isCoverage
    rw [masked] at isCoverage
    have grows := FilterSpec.Grows.masked masked
    have stays : write.read.outboundMode = .all → coverage ≠ .low := by
      intro isAll
      rw [← isCoverage]
      exact grows.within.not_low fun low => unfaded ⟨write.read, isRead, isAll, low⟩
    refine ⟨?_, fun row found => ?_⟩
    · rintro ⟨row, found, isAll, low⟩
      cases isRow.symm.trans found
      have isLow : coverage = .low := isCoverage.symm.trans low
      cases mode : write.read.outboundMode with
      | all => exact stays mode isLow
      | filtered =>
        have kept : write.reclassify coverage = .filtered := by
          unfold DeltaWrite.reclassify
          dsimp only
          rw [mode, isLow]
          split <;> rfl
        cases kept.symm.trans isAll
    · cases isRead.symm.trans found
      refine ⟨_, isRow, grows, .masked masked', fun isAll => ?_⟩
      show write.reclassify coverage = .all
      unfold DeltaWrite.reclassify
      dsimp only
      rw [isAll, classifyMode_all (stays isAll)]
      split <;> rfl

theorem FrontierRow.Widens.trans {row row' row'' : FrontierRow} (first : row.Widens row') (second : row'.Widens row'') :
    row.Widens row'' where
  visible := first.visible.trans second.visible
  expansion := first.expansion.trans second.expansion
  mode isAll := second.mode (first.mode isAll)

theorem FrontierStore.afterDeltas_widens (unfaded : ¬ store.Faded double hashes localUserKeys)
    (deltas : List FrontierDelta) :
    ¬ (store.afterDeltas double hashes localUserKeys deltas).Faded double hashes localUserKeys ∧
      ∀ row, store.row = some row →
        ∃ row', (store.afterDeltas double hashes localUserKeys deltas).row = some row' ∧ row.Widens row' := by
  induction deltas generalizing store with
  | nil => exact ⟨unfaded, fun row found => ⟨row, found, .refl, .refl, id⟩⟩
  | cons delta deltas ih =>
    obtain ⟨still, step⟩ := handleDelta_widens unfaded delta
    obtain ⟨last, later⟩ := ih still
    refine ⟨last, fun row found => ?_⟩
    obtain ⟨middle, inMiddle, first⟩ := step row found
    obtain ⟨row', found', second⟩ := later middle inMiddle
    exact ⟨row', found', first.trans second⟩

theorem mem_peersInterestedIn {key pubkey : Key} {peers : List RoutingPeer}
    {frontiers : Table Key FrontierRow} :
    (∃ routing ∈ peersInterestedIn hashes cls key peers frontiers, routing.instancePubkey = pubkey) ↔
      ⟨pubkey, true⟩ ∈ peers ∧ (routePeer hashes cls key pubkey (frontiers.get? pubkey)).isSome := by
  have named : ∀ {other : Key} {frontier routing}, routePeer hashes cls key other frontier = some routing →
      routing.instancePubkey = other := by
    intro other frontier routing routed
    unfold routePeer at routed
    dsimp only at routed
    split at routed
    · cases routed
      rfl
    · obtain ⟨_, -, routed⟩ := bind_eq_some_iff.mp routed
      obtain ⟨_, -, routed⟩ := bind_eq_some_iff.mp routed
      obtain ⟨-, same⟩ := ite_none_right_eq_some.mp routed
      cases same
      rfl
  constructor
  · rintro ⟨routing, mem, rfl⟩
    obtain ⟨⟨other, isActive⟩, inPeers, routed⟩ := mem_filterMap.mp mem
    obtain ⟨inPeers, active⟩ := mem_filter.mp inPeers
    cases named routed
    dsimp only at active routed
    subst active
    exact ⟨inPeers, isSome_iff_exists.mpr ⟨_, routed⟩⟩
  · rintro ⟨isPeer, routed⟩
    obtain ⟨routing, routed⟩ := isSome_iff_exists.mp routed
    exact ⟨routing, peersInterestedIn_of_route isPeer routed, named routed⟩

end

/-- Unless the row of a peer has faded, deltas take no interest away from the peer, and only ever turn its mode to `all`. -/
theorem deltas_only_widen (double : DoubleRounding) (hashes : BloomHashes) (localUserKeys : List Key)
    (store : FrontierStore) (unfaded : ¬ store.Faded double hashes localUserKeys) {row : FrontierRow}
    (found : store.row = some row) (before after : List FrontierDelta) :
    ∃ earlier later, (store.afterDeltas double hashes localUserKeys before).row = some earlier ∧
      (store.afterDeltas double hashes localUserKeys (before ++ after)).row = some later ∧
      (earlier.outboundMode = .all → later.outboundMode = .all) ∧
      ∀ peers frontiers frontiers' pubkey, Table.get? frontiers pubkey = some earlier →
        Table.get? frontiers' pubkey = some later → ∀ cls key,
          (∃ routing ∈ peersInterestedIn hashes cls key peers frontiers, routing.instancePubkey = pubkey) →
          ∃ routing ∈ peersInterestedIn hashes cls key peers frontiers', routing.instancePubkey = pubkey := by
  obtain ⟨still, first⟩ := FrontierStore.afterDeltas_widens unfaded before
  obtain ⟨earlier, isEarlier, -⟩ := first row found
  obtain ⟨later, isLater, widens⟩ := (FrontierStore.afterDeltas_widens still after).2 earlier isEarlier
  rw [FrontierStore.afterDeltas, FrontierStore.afterDeltas, ← foldl_append] at isLater
  refine ⟨earlier, later, isEarlier, isLater, widens.mode, fun peers frontiers frontiers' pubkey here there cls key => ?_⟩
  rw [mem_peersInterestedIn, mem_peersInterestedIn, here, there]
  exact And.imp_right widens.routes

def exactDouble : DoubleRounding :=
  ⟨id, monotone_id, rfl⟩

def uniformSpec (byte : UInt8) : FilterSpec :=
  ⟨bloomFamily, 1, 64, 1, List.replicate 8 byte⟩

/-- A peer in mode `all`, with filters of one byte. -/
def uniformStore (byte : UInt8) : FrontierStore where
  row := some ⟨1, 0, 0, uniformSpec byte, uniformSpec byte, [], .filtered, .all⟩

def zeroDelta : FrontierDelta :=
  ⟨1, 2, none, some (List.replicate 8 0), .filtered, {}⟩

def widerDelta : FrontierDelta :=
  ⟨1, 2, none, some (List.replicate 8 2), .filtered, {}⟩

/-- The local user is covered throughout, and the delta adds bits for others. -/
theorem wider_delta_keeps_all : ∃ later,
    ((uniformStore 128).afterDeltas exactDouble (fun _ => (0, 0)) [5] [widerDelta]).row = some later ∧
      later.outboundMode = .all ∧ later.expansion = uniformSpec 130 := by
  have unfaded : ¬ (uniformStore 128).Faded exactDouble (fun _ => (0, 0)) [5] := by
    rintro ⟨row, found, -, low⟩
    cases found
    revert low
    decide +kernel
  obtain ⟨earlier, later, isEarlier, isLater, mode, -⟩ :=
    deltas_only_widen exactDouble (fun _ => (0, 0)) [5] (uniformStore 128) unfaded rfl [] [widerDelta]
  cases isEarlier
  have widened : ((uniformStore 128).afterDeltas exactDouble (fun _ => (0, 0)) [5] [widerDelta]).row.map (·.expansion) =
      some (uniformSpec 130) := by decide +kernel
  rw [List.nil_append] at isLater
  rw [isLater] at widened
  exact ⟨later, isLater, mode rfl, some.inj widened⟩

/-- A local user has come whom the filter does not cover: a delta that adds nothing takes the peer out of mode `all`. -/
theorem zero_delta_demotes : ∃ row row', (uniformStore 0).row = some row ∧
    ((uniformStore 0).handleDelta exactDouble (fun _ => (0, 0)) [5] zeroDelta).row = some row' ∧
    row.outboundMode = .all ∧ row'.outboundMode = .filtered ∧
    (peersInterestedIn (fun _ => (0, 0)) .authored 9 [⟨1, true⟩] [(1, row)]).map (·.instancePubkey) = [1] ∧
    (peersInterestedIn (fun _ => (0, 0)) .authored 9 [⟨1, true⟩] [(1, row')]) = [] := by
  refine ⟨_, { (⟨1, 0, 0, uniformSpec 0, uniformSpec 0, [], .filtered, .all⟩ : FrontierRow) with
    appliedVersion := 2, cursor := encodeCursor 2 0, outboundMode := .filtered }, rfl, ?_, ?_⟩ <;> decide +kernel

end Prismoire
