import Prismoire.Bloom
import Prismoire.FrontierCodec
import Prismoire.FrontierRetry

namespace Prismoire

open Lib List Option FrontierStore

/-- The columns of one filter of `peer_frontiers`. -/
structure FilterColumns where
  k : Int
  m : Int
  nEst : Int
  bytes : Bytes

def FilterSpec.columns (spec : FilterSpec) : FilterColumns where
  k := spec.k.toNat
  m := spec.m.toNat
  nEst := asI64 spec.nEst.toNat
  bytes := spec.bytes

def tryU32 (x : Int) : Option UInt32 :=
  if 0 ≤ x ∧ x < 2 ^ 32 then some (UInt32.ofNat x.toNat) else none

def tryU64 (x : Int) : Option UInt64 :=
  if 0 ≤ x then some (asU64 x) else none

theorem tryU32_toNat (x : UInt32) : tryU32 x.toNat = some x := by
  have bound : x.toNat < 2 ^ 32 := x.toNat_lt
  rw [tryU32, if_pos (by omega)]
  simp

theorem tryU64_asI64 {x : UInt64} (signed : 0 ≤ asI64 x.toNat) : tryU64 (asI64 x.toNat) = some x := by
  have small := asI64_nonneg.mp signed
  have same : asI64 x.toNat = x.toNat := by
    rw [asI64] at signed ⊢
    split at signed <;> split <;> omega
  rw [tryU64, if_pos signed, same]
  congr 1
  apply UInt64.toNat_inj.mp
  rw [toNat_asU64 (by omega) (by omega)]
  rfl

/-- The columns are all `NULL` for a peer without a row. -/
def buildFilter (columns : Option FilterColumns) : Option BloomFilter := do
  let columns ← columns
  let k ← tryU32 columns.k
  let m ← tryU32 columns.m
  let nEst ← tryU64 columns.nEst
  match BloomFilter.fromParts k m nEst columns.bytes with
  | .ok filter => some filter
  | .error _ => none

inductive ForwardingClass
  | trustEdge
  | authored
  | userStatus
  | threadStatus
  | move
  deriving DecidableEq

namespace ForwardingClass

def bypassesFilters : ForwardingClass → Bool
  | move => true
  | _ => false

/-- A move never comes here: its caller asks `bypassesFilters` first. -/
def admits (hashes : BloomHashes) (visible expansion : BloomFilter) (key : Key) : ForwardingClass → Bool
  | trustEdge => expansion.contains hashes key
  | authored | threadStatus => visible.contains hashes key
  | userStatus => visible.contains hashes key || expansion.contains hashes key
  | move => false

/-- The classes for which `admits` asks the one filter, and the other. -/
def consultsVisible : ForwardingClass → Bool
  | authored | threadStatus | userStatus => true
  | trustEdge | move => false

def consultsExpansion : ForwardingClass → Bool
  | trustEdge | userStatus => true
  | authored | threadStatus | move => false

end ForwardingClass

structure RoutingPeer where
  instancePubkey : Key
  active : Bool

structure PeerRouting where
  instancePubkey : Key
  mode : Mode

section Routing

variable (hashes : BloomHashes) (cls : ForwardingClass) (key : Key)

/-- The body of the loop of `peers_interested_in`. -/
def routePeer (instancePubkey : Key) (frontier : Option FrontierRow) : Option PeerRouting := do
  let outboundMode := (frontier.map FrontierRow.outboundMode).getD .filtered
  if cls.bypassesFilters then return { instancePubkey, mode := outboundMode }
  let visible ← buildFilter (frontier.map (·.visible.columns))
  let expansion ← buildFilter (frontier.map (·.expansion.columns))
  let admitted := match outboundMode with
    | .all => true
    | .filtered => cls.admits hashes visible expansion key
  if admitted then return { instancePubkey, mode := outboundMode } else none

def peersInterestedIn (peers : List RoutingPeer) (frontiers : Table Key FrontierRow) : List PeerRouting :=
  (peers.filter (·.active)).filterMap fun peer =>
    routePeer hashes cls key peer.instancePubkey (frontiers.get? peer.instancePubkey)

end Routing

def FrontierStore.handleDeltas (store : FrontierStore) (deltas : List (FrontierDelta × Coverage)) : FrontierStore :=
  deltas.foldl (fun store delta => (store.handle delta.2 (.delta delta.1)).1) store

/-- A stored filter: the parameters of the one that was sent, and at least its bits. -/
structure FilterSpec.Carries (spec : FilterSpec) (filter : BloomFilter) : Prop where
  k : spec.k = filter.k
  m : spec.m = filter.m
  signed : 0 ≤ asI64 spec.nEst.toNat
  length : spec.bytes.length = filter.m.toNat / 8
  bits : ∀ i mask, hasBit filter.bits i mask = true → hasBit spec.bytes i mask = true

section Carries

variable {spec : FilterSpec} {filter : BloomFilter} {mask : Option Bytes}

theorem orMask_keeps {bytes merged : Bytes} (isMerged : orMask bytes mask = .ok merged) :
    merged.length = bytes.length ∧ ∀ i mask, hasBit bytes i mask = true → hasBit merged i mask = true := by
  cases mask with
  | none =>
    cases isMerged
    exact ⟨rfl, fun _ _ old => old⟩
  | some mask =>
    rw [orMask] at isMerged
    split at isMerged
    · cases isMerged
    · rename_i same
      cases isMerged
      rw [ne_eq, not_not] at same
      exact ⟨by simp [same], fun i mask old => hasBit_zipWith old same⟩

theorem FilterSpec.Carries.masked (carries : spec.Carries filter) {merged : Bytes}
    (isMerged : orMask spec.bytes mask = .ok merged) : ({ spec with bytes := merged } : FilterSpec).Carries filter := by
  obtain ⟨length, kept⟩ := orMask_keeps isMerged
  exact ⟨carries.k, carries.m, carries.signed, length.trans carries.length, fun i mask old => kept i mask (carries.bits i mask old)⟩

theorem BloomFilter.Formed.fromParts (formed : filter.Formed) {nEst : UInt64} {bytes : Bytes}
    (length : bytes.length = filter.m.toNat / 8) :
    BloomFilter.fromParts filter.k filter.m nEst bytes = .ok { k := filter.k, m := filter.m, nEst, bits := bytes } := by
  rw [BloomFilter.fromParts, if_neg (not_not.mpr formed.k), if_neg (m_in_range formed.m formed.whole),
    if_neg (not_not.mpr length)]

theorem FilterSpec.Carries.buildFilter (carries : spec.Carries filter) (formed : filter.Formed) :
    ∃ stored, Prismoire.buildFilter (some spec.columns) = some stored ∧ stored.Formed ∧ filter.Within stored := by
  have isK : tryU32 spec.columns.k = some filter.k := carries.k ▸ tryU32_toNat spec.k
  have isM : tryU32 spec.columns.m = some filter.m := carries.m ▸ tryU32_toNat spec.m
  have isN : tryU64 spec.columns.nEst = some spec.nEst := tryU64_asI64 carries.signed
  refine ⟨{ k := filter.k, m := filter.m, nEst := spec.nEst, bits := spec.bytes }, ?_, ?_, ?_⟩
  · rw [Prismoire.buildFilter, bind_eq_bind, bind_some, isK, bind_eq_bind, bind_some, isM,
      bind_eq_bind, bind_some, isN, bind_some,
      show spec.columns.bytes = spec.bytes from rfl, formed.fromParts carries.length]
  · exact ⟨formed.k, formed.m, formed.whole, carries.length⟩
  · exact ⟨rfl, rfl, fun p old => carries.bits _ _ old⟩

end Carries

variable {expansion visible : BloomFilter} {row : FrontierRow}

section Store

variable {store : FrontierStore}

/-- Every row in the table has passed its `CHECK`s. -/
def FrontierStore.Checked (store : FrontierStore) : Prop :=
  ∀ row, store.row = some row → row.checked = true

theorem FrontierStore.Checked.advance (checked : store.Checked) (coverage : Coverage) (stage : ApplyStage) :
    (store.advance coverage stage).1.Checked := by
  have spec := advance_spec store coverage stage
  generalize (store.advance coverage stage).1 = after at spec ⊢
  generalize (store.advance coverage stage).2 = next at spec
  cases spec with
  | quiet | ceilings | missing => exact checked
  | snapshot passed =>
    intro row isRow
    cases isRow
    exact passed
  | delta found passed =>
    intro row isRow
    cases isRow
    exact passed

theorem FrontierStore.Checked.handle (checked : store.Checked) (coverage : Coverage) (request : FrontierRequest) :
    (store.handle coverage request).1.Checked :=
  ((checked.advance coverage _).advance coverage _).advance coverage _

theorem row_merging (store : FrontierStore) (coverage : Coverage) (delta : FrontierDelta) (cursor : Bytes) :
    (store.advance coverage (.merging delta cursor)).1.row = store.row := by
  rw [advance, mergePeerAgeCeilings, writeCeilings]
  split
  · rfl
  · rename_i isSome
    split at isSome
    · cases isSome
    · cases isSome
      rfl

theorem handle_delta_row (store : FrontierStore) (coverage : Coverage) (delta : FrontierDelta) :
    (store.handle coverage (.delta delta)).1.row = store.row ∨ ∃ write : DeltaWrite, store.row = some write.read ∧
        orMask write.read.visible.bytes delta.visibleMask = .ok write.visible ∧
        orMask write.read.expansion.bytes delta.expansionMask = .ok write.expansion ∧
        (store.handle coverage (.delta delta)).1.row =
          some (write.read.updated write (write.reclassify coverage)) := by
  have opened := @opened_readForDelta store delta
  rw [handle, show store.advance coverage (FrontierRequest.delta delta).start =
    (store, readForDelta delta store.row) from rfl]
  generalize readForDelta delta store.row = stage at opened
  cases opened with
  | answered answer => exact .inl rfl
  | snapshot asks => cases asks
  | @delta write isDelta read =>
    cases isDelta
    dsimp only
    rw [show store.advance coverage (.updating write) = store.update write (write.reclassify coverage) from rfl]
    by_cases checked : (write.read.updated write (write.reclassify coverage)).checked = true
    · right
      refine ⟨write, read.found, read.visible, read.expansion, ?_⟩
      simp only [FrontierStore.update, read.found, checked, not_true_eq_false, if_false]
      split
      · rfl
      · exact row_merging _ _ _ _
    · left
      simp only [FrontierStore.update, read.found, checked]
      exact read.found

def FrontierRow.Carries (row : FrontierRow) (visible expansion : BloomFilter) : Prop :=
  row.visible.Carries visible ∧ row.expansion.Carries expansion

theorem handleDeltas_carries (found : store.row = some row) (carries : row.Carries visible expansion)
    (deltas : List (FrontierDelta × Coverage)) :
    ∃ row, (store.handleDeltas deltas).row = some row ∧ row.Carries visible expansion := by
  induction deltas generalizing store row with
  | nil => exact ⟨row, found, carries⟩
  | cons delta deltas ih =>
    rcases handle_delta_row store delta.2 delta.1 with same | ⟨write, isRead, masked, masked', isRow⟩
    · exact ih (same.trans found) carries
    · rw [found] at isRead
      cases isRead
      exact ih isRow ⟨carries.1.masked masked, carries.2.masked masked'⟩

end Store

/-- A filter that a sender built from its keys, with parameters that `new_empty` takes. -/
structure SentFilter where
  keys : List Key
  k : UInt32
  m : UInt32
  nEst : UInt64
  empty : BloomFilter
  accepted : BloomFilter.newEmpty k m nEst = .ok empty

namespace SentFilter

variable (hashes : BloomHashes) (sent : SentFilter)

def filter : BloomFilter :=
  sent.keys.foldl (BloomFilter.insert hashes) sent.empty

theorem formed : (sent.filter hashes).Formed :=
  BloomFilter.formed_inserts (BloomFilter.newEmpty_formed sent.accepted) sent.keys

theorem contains {key : Key} (mem : key ∈ sent.keys) : (sent.filter hashes).contains hashes key = true :=
  (BloomFilter.newEmpty_formed sent.accepted).contains_inserts mem

theorem intoBloom : (FilterSpec.fromBloom (sent.filter hashes)).intoBloom = .ok (sent.filter hashes) := by
  have formed := sent.formed hashes
  rw [FilterSpec.intoBloom, FilterSpec.fromBloom, if_neg (not_not.mpr rfl), if_neg (not_not.mpr formed.k),
    if_neg (m_in_range formed.m formed.whole), if_neg (not_not.mpr formed.length), formed.fromParts formed.length]

end SentFilter

section Interest

variable {hashes : BloomHashes} {cls : ForwardingClass} {key : Key}

theorem routePeer_of_admits (isVisible : buildFilter (some row.visible.columns) = some visible)
    (isExpansion : buildFilter (some row.expansion.columns) = some expansion)
    (admitted : cls.admits hashes visible expansion key = true) (instancePubkey : Key) :
    routePeer hashes cls key instancePubkey (some row) = some { instancePubkey, mode := row.outboundMode } := by
  rw [routePeer]
  split
  · rfl
  · simp only [map_some, isVisible, isExpansion, bind_eq_bind, bind_some, getD_some]
    cases row.outboundMode with
    | all => rfl
    | filtered => simp [admitted]

theorem peersInterestedIn_of_route {peers : List RoutingPeer} {frontiers : Table Key FrontierRow} {pubkey : Key}
    (isPeer : ⟨pubkey, true⟩ ∈ peers) {routing : PeerRouting}
    (routed : routePeer hashes cls key pubkey (frontiers.get? pubkey) = some routing) :
    routing ∈ peersInterestedIn hashes cls key peers frontiers :=
  mem_filterMap.mpr ⟨⟨pubkey, true⟩, mem_filter.mpr ⟨isPeer, rfl⟩, routed⟩

theorem admits_of_contains (consulted : cls.consultsVisible = true ∧ visible.contains hashes key = true ∨
      cls.consultsExpansion = true ∧ expansion.contains hashes key = true) :
    cls.admits hashes visible expansion key = true := by
  cases cls with
  | trustEdge | authored | userStatus | threadStatus =>
    simpa [ForwardingClass.consultsVisible, ForwardingClass.consultsExpansion, ForwardingClass.admits] using consulted
  | move => simp [ForwardingClass.consultsVisible, ForwardingClass.consultsExpansion] at consulted

end Interest

/-- From the keys of a sender to the peers that an object goes to, no key is lost. -/
theorem interest_has_no_false_negatives (hashes : BloomHashes) (cbor : Ciborium) (visible expansion : SentFilter)
    (announce : FrontierAnnounce) (rates : FprTargets)
    (isVisible : announce.visibleFilter = FilterSpec.fromBloom (visible.filter hashes))
    (isExpansion : announce.expansionFilter = FilterSpec.fromBloom (expansion.filter hashes))
    (readsBack : cbor.fromReader (cbor.intoWriter (announce.toCborValue rates)) = some (announce.toCborValue rates))
    (store : FrontierStore) (checked : store.Checked) (coverage : Coverage) :
    ∃ inbound, FrontierAnnounce.decode cbor (announce.encode cbor rates) = some inbound ∧
      inbound.visibleFilter.intoBloom = .ok (visible.filter hashes) ∧
      inbound.expansionFilter.intoBloom = .ok (expansion.filter hashes) ∧
      ∀ mode, (store.handle coverage (.announce inbound)).1.row = some (inbound.row mode) → ∀ deltas,
        ∃ row stored stored', ((store.handle coverage (.announce inbound)).1.handleDeltas deltas).row = some row ∧
          buildFilter (some row.visible.columns) = some stored ∧
          buildFilter (some row.expansion.columns) = some stored' ∧
          (∀ filter ∈ [visible.filter hashes, expansion.filter hashes, stored, stored'], ∀ key,
            ∀ p ∈ BloomFilter.bitPositions hashes filter.k filter.m key, (byteAndMask p).1 < filter.bits.length) ∧
          (∀ key ∈ visible.keys, stored.contains hashes key = true) ∧
          (∀ key ∈ expansion.keys, stored'.contains hashes key = true) ∧
          ∀ peers frontiers pubkey, ⟨pubkey, true⟩ ∈ peers → Table.get? frontiers pubkey = some row →
            ∀ cls key, (ForwardingClass.consultsVisible cls = true ∧ key ∈ visible.keys ∨
                ForwardingClass.consultsExpansion cls = true ∧ key ∈ expansion.keys) →
              ∃ routing ∈ peersInterestedIn hashes cls key peers frontiers, routing.instancePubkey = pubkey := by
  refine ⟨announce, announce.decode_encode rates readsBack, ?_, ?_, ?_⟩
  · rw [isVisible]
    exact visible.intoBloom hashes
  · rw [isExpansion]
    exact expansion.intoBloom hashes
  intro mode isRow deltas
  have passed := checked.handle coverage (.announce announce) _ isRow
  simp only [FrontierRow.checked, Bool.and_eq_true] at passed
  have carriesOf : ∀ (sent : SentFilter) (spec : FilterSpec), spec = FilterSpec.fromBloom (sent.filter hashes) →
      spec.checked = true → spec.Carries (sent.filter hashes) := by
    rintro sent spec rfl passed
    simp only [FilterSpec.checked, Bool.and_eq_true] at passed
    exact ⟨rfl, rfl, of_decide_eq_true passed.1.2, (sent.formed hashes).length, fun _ _ old => old⟩
  have carries : (announce.row mode).Carries (visible.filter hashes) (expansion.filter hashes) :=
    ⟨carriesOf visible _ isVisible passed.1.2, carriesOf expansion _ isExpansion passed.2⟩
  obtain ⟨row, found, carriesV, carriesE⟩ := handleDeltas_carries isRow carries deltas
  obtain ⟨stored, isStored, formed, within⟩ := carriesV.buildFilter (visible.formed hashes)
  obtain ⟨stored', isStored', formed', within'⟩ := carriesE.buildFilter (expansion.formed hashes)
  have inStored : ∀ key ∈ visible.keys, stored.contains hashes key = true :=
    fun key mem => within.contains (visible.contains hashes mem)
  have inStored' : ∀ key ∈ expansion.keys, stored'.contains hashes key = true :=
    fun key mem => within'.contains (expansion.contains hashes mem)
  refine ⟨row, stored, stored', found, isStored, isStored', ?_, inStored, inStored', ?_⟩
  · intro filter isFilter key p position
    have all : filter.Formed := by
      simp only [mem_cons, not_mem_nil, or_false] at isFilter
      rcases isFilter with rfl | rfl | rfl | rfl
      · exact visible.formed hashes
      · exact expansion.formed hashes
      · exact formed
      · exact formed'
    exact all.inside position
  · intro peers frontiers pubkey isPeer isFrontier cls key consulted
    have admitted : cls.admits hashes stored stored' key = true :=
      admits_of_contains (consulted.imp (And.imp_right (inStored key)) (And.imp_right (inStored' key)))
    have routed := routePeer_of_admits isStored isStored' admitted pubkey
    rw [← isFrontier] at routed
    exact ⟨_, peersInterestedIn_of_route isPeer routed, rfl⟩

/-- The digests of the key `5` wrap around when they are combined. -/
def wrappingHashes : BloomHashes :=
  fun key => (UInt64.ofNat key.toNat - 10, 7)

def fiveFilter : SentFilter where
  keys := [5]
  k := 3
  m := 64
  nEst := 1
  empty := { k := 3, m := 64, nEst := 1, bits := List.replicate 8 0 }
  accepted := rfl

def fiveAnnounce : FrontierAnnounce where
  version := 1
  epochStart := 9
  activeHorizonDays := 0
  visibleFilter := FilterSpec.fromBloom (fiveFilter.filter wrappingHashes)
  expansionFilter := FilterSpec.fromBloom (fiveFilter.filter wrappingHashes)
  mode := .filtered
  ageCeilings := {}

/-- The single-precision 0.01 as a double. -/
def onePercent : UInt64 := 0x3F847AE140000000

/-- A double that is a single is written as one; of those, only `onePercent` is needed here. -/
def writeRated : Nat → Cbor.Value → Bytes
  | depth + 1, .map entries =>
    Cbor.head 5 entries.length ++ entries.flatMap fun entry => writeRated depth entry.1 ++ writeRated depth entry.2
  | _ + 1, .float bits => if bits = onePercent then [0xFA, 0x3C, 0x23, 0xD7, 0x0A] else 0xFB :: toBeBytes bits
  | depth, value => Cbor.encode depth value

def ratedCbor (value : Cbor.Value) : Ciborium where
  intoWriter := writeRated 4
  fromReader input := if input = writeRated 4 value then some value else none

theorem ratedCbor_reads (value : Cbor.Value) :
    (ratedCbor value).fromReader ((ratedCbor value).intoWriter value) = some value :=
  if_pos rfl

def fiveMask : FrontierDelta where
  prevVersion := 1
  newVersion := 2
  visibleMask := some [0, 0, 0, 0, 0, 0, 0, 255]
  expansionMask := none
  mode := .filtered
  ageCeilings := {}

theorem five_is_routed :
    ∃ inbound row, FrontierAnnounce.decode (ratedCbor (fiveAnnounce.toCborValue ⟨onePercent, onePercent⟩))
        (fiveAnnounce.encode (ratedCbor (fiveAnnounce.toCborValue ⟨onePercent, onePercent⟩))
          ⟨onePercent, onePercent⟩) = some inbound ∧
      ((({} : FrontierStore).handle .noUsers (.announce inbound)).1.handleDeltas [(fiveMask, .noUsers)]).row = some row ∧
      ∀ cls, ForwardingClass.consultsVisible cls = true →
        ∃ routing ∈ peersInterestedIn wrappingHashes cls 5 [⟨1, true⟩] [(1, row)], routing.instancePubkey = 1 := by
  obtain ⟨inbound, isInbound, -, -, onStored⟩ := interest_has_no_false_negatives wrappingHashes
    (ratedCbor (fiveAnnounce.toCborValue ⟨onePercent, onePercent⟩)) fiveFilter fiveFilter fiveAnnounce
    ⟨onePercent, onePercent⟩ rfl rfl (ratedCbor_reads _) {} (fun _ isRow => nomatch isRow) .noUsers
  have same : inbound = fiveAnnounce := by
    rw [fiveAnnounce.decode_encode _ (ratedCbor_reads _)] at isInbound
    exact (some.inj isInbound).symm
  obtain ⟨row, -, -, isRow, -, -, -, -, -, routed⟩ := onStored .filtered (by rw [same]; decide +kernel)
    [(fiveMask, .noUsers)]
  refine ⟨inbound, row, isInbound, isRow, ?_⟩
  intro cls consults
  exact routed [⟨1, true⟩] [(1, row)] 1 mem_cons_self rfl cls 5 (.inl ⟨consults, mem_cons_self⟩)

end Prismoire
