import Prismoire.LocalFrontier
import Prismoire.SignedCbor

namespace Prismoire

open Lib List Table
open Lib.Cbor (Value)

def readU64 : Value → Option UInt64
  | .integer n => if 0 ≤ n ∧ n < 2 ^ 64 then some (UInt64.ofNat n.toNat) else none
  | _ => none

def readU32 (value : Value) : Option UInt32 :=
  match readU64 value with
  | none => none
  | some n => if n.toNat < 2 ^ 32 then some n.toUInt32 else none

def readText : Value → Option Text
  | .text s => some s
  | _ => none

def readBytes : Value → Option Bytes
  | .bytes b => some b
  | _ => none

def readRoot : Value → Option Key
  | .bytes b => if b.length = 32 then some (BitVec.ofNat 256 (Cbor.ofBe b)) else none
  | _ => none

def readFloat : Value → Option UInt64
  | .float bits => some bits
  | _ => none

theorem readU64_uint (x : UInt64) : readU64 (uint x.toNat) = some x := by
  have bound : x.toNat < 2 ^ 64 := x.toNat_lt
  simpa [readU64, uint] using bound

theorem readU32_uint (x : UInt32) : readU32 (uint x.toNat) = some x := by
  have bound := x.toNat_lt
  have wide := readU64_uint x.toUInt64
  rw [UInt32.toNat_toUInt64] at wide
  rw [readU32, wide]
  simpa using bound

theorem readRoot_bytes (key : Key) : readRoot (bytes key) = some key := by
  have bound := key.isLt
  simp only [readRoot, bytes, Cbor.length_beBytes, if_true, Cbor.ofBe_beBytes]
  rw [Nat.mod_eq_of_lt (by simpa using bound)]
  simp

def AgeCeilings.insert (ceilings : AgeCeilings) (root : Key) (cutoff : UInt64) : AgeCeilings where
  entries := match ceilings.entries.get? root with
    | none => ceilings.entries ++ [(root, cutoff)]
    | some _ => ceilings.entries.modify root fun _ => cutoff
  keyed := by
    split
    · rename_i missing
      rw [Table.get?_eq_none] at missing
      rw [Keyed, map_append, nodup_append]
      refine ⟨ceilings.keyed, nodup_singleton _, ?_⟩
      intro key isKey other isOther
      obtain ⟨entry, isEntry, rfl⟩ := mem_map.mp isKey
      rw [map_singleton, mem_singleton] at isOther
      exact isOther ▸ missing entry isEntry
    · exact ceilings.keyed.modify _

def ageCeilingsToCborValue (ceilings : AgeCeilings) : Value :=
  .map (ceilings.entries.map fun entry => (bytes entry.1, uint entry.2.toNat))

def readCeiling (ceilings : AgeCeilings) (entry : Value × Value) : Option AgeCeilings := do
  let root ← readRoot entry.1
  let cutoff ← readU64 entry.2
  return ceilings.insert root cutoff

def ageCeilingsFromCborValue : Value → Option AgeCeilings
  | .map entries => entries.foldlM readCeiling {}
  | _ => none

/-- `fprTarget` is the target rate, as the bits of a double. -/
def FilterSpec.toCborValue (spec : FilterSpec) (fprTarget : UInt64) : Value :=
  .map (textKeyed [("family", text spec.family), ("k", uint spec.k.toNat), ("m", uint spec.m.toNat),
    ("n_est", uint spec.nEst.toNat), ("fpr_target", .float fprTarget), ("bytes", .bytes spec.bytes)])

structure FilterFields where
  family : Option Text := none
  k : Option UInt32 := none
  m : Option UInt32 := none
  nEst : Option UInt64 := none
  fprTarget : Option UInt64 := none
  bytes : Option Bytes := none

def readFilterField (fields : FilterFields) (entry : Value × Value) : Option FilterFields :=
  match entry.1 with
  | .text key =>
    if key = "family" then (readText entry.2).map fun s => { fields with family := some s }
    else if key = "k" then (readU32 entry.2).map fun n => { fields with k := some n }
    else if key = "m" then (readU32 entry.2).map fun n => { fields with m := some n }
    else if key = "n_est" then (readU64 entry.2).map fun n => { fields with nEst := some n }
    else if key = "fpr_target" then (readFloat entry.2).map fun f => { fields with fprTarget := some f }
    else if key = "bytes" then (readBytes entry.2).map fun b => { fields with bytes := some b }
    else some fields
  | _ => some fields

/-- The rate has to be there, and is a float. -/
def FilterFields.spec (fields : FilterFields) : Option FilterSpec := do
  let family ← fields.family
  let k ← fields.k
  let m ← fields.m
  let nEst ← fields.nEst
  let _ ← fields.fprTarget
  let bytes ← fields.bytes
  return { family, k, m, nEst, bytes }

def FilterSpec.fromCborValue : Value → Option FilterSpec
  | .map entries => do
    let fields ← entries.foldlM readFilterField {}
    fields.spec
  | _ => none

def Mode.asDbStr : Mode → Text
  | .filtered => "filtered"
  | .all => "all"

def Mode.fromDbStr (s : Text) : Mode :=
  if s = "all" then .all else .filtered

/-- The target rates of the two filters of an announce. -/
structure FprTargets where
  visible : UInt64
  expansion : UInt64

def FrontierAnnounce.toCborValue (announce : FrontierAnnounce) (rates : FprTargets) : Value :=
  .map (textKeyed ([("version", uint announce.version.toNat), ("epoch_start", uint announce.epochStart.toNat),
    ("active_horizon_days", uint announce.activeHorizonDays.toNat),
    ("visible_filter", announce.visibleFilter.toCborValue rates.visible),
    ("expansion_filter", announce.expansionFilter.toCborValue rates.expansion),
    ("mode", text announce.mode.asDbStr)] ++
    if announce.ageCeilings.entries = [] then []
    else [("age_ceilings", ageCeilingsToCborValue announce.ageCeilings)]))

def FrontierAnnounce.encode (cbor : Ciborium) (announce : FrontierAnnounce) (rates : FprTargets) : Bytes :=
  cbor.intoWriter (announce.toCborValue rates)

/-- The fields of an announce that are there so far; two of them have a default. -/
structure AnnounceFields where
  version : Option UInt64 := none
  epochStart : Option UInt64 := none
  activeHorizonDays : Option UInt32 := none
  visibleFilter : Option FilterSpec := none
  expansionFilter : Option FilterSpec := none
  mode : Mode := .filtered
  ageCeilings : AgeCeilings := {}

def readAnnounceField (fields : AnnounceFields) (entry : Value × Value) : Option AnnounceFields :=
  match entry.1 with
  | .text key =>
    if key = "version" then (readU64 entry.2).map fun n => { fields with version := some n }
    else if key = "epoch_start" then (readU64 entry.2).map fun n => { fields with epochStart := some n }
    else if key = "active_horizon_days" then (readU32 entry.2).map fun n => { fields with activeHorizonDays := some n }
    else if key = "visible_filter" then
      (FilterSpec.fromCborValue entry.2).map fun spec => { fields with visibleFilter := some spec }
    else if key = "expansion_filter" then
      (FilterSpec.fromCborValue entry.2).map fun spec => { fields with expansionFilter := some spec }
    else if key = "mode" then (readText entry.2).map fun s => { fields with mode := .fromDbStr s }
    else if key = "age_ceilings" then
      (ageCeilingsFromCborValue entry.2).map fun ceilings => { fields with ageCeilings := ceilings }
    else some fields
  | _ => some fields

def AnnounceFields.announce (fields : AnnounceFields) : Option FrontierAnnounce := do
  let version ← fields.version
  let epochStart ← fields.epochStart
  let activeHorizonDays ← fields.activeHorizonDays
  let visibleFilter ← fields.visibleFilter
  let expansionFilter ← fields.expansionFilter
  return {
    version, epochStart, activeHorizonDays, visibleFilter, expansionFilter
    mode := fields.mode
    ageCeilings := fields.ageCeilings }

def FrontierAnnounce.decode (cbor : Ciborium) (input : Bytes) : Option FrontierAnnounce :=
  match cbor.fromReader input with
  | some (.map entries) => do
    let fields ← entries.foldlM readAnnounceField {}
    fields.announce
  | _ => none

theorem readCeiling_entry (ceilings : AgeCeilings) (root : Key) (cutoff : UInt64) :
    readCeiling ceilings (bytes root, uint cutoff.toNat) = some (ceilings.insert root cutoff) := by
  rw [readCeiling, readRoot_bytes, readU64_uint]
  rfl

theorem foldlM_readCeiling (rest : Table Key UInt64) (ceilings : AgeCeilings)
    (keyed : Keyed (ceilings.entries ++ rest)) :
    (rest.map fun entry => (bytes entry.1, uint entry.2.toNat)).foldlM readCeiling ceilings =
      some ⟨ceilings.entries ++ rest, keyed⟩ := by
  induction rest generalizing ceilings with
  | nil => simp
  | cons entry rest ih =>
    obtain ⟨root, cutoff⟩ := entry
    have missing : ceilings.entries.get? root = none := by
      rw [Table.get?_eq_none]
      intro other isOther same
      rw [Keyed, map_append, nodup_append] at keyed
      exact keyed.2.2 other.1 (mem_map_of_mem isOther) root mem_cons_self same
    have next : ceilings.insert root cutoff = ⟨ceilings.entries ++ [(root, cutoff)], by
        rw [append_cons] at keyed
        exact List.Nodup.sublist ((sublist_append_left _ _).map Prod.fst) keyed⟩ := by
      simp [AgeCeilings.insert, missing]
    have rejoined : Keyed (ceilings.entries ++ [(root, cutoff)] ++ rest) := by
      rw [← append_cons]
      exact keyed
    rw [map_cons, foldlM_cons, readCeiling_entry, next]
    refine (ih _ rejoined).trans ?_
    simp only [append_assoc, cons_append, nil_append]

theorem ageCeilings_round_trip (ceilings : AgeCeilings) :
    ageCeilingsFromCborValue (ageCeilingsToCborValue ceilings) = some ceilings :=
  foldlM_readCeiling ceilings.entries {} ceilings.keyed

theorem FilterSpec.round_trip (spec : FilterSpec) (fprTarget : UInt64) :
    FilterSpec.fromCborValue (spec.toCborValue fprTarget) = some spec := by
  simp [toCborValue, fromCborValue, textKeyed, readFilterField, readU64_uint, readU32_uint, text, readText, readFloat,
    readBytes, FilterFields.spec]

theorem Mode.fromDbStr_asDbStr (mode : Mode) : Mode.fromDbStr mode.asDbStr = mode := by
  cases mode <;> rfl

theorem FrontierAnnounce.decode_encode {cbor : Ciborium} (announce : FrontierAnnounce) (rates : FprTargets)
    (readsBack : cbor.fromReader (cbor.intoWriter (announce.toCborValue rates)) = some (announce.toCborValue rates)) :
    FrontierAnnounce.decode cbor (announce.encode cbor rates) = some announce := by
  rw [decode, encode, readsBack]
  by_cases uncapped : announce.ageCeilings.entries = []
  · have isDefault : ({} : AgeCeilings) = announce.ageCeilings := by
      cases ceilings : announce.ageCeilings with
      | mk entries keyed =>
        rw [ceilings] at uncapped
        cases uncapped
        rfl
    simp [toCborValue, textKeyed, readAnnounceField, readU64_uint, readU32_uint, FilterSpec.round_trip, text, readText,
      AnnounceFields.announce, Mode.fromDbStr_asDbStr, uncapped, isDefault]
  · simp [toCborValue, textKeyed, readAnnounceField, readU64_uint, readU32_uint, FilterSpec.round_trip, text, readText,
      AnnounceFields.announce, Mode.fromDbStr_asDbStr, ageCeilings_round_trip, uncapped]

end Prismoire
