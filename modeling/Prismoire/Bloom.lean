import Prismoire.LocalFrontier
import Prismoire.Lib.ByteBits

namespace Prismoire

open Lib List

/-- The two digests of a key under the keys `K_A` and `K_B`. -/
abbrev BloomHashes := Key → UInt64 × UInt64

/-- What makes a filter one of the family: all that `new_empty` and `from_parts` check. -/
structure BloomFilter.Formed (filter : BloomFilter) : Prop where
  k : minK ≤ filter.k ∧ filter.k ≤ maxK
  m : minMBits ≤ filter.m
  whole : filter.m % 64 = 0
  length : filter.bits.length = filter.m.toNat / 8

/-- One position of a filter, the highest bit of a byte first. -/
def byteAndMask (p : UInt64) : Nat × UInt8 :=
  ((p / 8).toNat, 1 <<< (7 - (p % 8).toUInt8))

namespace BloomFilter

def newEmpty (k m : UInt32) (nEst : UInt64) : Except ParamError BloomFilter :=
  if ¬ (minK ≤ k ∧ k ≤ maxK) then .error .badK
  else if m < minMBits ∨ maxMBits ≤ m.toNat ∨ m % 64 ≠ 0 then .error .badM
  else .ok { k, m, nEst, bits := List.replicate (m / 8).toNat 0 }

def bitPositions (hashes : BloomHashes) (k m : UInt32) (key : Key) : List UInt64 :=
  let (a, b) := hashes key
  (List.range k.toNat).map fun i => (a + UInt64.ofNat i * b) % m.toUInt64

/-- The source indexes the bytes, and would stop at a position past the end. -/
def insert (hashes : BloomHashes) (filter : BloomFilter) (key : Key) : BloomFilter :=
  { filter with
    bits := (bitPositions hashes filter.k filter.m key).foldl
      (fun bits p => orAt bits (byteAndMask p).1 (byteAndMask p).2) filter.bits }

def contains (hashes : BloomHashes) (filter : BloomFilter) (key : Key) : Bool :=
  (bitPositions hashes filter.k filter.m key).all fun p => hasBit filter.bits (byteAndMask p).1 (byteAndMask p).2

end BloomFilter

section Position

variable {p : UInt64}

theorem byteAndMask_fst : (byteAndMask p).1 = p.toNat / 8 := by
  simp [byteAndMask]

theorem byteAndMask_snd : (byteAndMask p).2 ≠ 0 := by
  have small : (p % 8).toUInt8 < 8 := by
    rw [UInt8.lt_iff_toNat_lt]
    simp
    omega
  have all : ∀ bit : Fin 8, (1 : UInt8) <<< (7 - UInt8.ofNat bit.val) ≠ 0 := by
    decide
  have bit := all ⟨(p % 8).toUInt8.toNat, UInt8.lt_iff_toNat_lt.mp small⟩
  rw [UInt8.ofNat_toNat] at bit
  exact bit

end Position

theorem m_in_range {m : UInt32} (low : minMBits ≤ m) (whole : m % 64 = 0) :
    ¬ (m < minMBits ∨ maxMBits ≤ m.toNat ∨ m % 64 ≠ 0) := by
  rintro (lower | high | odd)
  · exact UInt32.not_lt.mpr low lower
  · have bound := m.toNat_lt
    rw [maxMBits] at high
    omega
  · exact odd whole

namespace BloomFilter

variable {hashes : BloomHashes} {filter other : BloomFilter} {key : Key}

theorem newEmpty_formed {k m : UInt32} {nEst : UInt64} (built : newEmpty k m nEst = .ok filter) : filter.Formed := by
  rw [newEmpty] at built
  split at built
  · cases built
  · rename_i kBound
    split at built
    · cases built
    · rename_i mBound
      cases built
      push Not at mBound
      refine ⟨not_not.mp kBound, UInt32.not_lt.mp (by simpa using mBound.1), mBound.2.2, ?_⟩
      simp

theorem Formed.inside (formed : filter.Formed) {p : UInt64} (position : p ∈ bitPositions hashes filter.k filter.m key) :
    (byteAndMask p).1 < filter.bits.length := by
  rw [bitPositions] at position
  obtain ⟨i, -, rfl⟩ := mem_map.mp position
  have low : 64 ≤ filter.m.toNat := UInt32.le_iff_toNat_le.mp formed.m
  have whole : filter.m.toNat % 64 = 0 := by
    have whole := congrArg UInt32.toNat formed.whole
    simpa using whole
  rw [byteAndMask_fst, formed.length, UInt64.toNat_mod, UInt32.toNat_toUInt64]
  have bound := Nat.mod_lt ((hashes key).1 + UInt64.ofNat i * (hashes key).2).toNat (show 0 < filter.m.toNat by omega)
  omega

theorem length_foldl_orAt (positions : List UInt64) (bits : Bytes) :
    (positions.foldl (fun bits p => orAt bits (byteAndMask p).1 (byteAndMask p).2) bits).length = bits.length := by
  induction positions generalizing bits with
  | nil => rfl
  | cons p positions ih => rw [foldl_cons, ih, length_orAt]

theorem hasBit_foldl_orAt {bits : Bytes} {i : Nat} {mask : UInt8} (old : hasBit bits i mask = true)
    (positions : List UInt64) :
    hasBit (positions.foldl (fun bits p => orAt bits (byteAndMask p).1 (byteAndMask p).2) bits) i mask = true := by
  induction positions generalizing bits with
  | nil => exact old
  | cons p positions ih => exact ih (hasBit_orAt old _ _)

theorem hasBit_of_mem {positions : List UInt64} {p : UInt64} (position : p ∈ positions) {bits : Bytes}
    (inside : (byteAndMask p).1 < bits.length) :
    hasBit (positions.foldl (fun bits p => orAt bits (byteAndMask p).1 (byteAndMask p).2) bits) (byteAndMask p).1
      (byteAndMask p).2 = true := by
  induction positions generalizing bits with
  | nil => cases position
  | cons first positions ih =>
    rcases mem_cons.mp position with rfl | later
    · exact hasBit_foldl_orAt (hasBit_orAt_self inside byteAndMask_snd) positions
    · exact ih later (by rw [length_orAt]; exact inside)

theorem formed_insert (formed : filter.Formed) (key : Key) : (filter.insert hashes key).Formed where
  k := formed.k
  m := formed.m
  whole := formed.whole
  length := (length_foldl_orAt _ _).trans formed.length

/-- The same positions, and every bit that there was. -/
structure Within (filter other : BloomFilter) : Prop where
  k : other.k = filter.k
  m : other.m = filter.m
  bits : ∀ p, hasBit filter.bits (byteAndMask p).1 (byteAndMask p).2 = true →
    hasBit other.bits (byteAndMask p).1 (byteAndMask p).2 = true

theorem Within.contains (within : filter.Within other) (old : filter.contains hashes key = true) :
    other.contains hashes key = true := by
  rw [BloomFilter.contains, all_eq_true] at old ⊢
  rw [within.k, within.m]
  exact fun p position => within.bits p (old p position)

theorem within_insert (filter : BloomFilter) (key : Key) : filter.Within (filter.insert hashes key) where
  k := rfl
  m := rfl
  bits _ old := hasBit_foldl_orAt old _

theorem Formed.contains_insert (formed : filter.Formed) (key : Key) :
    (filter.insert hashes key).contains hashes key = true := by
  rw [contains, all_eq_true]
  exact fun p position => hasBit_of_mem position (formed.inside position)

theorem Within.trans {third : BloomFilter} (first : filter.Within other) (second : other.Within third) :
    filter.Within third where
  k := second.k.trans first.k
  m := second.m.trans first.m
  bits p old := second.bits p (first.bits p old)

theorem within_inserts (filter : BloomFilter) (keys : List Key) : filter.Within (keys.foldl (insert hashes) filter) := by
  induction keys generalizing filter with
  | nil => exact ⟨rfl, rfl, fun _ old => old⟩
  | cons key keys ih => exact (within_insert filter key).trans (ih (filter.insert hashes key))

theorem formed_inserts (formed : filter.Formed) (keys : List Key) : (keys.foldl (insert hashes) filter).Formed := by
  induction keys generalizing filter with
  | nil => exact formed
  | cons key keys ih => exact ih (formed_insert formed key)

theorem Formed.contains_inserts (formed : filter.Formed) {keys : List Key} (mem : key ∈ keys) :
    (keys.foldl (BloomFilter.insert hashes) filter).contains hashes key = true := by
  induction keys generalizing filter with
  | nil => cases mem
  | cons first keys ih =>
    rcases mem_cons.mp mem with rfl | later
    · exact (within_inserts (filter.insert hashes key) keys).contains (formed.contains_insert key)
    · exact ih (formed_insert formed first) later

/-- The bytes of a filter that keys are inserted into, by the parameters that decide them. -/
def insertBits (hashes : BloomHashes) (k m : UInt32) (bits : Bytes) (key : Key) : Bytes :=
  (bitPositions hashes k m key).foldl (fun bits p => orAt bits (byteAndMask p).1 (byteAndMask p).2) bits

theorem inserts_eq (keys : List Key) (filter : BloomFilter) : keys.foldl (insert hashes) filter =
    { filter with bits := keys.foldl (insertBits hashes filter.k filter.m) filter.bits } := by
  induction keys generalizing filter with
  | nil => rfl
  | cons key keys ih => exact ih (filter.insert hashes key)

instance orAt_rightCommutative :
    RightCommutative fun (bits : Bytes) (p : UInt64) => orAt bits (byteAndMask p).1 (byteAndMask p).2 :=
  ⟨fun bits _ _ => orAt_comm bits _ _ _ _⟩

instance insertBits_rightCommutative (k m : UInt32) : RightCommutative (insertBits hashes k m) := by
  constructor
  intro bits first second
  simp only [insertBits]
  rw [← foldl_append, ← foldl_append]
  exact List.Perm.foldl_eq perm_append_comm _

theorem inserts_perm {keys more : List Key} (perm : keys.Perm more) (filter : BloomFilter) :
    keys.foldl (insert hashes) filter = more.foldl (insert hashes) filter := by
  rw [inserts_eq, inserts_eq, perm.foldl_eq]

end BloomFilter

end Prismoire
