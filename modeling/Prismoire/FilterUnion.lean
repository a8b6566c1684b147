import Prismoire.LocalRefresh

namespace Prismoire

open Lib List

inductive ApplyMaskError
  | lengthMismatch

namespace BloomFilter

def orMask (filter : BloomFilter) (mask : Bytes) : BloomFilter × Except ApplyMaskError Unit :=
  if mask.length ≠ filter.bits.length then (filter, .error .lengthMismatch)
  else ({ filter with bits := filter.bits.zipWith (· ||| ·) mask }, .ok ())

variable {hashes : BloomHashes} {filter : BloomFilter} {mask : Bytes}

theorem orMask_fits (fits : mask.length = filter.bits.length) :
    filter.orMask mask = ({ filter with bits := filter.bits.zipWith (· ||| ·) mask }, .ok ()) :=
  if_neg (not_not.mpr fits)

theorem length_inserts (k m : UInt32) (keys : List Key) (bits : Bytes) :
    (keys.foldl (insertBits hashes k m) bits).length = bits.length := by
  induction keys generalizing bits with
  | nil => rfl
  | cons key keys ih => exact (ih _).trans (length_foldl_orAt _ _)

theorem insertBits_again (k m : UInt32) (bits : Bytes) (key : Key) :
    insertBits hashes k m (insertBits hashes k m bits key) key = insertBits hashes k m bits key := by
  simp only [insertBits]
  rw [← foldl_append]
  exact foldl_congr_mem (fun bits p => orAt_self bits _ _) (fun p => by simp) bits

theorem zipWith_insertBits (k m : UInt32) (bits other : Bytes) (key : Key) :
    bits.zipWith (· ||| ·) (insertBits hashes k m other key) = insertBits hashes k m (bits.zipWith (· ||| ·) other) key := by
  unfold insertBits
  generalize bitPositions hashes k m key = positions
  induction positions generalizing other with
  | nil => rfl
  | cons p positions ih => rw [foldl_cons, foldl_cons, ih, zipWith_orAt]

theorem zipWith_inserts (k m : UInt32) (bits other : Bytes) (keys : List Key) :
    bits.zipWith (· ||| ·) (keys.foldl (insertBits hashes k m) other) =
      keys.foldl (insertBits hashes k m) (bits.zipWith (· ||| ·) other) := by
  induction keys generalizing other with
  | nil => rfl
  | cons key keys ih => rw [foldl_cons, foldl_cons, ih, zipWith_insertBits]

theorem newEmpty_eq {k m : UInt32} {nEst : UInt64} (built : newEmpty k m nEst = .ok filter) :
    filter = { k, m, nEst, bits := List.replicate (m / 8).toNat 0 } := by
  rw [newEmpty] at built
  split at built
  · cases built
  · split at built
    · cases built
    · exact (Except.ok.inj built).symm

end BloomFilter

/-- The bits of a filter are a function of its parameters and of the set of its keys, a mask adds the keys of the filter
that it comes from, and masks are taken in like sets. -/
theorem filter_bits_of_keys (hashes : BloomHashes) {k m : UInt32} {n n' : UInt64} {empty empty' : BloomFilter}
    (built : BloomFilter.newEmpty k m n = .ok empty) (built' : BloomFilter.newEmpty k m n' = .ok empty') :
    (∀ keys more : List Key, (∀ key, key ∈ keys ↔ key ∈ more) →
      (keys.foldl (BloomFilter.insert hashes) empty).bits = (more.foldl (BloomFilter.insert hashes) empty').bits) ∧
    (∀ keys more both : List Key, (∀ key, key ∈ both ↔ key ∈ keys ∨ key ∈ more) →
      (keys.foldl (BloomFilter.insert hashes) empty).orMask (more.foldl (BloomFilter.insert hashes) empty').bits =
        (both.foldl (BloomFilter.insert hashes) empty, .ok ())) ∧
    (∀ (filter : BloomFilter) (mask more : Bytes), mask.length = filter.bits.length → more.length = filter.bits.length →
      (filter.orMask mask).1.orMask mask = filter.orMask mask ∧
      (filter.orMask mask).1.orMask more = (filter.orMask more).1.orMask mask ∧
      (filter.orMask mask).1.orMask more = filter.orMask (mask.zipWith (· ||| ·) more)) ∧
    (∀ (filter : BloomFilter) (mask : Bytes), mask.length ≠ filter.bits.length →
      filter.orMask mask = (filter, .error .lengthMismatch)) ∧
    ∀ (filter : BloomFilter) (mask : Bytes), (orMask filter.bits (some mask)).toOption =
      if mask.length = filter.bits.length then some (filter.orMask mask).1.bits else none := by
  cases BloomFilter.newEmpty_eq built
  cases BloomFilter.newEmpty_eq built'
  let zeros : Bytes := List.replicate (m / 8).toNat 0
  have same : ∀ keys more : List Key, (∀ key, key ∈ keys ↔ key ∈ more) →
      keys.foldl (BloomFilter.insertBits hashes k m) zeros = more.foldl (BloomFilter.insertBits hashes k m) zeros :=
    fun keys more iff => foldl_congr_mem (BloomFilter.insertBits_again k m) iff _
  refine ⟨fun keys more iff => ?_, fun keys more both iff => ?_, fun filter mask more fits fits' => ⟨?_, ?_, ?_⟩,
    fun filter mask unfit => if_pos unfit, fun filter mask => ?_⟩
  · rw [BloomFilter.inserts_eq, BloomFilter.inserts_eq]
    exact same keys more iff
  · have sized : ∀ keys : List Key, (keys.foldl (BloomFilter.insertBits hashes k m) zeros).length = zeros.length :=
      fun keys => BloomFilter.length_inserts k m keys zeros
    have union : (keys.foldl (BloomFilter.insertBits hashes k m) zeros).zipWith (· ||| ·)
        (more.foldl (BloomFilter.insertBits hashes k m) zeros) =
          both.foldl (BloomFilter.insertBits hashes k m) zeros := by
      have alone := zipWith_or_zero (keys.foldl (BloomFilter.insertBits hashes k m) zeros)
      rw [sized, show List.replicate zeros.length 0 = zeros by simp [zeros]] at alone
      rw [BloomFilter.zipWith_inserts, alone, ← foldl_append]
      exact same _ _ fun key => by rw [mem_append, iff]
    simp only [BloomFilter.inserts_eq]
    rw [BloomFilter.orMask_fits ((sized more).trans (sized keys).symm)]
    exact congrArg (fun bits => (({ k, m, nEst := n, bits } : BloomFilter), Except.ok ())) union
  · rw [BloomFilter.orMask_fits fits, BloomFilter.orMask_fits (by simpa using fits.le)]
    dsimp only
    rw [zipWith_or_self]
  · rw [BloomFilter.orMask_fits fits, BloomFilter.orMask_fits fits', BloomFilter.orMask_fits (by simpa using by omega),
      BloomFilter.orMask_fits (by simpa using by omega)]
    dsimp only
    rw [zipWith_or_assoc, zipWith_or_assoc, zipWith_or_comm mask]
  · rw [BloomFilter.orMask_fits fits, BloomFilter.orMask_fits (by simpa using by omega),
      BloomFilter.orMask_fits (by simpa using by omega)]
    dsimp only
    rw [zipWith_or_assoc]
  · by_cases fits : mask.length = filter.bits.length
    · rw [orMask, if_neg (not_not.mpr fits), BloomFilter.orMask_fits fits, if_pos fits]
      rfl
    · rw [orMask, if_pos fits, if_neg fits]
      rfl

def spreadHashes : BloomHashes :=
  fun key => (UInt64.ofNat key.toNat, 7)

/-- Repeated and reordered keys, and a mask. -/
theorem filter_bits_of_two_keys :
    let empty : BloomFilter := { k := 3, m := 64, nEst := 1, bits := List.replicate 8 0 }
    ([5, 9, 5].foldl (BloomFilter.insert spreadHashes) empty).bits =
      ([9, 5].foldl (BloomFilter.insert spreadHashes) empty).bits ∧
    ([5].foldl (BloomFilter.insert spreadHashes) empty).orMask ([9].foldl (BloomFilter.insert spreadHashes) empty).bits =
      ([9, 5].foldl (BloomFilter.insert spreadHashes) empty, .ok ()) := by
  intro empty
  have built : BloomFilter.newEmpty 3 64 1 = .ok empty := rfl
  obtain ⟨same, union, -⟩ := filter_bits_of_keys spreadHashes built built
  exact ⟨same _ _ (by simp [or_comm]), union _ _ _ (by simp [or_comm])⟩

end Prismoire
