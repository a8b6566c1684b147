import Mathlib.Algebra.GroupWithZero.Nat
import Mathlib.Algebra.BigOperators.Group.List.Basic
import Mathlib.Data.Finset.Card

namespace Prismoire.Lib

open List

def countOnes {w : Nat} (chunk : BitVec w) : Nat :=
  ((Finset.range w).filter fun bit => chunk.getLsbD bit).card

theorem countOnes_or {w bit : Nat} {chunk : BitVec w} (within : bit < w) (clear : chunk.getLsbD bit = false) :
    countOnes (chunk ||| 1#w <<< bit) = countOnes chunk + 1 := by
  have more : (Finset.range w).filter (fun other => (chunk ||| 1#w <<< bit).getLsbD other) =
      insert bit ((Finset.range w).filter fun other => chunk.getLsbD other) := by
    ext other
    simp only [Finset.mem_filter, Finset.mem_range, Finset.mem_insert, BitVec.getLsbD_or, BitVec.getLsbD_shiftLeft,
      BitVec.getLsbD_one, Bool.or_eq_true, Bool.and_eq_true, decide_eq_true_eq, Bool.not_eq_true']
    grind
  rw [countOnes, more, Finset.card_insert_of_notMem (by simp [clear]), countOnes]

theorem countOnes_zero {w : Nat} : countOnes 0#w = 0 := by
  simp [countOnes]

theorem sum_map_modify {α : Type} {count : α → Nat} {change : α → α} {list : List α} {place : Nat} {entry : α}
    (at_ : list[place]? = some entry) (more : count (change entry) = count entry + 1) :
    ((list.modify place change).map count).sum = (list.map count).sum + 1 := by
  induction list generalizing place with
  | nil => simp at at_
  | cons first rest ih =>
    cases place with
    | zero =>
      obtain rfl : first = entry := by simpa using at_
      simp [more]
      omega
    | succ place =>
      have later := ih (by simpa using at_)
      simp only [modify_succ_cons, map_cons, sum_cons, later]
      omega

/-- A set of numbers: a bit for each, in chunks of 64. -/
structure BitSet where
  chunks : List (BitVec 64) := []

namespace BitSet

def contains (bits : BitSet) (bit : Nat) : Bool :=
  bits.chunks[bit / 64]?.any fun chunk : BitVec 64 => (chunk >>> (bit % 64)) &&& 1#64 = 1#64

/-- `Vec::resize` with zeros, for an index that is not there. -/
def reserve (bits : BitSet) (place : Nat) : List (BitVec 64) :=
  if bits.chunks.length ≤ place then bits.chunks ++ List.replicate (place + 1 - bits.chunks.length) 0 else bits.chunks

def set (bits : BitSet) (bit : Nat) : BitSet where
  chunks := (bits.reserve (bit / 64)).modify (bit / 64) (· ||| 1#64 <<< (bit % 64))

def popcount (bits : BitSet) : Nat :=
  (bits.chunks.map countOnes).sum

variable {bits : BitSet} {bit other place : Nat}

theorem contains_eq : bits.contains bit = (bits.chunks[bit / 64]?.getD 0).getLsbD (bit % 64) := by
  rw [contains]
  cases bits.chunks[bit / 64]? with
  | none => simp
  | some chunk =>
    have low : (chunk >>> (bit % 64) &&& 1#64 = 1#64) ↔ chunk.getLsbD (bit % 64) = true := by
      rw [BitVec.and_one_eq_setWidth_ofBool_getLsbD, BitVec.getLsbD_ushiftRight, Nat.add_zero]
      cases chunk.getLsbD (bit % 64) <;> decide
    rw [Option.any_some, Option.getD_some, Bool.eq_iff_iff, decide_eq_true_eq, low]

theorem getD_reserve : (bits.reserve place)[other]?.getD 0 = bits.chunks[other]?.getD 0 := by
  rw [reserve]
  split
  · grind
  · rfl

theorem lt_length_reserve : place < (bits.reserve place).length := by
  rw [reserve]
  split
  · simp
    omega
  · omega

theorem contains_set : (bits.set bit).contains other = (other = bit || bits.contains other) := by
  rw [contains_eq, contains_eq, set, getElem?_modify, ← @getD_reserve bits _ (bit / 64)]
  by_cases same : bit / 64 = other / 64
  · have within := getElem?_eq_getElem (@lt_length_reserve bits (other / 64))
    have low : other % 64 < 64 := Nat.mod_lt _ (by decide)
    rw [same, within]
    simp only [if_true, Option.map_eq_map, Option.map_some, Option.getD_some, BitVec.getLsbD_or,
      BitVec.getLsbD_shiftLeft, BitVec.getLsbD_one]
    grind
  · have apart : other ≠ bit := fun equal => same (equal ▸ rfl)
    simp [same, apart]

theorem popcount_set (clear : bits.contains bit = false) : (bits.set bit).popcount = bits.popcount + 1 := by
  have there := getElem?_eq_getElem (@lt_length_reserve bits (bit / 64))
  rw [contains_eq, ← @getD_reserve bits _ (bit / 64), there] at clear
  have reserved : ((bits.reserve (bit / 64)).map countOnes).sum = bits.popcount := by
    rw [reserve]
    split
    · simp [popcount, countOnes_zero]
    · rfl
  rw [popcount, set, sum_map_modify there (countOnes_or (Nat.mod_lt _ (by decide)) clear), reserved]

theorem contains_empty : ({} : BitSet).contains bit = false := by
  simp [contains]

end BitSet

end Prismoire.Lib
