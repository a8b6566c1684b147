import Mathlib.Data.List.Perm.Basic
import Mathlib.Data.Nat.Basic

namespace Prismoire.Lib

open List Option

/-- The bits of `mask` are set in one byte. -/
def orAt (bytes : List UInt8) (i : Nat) (mask : UInt8) : List UInt8 :=
  bytes.modify i (· ||| mask)

def hasBit (bytes : List UInt8) (i : Nat) (mask : UInt8) : Bool :=
  bytes.getD i 0 &&& mask != 0

/-- An update that may be repeated, and whose order is of no matter, depends on a set only. -/
theorem foldl_congr_mem {α β : Type} {f : β → α → β} [RightCommutative f] (again : ∀ b a, f (f b a) a = f b a)
    {items more : List α} (same : ∀ a, a ∈ items ↔ a ∈ more) (b : β) : items.foldl f b = more.foldl f b := by
  have absorbs : ∀ (known new : List α), (∀ a ∈ new, a ∈ known) → new.foldl f (known.foldl f b) = known.foldl f b := by
    intro known new within
    induction new with
    | nil => rfl
    | cons a new ih =>
      obtain ⟨before, after, split⟩ := append_of_mem (within a mem_cons_self)
      have front : known.Perm (before ++ after ++ [a]) := by
        rw [split, append_assoc]
        exact List.Perm.append_left _ (perm_append_singleton a after).symm
      have held : f (known.foldl f b) a = known.foldl f b := by
        rw [front.foldl_eq, foldl_append]
        exact again _ a
      rw [foldl_cons, held]
      exact ih fun x mem => within x (mem_cons_of_mem _ mem)
  calc items.foldl f b = (items ++ more).foldl f b := by
        rw [foldl_append, absorbs items more fun a => (same a).mpr]
    _ = (more ++ items).foldl f b := perm_append_comm.foldl_eq b
    _ = more.foldl f b := by rw [foldl_append, absorbs more items fun a => (same a).mp]

variable {bytes other : List UInt8} {i j : Nat} {mask more : UInt8}

@[simp]
theorem length_orAt : (orAt bytes i mask).length = bytes.length :=
  length_modify _ _ _

theorem orAt_comm (bytes : List UInt8) (i j : Nat) (mask more : UInt8) :
    orAt (orAt bytes i mask) j more = orAt (orAt bytes j more) i mask := by
  apply ext_getElem?
  intro place
  simp only [orAt, getElem?_modify]
  cases bytes[place]? with
  | none => rfl
  | some byte =>
    by_cases first : i = place
    · by_cases second : j = place
      · simp only [first, second, if_true, map_some, Option.map_eq_map, UInt8.or_assoc]
        rw [UInt8.or_comm mask more]
      · simp [first, second]
    · by_cases second : j = place <;> simp [first, second]

theorem orAt_self (bytes : List UInt8) (i : Nat) (mask : UInt8) : orAt (orAt bytes i mask) i mask = orAt bytes i mask := by
  apply ext_getElem?
  intro place
  by_cases here : i = place <;> simp [orAt, here, Function.comp_def, UInt8.or_assoc]

theorem zipWith_orAt (bytes other : List UInt8) (i : Nat) (mask : UInt8) :
    bytes.zipWith (· ||| ·) (orAt other i mask) = orAt (bytes.zipWith (· ||| ·) other) i mask := by
  apply ext_getElem?
  intro place
  simp only [orAt, getElem?_zipWith, getElem?_modify]
  by_cases here : i = place <;> cases bytes[place]? <;> cases other[place]? <;> simp [here, UInt8.or_assoc]

theorem zipWith_or_self (bytes other : List UInt8) :
    (bytes.zipWith (· ||| ·) other).zipWith (· ||| ·) other = bytes.zipWith (· ||| ·) other := by
  apply ext_getElem?
  intro place
  simp only [getElem?_zipWith]
  cases bytes[place]? <;> cases other[place]? <;> simp [UInt8.or_assoc]

theorem zipWith_or_assoc (bytes other more : List UInt8) : (bytes.zipWith (· ||| ·) other).zipWith (· ||| ·) more =
    bytes.zipWith (· ||| ·) (other.zipWith (· ||| ·) more) := by
  apply ext_getElem?
  intro place
  simp only [getElem?_zipWith]
  cases bytes[place]? <;> cases other[place]? <;> cases more[place]? <;> simp [UInt8.or_assoc]

theorem zipWith_or_comm (bytes other : List UInt8) : bytes.zipWith (· ||| ·) other = other.zipWith (· ||| ·) bytes :=
  zipWith_comm_of_comm UInt8.or_comm

theorem zipWith_or_zero (bytes : List UInt8) : bytes.zipWith (· ||| ·) (List.replicate bytes.length 0) = bytes := by
  induction bytes with
  | nil => rfl
  | cons byte bytes ih => rw [length_cons, replicate_succ, zipWith_cons_cons, ih, UInt8.or_zero]

theorem and_or_ne_zero {byte more mask : UInt8} (some_ : byte &&& mask ≠ 0) : (byte ||| more) &&& mask ≠ 0 := by
  intro none_
  apply some_
  rw [← UInt8.toBitVec_inj] at none_ ⊢
  simp only [UInt8.toBitVec_and, UInt8.toBitVec_or, BitVec.and_or_distrib_right] at none_
  exact (BitVec.or_eq_zero_iff.mp none_).1

theorem hasBit_orAt (old : hasBit bytes i mask = true) (j : Nat) (more : UInt8) :
    hasBit (orAt bytes j more) i mask = true := by
  simp only [hasBit, orAt, getD_eq_getElem?_getD, getElem?_modify, bne_iff_ne, ne_eq] at old ⊢
  cases found : bytes[i]? with
  | none =>
    rw [found] at old
    exact absurd UInt8.zero_and old
  | some byte =>
    rw [found] at old
    by_cases same : j = i
    · simpa [same] using and_or_ne_zero old
    · simpa [same] using old

theorem hasBit_orAt_self (inside : i < bytes.length) (bit : mask ≠ 0) : hasBit (orAt bytes i mask) i mask = true := by
  simp only [hasBit, orAt, getD_eq_getElem?_getD, getElem?_modify, bne_iff_ne, ne_eq]
  rw [getElem?_eq_getElem inside]
  simp only [if_true, map_some, getD_some, Option.map_eq_map]
  rw [UInt8.or_comm]
  apply and_or_ne_zero
  rw [UInt8.and_self]
  exact bit

theorem hasBit_zipWith (old : hasBit bytes i mask = true) (same : other.length = bytes.length) :
    hasBit (bytes.zipWith (· ||| ·) other) i mask = true := by
  simp only [hasBit, getD_eq_getElem?_getD, getElem?_zipWith, bne_iff_ne, ne_eq] at old ⊢
  by_cases inside : i < bytes.length
  · rw [getElem?_eq_getElem inside] at old
    rw [getElem?_eq_getElem inside, getElem?_eq_getElem (same ▸ inside)]
    exact and_or_ne_zero old
  · rw [getElem?_eq_none (Nat.le_of_not_lt inside)] at old
    exact absurd UInt8.zero_and old

end Prismoire.Lib
