import Mathlib.Data.List.Sort

namespace Prismoire.Lib

open Option

variable {α : Type}

/-- The interval from `base` on is halved until one place is left. -/
def searchLoop (items : List α) (order : α → Ordering) : Nat → Nat → Nat → Nat
  | 0, base, _ => base
  | fuel + 1, base, size =>
    if 1 < size then
      let mid := base + size / 2
      searchLoop items order fuel (if items[mid]?.map order = some .gt then base else mid) (size - size / 2)
    else base

/-- A place that compares equal, in a list ordered by the comparison. -/
def binarySearchBy (items : List α) (order : α → Ordering) : Option (Fin items.length) :=
  let base := searchLoop items order items.length 0 items.length
  if inside : base < items.length then
    if order items[base] = .eq then some ⟨base, inside⟩ else none
  else none

variable {items : List α} {key : α → Nat} {target place : Nat}

theorem searchLoop_place {base size : Nat} (sorted : items.Pairwise fun a b => key a < key b)
    (inside : place < items.length) (found : key items[place] = target) (low : base ≤ place)
    (high : place < base + size) (bound : base + size ≤ items.length) {fuel : Nat} (enough : size ≤ fuel + 1) :
    searchLoop items (fun item => compare (key item) target) fuel base size = place := by
  induction fuel generalizing base size with
  | zero =>
    rw [searchLoop]
    omega
  | succ fuel ih =>
    rw [searchLoop]
    split
    · have isMid : base + size / 2 < items.length := by omega
      have order : items[base + size / 2]?.map (fun item => compare (key item) target) = some .gt ↔
          target < key items[base + size / 2] := by
        rw [List.getElem?_eq_getElem isMid, map_some, some.injEq, compare_gt_iff_gt]
      dsimp only
      split
      · rename_i after
        have before : place < base + size / 2 := by
          by_contra late
          rcases Nat.eq_or_lt_of_le (Nat.le_of_not_lt late) with same | less
          · have := order.mp after
            simp only [same, found] at this
            exact Nat.lt_irrefl _ this
          · have := List.pairwise_iff_getElem.mp sorted _ _ isMid inside less
            have := order.mp after
            omega
        exact ih low (by omega) (by omega) (by omega)
      · rename_i notAfter
        have late : base + size / 2 ≤ place := by
          by_contra early
          have := List.pairwise_iff_getElem.mp sorted _ _ inside isMid (Nat.lt_of_not_le early)
          exact notAfter (order.mpr (found ▸ this))
        exact ih late (by omega) (by omega) (by omega)
    · omega

theorem binarySearchBy_eq_some {place : Fin items.length} (sorted : items.Pairwise fun a b => key a < key b) :
    binarySearchBy items (fun item => compare (key item) target) = some place ↔ key items[place] = target := by
  constructor
  · intro run
    unfold binarySearchBy at run
    dsimp only at run
    split at run
    · split at run
      · rename_i same
        cases run
        exact compare_eq_iff_eq.mp same
      · cases run
    · cases run
  · intro found
    have isPlace := searchLoop_place sorted place.isLt found (Nat.zero_le _) (by omega) (by omega)
      (by omega : items.length ≤ items.length + 1)
    simpa [binarySearchBy, isPlace] using found

end Prismoire.Lib
