import Mathlib.Order.Lattice
import Mathlib.Data.List.Perm.Basic
import Mathlib.Order.Nat

namespace Prismoire.Lib

open List

variable {α β : Type} [LinearOrder β]

/-- What is kept of the offers: those of the highest rank, and all of them while there is room. -/
structure KeepsBest (rank : α → β) (room : Nat) (kept rejected offers : List α) : Prop where
  split : (kept ++ rejected).Perm offers
  fits : kept.length ≤ room
  filled : rejected ≠ [] → kept.length = room
  best : ∀ a ∈ kept, ∀ b ∈ rejected, rank b < rank a

namespace KeepsBest

variable {rank : α → β} {room : Nat} {kept rejected offers : List α}

theorem nil (rank : α → β) (room : Nat) : KeepsBest rank room [] [] [] :=
  ⟨.refl _, Nat.zero_le _, fun some_ => absurd rfl some_, by simp⟩

variable (keeps : KeepsBest rank room kept rejected offers)
include keeps

theorem length : kept.length = min room offers.length := by
  have split := keeps.split.length_eq
  rw [length_append] at split
  have fits := keeps.fits
  by_cases all : rejected = []
  · rw [all, length_nil] at split
    omega
  · have filled := keeps.filled all
    omega

theorem push (free : kept.length < room) (a : α) : KeepsBest rank room (a :: kept) [] (offers ++ [a]) := by
  have all : rejected = [] := by
    by_contra some_
    exact absurd (keeps.filled some_) free.ne
  have split := keeps.split
  rw [all, append_nil] at split
  refine ⟨?_, free, fun some_ => absurd rfl some_, by simp⟩
  rw [append_nil]
  exact (split.cons a).trans (perm_append_singleton a offers).symm

theorem reject (full : kept.length = room) {a : α} (worse : ∀ b ∈ kept, rank a < rank b) :
    KeepsBest rank room kept (a :: rejected) (offers ++ [a]) := by
  refine ⟨?_, keeps.fits, fun _ => full, ?_⟩
  · exact perm_middle.trans ((keeps.split.cons a).trans (perm_append_singleton a offers).symm)
  · intro b inKept c mem
    rcases mem_cons.mp mem with rfl | old
    · exact worse b inKept
    · exact keeps.best b inKept c old

theorem displace [DecidableEq α] (full : kept.length = room) {a worst : α} (inKept : worst ∈ kept)
    (least : ∀ b ∈ kept.erase worst, rank worst < rank b) (better : rank worst < rank a) :
    KeepsBest rank room (a :: kept.erase worst) (worst :: rejected) (offers ++ [a]) := by
  have whole := perm_cons_erase inKept
  have long := whole.length_eq
  refine ⟨?_, (long.symm.trans full).le, fun _ => long.symm.trans full, ?_⟩
  · have swapped : (kept.erase worst ++ worst :: rejected).Perm offers :=
      perm_middle.trans ((whole.symm.append_right rejected).trans keeps.split)
    exact (swapped.cons a).trans (perm_append_singleton a offers).symm
  · intro b mem c dropped
    rcases mem_cons.mp dropped with rfl | old
    · rcases mem_cons.mp mem with rfl | stays
      · exact better
      · exact least b stays
    · have below := keeps.best worst inKept c old
      rcases mem_cons.mp mem with rfl | stays
      · exact below.trans better
      · exact below.trans (least b stays)

theorem mem_iff {a : α} : a ∈ kept ↔ a ∈ offers ∧ offers.countP (rank a < rank ·) < room := by
  have ahead : offers.countP (rank a < rank ·) =
      kept.countP (rank a < rank ·) + rejected.countP (rank a < rank ·) := by
    rw [← keeps.split.countP_eq, countP_append]
  constructor
  · intro inKept
    refine ⟨keeps.split.mem_iff.mp (mem_append_left _ inKept), ?_⟩
    have none_ : rejected.countP (rank a < rank ·) = 0 := by
      refine countP_eq_zero.mpr fun b dropped isAhead => ?_
      exact (keeps.best a inKept b dropped).asymm (of_decide_eq_true isAhead)
    have others : kept.countP (rank a < rank ·) < kept.length := by
      refine lt_of_le_of_ne countP_le_length fun all => ?_
      exact lt_irrefl _ (of_decide_eq_true (countP_eq_length.mp all a inKept))
    have fits := keeps.fits
    omega
  · rintro ⟨offered, few⟩
    refine (mem_append.mp (keeps.split.mem_iff.mpr offered)).resolve_right fun dropped => ?_
    have all : kept.countP (rank a < rank ·) = kept.length :=
      countP_eq_length.mpr fun b inKept => decide_eq_true (keeps.best b inKept a dropped)
    have full := keeps.filled (ne_nil_of_mem dropped)
    omega

end KeepsBest

end Prismoire.Lib
