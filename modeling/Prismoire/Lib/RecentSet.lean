import Mathlib.Data.Finset.Basic
import Mathlib.Data.List.DropRight

namespace Prismoire.Lib

open List

variable {α : Type} [DecidableEq α]

/-- A set of keys with the queue that says which of them came first. -/
structure RecentSet (α : Type) where
  seen : Finset α
  order : List α

namespace RecentSet

def empty : RecentSet α :=
  ⟨∅, []⟩

/-- Drops the oldest keys until the queue fits. -/
def evict (capacity : Nat) (seen : Finset α) : List α → RecentSet α
  | [] => ⟨seen, []⟩
  | old :: order => if capacity < (old :: order).length then evict capacity (seen.erase old) order
      else ⟨seen, old :: order⟩

def checkAndInsert (capacity : Nat) (recent : RecentSet α) (key : α) : Bool × RecentSet α :=
  if capacity = 0 then
    (true, recent)
  else if key ∈ recent.seen then
    (false, recent)
  else
    (true, evict capacity (insert key recent.seen) (recent.order ++ [key]))

/-- Set and queue hold the same keys, each once, and no more than fit. -/
structure Synced (capacity : Nat) (recent : RecentSet α) : Prop where
  same : recent.seen = recent.order.toFinset
  distinct : recent.order.Nodup
  fits : recent.order.length ≤ capacity

variable {capacity : Nat} {recent : RecentSet α} {key : α} {log : List α}

theorem Synced.empty : Synced capacity (empty : RecentSet α) :=
  ⟨rfl, nodup_nil, Nat.zero_le _⟩

theorem evict_order (capacity : Nat) (seen : Finset α) (order : List α) :
    (evict capacity seen order).order = order.rtake capacity := by
  induction order generalizing seen with
  | nil => simp [evict]
  | cons old order ih =>
    rw [evict]
    split
    · rename_i tooLong
      rw [ih, List.rtake, List.rtake]
      simp only [length_cons] at tooLong ⊢
      rw [show order.length + 1 - capacity = order.length - capacity + 1 by omega, drop_succ_cons]
    · rename_i fits
      rw [List.rtake, show (old :: order).length - capacity = 0 by omega]
      rfl

theorem evict_same {seen : Finset α} {order : List α} (same : seen = order.toFinset) (distinct : order.Nodup) :
    (evict capacity seen order).seen = (evict capacity seen order).order.toFinset := by
  induction order generalizing seen with
  | nil => exact same
  | cons old order ih =>
    obtain ⟨fresh, distinct⟩ := nodup_cons.mp distinct
    rw [evict]
    split
    · refine ih ?_ distinct
      rw [same, toFinset_cons, Finset.erase_insert (by simpa using fresh)]
    · exact same

theorem Synced.checkAndInsert (synced : Synced capacity recent) (key : α) :
    Synced capacity (recent.checkAndInsert capacity key).2 := by
  rw [RecentSet.checkAndInsert]
  split
  · exact synced
  · split
    · exact synced
    · rename_i unseen
      have fresh : key ∉ recent.order := by simpa [synced.same] using unseen
      have distinct : (recent.order ++ [key]).Nodup :=
        nodup_append.mpr ⟨synced.distinct, nodup_singleton key, by
          rintro old mem _ isKey rfl
          exact fresh (mem_singleton.mp isKey ▸ mem)⟩
      refine ⟨evict_same ?_ distinct, ?_, ?_⟩
      · ext other
        simp only [Finset.mem_insert, synced.same, mem_toFinset, mem_append, mem_singleton, or_comm]
      · rw [evict_order]
        exact distinct.sublist (drop_sublist _ _)
      · rw [evict_order, List.rtake, length_drop]
        omega

theorem checkAndInsert_log (positive : capacity ≠ 0) (logged : recent.order = log.rtake capacity)
    (new : (recent.checkAndInsert capacity key).1 = true) :
    (recent.checkAndInsert capacity key).2.order = (log ++ [key]).rtake capacity := by
  rw [RecentSet.checkAndInsert, if_neg positive] at new ⊢
  split at new
  · cases new
  · rename_i unseen
    rw [if_neg unseen, evict_order, logged]
    obtain ⟨n, rfl⟩ := Nat.exists_eq_succ_of_ne_zero positive
    rw [rtake_concat_succ, rtake_concat_succ]
    congr 1
    rw [List.rtake, List.rtake, List.rtake, length_drop, drop_drop]
    congr 1
    omega

theorem checkAndInsert_known (known : (recent.checkAndInsert capacity key).1 = false) :
    (recent.checkAndInsert capacity key).2 = recent := by
  rw [RecentSet.checkAndInsert] at known ⊢
  split at known
  · cases known
  · rename_i positive
    rw [if_neg positive]
    split at known
    · rename_i seen
      rw [if_pos seen]
    · cases known

theorem Synced.evicted {older newer : List α} (synced : Synced capacity recent) (positive : capacity ≠ 0)
    (logged : recent.order = (older ++ key :: newer).rtake capacity)
    (new : (recent.checkAndInsert capacity key).1 = true) : capacity ≤ newer.length := by
  rw [RecentSet.checkAndInsert, if_neg positive] at new
  split at new
  · cases new
  · rename_i unseen
    rw [synced.same, mem_toFinset, logged, List.rtake] at unseen
    by_contra few
    refine unseen ?_
    have early : (older ++ key :: newer).length - capacity ≤ older.length := by
      simp only [length_append, length_cons]
      omega
    rw [drop_append_of_le_length early]
    simp

end RecentSet

end Prismoire.Lib
