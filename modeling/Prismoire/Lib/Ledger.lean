import Mathlib.Data.List.Perm.Basic

namespace Prismoire.Lib

open List

/-- The books of a queue that hands out one batch at a time: everything it took in, and where that
went. -/
@[ext] structure Ledger (α : Type) where
  accepted : List α := []
  queued : List α := []
  inFlight : List α := []
  delivered : List α := []
  refused : List α := []
  stale : List α := []
  evicted : List α := []
  discarded : List α := []

namespace Ledger

variable {α : Type}

/-- What may happen to the books. A batch that comes back goes to the front. -/
inductive Move (ledger : Ledger α) : Ledger α → Prop
  | accept (object : α) : Move ledger { ledger with
      accepted := ledger.accepted ++ [object]
      queued := ledger.queued ++ [object] }
  | evict {dropped kept : List α} (split : ledger.queued = dropped ++ kept) : Move ledger { ledger with
      queued := kept
      evicted := ledger.evicted ++ dropped }
  | take {batch old kept : List α} (ready : ledger.inFlight = []) (order : (batch ++ kept).Sublist ledger.queued)
      (all : ledger.queued.Perm (batch ++ old ++ kept)) : Move ledger { ledger with
      queued := kept
      inFlight := batch
      stale := ledger.stale ++ old }
  | deliver : Move ledger { ledger with
      inFlight := []
      delivered := ledger.delivered ++ ledger.inFlight }
  | refuse : Move ledger { ledger with
      inFlight := []
      refused := ledger.refused ++ ledger.inFlight }
  | requeue : Move ledger { ledger with
      inFlight := []
      queued := ledger.inFlight ++ ledger.queued }
  | discard : Move ledger { ledger with
      queued := []
      discarded := ledger.discarded ++ ledger.queued }

/-- What was delivered, is out or waits keeps the order in which it was taken in. -/
def InOrder (ledger : Ledger α) : Prop :=
  (ledger.delivered ++ (ledger.inFlight ++ ledger.queued)).Sublist ledger.accepted

/-- Everything taken in is in exactly one place. -/
def Conserved (ledger : Ledger α) : Prop :=
  ledger.accepted.Perm (ledger.queued ++ ledger.inFlight ++ ledger.delivered ++ ledger.refused ++ ledger.stale ++
    ledger.evicted ++ ledger.discarded)

variable {before after : Ledger α}

theorem InOrder.move (ordered : InOrder before) (move : Move before after) : InOrder after := by
  have shorter : ∀ {rest : List α}, rest.Sublist (before.inFlight ++ before.queued) →
      (before.delivered ++ rest).Sublist before.accepted := fun sub => (sub.append_left _).trans ordered
  cases move with
  | accept object =>
    have longer := ordered.append_right [object]
    simpa only [InOrder, append_assoc] using longer
  | evict split =>
    apply shorter
    rw [split]
    exact (sublist_append_right _ _).append_left _
  | take ready order all =>
    apply shorter
    rw [ready]
    exact order
  | deliver =>
    simpa only [InOrder, append_assoc, nil_append] using ordered
  | refuse => exact shorter (sublist_append_right _ _)
  | requeue => exact ordered
  | discard => exact shorter ((nil_sublist _).append_left _)

theorem Conserved.move [DecidableEq α] (conserved : Conserved before) (move : Move before after) : Conserved after := by
  rw [Conserved, perm_iff_count] at conserved ⊢
  intro object
  have count := conserved object
  simp only [count_append] at count ⊢
  cases move with
  | accept added =>
    simp only [count_append]
    omega
  | evict split =>
    rw [split, count_append] at count
    simp only [count_append]
    omega
  | take ready order all =>
    rw [all.count_eq, ready] at count
    simp only [count_append, count_nil] at count ⊢
    omega
  | deliver =>
    simp only [count_append, count_nil]
    omega
  | refuse =>
    simp only [count_append, count_nil]
    omega
  | requeue =>
    simp only [count_append, count_nil]
    omega
  | discard =>
    simp only [count_append, count_nil]
    omega

abbrev Moves : Ledger α → Ledger α → Prop :=
  Relation.ReflTransGen Move

theorem InOrder.moves (ordered : InOrder before) (moves : Moves before after) : InOrder after := by
  induction moves with
  | refl => exact ordered
  | tail _ move ih => exact ih.move move

theorem Conserved.moves [DecidableEq α] (conserved : Conserved before) (moves : Moves before after) :
    Conserved after := by
  induction moves with
  | refl => exact conserved
  | tail _ move ih => exact ih.move move

theorem Move.carried (move : Move before after) :
    before.accepted.length ≤ after.accepted.length ∧ (after.accepted.length = before.accepted.length →
      after.inFlight ++ after.queued ⊆ before.inFlight ++ before.queued) := by
  cases move with
  | accept object =>
    refine ⟨by simp, ?_⟩
    intro same
    simp at same
  | evict split =>
    refine ⟨Nat.le_refl _, fun _ => ?_⟩
    rw [split]
    exact ((sublist_append_right _ _).append_left _).subset
  | take ready order all =>
    refine ⟨Nat.le_refl _, fun _ => ?_⟩
    rw [ready]
    exact order.subset
  | deliver => exact ⟨Nat.le_refl _, fun _ => subset_append_right _ _⟩
  | refuse => exact ⟨Nat.le_refl _, fun _ => subset_append_right _ _⟩
  | requeue => exact ⟨Nat.le_refl _, fun _ => List.Subset.refl _⟩
  | discard => exact ⟨Nat.le_refl _, fun _ => ((nil_sublist _).append_left _).subset⟩

theorem Moves.carried (moves : Moves before after) :
    before.accepted.length ≤ after.accepted.length ∧ (after.accepted.length = before.accepted.length →
      after.inFlight ++ after.queued ⊆ before.inFlight ++ before.queued) := by
  induction moves with
  | refl => exact ⟨Nat.le_refl _, fun _ => List.Subset.refl _⟩
  | tail _ move ih =>
    obtain ⟨grows, subset⟩ := ih
    obtain ⟨grows', subset'⟩ := move.carried
    refine ⟨Nat.le_trans grows grows', fun same => ?_⟩
    exact List.Subset.trans (subset' (by omega)) (subset (by omega))

end Ledger

end Prismoire.Lib
