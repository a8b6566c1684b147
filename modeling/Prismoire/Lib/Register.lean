import Mathlib.Data.List.Induction
import Mathlib.Data.Prod.Lex

namespace Prismoire.Lib

open List

variable {α κ : Type} [LinearOrder κ] {rank : α → κ}

def keepHighest (rank : α → κ) (current : Option α) (new : α) : Option α :=
  match current with
  | none => some new
  | some old => if rank old < rank new then some new else some old

/-- The register after a sequence of offers. -/
def offers (rank : α → κ) (items : List α) : Option α :=
  items.foldl (keepHighest rank) none

structure Best (rank : α → κ) (items : List α) (best : α) : Prop where
  member : best ∈ items
  highest : ∀ item ∈ items, rank item ≤ rank best

theorem offers_concat (items : List α) (new : α) :
    offers rank (items ++ [new]) = keepHighest rank (offers rank items) new := by
  rw [offers, foldl_append]
  rfl

theorem offers_cases (rank : α → κ) (items : List α) :
    (items = [] ∧ offers rank items = none) ∨ ∃ best, offers rank items = some best ∧ Best rank items best := by
  induction items using List.reverseRecOn with
  | nil => exact .inl ⟨rfl, rfl⟩
  | append_singleton items new ih =>
    right
    rw [offers_concat]
    obtain ⟨rfl, none_⟩ | ⟨best, held, isBest⟩ := ih
    · refine ⟨new, by rw [none_]; rfl, by simp, ?_⟩
      intro item mem
      simp only [nil_append, mem_singleton] at mem
      rw [mem]
    · rw [held, keepHighest]
      by_cases outranked : rank best < rank new
      · refine ⟨new, if_pos outranked, by simp, ?_⟩
        intro item mem
        rcases mem_append.mp mem with old | isNew
        · exact (isBest.highest item old).trans outranked.le
        · rw [mem_singleton.mp isNew]
      · refine ⟨best, if_neg outranked, mem_append_left _ isBest.member, ?_⟩
        exact forall_mem_append.mpr ⟨isBest.highest, forall_mem_singleton.mpr (not_lt.mp outranked)⟩

theorem Best.held {items others : List α} {best : α} (isBest : Best rank items best)
    (apart : ∀ a ∈ items, ∀ b ∈ items, rank a = rank b → a = b) (same : ∀ item, item ∈ others ↔ item ∈ items) :
    offers rank others = some best := by
  obtain ⟨rfl, -⟩ | ⟨other, held, isOther⟩ := offers_cases rank others
  · have := (same best).mpr isBest.member
    cases this
  · have inItems := (same other).mp isOther.member
    have equal : rank other = rank best :=
      le_antisymm (isBest.highest other inItems) (isOther.highest best ((same best).mpr isBest.member))
    rw [held, apart other inItems best isBest.member equal]

/-- A time and, among equal times, the smaller tie-breaker first. -/
abbrev Latest (τ : Type) := ℕ ×ₗ τᵒᵈ

def latest {τ : Type} (time : ℕ) (tie : τ) : Latest τ :=
  toLex (time, OrderDual.toDual tie)

theorem latest_lt {τ : Type} [LinearOrder τ] {a b : ℕ} {x y : τ} :
    latest a x < latest b y ↔ a < b ∨ (a = b ∧ y < x) := by
  rw [latest, latest, Prod.Lex.toLex_lt_toLex]
  rfl

theorem latest_inj {τ : Type} {a b : ℕ} {x y : τ} (same : latest a x = latest b y) : a = b ∧ x = y := by
  have pair : (a, OrderDual.toDual x) = (b, OrderDual.toDual y) := toLex.injective same
  exact ⟨congrArg Prod.fst pair, OrderDual.toDual.injective (congrArg Prod.snd pair)⟩

end Prismoire.Lib
