import Mathlib.Data.List.Nodup
import Mathlib.Data.List.Perm.Basic

namespace Prismoire.Lib

open List

variable {α β κ : Type} {keep test : α → Bool} {set : α → α} {key : α → κ} {before : α → α → Bool} {rows : List α}
  {row old : α} {i : Nat} {p : α → Prop} {f : α → β}

def updateWhere {α : Type} (keep : α → Bool) (set : α → α) (rows : List α) : List α :=
  rows.map fun row => if keep row then set row else row

theorem forall_mem_pair {a b : α} : (∀ x ∈ [a, b], p x) ↔ p a ∧ p b := by
  rw [forall_mem_cons, forall_mem_singleton]

theorem mem_concat : row ∈ rows ++ [old] ↔ row ∈ rows ∨ row = old := by
  rw [mem_append, mem_singleton]

theorem forall_mem_concat : (∀ x ∈ rows ++ [row], p x) ↔ (∀ x ∈ rows, p x) ∧ p row := by
  rw [forall_mem_append, forall_mem_singleton]

theorem mem_updateWhere : row ∈ updateWhere keep set rows ↔
      ∃ old ∈ rows, (keep old = true ∧ row = set old) ∨ (keep old = false ∧ row = old) := by
  simp only [updateWhere, mem_map]
  constructor
  · rintro ⟨old, mem, rfl⟩
    refine ⟨old, mem, ?_⟩
    cases found : keep old <;> simp
  · rintro ⟨old, mem, ⟨found, rfl⟩ | ⟨found, rfl⟩⟩
    · exact ⟨old, mem, by simp [found]⟩
    · exact ⟨row, mem, by simp [found]⟩

theorem of_mem_updateWhere [DecidableEq β] {column : α → β} {value : β}
    (mem : row ∈ updateWhere (fun row => decide (column row = value)) set rows) :
    (∃ old ∈ rows, column old = value ∧ row = set old) ∨ row ∈ rows ∧ column row ≠ value := by
  obtain ⟨old, inRows, ⟨hit, rfl⟩ | ⟨miss, rfl⟩⟩ := mem_updateWhere.mp mem
  · exact .inl ⟨old, inRows, of_decide_eq_true hit, rfl⟩
  · exact .inr ⟨inRows, of_decide_eq_false miss⟩

theorem forall_mem_updateWhere (all : ∀ row ∈ rows, p row) (kept : ∀ row, p row → p (set row)) :
    ∀ row ∈ updateWhere keep set rows, p row := by
  intro row mem
  obtain ⟨old, inRows, ⟨-, rfl⟩ | ⟨-, rfl⟩⟩ := mem_updateWhere.mp mem
  · exact kept old (all old inRows)
  · exact all row inRows

theorem exists_mem_updateWhere (frame : ∀ row, p (set row) ↔ p row) :
    (∃ row ∈ updateWhere keep set rows, p row) ↔ ∃ row ∈ rows, p row := by
  constructor
  · rintro ⟨row, mem, holds⟩
    obtain ⟨old, inRows, ⟨-, rfl⟩ | ⟨-, rfl⟩⟩ := mem_updateWhere.mp mem
    · exact ⟨old, inRows, (frame old).mp holds⟩
    · exact ⟨row, inRows, holds⟩
  · rintro ⟨row, inRows, holds⟩
    cases hit : keep row with
    | true => exact ⟨_, mem_updateWhere.mpr ⟨row, inRows, .inl ⟨hit, rfl⟩⟩, (frame row).mpr holds⟩
    | false => exact ⟨row, mem_updateWhere.mpr ⟨row, inRows, .inr ⟨hit, rfl⟩⟩, holds⟩

theorem map_filter_updateWhere {keep test : α → Bool} (column : α → β)
    (frame : ∀ row, keep row = true → test (set row) = test row)
    (same : ∀ row, keep row = true → test row = true → column (set row) = column row) :
    ((updateWhere keep set rows).filter test).map column = (rows.filter test).map column := by
  induction rows with
  | nil => rfl
  | cons row rows ih =>
    rw [updateWhere, map_cons, filter_cons, filter_cons]
    rw [updateWhere] at ih
    by_cases hit : keep row = true
    · rw [if_pos hit, frame row hit]
      split
      · rename_i passes
        rw [map_cons, map_cons, ih, same row hit passes]
      · exact ih
    · rw [if_neg hit]
      split
      · rw [map_cons, map_cons, ih]
      · exact ih

theorem map_updateWhere (column : α → β) (frame : ∀ row, column (set row) = column row) (rows : List α) :
    (updateWhere keep set rows).map column = rows.map column := by
  simp only [updateWhere, map_map]
  apply map_congr_left
  intro row _
  by_cases found : keep row = true <;> simp [found, frame]

theorem any_updateWhere (frame : ∀ row, test (set row) = test row) (rows : List α) :
    (updateWhere keep set rows).any test = rows.any test := by
  simp only [updateWhere, any_map]
  congr 1
  funext row
  by_cases found : keep row = true <;> simp [found, frame]

theorem find?_updateWhere (frame : ∀ row, keep row = true → test (set row) = test row) (rows : List α) :
    (updateWhere keep set rows).find? test = (rows.find? test).map fun row => if keep row then set row else row := by
  have same : (test ∘ fun row => if keep row then set row else row) = test := by
    funext row
    by_cases found : keep row = true
    · simp [found, frame row found]
    · simp [found]
  rw [updateWhere, find?_map, same]

theorem updateWhere_eq_self (none : ∀ row ∈ rows, keep row = false) : updateWhere keep set rows = rows := by
  simp only [updateWhere]
  conv_rhs => rw [← map_id rows]
  apply map_congr_left
  intro row mem
  simp [none row mem]

theorem updateWhere_noop (noop : ∀ row, set row = row) (rows : List α) : updateWhere keep set rows = rows := by
  unfold updateWhere
  conv_rhs => rw [← map_id rows]
  refine map_congr_left fun row _ => ?_
  split
  · exact noop row
  · rfl

theorem updateWhere_twice {set set' : α → α} (frame : ∀ row, keep (set row) = keep row)
    (rows : List α) : updateWhere keep set' (updateWhere keep set rows) = updateWhere keep (set' ∘ set) rows := by
  unfold updateWhere
  rw [map_map]
  refine map_congr_left fun row _ => ?_
  by_cases kept : keep row = true
  · simp [kept, frame]
  · simp [kept]

/-- A key column: no two rows have the same value in it. -/
def UniqueBy {α κ : Type} (key : α → κ) (rows : List α) : Prop :=
  (rows.map key).Nodup

theorem UniqueBy.nil : UniqueBy key [] :=
  nodup_nil

section

variable (unique : UniqueBy key rows)
include unique

theorem UniqueBy.eq {row other : α}
    (inRow : row ∈ rows) (inOther : other ∈ rows) (same : key row = key other) : row = other :=
  inj_on_of_nodup_map unique inRow inOther same

theorem UniqueBy.insert {new : α} (fresh : ∀ row ∈ rows, key row ≠ key new) : UniqueBy key (rows ++ [new]) := by
  rw [UniqueBy, map_append, nodup_append]
  refine ⟨unique, by simp, ?_⟩
  rintro value inRows other new' rfl
  obtain ⟨row, mem, rfl⟩ := mem_map.mp inRows
  exact fresh row mem (by simpa using new')

end

theorem UniqueBy.filter_eq [DecidableEq κ] (unique : UniqueBy key rows) (inRows : row ∈ rows) :
    (rows.filter fun other => key other = key row) = [row] := by
  induction rows with
  | nil => cases inRows
  | cons first rows ih =>
    obtain ⟨fresh, unique⟩ := nodup_cons.mp unique
    rcases mem_cons.mp inRows with rfl | later
    · have rest : (rows.filter fun other => key other = key row) = [] := by
        rw [filter_eq_nil_iff]
        intro other inRest same
        exact fresh (mem_map.mpr ⟨other, inRest, by simpa using same⟩)
      simp [rest]
    · have apart : key first ≠ key row := fun same => fresh (mem_map.mpr ⟨row, later, same.symm⟩)
      simp [apart, ih unique later]

section

variable (unique : UniqueBy key rows)
include unique

theorem UniqueBy.length_filter_le (fixed : ∀ row other, test row = true → test other = true → key row = key other) :
    (rows.filter test).length ≤ 1 := by
  have nodup : ((rows.filter test).map key).Nodup := unique.sublist (filter_sublist.map key)
  have passes : ∀ row ∈ rows.filter test, test row = true := fun row mem => (mem_filter.mp mem).2
  cases left : rows.filter test with
  | nil => simp
  | cons row rest =>
    rw [left] at nodup passes
    cases rest with
    | nil => simp
    | cons other rest =>
      have same := fixed row other (passes row (by simp)) (passes other (by simp))
      simp [same] at nodup

theorem UniqueBy.update (frame : ∀ row, key (set row) = key row) : UniqueBy key (updateWhere keep set rows) := by
  rw [UniqueBy, map_updateWhere key frame]
  exact unique

end

/-- Rewriting one entry in a column it keeps. -/
theorem map_set_of_same {old new : α}
    (at' : rows[i]? = some old) (same : f new = f old) : (rows.set i new).map f = rows.map f := by
  induction rows generalizing i with
  | nil => rfl
  | cons row rows ih =>
    cases i with
    | zero =>
      obtain rfl : row = old := by simpa using at'
      simp [same]
    | succ i => simp [ih (by simpa using at')]

section

variable (at' : rows[i]? = some old)
include at'

theorem perm_cons_eraseIdx : rows.Perm (old :: rows.eraseIdx i) := by
  obtain ⟨inside, rfl⟩ := List.getElem?_eq_some_iff.mp at'
  exact (getElem_cons_eraseIdx_perm inside).symm

theorem set_perm_of_some (new : α) : (rows.set i new).Perm (new :: rows.eraseIdx i) := by
  obtain ⟨inside, rfl⟩ := List.getElem?_eq_some_iff.mp at'
  exact set_perm_cons_eraseIdx inside new

end

/-- A row that contributes nothing may go. -/
theorem flatMap_eraseIdx_of_nil {f : α → List β} (at' : rows[i]? = some old) (none : f old = []) :
    ((rows.eraseIdx i).filter test).flatMap f = (rows.filter test).flatMap f := by
  induction rows generalizing i with
  | nil => rfl
  | cons row rows ih =>
    cases i with
    | zero =>
      obtain rfl : row = old := by simpa using at'
      by_cases passes : test row = true <;> simp [passes, none]
    | succ i =>
      have rest := ih (show rows[i]? = some old by simpa using at')
      by_cases passes : test row = true <;> simp [passes, rest]

section

variable {old new : α} (at' : rows[i]? = some old)
  (off : test old = false)
include at' off

theorem filter_set_of_false (stays : test new = false) : (rows.set i new).filter test = rows.filter test := by
  induction rows generalizing i with
  | nil => rfl
  | cons row rows ih =>
    cases i with
    | zero =>
      obtain rfl : row = old := by simpa using at'
      simp [off, stays]
    | succ i => simp [filter_cons, ih (by simpa using at')]

/-- An entry that comes to pass a test joins those that passed it. -/
theorem filter_set_perm (on : test new = true) : ((rows.set i new).filter test).Perm (new :: rows.filter test) := by
  induction rows generalizing i with
  | nil => simp at at'
  | cons row rows ih =>
    cases i with
    | zero =>
      obtain rfl : row = old := by simpa using at'
      simp [off, on]
    | succ i =>
      have rest := ih (show rows[i]? = some old by simpa using at')
      cases passes : test row with
      | false => simpa [passes] using rest
      | true =>
        simp only [set_cons_succ, filter_cons, passes, if_true]
        exact (rest.cons row).trans (.swap new row _)

end

theorem UniqueBy.of_key {ι : Type} {column : α → ι} (unique : UniqueBy key rows)
    (determines : ∀ row ∈ rows, ∀ other ∈ rows, column row = column other → key row = key other) :
    UniqueBy column rows := by
  rw [UniqueBy, List.Nodup, pairwise_map]
  refine (pairwise_map.mp unique).imp_of_mem ?_
  intro row other inRow inOther apart same
  exact apart (determines row inRow other inOther same)

theorem filter_eq_find? (nodup : rows.Nodup)
    (one : ∀ row ∈ rows, ∀ other ∈ rows, test row = true → test other = true → row = other) :
    rows.filter test = (rows.find? test).toList := by
  induction rows with
  | nil => rfl
  | cons row rows ih =>
    obtain ⟨notIn, nodup⟩ := nodup_cons.mp nodup
    have rest := ih nodup fun a inA b inB => one a (by simp [inA]) b (by simp [inB])
    cases found : test row with
    | false => simp [found, rest]
    | true =>
      have none : rows.filter test = [] := by
        rw [filter_eq_nil_iff]
        intro other inRows found'
        exact notIn (one row (by simp) other (by simp [inRows]) found found' ▸ inRows)
      simp [found, none]

/-- One step of a scan for the first row: a row that comes before the best so far replaces it. -/
def better {α : Type} (before : α → α → Bool) (best : Option α) (row : α) : Option α :=
  match best with
  | none => some row
  | some old => if before row old then some row else some old

/-- The row that `ORDER BY … LIMIT 1` picks, for a strict order on rows. -/
def firstBy {α : Type} (before : α → α → Bool) (rows : List α) : Option α :=
  rows.foldl (better before) none

section

variable
  (trans : ∀ a b c, before a b = true → before b c = true → before a c = true)
  (irrefl : ∀ a, before a a = false)
include trans irrefl

theorem foldl_better (rows : List α) (best : α) :
    ∃ first ∈ best :: rows, rows.foldl (better before) (some best) = some first ∧
      (first = best ∨ before first best = true) ∧ ∀ row ∈ best :: rows, before row first = false := by
  induction rows generalizing best with
  | nil => exact ⟨best, mem_cons_self, rfl, .inl rfl, by simp [irrefl]⟩
  | cons head rows ih =>
    cases improves : before head best with
    | true =>
      obtain ⟨first, inRows, run, order, least⟩ := ih head
      refine ⟨first, mem_cons_of_mem _ inRows, by simpa [better, improves] using run, ?_, ?_⟩
      · rcases order with rfl | earlier
        · exact .inr improves
        · exact .inr (trans _ _ _ earlier improves)
      · intro row mem
        rcases mem_cons.mp mem with rfl | mem
        · by_contra earlier
          have := trans _ _ _ improves (by simpa using earlier)
          simp [least head mem_cons_self] at this
        · exact least row mem
    | false =>
      obtain ⟨first, inRows, run, order, least⟩ := ih best
      refine ⟨first, ?_, by simpa [better, improves] using run, order, ?_⟩
      · rcases mem_cons.mp inRows with rfl | inRows
        · exact mem_cons_self
        · exact mem_cons_of_mem _ (mem_cons_of_mem _ inRows)
      · intro row mem
        rcases mem_cons.mp mem with rfl | mem
        · exact least row mem_cons_self
        · rcases mem_cons.mp mem with rfl | mem
          · rcases order with rfl | earlier
            · exact improves
            · by_contra before
              have := trans _ _ _ (by simpa using before) earlier
              simp [improves] at this
          · exact least row (mem_cons_of_mem _ mem)

theorem firstBy_spec (nonempty : rows ≠ []) :
    ∃ first ∈ rows, firstBy before rows = some first ∧ ∀ row ∈ rows, before row first = false := by
  cases rows with
  | nil => exact absurd rfl nonempty
  | cons head rows =>
    obtain ⟨first, inRows, run, -, least⟩ := foldl_better trans irrefl rows head
    exact ⟨first, inRows, run, least⟩

theorem firstBy_eq_some (mem : row ∈ rows)
    (first : ∀ other ∈ rows, other ≠ row → before row other = true) : firstBy before rows = some row := by
  obtain ⟨found, inRows, run, least⟩ := firstBy_spec trans irrefl (ne_nil_of_mem mem)
  by_cases same : found = row
  · rw [run, same]
  · have := first found inRows same
    rw [least row mem] at this
    cases this

end

theorem foldl_better_mem {best : Option α}
    (found : rows.foldl (better before) best = some row) : row ∈ rows ∨ best = some row := by
  induction rows generalizing best with
  | nil => exact .inr found
  | cons head rows ih =>
    rcases ih found with inRest | held
    · exact .inl (mem_cons_of_mem _ inRest)
    · unfold better at held
      split at held
      · exact .inl (by simp [Option.some.inj held])
      · split at held
        · exact .inl (by simp [Option.some.inj held])
        · exact .inr held

theorem mem_of_firstBy (found : firstBy before rows = some row) : row ∈ rows :=
  (foldl_better_mem found).resolve_right (by simp)

/-- Picking from a column picks the column of the row that comes first in the same order. -/
theorem firstBy_map {before : β → β → Bool} {before' : α → α → Bool}
    (same : ∀ a ∈ rows, ∀ b ∈ rows, before (f a) (f b) = before' a b) :
    firstBy before (rows.map f) = (firstBy before' rows).map f := by
  have general : ∀ (rest : List α) (best : Option α), (∀ a ∈ rest, a ∈ rows) → (∀ a, best = some a → a ∈ rows) →
      (rest.map f).foldl (better before) (best.map f) = (rest.foldl (better before') best).map f := by
    intro rest
    induction rest with
    | nil => intro best _ _; rfl
    | cons head rest ih =>
      intro best inside held
      have step : better before (best.map f) (f head) = (better before' best head).map f := by
        cases best with
        | none => rfl
        | some old =>
          simp only [better, Option.map_some, same head (inside head (by simp)) old (held old rfl)]
          split <;> rfl
      rw [map_cons, foldl_cons, foldl_cons, step]
      refine ih _ (fun a mem => inside a (by simp [mem])) ?_
      intro a chosen
      have picked : [head].foldl (better before') best = some a := chosen
      rcases foldl_better_mem picked with isHead | isBest
      · exact inside a (by simp [mem_singleton.mp isHead])
      · exact held a isBest
  exact general rows none (fun _ mem => mem) (by simp)

theorem forall_mem_take_iff {before : α → α → Prop} (asymm : ∀ a b, before a b → ¬ before b a)
    (ascending : rows.Pairwise before) {last : α} (mem : last ∈ rows) (k : Nat) :
    (∀ row ∈ rows, row ≠ last → row ∈ rows.take k) ↔
      rows.length ≤ k ∨ rows.length = k + 1 ∧ ∀ row ∈ rows, row ≠ last → before row last := by
  have apart : ∀ i j (boundI : i < rows.length) (boundJ : j < rows.length), i < j → rows[i] ≠ rows[j] := by
    intro i j boundI boundJ less same
    have step := pairwise_iff_getElem.mp ascending i j boundI boundJ less
    rw [same] at step
    exact asymm _ _ step step
  have beyond : ∀ j (bound : j < rows.length), k ≤ j → rows[j] ∉ rows.take k := by
    intro j bound above inPage
    obtain ⟨i, inside, same⟩ := mem_take_iff_getElem.mp inPage
    exact apart i j (by omega) bound (by omega) same
  constructor
  · intro covers
    rcases Nat.lt_or_ge k rows.length with long | short
    · have isLast : rows[k] = last := by
        by_contra other
        exact beyond k long (Nat.le_refl k) (covers _ (getElem_mem long) other)
      have whole : rows.length = k + 1 := by
        by_contra longer
        have other : rows.get ⟨k + 1, by omega⟩ ≠ last := by
          rw [← isLast]
          exact (apart k (k + 1) long (by omega) (by omega)).symm
        exact beyond (k + 1) (by omega) (by omega) (covers _ (getElem_mem _) other)
      refine .inr ⟨whole, ?_⟩
      intro row inRows other
      obtain ⟨i, inside, rfl⟩ := mem_take_iff_getElem.mp (covers row inRows other)
      rw [← isLast]
      exact pairwise_iff_getElem.mp ascending i k (by omega) long (by omega)
    · exact .inl short
  · rintro (short | ⟨whole, final⟩) row inRows other
    · rwa [take_of_length_le short]
    · obtain ⟨j, bound, rfl⟩ := mem_iff_getElem.mp inRows
      obtain ⟨i, inside, rfl⟩ := mem_iff_getElem.mp mem
      have order := final _ inRows other
      have below : j < i := by
        by_contra above
        rcases Nat.lt_or_ge i j with less | equal
        · exact asymm _ _ (pairwise_iff_getElem.mp ascending i j inside bound less) order
        · obtain rfl : i = j := by omega
          exact other rfl
      exact mem_take_iff_getElem.mpr ⟨j, by omega, rfl⟩

end Prismoire.Lib
