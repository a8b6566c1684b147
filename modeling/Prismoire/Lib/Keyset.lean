import Mathlib.Data.List.Sort

namespace Prismoire.Lib

open List

variable {α κ : Type}

/-- What a keyset walk has yet to send after a place, in the order of the keys. -/
def rowsAfter (before : κ → κ → Prop) [DecidableRel before] (key : α → κ) (rows : List α) (since : Option κ) : List α :=
  (rows.filter fun row => since.all fun place => before place (key row)).insertionSort fun a b => ¬ before (key b) (key a)

section

variable {before : κ → κ → Prop} [DecidableRel before] {key : α → κ} {rows : List α} {since : Option κ}

theorem mem_rowsAfter {row : α} :
    row ∈ rowsAfter before key rows since ↔ row ∈ rows ∧ ∀ place, since = some place → before place (key row) := by
  rw [rowsAfter, (perm_insertionSort _ _).mem_iff, mem_filter]
  cases since <;> simp

theorem pairwise_rowsAfter [IsStrictTotalOrder κ before] :
    (rowsAfter before key rows since).Pairwise fun a b => ¬ before (key b) (key a) := by
  have total : Std.Total fun a b : α => ¬ before (key b) (key a) :=
    ⟨fun a b => or_iff_not_imp_left.mpr fun ahead => asymm (not_not.mp ahead)⟩
  have trans : IsTrans α fun a b => ¬ before (key b) (key a) := by
    constructor
    intro a b c ab bc ca
    rcases trichotomous_of before (key a) (key b) with less | same | more
    · exact bc (trans_of before ca less)
    · exact bc (same ▸ ca)
    · exact ab more
  exact pairwise_insertionSort _ _

theorem page_or_beyond [IsStrictTotalOrder κ before] {limit : Nat} {last row : α}
    (atEnd : ((rowsAfter before key rows since).take limit).getLast? = some last)
    (ahead : row ∈ rowsAfter before key rows since) :
    (∃ sent ∈ (rowsAfter before key rows since).take limit, key sent = key row) ∨ before (key last) (key row) := by
  have onPage := mem_of_getLast? atEnd
  have sorted : (rowsAfter before key rows since).Pairwise fun a b => ¬ before (key b) (key a) := pairwise_rowsAfter
  rw [← take_append_drop limit (rowsAfter before key rows since)] at sorted ahead
  rcases mem_append.mp ahead with sent | later
  · exact .inl ⟨row, sent, rfl⟩
  · have behind := (pairwise_append.mp sorted).2.2 last onPage row later
    rcases trichotomous_of before (key last) (key row) with less | same | more
    · exact .inr less
    · exact .inl ⟨last, onPage, same⟩
    · exact absurd more behind

end

variable {r : α → α → Prop} [DecidableRel r] [IsTrans α r] [Std.Total r] (p : α → Bool)

omit [Std.Total r] in
theorem filter_orderedInsert (a : α) {rows : List α} (sorted : rows.Pairwise r) :
    (rows.orderedInsert r a).filter p = if p a then (rows.filter p).orderedInsert r a else rows.filter p := by
  induction rows with
  | nil => by_cases keeps : p a = true <;> simp [keeps]
  | cons b rows ih =>
    obtain ⟨least, sorted⟩ := pairwise_cons.mp sorted
    by_cases before : r a b
    · have first : ∀ row ∈ (b :: rows).filter p, r a row := by
        intro row kept
        obtain rfl | later := mem_cons.mp (mem_of_mem_filter kept)
        · exact before
        · exact trans_of r before (least row later)
      rw [orderedInsert_cons_of_le r rows before, filter_cons]
      split
      · cases kept : (b :: rows).filter p with
        | nil => rfl
        | cons c others =>
          rw [orderedInsert_cons_of_le r others (first c (by rw [kept]; exact mem_cons_self))]
      · rfl
    · rw [orderedInsert_of_not_le r rows before, filter_cons, filter_cons, ih sorted]
      by_cases keeps : p b = true
      · by_cases takes : p a = true <;> simp [keeps, takes, orderedInsert_of_not_le r _ before]
      · simp [keeps]

theorem insertionSort_filter (rows : List α) : (rows.filter p).insertionSort r = (rows.insertionSort r).filter p := by
  induction rows with
  | nil => rfl
  | cons row rows ih =>
    rw [insertionSort_cons, filter_orderedInsert p row (pairwise_insertionSort r rows), ← ih, filter_cons]
    split
    · rw [insertionSort_cons]
    · rfl

end Prismoire.Lib
