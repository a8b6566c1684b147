import Mathlib.Algebra.BigOperators.Group.List.Basic
import Mathlib.Data.List.Nodup

namespace Prismoire.Lib

open List

/-- A map as the list of its entries, in whatever order an iteration visits them. -/
abbrev Table (κ α : Type) := List (κ × α)

namespace Table

variable {κ α : Type} [DecidableEq κ]

def get? (table : Table κ α) (key : κ) : Option α :=
  (table.find? (·.1 = key)).map Prod.snd

def modify (table : Table κ α) (key : κ) (set : α → α) : Table κ α :=
  table.map fun entry => if entry.1 = key then (entry.1, set entry.2) else entry

def remove (table : Table κ α) (key : κ) : Table κ α :=
  table.filter (·.1 ≠ key)

/-- No key has two entries. -/
def Keyed (table : Table κ α) : Prop :=
  (table.map Prod.fst).Nodup

instance (table : Table κ α) : Decidable table.Keyed :=
  inferInstanceAs (Decidable (table.map Prod.fst).Nodup)

theorem keyed_nil {β γ : Type} : Keyed ([] : Table β γ) :=
  nodup_nil

variable {table : Table κ α} {key : κ} {value : α} {other : Table κ α} {set : α → α} {entry : κ × α}

theorem keys_modify (set : α → α) : (table.modify key set).map Prod.fst = table.map Prod.fst := by
  simp only [modify, map_map]
  apply map_congr_left
  intro entry _
  by_cases hit : entry.1 = key <;> simp [hit]

theorem Keyed.modify (keyed : Keyed table) (set : α → α) : Keyed (table.modify key set) := by
  rw [Keyed, keys_modify]
  exact keyed

theorem Keyed.remove (keyed : Keyed table) : Keyed (table.remove key) :=
  keyed.sublist (filter_sublist.map Prod.fst)

omit [DecidableEq κ] in
theorem Keyed.perm (keyed : Keyed table) (perm : other.Perm table) : Keyed other :=
  (perm.map Prod.fst).nodup_iff.mpr keyed

theorem mem_of_get? (found : table.get? key = some value) : (key, value) ∈ table := by
  obtain ⟨entry, isFound, rfl⟩ := Option.map_eq_some_iff.mp found
  have same : entry.1 = key := by simpa using find?_some isFound
  rw [← same]
  exact mem_of_find?_eq_some isFound

theorem Keyed.get? (keyed : Keyed table) (mem : (key, value) ∈ table) : table.get? key = some value := by
  cases found : table.get? key with
  | none =>
    rw [Table.get?, Option.map_eq_none_iff, find?_eq_none] at found
    exact absurd (decide_eq_true rfl) (found (key, value) mem)
  | some other =>
    have same := inj_on_of_nodup_map keyed (mem_of_get? found) mem rfl
    rw [(Prod.mk.inj same).2]

theorem get?_eq_none : table.get? key = none ↔ ∀ entry ∈ table, entry.1 ≠ key := by
  simp [get?]

theorem Keyed.get?_perm (keyed : Keyed table) (perm : other.Perm table) :
    other.get? key = table.get? key := by
  cases found : table.get? key with
  | none =>
    rw [get?_eq_none] at found ⊢
    intro entry mem
    exact found entry (perm.mem_iff.mp mem)
  | some value => exact (keyed.perm perm).get? (perm.mem_iff.mpr (mem_of_get? found))

omit [DecidableEq κ] in
theorem Keyed.nodup (keyed : Keyed table) : table.Nodup :=
  List.Nodup.of_map Prod.fst keyed

/-- Two tables that answer alike have the same entries. -/
theorem Keyed.perm_of_get? (keyed : Keyed table) (keyed' : Keyed other)
    (same : ∀ key, table.get? key = other.get? key) : table.Perm other := by
  rw [perm_ext_iff_of_nodup keyed.nodup keyed'.nodup]
  rintro ⟨key, value⟩
  constructor
  · intro mem
    exact mem_of_get? ((same key).symm.trans (keyed.get? mem))
  · intro mem
    exact mem_of_get? ((same key).trans (keyed'.get? mem))

theorem get?_append (table more : Table κ α) : get? (table ++ more) key = (table.get? key).or (more.get? key) := by
  simp [get?, find?_append, Option.map_or]

theorem mem_modify : entry ∈ table.modify key set ↔
      (∃ old, (key, old) ∈ table ∧ entry = (key, set old)) ∨ (entry ∈ table ∧ entry.1 ≠ key) := by
  simp only [modify, mem_map]
  constructor
  · rintro ⟨⟨k, old⟩, mem, rfl⟩
    by_cases hit : k = key
    · subst hit
      exact .inl ⟨old, mem, by simp⟩
    · exact .inr ⟨by simpa [hit] using mem, by simp [hit]⟩
  · rintro (⟨old, mem, rfl⟩ | ⟨mem, other⟩)
    · exact ⟨(key, old), mem, by simp⟩
    · exact ⟨entry, mem, by simp [other]⟩

theorem mem_remove : entry ∈ table.remove key ↔ entry ∈ table ∧ entry.1 ≠ key := by
  simp [remove]

theorem get?_modify_self : (table.modify key set).get? key = (table.get? key).map set := by
  induction table with
  | nil => rfl
  | cons entry table ih =>
    by_cases hit : entry.1 = key
    · simp [get?, modify, hit]
    · simpa [get?, modify, hit] using ih

theorem get?_modify_other {other : κ} (apart : other ≠ key) :
    (table.modify key set).get? other = table.get? other := by
  have frame : ((fun entry : κ × α => decide (entry.1 = other)) ∘ fun entry : κ × α =>
      if entry.1 = key then (entry.1, set entry.2) else entry) = fun entry => decide (entry.1 = other) := by
    funext entry
    by_cases hit : entry.1 = key <;> simp [hit]
  rw [get?, modify, find?_map, frame, get?, Option.map_map]
  cases found : List.find? (fun entry : κ × α => decide (entry.1 = other)) table with
  | none => rfl
  | some entry =>
    have same : entry.1 = other := by simpa using find?_some found
    have miss : ¬ entry.1 = key := fun hit => apart (same.symm.trans hit)
    simp [miss]

theorem get?_remove_self : (table.remove key).get? key = none := by
  rw [get?_eq_none]
  intro entry mem
  exact (mem_remove.mp mem).2

theorem get?_remove_other {other : κ} (apart : other ≠ key) : (table.remove key).get? other = table.get? other := by
  rw [get?, remove, find?_filter, get?]
  congr 2
  funext entry
  by_cases found : entry.1 = other
  · simp [found, apart]
  · simp [found]

theorem remove_modify (set : α → α) : (table.modify key set).remove key = table.remove key := by
  rw [remove, modify, filter_map, remove]
  have frame : ((fun entry : κ × α => decide (entry.1 ≠ key)) ∘ fun entry : κ × α =>
      if entry.1 = key then (entry.1, set entry.2) else entry) = fun entry => decide (entry.1 ≠ key) := by
    funext entry
    by_cases hit : entry.1 = key <;> simp [hit]
  rw [frame]
  conv_rhs => rw [← map_id (List.filter _ table)]
  apply map_congr_left
  intro entry mem
  have miss : ¬ entry.1 = key := by simpa using (mem_filter.mp mem).2
  simp [miss]

/-- One entry apart from the others, as a sum sees it. -/
theorem Keyed.split (keyed : Keyed table) (found : table.get? key = some value) :
    table.Perm ((key, value) :: table.remove key) := by
  induction table with
  | nil => simp [Table.get?] at found
  | cons entry table ih =>
    obtain ⟨notIn, keyed'⟩ := nodup_cons.mp keyed
    by_cases hit : entry.1 = key
    · have isEntry : entry = (key, value) := by
        have same : entry.2 = value := by simpa [Table.get?, hit] using found
        exact Prod.ext hit same
      have rest : Table.remove table key = table := by
        rw [Table.remove, filter_eq_self]
        intro other mem
        simp only [ne_eq, decide_eq_true_eq]
        intro same
        exact notIn (mem_map.mpr ⟨other, mem, same.trans hit.symm⟩)
      rw [isEntry] at *
      simp only [Table.remove, filter_cons, ne_eq, not_true_eq_false, decide_false, Bool.false_eq_true, if_false]
      rw [Table.remove] at rest
      simp only [ne_eq] at rest
      rw [rest]
    · have later := ih keyed' (by simpa [Table.get?, hit] using found)
      simp only [Table.remove, filter_cons, ne_eq, hit, not_false_eq_true, decide_true, if_true]
      exact (later.cons entry).trans (.swap _ _ _)

theorem Keyed.split_modify (keyed : Keyed table) (found : table.get? key = some value) (set : α → α) :
    (table.modify key set).Perm ((key, set value) :: table.remove key) := by
  have after : (table.modify key set).get? key = some (set value) := by
    rw [get?_modify_self, found, Option.map_some]
  have perm := (keyed.modify set).split after
  rwa [remove_modify] at perm

/-- What a log of tagged values holds under one tag, in its order. -/
def valuesAt (log : List (κ × α)) (key : κ) : List α :=
  log.filterMap fun entry => if entry.1 = key then some entry.2 else none

@[simp] theorem valuesAt_append (log more : List (κ × α)) :
    valuesAt (log ++ more) key = valuesAt log key ++ valuesAt more key := by
  simp [valuesAt]

@[simp] theorem valuesAt_tagged (values : List α) : valuesAt (values.map fun value => (key, value)) key = values := by
  simp [valuesAt, filterMap_map]

theorem valuesAt_other {other : κ} (apart : other ≠ key) (values : List α) :
    valuesAt (values.map fun value => (other, value)) key = [] := by
  simp [valuesAt, filterMap_map, apart]

end Table

end Prismoire.Lib
