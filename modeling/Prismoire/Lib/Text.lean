import Mathlib.Data.List.Basic

namespace Prismoire.Lib

open List Option

variable {α : Type} [DecidableEq α] (sep : α)

/-- `split_once`: around the first separator. -/
def splitOnce : List α → Option (List α × List α)
  | [] => none
  | c :: rest =>
    if c = sep then
      some ([], rest)
    else
      (splitOnce rest).map fun (front, back) => (c :: front, back)

/-- `rsplit_once`: around the last separator. -/
def rsplitOnce (text : List α) : Option (List α × List α) :=
  (splitOnce sep text.reverse).map fun (back, front) => (front.reverse, back.reverse)

def stripPrefix (start : List α) (text : List α) : Option (List α) :=
  if start.isPrefixOf text then some (text.drop start.length) else none

/-- `strip_suffix`, for one character. -/
def stripLast (text : List α) : Option (List α) :=
  if text.getLast? = some sep then some text.dropLast else none

variable {sep} {text front back : List α}

theorem splitOnce_eq_some : splitOnce sep text = some (front, back) ↔ text = front ++ sep :: back ∧ sep ∉ front := by
  induction text generalizing front with
  | nil => simp [splitOnce]
  | cons c rest ih =>
    unfold splitOnce
    split
    · rename_i here
      subst here
      cases front with
      | nil => simp [eq_comm]
      | cons first front =>
        simp only [some.injEq, Prod.mk.injEq, cons_append, List.cons.injEq, mem_cons, not_or]
        exact ⟨fun ⟨empty, _⟩ => absurd empty nofun, fun ⟨⟨same, _⟩, different, _⟩ => absurd same different⟩
    · rename_i elsewhere
      rw [map_eq_some_iff]
      constructor
      · rintro ⟨⟨before, after⟩, found, same⟩
        cases same
        obtain ⟨rfl, apart⟩ := ih.mp found
        exact ⟨rfl, by simpa using ⟨fun same => elsewhere same.symm, apart⟩⟩
      · rintro ⟨same, apart⟩
        cases front with
        | nil =>
          rw [nil_append, List.cons.injEq] at same
          exact absurd same.1 elsewhere
        | cons first front =>
          rw [cons_append, List.cons.injEq] at same
          obtain ⟨rfl, rfl⟩ := same
          exact ⟨(front, back), ih.mpr ⟨rfl, fun mem => apart (mem_cons_of_mem _ mem)⟩, rfl⟩

theorem splitOnce_eq_none : splitOnce sep text = none ↔ sep ∉ text := by
  induction text with
  | nil => simp [splitOnce]
  | cons c rest ih =>
    unfold splitOnce
    split
    · rename_i here
      simp [here]
    · rename_i elsewhere
      rw [map_eq_none_iff, ih, mem_cons, not_or]
      exact ⟨fun apart => ⟨fun same => elsewhere same.symm, apart⟩, And.right⟩

theorem rsplitOnce_eq_some : rsplitOnce sep text = some (front, back) ↔ text = front ++ sep :: back ∧ sep ∉ back := by
  rw [rsplitOnce, map_eq_some_iff]
  constructor
  · rintro ⟨⟨after, before⟩, found, same⟩
    cases same
    obtain ⟨turned, apart⟩ := splitOnce_eq_some.mp found
    refine ⟨?_, by simpa using apart⟩
    rw [← reverse_reverse text, turned]
    simp
  · rintro ⟨rfl, apart⟩
    exact ⟨(back.reverse, front.reverse), splitOnce_eq_some.mpr ⟨by simp, by simpa using apart⟩, by simp⟩

theorem rsplitOnce_eq_none : rsplitOnce sep text = none ↔ sep ∉ text := by
  rw [rsplitOnce, map_eq_none_iff, splitOnce_eq_none, mem_reverse]

theorem stripPrefix_eq_some {start : List α} : stripPrefix start text = some back ↔ text = start ++ back := by
  unfold stripPrefix
  constructor
  · intro stripped
    split at stripped
    · rename_i begins
      obtain ⟨rest, rfl⟩ := isPrefixOf_iff_prefix.mp begins
      cases stripped
      simp
    · cases stripped
  · rintro rfl
    rw [if_pos ( isPrefixOf_iff_prefix.mpr (prefix_append _ _)), drop_left]

theorem stripLast_eq_some : stripLast sep text = some front ↔ text = front ++ [sep] := by
  unfold stripLast
  constructor
  · intro stripped
    split at stripped
    · rename_i ends
      cases stripped
      exact (dropLast_append_getLast? _ ends).symm
    · cases stripped
  · rintro rfl
    rw [if_pos getLast?_concat, dropLast_concat]

end Prismoire.Lib
