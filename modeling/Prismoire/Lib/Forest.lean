import Prismoire.Lib.Rows

namespace Prismoire.Lib

open List

variable {α ι : Type} (id : α → ι) (parent : α → Option ι)

/-- Items in an order in which each comes after its parent. -/
inductive Grown : List α → Prop
  | nil : Grown []
  | grow {items item} : Grown items → (∀ above ∈ parent item, ∃ other ∈ items, id other = above) →
      Grown (items ++ [item])

variable {id parent} {items : List α}

section

variable (grown : Grown id parent items)
include grown

theorem Grown.parents : ∀ item ∈ items, ∀ above ∈ parent item, ∃ other ∈ items, id other = above := by
  induction grown with
  | nil => simp
  | @grow items last grown rooted ih =>
    intro item mem above isParent
    rcases mem_concat.mp mem with known | rfl
    · obtain ⟨other, inItems, named⟩ := ih item known above isParent
      exact ⟨other, mem_append_left _ inItems, named⟩
    · obtain ⟨other, inItems, named⟩ := rooted above isParent
      exact ⟨other, mem_append_left _ inItems, named⟩

theorem Grown.map {set : α → α} (names : ∀ item, id (set item) = id item)
    (parents : ∀ item, parent (set item) = parent item) : Grown id parent (items.map set) := by
  induction grown with
  | nil => exact .nil
  | grow grown rooted ih =>
    rw [map_append, map_singleton]
    refine .grow ih ?_
    intro above isParent
    obtain ⟨other, inItems, named⟩ := rooted above (parents _ ▸ isParent)
    exact ⟨set other, mem_map_of_mem inItems, (names other).trans named⟩

theorem Grown.updateWhere {keep : α → Bool} {set : α → α}
    (names : ∀ item, id (set item) = id item) (parents : ∀ item, parent (set item) = parent item) :
    Grown id parent (updateWhere keep set items) := by
  refine grown.map ?_ ?_
  · intro item
    split
    · exact names item
    · rfl
  · intro item
    split
    · exact parents item
    · rfl

theorem Grown.filter {keep : α → Bool}
    (closed : ∀ item ∈ items, keep item = true → ∀ other ∈ items, parent item = some (id other) → keep other = true) :
    Grown id parent (items.filter keep) := by
  induction grown with
  | nil => exact .nil
  | @grow items last grown rooted ih =>
    have earlier : Grown id parent (items.filter keep) := ih fun item mem kept other inItems =>
      closed item (mem_append_left _ mem) kept other (mem_append_left _ inItems)
    rw [filter_append]
    cases stays : keep last with
    | false => simpa [stays] using earlier
    | true =>
      rw [filter_cons_of_pos stays, filter_nil]
      refine .grow earlier ?_
      intro above isParent
      obtain ⟨other, inItems, rfl⟩ := rooted above isParent
      refine ⟨other, mem_filter.mpr ⟨inItems, ?_⟩, rfl⟩
      exact closed last (by simp) stays other (mem_append_left _ inItems) isParent

end

variable [DecidableEq ι]

def leafIn (id : α → ι) (parent : α → Option ι) (inside : α → Bool) (items : List α) (item : α) : Bool :=
  inside item && !(items.any fun child => inside child && decide (parent child = some (id item)))

variable {inside : α → Bool}

/-- As long as the selection has an item, it has one without a child in it: the last of the order. -/
theorem Grown.has_leaf (grown : Grown id parent items) (unique : UniqueBy id items) :
    items.any inside = true → ∃ item ∈ items, leafIn id parent inside items item = true := by
  induction grown with
  | nil => simp
  | @grow items last grown rooted ih =>
    intro some_
    have fresh : ∀ other ∈ items, id other ≠ id last := by
      intro other mem same
      rw [UniqueBy, map_append, nodup_append] at unique
      exact unique.2.2 _ (mem_map_of_mem mem) _ (by simp) same
    -- a child of the last item would come before its parent
    have childless : ∀ item ∈ items ++ [last], parent item ≠ some (id last) := by
      intro item mem isChild
      rcases mem_concat.mp mem with known | rfl
      · obtain ⟨other, inItems, named⟩ := grown.parents item known _ isChild
        exact fresh other inItems named
      · obtain ⟨other, inItems, named⟩ := rooted _ isChild
        exact fresh other inItems named
    cases here : inside last with
    | true =>
      refine ⟨last, by simp, ?_⟩
      rw [leafIn, here, Bool.true_and, Bool.not_eq_true', any_eq_false]
      intro item mem hit
      exact childless item mem (by simpa using (Bool.and_eq_true_iff.mp hit).2)
    | false =>
      have earlier : items.any inside = true := by simpa [here] using some_
      obtain ⟨item, mem, leaf⟩ := ih (unique.sublist (by simp)) earlier
      exact ⟨item, mem_append_left _ mem, by simpa [leafIn, here] using leaf⟩

/-- Taking the leaves of a selection leaves fewer of its items. -/
theorem Grown.peel_shorter (grown : Grown id parent items) (unique : UniqueBy id items)
    (some_ : items.any inside = true) :
    (items.filter fun item => !leafIn id parent inside items item).countP inside < items.countP inside := by
  obtain ⟨leaf, mem, isLeaf⟩ := grown.has_leaf unique some_
  have here : inside leaf = true := (Bool.and_eq_true_iff.mp isLeaf).1
  have split := countP_eq_countP_filter_add items inside (leafIn id parent inside items)
  have taken : 0 < (items.filter (leafIn id parent inside items)).countP inside :=
    countP_pos_iff.mpr ⟨leaf, mem_filter.mpr ⟨mem, isLeaf⟩, here⟩
  omega

/-- What is outside the selection stays when leaves go. -/
theorem filter_peel : (items.filter fun item => !leafIn id parent inside items item).filter (fun item => !inside item) =
    items.filter fun item => !inside item := by
  rw [filter_filter]
  refine filter_congr fun item _ => ?_
  cases here : inside item <;> simp [leafIn, here]

end Prismoire.Lib
