import Mathlib.Algebra.BigOperators.Intervals
import Mathlib.Algebra.Order.BigOperators.Group.Finset

namespace Prismoire.Lib

open List

section

variable {α : Type}

/-- How many items have each key. -/
def degrees (n : Nat) (items : List (Nat × α)) : List Nat :=
  items.foldl (fun degree item => degree.modify item.1 (· + 1)) (List.replicate n 0)

/-- Where the bucket of each key starts, and where the last one ends. -/
def starts : Nat → List Nat → List Nat
  | start, [] => [start]
  | start, count :: degree => start :: starts (start + count) degree

/-- One round: the item goes to the cursor of its key, and the cursor moves on. -/
def place (layout : List α × List Nat) (item : Nat × α) : List α × List Nat :=
  (layout.1.set (layout.2.getD item.1 0) item.2, layout.2.modify item.1 (· + 1))

/-- The items in one array, bucket by bucket. -/
def layOut (blank : α) (n : Nat) (items : List (Nat × α)) : List α :=
  (items.foldl place (List.replicate items.length blank, (starts 0 (degrees n items)).take n)).1

/-- What is stored for a key. -/
def bucket (items : List (Nat × α)) (key : Nat) : List α :=
  (items.filter (·.1 = key)).map Prod.snd

variable {n key : Nat} {items front back : List (Nat × α)} {item : Nat × α} {layout : List α × List Nat}

theorem bucket_append (front back : List (Nat × α)) (key : Nat) :
    bucket (front ++ back) key = bucket front key ++ bucket back key := by
  rw [bucket, filter_append, map_append]
  rfl

theorem bucket_own (item : Nat × α) : bucket [item] item.1 = [item.2] := by
  simp [bucket]

theorem bucket_other (apart : item.1 ≠ key) : bucket [item] key = [] := by
  simp [bucket, apart]

theorem getElem?_degrees (inside : key < n) : (degrees n items)[key]? = some (bucket items key).length := by
  have folds : ∀ degree : List Nat, (items.foldl (fun degree item => degree.modify item.1 (· + 1)) degree)[key]? =
      degree[key]?.map (· + (bucket items key).length) := by
    induction items with
    | nil =>
      intro degree
      simp [bucket]
    | cons item items ih =>
      intro degree
      rw [foldl_cons, ih, getElem?_modify, ← singleton_append, bucket_append, length_append]
      by_cases own : item.1 = key
      · subst own
        rw [bucket_own]
        cases degree[item.1]? with
        | none => rfl
        | some count =>
          simp only [if_true, Option.map_eq_map, Option.map_some, length_singleton]
          congr 1
          omega
      · rw [bucket_other own]
        simp [own]
  rw [degrees, folds, getElem?_replicate_of_lt inside]
  simp

theorem length_degrees (n : Nat) (items : List (Nat × α)) : (degrees n items).length = n := by
  have folds : ∀ degree : List Nat,
      (items.foldl (fun degree item => degree.modify item.1 (· + 1)) degree).length = degree.length := by
    induction items with
    | nil => exact fun _ => rfl
    | cons item items ih =>
      intro degree
      rw [foldl_cons, ih, length_modify]
  rw [degrees, folds, length_replicate]

/-- Grouping by key only reorders. -/
theorem flatMap_bucket_perm (bounded : ∀ item ∈ items, item.1 < n) :
    ((List.range n).flatMap fun key => (bucket items key).map fun value => (key, value)).Perm items := by
  have upTo : ∀ m, ((List.range m).flatMap fun key => (bucket items key).map fun value => (key, value)).Perm
      (items.filter (·.1 < m)) := by
    intro m
    induction m with
    | zero => simp
    | succ m ih =>
      have last : (bucket items m).map (fun value => (m, value)) = items.filter (·.1 = m) := by
        rw [bucket, map_map]
        conv_rhs => rw [← map_id (items.filter _)]
        apply map_congr_left
        intro item mem
        have isKey : item.1 = m := by simpa using (mem_filter.mp mem).2
        exact Prod.ext isKey.symm rfl
      have halves := filter_append_perm (·.1 < m) (items.filter (·.1 < m + 1))
      rw [filter_filter, filter_filter] at halves
      rw [range_succ, flatMap_append, flatMap_singleton, last]
      refine (ih.append_right _).trans (.trans (.of_eq ?_) halves)
      congr 2 <;> funext item <;> grind
  have whole := upTo n
  rwa [filter_eq_self.mpr fun item mem => decide_eq_true (bounded item mem)] at whole

def before (items : List (Nat × α)) (key : Nat) : Nat :=
  ∑ i ∈ Finset.range key, (bucket items i).length

theorem before_succ (items : List (Nat × α)) (key : Nat) :
    before items (key + 1) = before items key + (bucket items key).length :=
  Finset.sum_range_succ _ _

theorem before_mono {i j : Nat} (le : i ≤ j) : before items i ≤ before items j :=
  Finset.sum_le_sum_of_subset (Finset.range_mono le)

theorem before_lt (items : List (Nat × α)) {i j : Nat} (lt : i < j) : before items i + (bucket items i).length ≤ before items j :=
  before_succ items i ▸ before_mono lt

theorem before_all (bounded : ∀ item ∈ items, item.1 < n) : before items n = items.length := by
  rw [← (flatMap_bucket_perm bounded).length_eq, length_flatMap]
  simp only [length_map]
  rfl

theorem getElem?_starts (inside : key ≤ n) : (starts 0 (degrees n items))[key]? = some (before items key) := by
  have runs : ∀ (degree : List Nat) (start key : Nat), key < degree.length →
      (starts start degree)[key + 1]? = (starts start degree)[key]?.map (· + degree.getD key 0) := by
    intro degree
    induction degree with
    | nil => exact fun _ _ outside => absurd outside (Nat.not_lt_zero _)
    | cons count degree ih =>
      intro start key inside
      cases key with
      | zero => cases degree <;> simp [starts]
      | succ key => simpa [starts] using ih (start + count) key (by simpa using inside)
  induction key with
  | zero => cases degrees n items <;> simp [starts, before]
  | succ key ih =>
    have isDegree : (degrees n items).getD key 0 = (bucket items key).length := by
      rw [List.getD, getElem?_degrees (by omega)]
      rfl
    rw [runs _ _ _ (by rw [length_degrees]; omega), ih (by omega), isDegree, before_succ]
    rfl

/-- The cursor of an item is inside its bucket. -/
theorem cursor_lt (split : items = front ++ item :: back) :
    before items item.1 + (bucket front item.1).length < before items (item.1 + 1) := by
  rw [before_succ]
  subst split
  rw [← singleton_append, bucket_append _ ([item] ++ back), bucket_append, bucket_own, length_append,
    length_append, length_singleton]
  omega

structure Placed (items front : List (Nat × α)) (n : Nat) (layout : List α × List Nat) : Prop where
  length : layout.1.length = items.length
  cursor : ∀ key < n, layout.2[key]? = some (before items key + (bucket front key).length)
  stored : ∀ key < n, ∀ i < (bucket front key).length, layout.1[before items key + i]? = (bucket front key)[i]?

theorem Placed.place (bounded : ∀ item ∈ items, item.1 < n)
    (placed : Placed items front n layout) (split : items = front ++ item :: back) :
    Placed items (front ++ [item]) n (place layout item) := by
  have inside : item.1 < n := bounded item (by simp [split])
  have room := cursor_lt split
  have isCursor : layout.2.getD item.1 0 = before items item.1 + (bucket front item.1).length := by
    rw [List.getD, placed.cursor item.1 inside]
    rfl
  have fits : before items (item.1 + 1) ≤ items.length := before_all bounded ▸ before_mono inside
  constructor
  case length => rw [Lib.place, length_set, placed.length]
  case cursor =>
    intro key isKey
    rw [Lib.place, getElem?_modify, placed.cursor key isKey, bucket_append, length_append]
    by_cases own : item.1 = key
    · subst own
      rw [bucket_own]
      simp [Nat.add_assoc]
    · rw [bucket_other own]
      simp [own]
  case stored =>
    intro key isKey i isIndex
    rw [Lib.place, isCursor]
    rw [bucket_append, length_append] at isIndex
    rw [bucket_append]
    by_cases own : item.1 = key
    · subst own
      rw [bucket_own, length_singleton] at isIndex
      rw [bucket_own]
      by_cases last : i = (bucket front item.1).length
      · subst last
        rw [getElem?_set_self (by rw [placed.length]; omega), getElem?_append_right le_rfl]
        simp
      · rw [getElem?_set_ne (by omega), getElem?_append_left (by omega)]
        exact placed.stored item.1 isKey i (by omega)
    · rw [bucket_other own, length_nil, Nat.add_zero] at isIndex
      rw [bucket_other own, append_nil]
      have apart : before items item.1 + (bucket front item.1).length ≠ before items key + i := by
        have count : (bucket items key).length = (bucket front key).length + (bucket (item :: back) key).length := by
          rw [split, bucket_append, length_append]
        rcases Nat.lt_or_gt_of_ne own with less | more
        · have gap : before items (item.1 + 1) ≤ before items key := before_mono less
          omega
        · have gap := before_lt items more
          omega
      rw [getElem?_set_ne apart]
      exact placed.stored key isKey i isIndex

theorem Placed.room (bounded : ∀ item ∈ items, item.1 < n)
    (placed : Placed items front n layout) (split : items = front ++ item :: back) :
    ∃ pos < items.length, layout.2[item.1]? = some pos := by
  have inside : item.1 < n := bounded item (by simp [split])
  exact ⟨_, lt_of_lt_of_le (cursor_lt split) (before_all bounded ▸ before_mono inside), placed.cursor item.1 inside⟩

theorem placed_foldl (blank : α) (bounded : ∀ item ∈ items, item.1 < n) (split : items = front ++ back) :
    Placed items front n
      (front.foldl place (List.replicate items.length blank, (starts 0 (degrees n items)).take n)) := by
  induction front using List.reverseRecOn generalizing back with
  | nil =>
    refine ⟨length_replicate, ?_, ?_⟩
    · intro key inside
      rw [foldl_nil, getElem?_take_of_lt inside, getElem?_starts (Nat.le_of_lt inside)]
      rfl
    · intro key _ i isIndex
      cases isIndex
  | append_singleton front item ih =>
    have split' : items = front ++ item :: back := by rw [split, append_assoc, singleton_append]
    rw [foldl_append]
    exact (ih split').place bounded split'

/-- Between the start of a bucket and the next one lie the values of its key, in the order they came in. -/
theorem take_drop_layOut (blank : α) (bounded : ∀ item ∈ items, item.1 < n) (inside : key < n) :
    ((layOut blank n items).drop (before items key)).take (bucket items key).length = bucket items key := by
  have placed := placed_foldl blank bounded (append_nil items).symm
  apply ext_getElem?
  intro i
  by_cases isIndex : i < (bucket items key).length
  · rw [getElem?_take_of_lt isIndex, getElem?_drop]
    exact placed.stored key inside i isIndex
  · rw [getElem?_eq_none (by simp; omega), getElem?_eq_none (by omega)]

theorem length_starts (start : Nat) (degree : List Nat) : (starts start degree).length = degree.length + 1 := by
  induction degree generalizing start with
  | nil => rfl
  | cons count degree ih => rw [starts, length_cons, ih, length_cons]

theorem bucket_perm {other : List (Nat × α)} (perm : items.Perm other) (key : Nat) :
    (bucket items key).Perm (bucket other key) :=
  (perm.filter _).map _

end

/-- A loop that may stop, followed along a state for each stretch of the list. -/
theorem foldlM_eq_some {σ α : Type} {step : σ → α → Option σ} (state : List α → σ) {items : List α}
    (steps : ∀ front item back, items = front ++ item :: back →
      step (state front) item = some (state (front ++ [item]))) :
    items.foldlM step (state []) = some (state items) := by
  have runs : ∀ back front, items = front ++ back → back.foldlM step (state front) = some (state items) := by
    intro back
    induction back with
    | nil =>
      intro front split
      rw [split, append_nil]
      rfl
    | cons item back ih =>
      intro front split
      rw [foldlM_cons, steps front item back split]
      exact ih (front ++ [item]) (by rw [split, append_assoc]; rfl)
  exact runs items [] rfl

end Prismoire.Lib
