import Mathlib.Data.List.Nodup
import Mathlib.Data.List.Pairwise
import Mathlib.Data.List.Perm.Subperm

namespace Prismoire.Lib

open List

section Firsts

variable {α β : Type} [DecidableEq α] (key : β → α)

/-- An item joins the others unless one of them has its key. -/
def offer (seen : List β) (item : β) : List β :=
  if key item ∈ seen.map key then seen else seen ++ [item]

def firsts (items : List β) : List β :=
  items.foldl (offer key) []

variable {key} {seen items : List β} {item : β} {k : α}

theorem prefix_foldl_offer (seen items : List β) : seen <+: items.foldl (offer key) seen := by
  induction items generalizing seen with
  | nil => exact prefix_refl seen
  | cons item items ih =>
    refine List.IsPrefix.trans ?_ (ih (offer key seen item))
    rw [offer]
    split
    · exact prefix_refl seen
    · exact prefix_append seen [item]

theorem foldl_offer_sublist (seen items : List β) : (items.foldl (offer key) seen).Sublist (seen ++ items) := by
  induction items generalizing seen with
  | nil => simp
  | cons item items ih =>
    refine (ih (offer key seen item)).trans ?_
    rw [offer]
    split
    · exact List.Sublist.append_left (sublist_cons_self item items) seen
    · simp

theorem mem_keys_offer : k ∈ (offer key seen item).map key ↔ k ∈ seen.map key ∨ k = key item := by
  rw [offer]
  split
  · rename_i present
    constructor
    · exact .inl
    · rintro (old | rfl)
      · exact old
      · exact present
  · simp

theorem mem_keys_foldl_offer : k ∈ (items.foldl (offer key) seen).map key ↔ k ∈ seen.map key ∨ k ∈ items.map key := by
  induction items generalizing seen with
  | nil => simp
  | cons item items ih =>
    rw [foldl_cons, ih, mem_keys_offer, map_cons, mem_cons, or_assoc]

theorem nodup_foldl_offer (nodup : (seen.map key).Nodup) : ((items.foldl (offer key) seen).map key).Nodup := by
  induction items generalizing seen with
  | nil => exact nodup
  | cons item items ih =>
    refine ih ?_
    rw [offer]
    split
    · exact nodup
    · rename_i fresh
      rw [map_append, map_singleton]
      exact nodup.append (nodup_singleton _) (by simpa using fresh)

theorem find?_foldl_offer (p : α → Bool) :
    (items.foldl (offer key) seen).find? (fun item => p (key item)) = (seen ++ items).find? fun item => p (key item) := by
  induction items generalizing seen with
  | nil => simp
  | cons item items ih =>
    rw [foldl_cons, ih, offer]
    split
    · rename_i present
      rw [find?_append, find?_append, find?_cons]
      cases asked : p (key item) with
      | false => rfl
      | true =>
        obtain ⟨old, mem, isKey⟩ := mem_map.mp present
        have found : (seen.find? fun item => p (key item)).isSome := by
          rw [find?_isSome]
          exact ⟨old, mem, by rw [isKey, asked]⟩
        obtain ⟨first, isFirst⟩ := Option.isSome_iff_exists.mp found
        simp [isFirst]
    · simp

theorem find?_of_nodup (nodup : (items.map key).Nodup) (mem : item ∈ items) :
    items.find? (key · = key item) = some item := by
  have found : (items.find? (key · = key item)).isSome := by
    rw [find?_isSome]
    exact ⟨item, mem, by simp⟩
  obtain ⟨other, isOther⟩ := Option.isSome_iff_exists.mp found
  have same : key other = key item := by simpa using find?_some isOther
  rw [isOther, inj_on_of_nodup_map nodup (mem_of_find?_eq_some isOther) mem same]

theorem firsts_append (front back : List β) : firsts key (front ++ back) = back.foldl (offer key) (firsts key front) :=
  foldl_append

theorem nodup_firsts (items : List β) : ((firsts key items).map key).Nodup :=
  nodup_foldl_offer nodup_nil

theorem find?_firsts (p : α → Bool) :
    (firsts key items).find? (fun item => p (key item)) = items.find? fun item => p (key item) := by
  rw [firsts, find?_foldl_offer, nil_append]

end Firsts

/-- A search with a queue: all that was ever queued, and how much of it has been taken off again. -/
structure Search (β : Type) where
  done : Nat := 0
  seen : List β

namespace Search

variable {α β : Type} [DecidableEq α] (key : β → α) (children : β → List β)

/-- The next item is taken off the queue, and its children join it unless their keys were there before. -/
def step (search : Search β) : Search β :=
  match search.seen[search.done]? with
  | none => search
  | some item => { done := search.done + 1, seen := (children item).foldl (offer key) search.seen }

def run : Nat → Search β → Search β
  | 0, search => search
  | n + 1, search => run n (step key children search)

/-- What a search has seen is what its seeds and the items taken off the queue offered, first come first served. -/
structure Sound (seeds : List β) (search : Search β) : Prop where
  within : search.done ≤ search.seen.length
  offered : search.seen = firsts key (seeds ++ (search.seen.take search.done).flatMap children)

variable {key} {children} {seeds : List β} {search : Search β} {n : Nat}

theorem sound_start (seeds : List β) : Sound key children seeds { seen := firsts key seeds } :=
  ⟨Nat.zero_le _, by simp⟩

theorem take_offered {item : β} {offered : List β} (isNext : search.seen[search.done]? = some item) :
    (offered.foldl (offer key) search.seen).take (search.done + 1) = search.seen.take search.done ++ [item] := by
  obtain ⟨inside, isItem⟩ := List.getElem?_eq_some_iff.mp isNext
  obtain ⟨added, isSeen⟩ := @prefix_foldl_offer _ _ _ key search.seen offered
  rw [← isSeen, take_append_of_le_length (by omega), take_succ_eq_append_getElem inside, isItem]

section

variable (sound : Sound key children seeds search)
include sound

theorem Sound.step : Sound key children seeds (step key children search) := by
  rw [Search.step]
  split
  · exact sound
  · rename_i item isNext
    obtain ⟨inside, isItem⟩ := List.getElem?_eq_some_iff.mp isNext
    have grown := @prefix_foldl_offer _ _ _ key search.seen (children item)
    refine ⟨Nat.le_trans inside grown.length_le, ?_⟩
    show (children item).foldl (offer key) search.seen = firsts key (seeds ++ _)
    rw [take_offered isNext, flatMap_append, ← append_assoc, firsts_append, ← sound.offered]
    simp

theorem Sound.run (n : Nat) : Sound key children seeds (run key children n search) := by
  induction n generalizing search with
  | zero => exact sound
  | succ n ih => exact ih sound.step

theorem Sound.nodup : (search.seen.map key).Nodup := by
  rw [sound.offered]
  exact nodup_firsts _

end

theorem prefix_seen_step (search : Search β) : search.seen <+: (step key children search).seen := by
  rw [step]
  split
  · exact prefix_refl _
  · exact prefix_foldl_offer _ _

theorem prefix_seen_run (n : Nat) (search : Search β) : search.seen <+: (run key children n search).seen := by
  induction n generalizing search with
  | zero => exact prefix_refl _
  | succ n ih => exact (prefix_seen_step search).trans (ih (step key children search))

theorem done_step (search : Search β) (busy : search.done < search.seen.length) :
    (step key children search).done = search.done + 1 := by
  rw [step, getElem?_eq_getElem busy]

theorem step_of_idle {search : Search β} (idle : search.done = search.seen.length) :
    step key children search = search := by
  rw [step, getElem?_eq_none (Nat.le_of_eq idle.symm)]

structure Closed (key : β → α) (children : β → List β) (seeds : List β) (keys : List α) : Prop where
  seeds : ∀ item ∈ seeds, key item ∈ keys
  children : ∀ item, key item ∈ keys → ∀ child ∈ children item, key child ∈ keys

theorem Closed.seen {keys : List α} (closed : Closed key children seeds keys)
    (inside : ∀ item ∈ search.seen, key item ∈ keys) : ∀ item ∈ (step key children search).seen, key item ∈ keys := by
  rw [step]
  split
  · exact inside
  · rename_i next isNext
    intro item mem
    rcases mem_append.mp ((foldl_offer_sublist _ _).subset mem) with old | new
    · exact inside item old
    · exact closed.children next (inside next (mem_of_getElem? isNext)) item new

theorem run_of_idle (idle : search.done = search.seen.length) (n : Nat) : run key children n search = search := by
  induction n with
  | zero => rfl
  | succ n ih => rw [run, step_of_idle idle, ih]

theorem Sound.finished {keys : List α} (sound : Sound key children seeds search)
    (closed : Closed key children seeds keys) (inside : ∀ item ∈ search.seen, key item ∈ keys)
    (enough : keys.length ≤ n + search.done) :
    (Search.run key children n search).done = (Search.run key children n search).seen.length := by
  induction n generalizing search with
  | zero =>
    have few : (search.seen.map key).length ≤ keys.length :=
      (subperm_of_subset sound.nodup fun k mem => by
        obtain ⟨item, isItem, rfl⟩ := mem_map.mp mem
        exact inside item isItem).length_le
    have within := sound.within
    rw [length_map] at few
    show search.done = search.seen.length
    omega
  | succ n ih =>
    by_cases busy : search.done < search.seen.length
    · refine ih sound.step (closed.seen inside) ?_
      rw [done_step search busy]
      omega
    · have within := sound.within
      have idle : search.done = search.seen.length := by omega
      rw [run_of_idle idle, idle]

theorem Sound.fixed (sound : Sound key children seeds search) (idle : search.done = search.seen.length) :
    search.seen = firsts key (seeds ++ search.seen.flatMap children) := by
  have offered := sound.offered
  rw [idle, take_length] at offered
  exact offered

section Levels

variable {depth : β → Nat} {base : Nat}

/-- The items are seen level by level, and the queue holds no more than two of them. -/
structure Levelled (depth : β → Nat) (search : Search β) : Prop where
  sorted : search.seen.Pairwise fun a b => depth a ≤ depth b
  near : ∀ item, search.seen[search.done]? = some item → ∀ other ∈ search.seen, depth other ≤ depth item + 1

theorem pairwise_of_level {items : List β} {d : Nat} (level : ∀ item ∈ items, depth item = d) :
    items.Pairwise fun a b => depth a ≤ depth b := by
  rw [pairwise_iff_forall_sublist]
  intro a b sub
  exact Nat.le_of_eq ((level a (sub.subset (by simp))).trans (level b (sub.subset (by simp))).symm)

theorem levelled_start (level : ∀ item ∈ seeds, depth item = base) : Levelled depth { seen := firsts key seeds } := by
  have inSeeds : ∀ item ∈ firsts key seeds, item ∈ seeds := fun item mem =>
    (nil_append seeds ▸ foldl_offer_sublist [] seeds).subset mem
  refine ⟨pairwise_of_level fun item mem => level item (inSeeds item mem), ?_⟩
  · intro item isItem other mem
    rw [level other (inSeeds other mem)]
    have isSeed := level item (inSeeds item (mem_of_getElem? isItem))
    omega

variable (levelled : Levelled depth search) (deeper : ∀ item, ∀ child ∈ children item, depth child = depth item + 1)
include levelled deeper

theorem Levelled.step : Levelled depth (step key children search) := by
  rw [Search.step]
  split
  · exact levelled
  · rename_i item isItem
    have near := levelled.near item isItem
    have pairs : (search.seen ++ children item).Pairwise fun a b => depth a ≤ depth b := by
      rw [pairwise_append]
      refine ⟨levelled.sorted, pairwise_of_level (deeper item), ?_⟩
      intro a old b new
      rw [deeper item b new]
      exact near a old
    have sub := @foldl_offer_sublist _ _ _ key search.seen (children item)
    have sorted := pairs.sublist sub
    refine ⟨sorted, ?_⟩
    intro next isNext other mem
    have above : depth item ≤ depth next := by
      obtain ⟨inside, isKept⟩ := List.getElem?_eq_some_iff.mp isItem
      obtain ⟨inside', isAfter⟩ := List.getElem?_eq_some_iff.mp isNext
      have same := (@prefix_foldl_offer _ _ _ key search.seen (children item)).getElem inside
      have pair := pairwise_iff_getElem.mp sorted search.done (search.done + 1)
        (Nat.lt_of_succ_lt inside') inside' (Nat.lt_succ_self _)
      rwa [← same, isKept, isAfter] at pair
    rcases mem_append.mp (sub.subset mem) with old | new
    · have bound := near other old
      omega
    · rw [deeper item other new]
      omega

theorem Levelled.run (n : Nat) : Levelled depth (run key children n search) := by
  induction n generalizing search with
  | zero => exact levelled
  | succ n ih => exact ih (levelled.step deeper)

end Levels

/-- A walk of so many steps from one of the seeds. -/
inductive Reaches (next : α → List α) (start : List α) : Nat → α → Prop
  | start {x : α} (mem : x ∈ start) : Reaches next start 0 x
  | step {n : Nat} {x y : α} (walk : Reaches next start n x) (mem : y ∈ next x) : Reaches next start (n + 1) y

/-- No walk to `x` is shorter. -/
structure Shortest (next : α → List α) (start : List α) (n : Nat) (x : α) : Prop where
  reaches : Reaches next start n x
  least : ∀ m, Reaches next start m x → n ≤ m

/-- A search of a graph of keys, down to a depth. -/
structure Explores (key : β → α) (depth : β → Nat) (children : β → List β) (seeds : List β) (next : α → List α)
    (base limit : Nat) : Prop where
  shallow : base ≤ limit
  level : ∀ item ∈ seeds, depth item = base
  deeper : ∀ item, ∀ child ∈ children item, depth child = depth item + 1
  children : ∀ item, (children item).map key = if depth item < limit then next (key item) else []

variable {depth : β → Nat} {next : α → List α} {base limit : Nat} {item : β}

/-- A finished search of a graph. -/
structure Explored (key : β → α) (depth : β → Nat) (children : β → List β) (seeds seen : List β) : Prop where
  nodup : (seen.map key).Nodup
  sorted : seen.Pairwise fun a b => depth a ≤ depth b
  fixed : seen = firsts key (seeds ++ seen.flatMap children)

theorem Explores.explored {keys : List α} (explores : Explores key depth children seeds next base limit)
    (closed : Closed key children seeds keys) (enough : keys.length ≤ n) :
    (run key children n { seen := firsts key seeds }).done =
        (run key children n { seen := firsts key seeds }).seen.length ∧
      Explored key depth children seeds (run key children n { seen := firsts key seeds }).seen := by
  have sound : Sound key children seeds { seen := firsts key seeds } := sound_start seeds
  have inside : ∀ item ∈ firsts key seeds, key item ∈ keys := fun item mem =>
    closed.seeds item ((nil_append seeds ▸ foldl_offer_sublist [] seeds).subset mem)
  have idle := sound.finished closed inside (Nat.le_trans enough (Nat.le_add_right n 0))
  exact ⟨idle, (sound.run n).nodup, ((levelled_start explores.level).run explores.deeper n).sorted,
    (sound.run n).fixed idle⟩

namespace Explored

variable {seen : List β}

section

variable (explored : Explored key depth children seeds seen)
include explored

theorem offered (mem : item ∈ seen) : item ∈ seeds ∨ ∃ parent ∈ seen, item ∈ children parent := by
  have sub : seen.Sublist (seeds ++ seen.flatMap children) := by
    conv_lhs => rw [explored.fixed]
    exact nil_append (seeds ++ seen.flatMap children) ▸ foldl_offer_sublist [] _
  rcases mem_append.mp (sub.subset mem) with seed | child
  · exact .inl seed
  · exact .inr (mem_flatMap.mp child)

theorem mem_keys {k : α} : k ∈ seen.map key ↔ k ∈ (seeds ++ seen.flatMap children).map key := by
  conv_lhs => rw [explored.fixed, firsts, mem_keys_foldl_offer]
  simp

theorem unique {other : β} (mem : item ∈ seen)
    (mem' : other ∈ seen) (same : key item = key other) : item = other :=
  inj_on_of_nodup_map explored.nodup mem mem' same

theorem first (mem : item ∈ seen) : (seeds ++ seen.flatMap children).find? (key · = key item) = some item := by
  rw [← find?_firsts fun k => decide (k = key item), ← explored.fixed]
  exact find?_of_nodup explored.nodup mem

end

variable (explores : Explores key depth children seeds next base limit)
include explores

variable (explored : Explored key depth children seeds seen)
include explored

theorem walk (mem : item ∈ seen) :
    ∃ n, depth item = base + n ∧ base + n ≤ limit ∧ Reaches next (seeds.map key) n (key item) := by
  generalize isDepth : depth item = d
  induction d using Nat.strongRecOn generalizing item with
  | ind d ih =>
    rcases explored.offered mem with seed | ⟨parent, isParent, isChild⟩
    · refine ⟨0, ?_, explores.shallow, .start (mem_map_of_mem seed)⟩
      rw [← isDepth, explores.level item seed, Nat.add_zero]
    · have deeper := explores.deeper parent item isChild
      obtain ⟨n, isLess, -, walk⟩ := ih (depth parent) (by omega) isParent rfl
      have below := explores.children parent
      have isNext := mem_map_of_mem (f := key) isChild
      rw [below] at isNext
      split at isNext
      · refine ⟨n + 1, by omega, by omega, .step walk isNext⟩
      · simp at isNext

theorem sorted_offers : (seeds ++ seen.flatMap children).Pairwise fun a b => depth a ≤ depth b := by
  rw [pairwise_append]
  refine ⟨pairwise_of_level explores.level, ?_, ?_⟩
  · rw [pairwise_flatMap]
    refine ⟨fun item _ => pairwise_of_level (explores.deeper item), explored.sorted.imp ?_⟩
    intro a b le child isChild other isOther
    rw [explores.deeper a child isChild, explores.deeper b other isOther]
    omega
  · intro seed isSeed child isChild
    obtain ⟨parent, isParent, isChild⟩ := mem_flatMap.mp isChild
    obtain ⟨n, isDepth, -, -⟩ := explored.walk explores isParent
    rw [explores.level seed isSeed, explores.deeper parent child isChild]
    omega

theorem depth_le {other : β} (mem : item ∈ seen)
    (isOffered : other ∈ seeds ++ seen.flatMap children) (same : key other = key item) : depth item ≤ depth other := by
  obtain ⟨-, front, back, split, earlier⟩ := find?_eq_some_iff_append.mp (explored.first mem)
  have sorted := explored.sorted_offers explores
  rw [split] at isOffered sorted
  rcases mem_append.mp isOffered with inFront | inBack
  · exact absurd same (by simpa using earlier other inFront)
  · rcases mem_cons.mp inBack with rfl | later
    · exact Nat.le_refl _
    · exact (pairwise_cons.mp (pairwise_append.mp sorted).2.1).1 other later

theorem complete {x : α} (walk : Reaches next (seeds.map key) n x) (short : base + n ≤ limit) :
    ∃ item ∈ seen, key item = x ∧ depth item ≤ base + n := by
  induction walk with
  | start mem =>
    obtain ⟨seed, isSeed, rfl⟩ := mem_map.mp mem
    have isOffered : seed ∈ seeds ++ seen.flatMap children := mem_append_left _ isSeed
    obtain ⟨item, isItem, same⟩ := mem_map.mp (explored.mem_keys.mpr (mem_map_of_mem isOffered))
    have le := explored.depth_le explores isItem isOffered same.symm
    rw [explores.level seed isSeed] at le
    exact ⟨item, isItem, same, le⟩
  | @step n x y walk mem ih =>
    obtain ⟨parent, isParent, rfl, shallow⟩ := ih (by omega)
    have below := explores.children parent
    rw [if_pos (by omega)] at below
    rw [← below] at mem
    obtain ⟨child, isChild, rfl⟩ := mem_map.mp mem
    have isOffered : child ∈ seeds ++ seen.flatMap children :=
      mem_append_right _ (mem_flatMap.mpr ⟨parent, isParent, isChild⟩)
    obtain ⟨item, isItem, same⟩ := mem_map.mp (explored.mem_keys.mpr (mem_map_of_mem isOffered))
    have le := explored.depth_le explores isItem isOffered same.symm
    rw [explores.deeper parent child isChild] at le
    exact ⟨item, isItem, same, by omega⟩

theorem mem_keys_iff {x : α} : x ∈ seen.map key ↔ ∃ n, base + n ≤ limit ∧ Reaches next (seeds.map key) n x := by
  constructor
  · intro mem
    obtain ⟨item, isItem, rfl⟩ := mem_map.mp mem
    obtain ⟨n, -, short, walk⟩ := explored.walk explores isItem
    exact ⟨n, short, walk⟩
  · rintro ⟨n, short, walk⟩
    obtain ⟨item, isItem, rfl, -⟩ := explored.complete explores walk short
    exact mem_map_of_mem isItem

theorem shortest (mem : item ∈ seen) :
    ∃ n, depth item = base + n ∧ base + n ≤ limit ∧ Shortest next (seeds.map key) n (key item) := by
  obtain ⟨n, isDepth, short, walk⟩ := explored.walk explores mem
  refine ⟨n, isDepth, short, walk, ?_⟩
  intro m other
  by_contra less
  obtain ⟨found, isFound, same, le⟩ := explored.complete explores other (by omega)
  have isItem := explored.unique isFound mem same
  subst isItem
  omega

end Explored

end Search

end Prismoire.Lib
