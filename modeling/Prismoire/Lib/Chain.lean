import Mathlib.Data.List.Nodup

namespace Prismoire.Lib

open List

variable {α η : Type} {hash : α → η} {prior : α → Option η} {start : Option η} {items : List α} {item : α}

def Linked (hash : α → η) (prior : α → Option η) : Option η → List α → Prop
  | _, [] => True
  | start, item :: rest => prior item = start ∧ Linked hash prior (some (hash item)) rest

def tip (hash : α → η) (items : List α) : Option η :=
  items.getLast?.map hash

theorem tip_cons {rest : List α} : tip hash (item :: rest) = (tip hash rest).or (some (hash item)) := by
  cases rest with
  | nil => rfl
  | cons next rest =>
    cases last : (next :: rest).getLast? with
    | none => simp at last
    | some final => simp [tip, getLast?_cons_cons, last]

theorem Linked.append (linked : Linked hash prior start items)
    (next : prior item = (tip hash items).or start) : Linked hash prior start (items ++ [item]) := by
  induction items generalizing start with
  | nil => exact ⟨by simpa [tip] using next, trivial⟩
  | cons first rest ih =>
    refine ⟨linked.1, ih linked.2 ?_⟩
    rw [next, tip_cons]
    cases tip hash rest <;> rfl

theorem Linked.of_append {front back : List α}
    (linked : Linked hash prior start (front ++ back)) : Linked hash prior start front := by
  induction front generalizing start with
  | nil => trivial
  | cons item front ih => exact ⟨linked.1, ih linked.2⟩

theorem Linked.prior_eq {front back : List α}
    (linked : Linked hash prior start (front ++ item :: back)) :
    prior item = (tip hash front).or start := by
  induction front generalizing start with
  | nil => simpa [tip] using linked.1
  | cons first front ih =>
    rw [ih linked.2, tip_cons]
    cases tip hash front <;> rfl

theorem Linked.tip_or_successor (linked : Linked hash prior start items) (mem : item ∈ items) :
    tip hash items = some (hash item) ∨ ∃ next ∈ items, prior next = some (hash item) := by
  induction items generalizing start with
  | nil => simp at mem
  | cons first rest ih =>
    rcases mem_cons.mp mem with rfl | inRest
    · cases rest with
      | nil => exact .inl rfl
      | cons next rest => exact .inr ⟨next, by simp, linked.2.1⟩
    · rcases ih linked.2 inRest with last | ⟨next, inRest', names⟩
      · left
        rw [tip_cons, last]
        rfl
      · exact .inr ⟨next, mem_cons_of_mem _ inRest', names⟩

theorem Linked.getElem_prior (linked : Linked hash prior start items)
    {i : Nat} (bound : i + 1 < items.length) :
    prior items[i + 1] = some (hash items[i]) := by
  induction items generalizing start i with
  | nil => simp at bound
  | cons first rest ih =>
    cases i with
    | zero =>
      cases rest with
      | nil => simp at bound
      | cons next rest => exact linked.2.1
    | succ i =>
      have inside : i + 1 < rest.length := by simpa using bound
      exact ih linked.2 inside

/-- In a chain from nothing, items with one hash and hence one predecessor are at one place. -/
theorem Linked.nodup_hash (linked : Linked hash prior none items)
    (collisionFree : ∀ a ∈ items, ∀ b ∈ items, hash a = hash b → prior a = prior b) :
    (items.map hash).Nodup := by
  have apart : ∀ i j (boundI : i < items.length) (boundJ : j < items.length), i < j →
      hash items[i] ≠ hash items[j] := by
    intro i
    induction i with
    | zero =>
      intro j boundI boundJ less same
      obtain ⟨k, rfl⟩ : ∃ k, j = k + 1 := ⟨j - 1, by omega⟩
      have samePrior := collisionFree _ (getElem_mem boundI) _ (getElem_mem boundJ) same
      rw [linked.getElem_prior boundJ] at samePrior
      cases items with
      | nil => simp at boundI
      | cons first rest => simp [linked.1] at samePrior
    | succ i ih =>
      intro j boundI boundJ less same
      obtain ⟨k, rfl⟩ : ∃ k, j = k + 1 := ⟨j - 1, by omega⟩
      have samePrior := collisionFree _ (getElem_mem boundI) _ (getElem_mem boundJ) same
      rw [linked.getElem_prior boundI, linked.getElem_prior boundJ, Option.some.injEq] at samePrior
      exact ih k (by omega) (by omega) (by omega) samePrior
  rw [nodup_iff_injective_get]
  intro i j same
  by_contra other
  have boundI : i.val < items.length := by simpa using i.isLt
  have boundJ : j.val < items.length := by simpa using j.isLt
  have equal : hash items[i.val] = hash items[j.val] := by simpa using same
  rcases Nat.lt_or_gt_of_ne (fun equalIndex => other (Fin.ext equalIndex)) with less | greater
  · exact apart i j boundI boundJ less equal
  · exact apart j i boundJ boundI greater equal.symm

end Prismoire.Lib
