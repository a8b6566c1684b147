import Prismoire.Eviction
import Prismoire.Lib.Keyset

namespace Prismoire

open Lib List Function

def totalSize (rows : List AttachmentBlobRow) : Nat :=
  (rows.map (·.size)).sum

theorem totalSize_append (older newer : List AttachmentBlobRow) :
    totalSize (older ++ newer) = totalSize older + totalSize newer := by
  simp [totalSize]

namespace BlobStore

def lruOrder (s : BlobStore) : List AttachmentBlobRow :=
  (s.db.attachmentBlobs.filter s.eligible).insertionSort fun a b => s.accessedAt a.contentHash ≤ s.accessedAt b.contentHash

def dropAll (s : BlobStore) (rows : List AttachmentBlobRow) : BlobStore :=
  { s with blob := fun hash => if hash ∈ rows.map (·.contentHash) then none else s.blob hash }

section Dropping

variable {s : BlobStore} {taken rest : List AttachmentBlobRow}

theorem dropAll_nil : s.dropAll [] = s := by
  simp [dropAll]

theorem dropAll_dropBytes (row : AttachmentBlobRow) :
    (s.dropBytes row.contentHash).dropAll taken = s.dropAll (row :: taken) := by
  simp only [dropAll, dropBytes, BlobStore.mk.injEq, true_and, and_true]
  funext hash
  by_cases first : hash = row.contentHash
  · simp [first]
  · simp [first]

theorem dropAll_dropAll : (s.dropAll taken).dropAll rest = s.dropAll (taken ++ rest) := by
  simp only [dropAll, BlobStore.mk.injEq, true_and, and_true]
  funext hash
  rw [map_append]
  by_cases first : hash ∈ taken.map (·.contentHash)
  · rw [if_pos first, if_pos (mem_append_left _ first), ite_self]
  · by_cases second : hash ∈ rest.map (·.contentHash)
    · rw [if_pos second, if_pos (mem_append_right _ second)]
    · rw [if_neg second, if_neg first, if_neg (by simp only [mem_append, first, second, or_self, not_false_eq_true])]

theorem eligible_dropAll (row : AttachmentBlobRow) :
    (s.dropAll taken).eligible row = (s.eligible row && !(row.contentHash ∈ taken.map (·.contentHash))) := by
  have bound : (s.dropAll taken).originBound row.contentHash = s.originBound row.contentHash := rfl
  by_cases dropped : row.contentHash ∈ taken.map (·.contentHash)
  · have gone : (s.dropAll taken).blob row.contentHash = none := if_pos dropped
    simp only [eligible, gone, Option.isSome_none, Bool.false_and, dropped, decide_true, Bool.not_true, Bool.and_false]
  · have kept : (s.dropAll taken).blob row.contentHash = s.blob row.contentHash := if_neg dropped
    simp only [eligible, bound, kept, dropped, decide_false, Bool.not_false, Bool.and_true]

theorem mem_lruOrder {row : AttachmentBlobRow} :
    row ∈ s.lruOrder ↔ row ∈ s.db.attachmentBlobs ∧ s.eligible row = true := by
  rw [lruOrder, (perm_insertionSort _ _).mem_iff, mem_filter]

theorem totalSize_lruOrder : totalSize s.lruOrder = s.eligibleBytesUsed := by
  have perm := (perm_insertionSort (fun a b => s.accessedAt a.contentHash ≤ s.accessedAt b.contentHash)
    (s.db.attachmentBlobs.filter s.eligible)).map (·.size)
  exact perm.sum_eq

instance : Std.Total fun a b : AttachmentBlobRow => s.accessedAt a.contentHash ≤ s.accessedAt b.contentHash :=
  ⟨fun _ _ => Nat.le_total _ _⟩

instance : IsTrans AttachmentBlobRow fun a b => s.accessedAt a.contentHash ≤ s.accessedAt b.contentHash :=
  ⟨fun _ _ _ => Nat.le_trans⟩

theorem lruOrder_dropAll (distinct : (s.db.attachmentBlobs.map (·.contentHash)).Nodup)
    (split : s.lruOrder = taken ++ rest) : (s.dropAll taken).lruOrder = rest := by
  have left : (s.dropAll taken).lruOrder = s.lruOrder.filter fun row => !(row.contentHash ∈ taken.map (·.contentHash)) := by
    rw [lruOrder, lruOrder, ← insertionSort_filter, filter_filter]
    have same : (fun row => (s.dropAll taken).eligible row) =
        fun row => !(row.contentHash ∈ taken.map (·.contentHash)) && s.eligible row := by
      funext row
      rw [eligible_dropAll, Bool.and_comm]
    exact congrArg (List.insertionSort _) (congrArg (List.filter · s.db.attachmentBlobs) same)
  have apart : (s.lruOrder.map (·.contentHash)).Nodup := sorted_distinct distinct
  rw [split, map_append] at apart
  obtain ⟨-, -, disjoint⟩ := nodup_append.mp apart
  rw [left, split, filter_append, filter_eq_nil_iff.mpr, filter_eq_self.mpr, nil_append]
  · intro row later
    have other : row.contentHash ∉ taken.map (·.contentHash) := fun mem =>
      disjoint _ mem _ (mem_map_of_mem later) rfl
    simpa using other
  · intro row mem
    simpa using ⟨row, mem, rfl⟩

end Dropping

section Batches

variable {s : BlobStore}

theorem evictRows_spec {target : Int} {rows : List AttachmentBlobRow} {tally : Nat × Int}
    (distinct : (rows.map (·.contentHash)).Nodup) (eligible : ∀ row ∈ rows, s.eligible row = true) :
    ∃ taken rest, rows = taken ++ rest ∧
      evictRows target rows tally s = ((tally.1 + taken.length, tally.2 + totalSize taken), s.dropAll taken) ∧
      (rows ≠ [] → taken ≠ []) ∧
      ∀ shorter, shorter <+: taken → shorter ≠ taken → shorter = [] ∨ tally.2 + totalSize shorter < target := by
  induction rows generalizing tally s with
  | nil =>
    refine ⟨[], [], rfl, by simp [evictRows, dropAll_nil, totalSize], by simp, fun shorter within _ => .inl ?_⟩
    exact prefix_nil.mp within
  | cons row rows ih =>
    obtain ⟨fresh, distinct⟩ := nodup_cons.mp distinct
    rw [evictRows, if_pos (eligible row mem_cons_self)]
    dsimp only
    by_cases enough : target ≤ tally.2 + row.size
    · rw [if_pos enough]
      refine ⟨[row], rows, rfl, by simp [← dropAll_dropBytes, dropAll_nil, totalSize], by simp, ?_⟩
      intro shorter within other
      obtain rfl | ⟨rest, rfl, inner⟩ := prefix_cons_iff.mp within
      · exact .inl rfl
      · exact absurd (by rw [prefix_nil.mp inner]) other
    · rw [if_neg enough]
      have others : ∀ other ∈ rows, (s.dropBytes row.contentHash).eligible other = true := by
        intro other mem
        have differs : other.contentHash ≠ row.contentHash := fun same =>
          fresh (mem_map.mpr ⟨other, mem, same⟩)
        have before := eligible other (mem_cons_of_mem _ mem)
        simpa [BlobStore.eligible, originBound, dropBytes, differs] using before
      obtain ⟨taken, rest, split, result, -, least⟩ :=
        @ih (s.dropBytes row.contentHash) (tally.1 + 1, tally.2 + row.size) distinct others
      refine ⟨row :: taken, rest, by rw [split]; rfl, ?_, by simp, ?_⟩
      · rw [result, dropAll_dropBytes]
        simp only [totalSize, map_cons, sum_cons, length_cons, Prod.mk.injEq, and_true]
        omega
      · intro shorter within other
        obtain rfl | ⟨inner, rfl, onward⟩ := prefix_cons_iff.mp within
        · exact .inl rfl
        · right
          obtain rfl | short := least inner onward fun same => other (by rw [same])
          · simp only [totalSize, map_cons, map_nil, sum_cons, sum_nil]
            omega
          · simp only [totalSize, map_cons, sum_cons] at short ⊢
            omega

/-- What a run has left to do: the budget, and what the eligible rows add up to. -/
def Running (s : BlobStore) (maxBytes : Nat) : Prop :=
  s.eviction = some ⟨maxBytes, totalSize s.lruOrder⟩

variable {maxBytes : Nat}

theorem overBudget_iff {used : Nat} (fits : used ≤ i64Max) :
    EvictionPass.overBudget ⟨maxBytes, used⟩ = true ↔ maxBytes < used := by
  have small : ((used : Int) % 2 ^ 64).toNat = used := by
    simp only [i64Max] at fits
    omega
  simp only [EvictionPass.overBudget, small, decide_eq_true_eq]

theorem evictBatch_done (running : s.Running maxBytes) (fits : totalSize s.lruOrder ≤ i64Max)
    (within : totalSize s.lruOrder ≤ maxBytes) : s.evictBatch = { s with eviction := none } := by
  have stops : ¬EvictionPass.overBudget ⟨maxBytes, totalSize s.lruOrder⟩ = true := by
    rw [overBudget_iff fits]
    omega
  rw [Running] at running
  simp only [evictBatch, running, stops, Bool.false_eq_true, if_false]

/-- Removing less than these rows leaves more than the budget. -/
def Needed (order taken : List AttachmentBlobRow) (maxBytes : Nat) : Prop :=
  ∀ shorter, shorter <+: taken → shorter ≠ taken → maxBytes < totalSize (order.drop shorter.length)

theorem evictBatch_takes (distinct : (s.db.attachmentBlobs.map (·.contentHash)).Nodup)
    (running : s.Running maxBytes) (fits : totalSize s.lruOrder ≤ i64Max) (past : maxBytes < totalSize s.lruOrder) :
    ∃ taken rest, s.lruOrder = taken ++ rest ∧ taken ≠ [] ∧
      s.evictBatch = { s.dropAll taken with eviction := some ⟨maxBytes, totalSize rest⟩ } ∧
      Needed s.lruOrder taken maxBytes := by
  have goes := (overBudget_iff fits).mpr past
  have target : max 0 ((totalSize s.lruOrder : Int) - maxBytes) = (totalSize s.lruOrder : Int) - maxBytes := by omega
  have batch : s.candidates = s.lruOrder.take batchSize := rfl
  have some_ : s.candidates ≠ [] := by
    intro none_
    rw [batch, take_eq_nil_iff] at none_
    obtain none_ | none_ := none_
    · exact absurd none_ (by decide)
    · rw [none_] at past
      simp [totalSize] at past
  obtain ⟨taken, rest, split, result, takes, least⟩ :=
    @evictRows_spec s ((totalSize s.lruOrder : Int) - maxBytes) s.candidates (0, 0)
      (((sorted_distinct distinct).sublist ((take_sublist _ _).map _)))
      (fun row mem => (mem_lruOrder.mp (mem_of_mem_take mem)).2)
  have whole : s.lruOrder = taken ++ (rest ++ s.lruOrder.drop batchSize) := by
    rw [← append_assoc, ← split, batch, take_append_drop]
  have size : totalSize s.lruOrder = totalSize taken + totalSize (rest ++ s.lruOrder.drop batchSize) := by
    rw [← totalSize_append, ← whole]
  have nonempty := takes some_
  refine ⟨taken, rest ++ s.lruOrder.drop batchSize, whole, nonempty, ?_, ?_⟩
  · rw [Running] at running
    have counted : (0 + taken.length = 0) = False := by simpa using nonempty
    simp only [evictBatch, running, goes, if_true, evictOneBatch, target, result, counted, if_false]
    rw [show ((totalSize s.lruOrder : Int) - (0 + (totalSize taken : Int))) =
      (totalSize (rest ++ s.lruOrder.drop batchSize) : Nat) by omega]
  · intro shorter within other
    have split : totalSize s.lruOrder = totalSize shorter + totalSize (s.lruOrder.drop shorter.length) := by
      obtain ⟨more, rfl⟩ := within
      rw [whole, append_assoc, drop_left, totalSize_append]
    obtain rfl | short := least shorter within other
    · simpa using past
    · simp only at short
      omega

theorem eviction_run (fuel : Nat) (distinct : (s.db.attachmentBlobs.map (·.contentHash)).Nodup)
    (running : s.Running maxBytes) (fits : totalSize s.lruOrder ≤ i64Max) (fuelled : s.lruOrder.length < fuel) :
    ∃ taken rest, s.lruOrder = taken ++ rest ∧
      BlobStore.evictBatch^[fuel] s = { s.dropAll taken with eviction := none } ∧
      totalSize rest ≤ maxBytes ∧ Needed s.lruOrder taken maxBytes := by
  induction fuel generalizing s with
  | zero => exact absurd fuelled (Nat.not_lt_zero _)
  | succ fuel ih =>
    rw [iterate_succ_apply]
    by_cases within : totalSize s.lruOrder ≤ maxBytes
    · rw [evictBatch_done running fits within]
      have ended : ∀ n, BlobStore.evictBatch^[n] { s with eviction := none } = { s with eviction := none } :=
        fun n => iterate_fixed rfl n
      refine ⟨[], s.lruOrder, rfl, by rw [ended, dropAll_nil], within, ?_⟩
      intro shorter before other
      exact absurd (prefix_nil.mp before) other
    · obtain ⟨taken, rest, split, nonempty, result, needed⟩ :=
        evictBatch_takes distinct running fits (Nat.lt_of_not_le within)
      have onward : ({ s.dropAll taken with eviction := some ⟨maxBytes, totalSize rest⟩ } : BlobStore).lruOrder = rest :=
        lruOrder_dropAll distinct split
      have lengths : s.lruOrder.length = taken.length + rest.length := by rw [split, length_append]
      have sizes : totalSize s.lruOrder = totalSize taken + totalSize rest := by rw [split, totalSize_append]
      have shorter : 0 < taken.length := length_pos_iff.mpr nonempty
      obtain ⟨more, left, splitRest, final, enough, neededRest⟩ :=
        @ih { s.dropAll taken with eviction := some ⟨maxBytes, totalSize rest⟩ } distinct
          (by rw [Running, onward]) (by rw [onward]; omega) (by rw [onward]; omega)
      rw [onward] at splitRest neededRest
      refine ⟨taken ++ more, left, by rw [split, splitRest, append_assoc], ?_, enough, ?_⟩
      · rw [result, final, ← dropAll_dropAll]
        rfl
      · intro some_ before other
        obtain earlier | ⟨inner, rfl⟩ := prefix_or_prefix_of_prefix before (prefix_append taken more)
        · by_cases whole : some_ = taken
          · subst whole
            have after := neededRest [] ( nil_prefix) fun none_ => other (by rw [← none_, append_nil])
            rw [split, drop_left]
            simpa using after
          · exact needed some_ earlier whole
        · have within : inner <+: more := (prefix_append_right_inj taken).mp before
          have after := neededRest inner within fun same => other (by rw [same])
          rwa [split, length_append, ← drop_drop, drop_left]

end Batches

/--
What a whole pass takes: the shortest front of the eligible rows in the order of their last access
that brings the rest within the budget. The content hash is the key of the table, and its sizes add up
to the integer that the first statement reads.
-/
theorem eviction_exact (s : BlobStore) (maxBytes : Nat) (distinct : (s.db.attachmentBlobs.map (·.contentHash)).Nodup)
    (fits : s.eligibleBytesUsed ≤ i64Max) :
    s.lruOrder.Perm (s.db.attachmentBlobs.filter s.eligible) ∧
      s.lruOrder.Pairwise (fun a b => s.accessedAt a.contentHash ≤ s.accessedAt b.contentHash) ∧
      ∃ taken rest, s.lruOrder = taken ++ rest ∧ s.runEviction maxBytes = { s.dropAll taken with eviction := none } ∧
        (s.runEviction maxBytes).eligibleBytesUsed ≤ maxBytes ∧ Needed s.lruOrder taken maxBytes := by
  refine ⟨perm_insertionSort _ _, pairwise_insertionSort _ _, ?_⟩
  have started : (s.beginEviction maxBytes).lruOrder = s.lruOrder := rfl
  have fuelled : s.lruOrder.length < s.db.attachmentBlobs.length + 1 := by
    have shorter := length_filter_le s.eligible s.db.attachmentBlobs
    rw [lruOrder, length_insertionSort]
    omega
  obtain ⟨taken, rest, split, result, enough, needed⟩ :=
    @eviction_run (s.beginEviction maxBytes) maxBytes (s.db.attachmentBlobs.length + 1) distinct
      (by rw [Running, started, totalSize_lruOrder]; rfl) (by rwa [started, totalSize_lruOrder]) fuelled
  refine ⟨taken, rest, split, result, ?_, needed⟩
  have left : (s.dropAll taken).lruOrder = rest := lruOrder_dropAll distinct split
  have same : (s.runEviction maxBytes).eligibleBytesUsed = (s.dropAll taken).eligibleBytesUsed := by
    rw [runEviction, result]
    rfl
  rwa [same, ← totalSize_lruOrder, left]

/-- Of three files the two that nobody has asked for lately go. -/
theorem eviction_of_three :
    let rows : List AttachmentBlobRow := [⟨1, "text/plain", 40, 0⟩, ⟨2, "text/plain", 30, 0⟩, ⟨3, "text/plain", 20, 0⟩]
    let s : BlobStore :=
      { db := { attachmentBlobs := rows }, blob := fun _ => some [], accessedAt := fun hash => 9 - hash.toNat }
    (s.db.attachmentBlobs.map (·.contentHash)).Nodup ∧ s.eligibleBytesUsed = 90 ∧
      s.lruOrder.map (·.contentHash) = [3, 2, 1] ∧ (s.runEviction 50).eligibleBytesUsed = 40 ∧
      (s.runEviction 50).eligibleBytesUsed ≤ 50 := by
  intro rows s
  have distinct : (s.db.attachmentBlobs.map (·.contentHash)).Nodup := by decide +kernel
  have fits : s.eligibleBytesUsed ≤ i64Max := by decide +kernel
  obtain ⟨-, -, taken, rest, -, -, enough, -⟩ := eviction_exact s 50 distinct fits
  exact ⟨distinct, by decide +kernel, by decide +kernel, by decide +kernel, enough⟩

end BlobStore

end Prismoire
