import Prismoire.Db

namespace Prismoire

open Lib List

structure RecentReplierRow where
  threadId : Uuid
  rank : Int
  replier : Key
  repliedAt : Text

def recentRepliersBuffer : Int := 50

def RecentReplierRow.key (row : RecentReplierRow) : Uuid × Int :=
  (row.threadId, row.rank)

/-- The order in which an UPDATE comes to the rows. -/
structure RowOrder where
  visit : List RecentReplierRow → List RecentReplierRow
  perm : ∀ rows, (visit rows).Perm rows

/-- `UPDATE … SET reply_rank`: each row is checked against all others as they stand when it is written. -/
def updateRanks (hit : RecentReplierRow → Bool) (next : Int → Int) :
    List RecentReplierRow → List RecentReplierRow → Sql (List RecentReplierRow)
  | [], done => .ok done
  | row :: todo, done =>
    if hit row then do
      let moved := { row with rank := next row.rank }
      require (!(done ++ todo).any (·.key = moved.key)) .primaryKey
      updateRanks hit next todo (done ++ [moved])
    else
      updateRanks hit next todo (done ++ [row])

/-- The four statements by which a reply takes rank 0. -/
def pushReplier (order : RowOrder) (rows : List RecentReplierRow) (threadId : Uuid) (replier : Key) (at' : Text) :
    Sql (List RecentReplierRow) := do
  let trimmed := rows.filter fun row => !(row.threadId = threadId && recentRepliersBuffer - 1 ≤ row.rank)
  let shifted ← updateRanks (·.threadId = threadId) (fun rank => -(rank + 1)) (order.visit trimmed) []
  let flipped ← updateRanks (fun row => row.threadId = threadId && row.rank < 0) (fun rank => -rank)
    (order.visit shifted) []
  require (!flipped.any (·.key = (threadId, 0))) .primaryKey
  return flipped ++ [{ threadId, rank := 0, replier, repliedAt := at' }]

/-- The rows as the UPDATE leaves them. -/
def reranked (hit : RecentReplierRow → Bool) (next : Int → Int) (row : RecentReplierRow) : RecentReplierRow :=
  if hit row then { row with rank := next row.rank } else row

section

variable {hit : RecentReplierRow → Bool} {next : Int → Int} {rows todo done : List RecentReplierRow}

theorem updateRanks_ok (unique : UniqueBy RecentReplierRow.key (done ++ todo.map (reranked hit next)))
    (apart : ∀ row ∈ todo, hit row = true → ∀ other ∈ todo, (reranked hit next row).key ≠ other.key) :
    updateRanks hit next todo done = .ok (done ++ todo.map (reranked hit next)) := by
  induction todo generalizing done with
  | nil => simp [updateRanks]
  | cons row todo ih =>
    have reordered : done ++ (row :: todo).map (reranked hit next) =
        (done ++ [reranked hit next row]) ++ todo.map (reranked hit next) := by simp
    rw [reordered] at unique ⊢
    have later := ih unique fun row inTodo isHit other inOther =>
      apart row (mem_cons_of_mem _ inTodo) isHit other (mem_cons_of_mem _ inOther)
    cases isHit : hit row with
    | false => rw [updateRanks, isHit, if_neg (by simp), ← later, reranked, if_neg (by simp [isHit])]
    | true =>
      have moved : reranked hit next row = { row with rank := next row.rank } := if_pos isHit
      have free : (!(done ++ todo).any (·.key = (reranked hit next row).key)) = true := by
        rw [Bool.not_eq_true', any_eq_false]
        intro other mem same
        rcases mem_append.mp mem with inDone | inTodo
        · have nodup : ((done ++ [reranked hit next row]).map RecentReplierRow.key).Nodup := by
            rw [UniqueBy, map_append] at unique
            exact unique.of_append_left
          rw [map_append, nodup_append] at nodup
          exact nodup.2.2 _ (mem_map_of_mem inDone) _ (by simp) (of_decide_eq_true same)
        · exact apart row mem_cons_self isHit other (mem_cons_of_mem _ inTodo) (of_decide_eq_true same).symm
      rw [moved] at free later ⊢
      rw [updateRanks, isHit, if_pos rfl]
      exact require_bind_ok.mpr ⟨free, later⟩

theorem uniqueBy_map {set : RecentReplierRow → RecentReplierRow} (unique : UniqueBy RecentReplierRow.key rows)
    (apart : ∀ row ∈ rows, ∀ other ∈ rows, (set row).key = (set other).key → row.key = other.key) :
    UniqueBy RecentReplierRow.key (rows.map set) := by
  have nodup : rows.Nodup := List.Nodup.of_map _ unique
  rw [UniqueBy, map_map]
  exact nodup.map_on fun row inRows other inOther same => unique.eq inRows inOther (apart row inRows other inOther same)

theorem updateRanks_visit {order : RowOrder} (keys : UniqueBy RecentReplierRow.key rows)
    (injective : ∀ rank other, next rank = next other → rank = other)
    (leaves : ∀ row ∈ rows, hit row = true → ∀ other ∈ rows, row.threadId = other.threadId →
      next row.rank ≠ other.rank) :
    ∃ after, updateRanks hit next (order.visit rows) [] = .ok after ∧ UniqueBy RecentReplierRow.key after ∧
      ∀ row, row ∈ after ↔ ∃ old ∈ rows, row = reranked hit next old := by
  have visited : ∀ row, row ∈ order.visit rows ↔ row ∈ rows := fun row => (order.perm rows).mem_iff
  have visitedKeys : UniqueBy RecentReplierRow.key (order.visit rows) := ((order.perm rows).map _).nodup_iff.mpr keys
  have moved : ∀ row, hit row = true → reranked hit next row = { row with rank := next row.rank } :=
    fun row isHit => if_pos isHit
  have stays : ∀ row, ¬ hit row = true → reranked hit next row = row := fun row missed => if_neg missed
  have leaving : ∀ row ∈ rows, hit row = true → ∀ other ∈ rows, (reranked hit next row).key ≠ other.key := by
    intro row inRow isHit other inOther same
    rw [moved row isHit] at same
    exact leaves row inRow isHit other inOther (Prod.mk.inj same).1 (Prod.mk.inj same).2
  have apart : UniqueBy RecentReplierRow.key ((order.visit rows).map (reranked hit next)) := by
    refine uniqueBy_map visitedKeys fun row inRow other inOther same => ?_
    have inRow := (visited row).mp inRow
    have inOther := (visited other).mp inOther
    by_cases isHit : hit row = true <;> by_cases otherHit : hit other = true
    · rw [moved row isHit, moved other otherHit] at same
      exact Prod.ext (Prod.mk.inj same).1 (injective _ _ (Prod.mk.inj same).2)
    · rw [stays other otherHit] at same
      exact absurd same (leaving row inRow isHit other inOther)
    · rw [stays row isHit] at same
      exact absurd same.symm (leaving other inOther otherHit row inRow)
    · rwa [stays row isHit, stays other otherHit] at same
  refine ⟨_, updateRanks_ok apart fun row inRow isHit other inOther => ?_, apart, fun row => ?_⟩
  · exact leaving row ((visited row).mp inRow) isHit other ((visited other).mp inOther)
  · simp only [nil_append, mem_map, visited]
    exact exists_congr fun old => and_congr_right fun _ => eq_comm

end

structure Ranked (rows : List RecentReplierRow) : Prop where
  keys : UniqueBy RecentReplierRow.key rows
  nonneg : ∀ row ∈ rows, 0 ≤ row.rank

def RecentReplierRow.raised (row : RecentReplierRow) : RecentReplierRow :=
  { row with rank := row.rank + 1 }

variable {order : RowOrder} {rows : List RecentReplierRow} {threadId : Uuid} {replier : Key} {at' : Text}

theorem reranked_twice {row : RecentReplierRow} (above : 0 ≤ row.rank) :
    reranked (fun row => row.threadId = threadId && row.rank < 0) (fun rank => -rank)
      (reranked (·.threadId = threadId) (fun rank => -(rank + 1)) row) =
      if row.threadId = threadId then row.raised else row := by
  by_cases mine : row.threadId = threadId
  · have flipped : -(row.rank + 1) < 0 := by omega
    simp only [reranked, mine, decide_true, if_true, flipped, Bool.and_self, Int.neg_neg, RecentReplierRow.raised]
  · simp [reranked, mine]

theorem pushReplier_ok (ranked : Ranked rows) :
    ∃ after, pushReplier order rows threadId replier at' = .ok after ∧ Ranked after ∧
      ∀ row, row ∈ after ↔ row = { threadId, rank := 0, replier, repliedAt := at' } ∨
        (row ∈ rows ∧ row.threadId ≠ threadId) ∨
        ∃ old ∈ rows, old.threadId = threadId ∧ old.rank < recentRepliersBuffer - 1 ∧ row = old.raised := by
  let trimmed := rows.filter fun row => !(row.threadId = threadId && recentRepliersBuffer - 1 ≤ row.rank)
  have inTrimmed : ∀ row, row ∈ trimmed ↔
      row ∈ rows ∧ (row.threadId = threadId → row.rank < recentRepliersBuffer - 1) := by
    intro row
    simp only [trimmed, mem_filter, Bool.not_eq_true', Bool.and_eq_false_iff, decide_eq_false_iff_not, Int.not_le,
      ← imp_iff_not_or]
  have nonneg : ∀ row ∈ trimmed, 0 ≤ row.rank := fun row mem => ranked.nonneg row ((inTrimmed row).mp mem).1
  have keys : UniqueBy RecentReplierRow.key trimmed := ranked.keys.sublist (filter_sublist.map _)
  -- the first UPDATE takes the thread below zero, where no other row is
  obtain ⟨shifted, shift, shiftedKeys, inShifted⟩ := @updateRanks_visit (·.threadId = threadId) (fun rank => -(rank + 1))
    trimmed order keys (fun rank other same => by omega) (by
      intro row inRow _ other inOther _ same
      have above := nonneg row inRow
      have otherAbove := nonneg other inOther
      omega)
  have below : ∀ row ∈ shifted, row.threadId = threadId → row.rank < 0 := by
    intro row mem mine
    obtain ⟨old, inOld, rfl⟩ := (inShifted row).mp mem
    have above := nonneg old inOld
    by_cases hit : old.threadId = threadId
    · have under : -(old.rank + 1) < 0 := by omega
      simpa [reranked, hit] using under
    · rw [reranked, if_neg (by simpa using hit)] at mine
      exact absurd mine hit
  -- the second one takes it back, above the rows that are still below
  obtain ⟨flipped, flip, flippedKeys, inFlipped⟩ := @updateRanks_visit
    (fun row => row.threadId = threadId && row.rank < 0) (fun rank => -rank) shifted order shiftedKeys
    (fun rank other same => by omega) (by
      intro row _ isHit other inOther sameThread same
      simp only [Bool.and_eq_true, decide_eq_true_eq] at isHit
      have under := below other inOther (sameThread.symm.trans isHit.1)
      omega)
  have inFlipped : ∀ row, row ∈ flipped ↔ (row ∈ rows ∧ row.threadId ≠ threadId) ∨
      ∃ old ∈ rows, old.threadId = threadId ∧ old.rank < recentRepliersBuffer - 1 ∧ row = old.raised := by
    intro row
    rw [inFlipped]
    constructor
    · rintro ⟨mid, inMid, rfl⟩
      obtain ⟨old, inOld, rfl⟩ := (inShifted mid).mp inMid
      obtain ⟨inRows, kept⟩ := (inTrimmed old).mp inOld
      rw [reranked_twice (nonneg old inOld)]
      split
      · rename_i mine
        exact .inr ⟨old, inRows, mine, kept mine, rfl⟩
      · rename_i other
        exact .inl ⟨inRows, other⟩
    · rintro (⟨inRows, other⟩ | ⟨old, inRows, mine, kept, rfl⟩)
      · have inOld := (inTrimmed row).mpr ⟨inRows, fun mine => absurd mine other⟩
        exact ⟨_, (inShifted _).mpr ⟨row, inOld, rfl⟩, by rw [reranked_twice (nonneg row inOld), if_neg other]⟩
      · have inOld := (inTrimmed old).mpr ⟨inRows, fun _ => kept⟩
        exact ⟨_, (inShifted _).mpr ⟨old, inOld, rfl⟩, by rw [reranked_twice (nonneg old inOld), if_pos mine]⟩
  have notFirst : ∀ row ∈ flipped, row.key ≠ (threadId, 0) := by
    intro row mem same
    obtain ⟨thread, rank⟩ := Prod.mk.inj same
    rcases (inFlipped row).mp mem with ⟨-, other⟩ | ⟨old, inRows, -, -, rfl⟩
    · exact other thread
    · have above := ranked.nonneg old inRows
      simp only [RecentReplierRow.raised] at rank
      omega
  have free : (!flipped.any (·.key = (threadId, 0))) = true := by
    rw [Bool.not_eq_true', any_eq_false]
    exact fun row mem same => notFirst row mem (of_decide_eq_true same)
  refine ⟨flipped ++ [{ threadId, rank := 0, replier, repliedAt := at' }], ?_, ⟨?_, ?_⟩, ?_⟩
  · rw [pushReplier]
    exact bind_ok.mpr ⟨_, shift, bind_ok.mpr ⟨_, flip, require_bind_ok.mpr ⟨free, rfl⟩⟩⟩
  · exact flippedKeys.insert notFirst
  · intro row mem
    rcases mem_concat.mp mem with known | rfl
    · rcases (inFlipped row).mp known with ⟨inRows, -⟩ | ⟨old, inRows, -, -, rfl⟩
      · exact ranked.nonneg row inRows
      · exact Int.le_add_one (ranked.nonneg old inRows)
    · exact Int.le_refl _
  · intro row
    rw [mem_append, inFlipped, mem_singleton, or_comm]

end Prismoire
