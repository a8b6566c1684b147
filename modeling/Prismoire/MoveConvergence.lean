import Prismoire.StatusConvergence

namespace Prismoire

open Lib List Db

structure MoveObject (platform : Platform) where
  wire : Bytes
  payload : Bytes
  signature : Bytes
  move : Move
  decodes : platform.decodeSignedObject wire = some (payload, signature)
  parses : platform.parse payload = some (.move move)

/-- Later is higher; among equal times the smaller hash. -/
def moveRank (item : Hash × Move) : Latest ℕ :=
  latest item.2.createdAt item.1.toNat

section

variable {state : AppState} {db : Db}

namespace MoveObject

variable (o : MoveObject state.platform)

def hash : Hash :=
  state.platform.sha256 o.payload

def item : Hash × Move :=
  (o.hash, o.move)

/-- The answer to a delivery asks for the predecessor first. -/
def Deferred (db : Db) (nowMs : Nat) : Prop :=
  applyOneMove state db o.wire nowMs = .ok (.deferred, db)

/-- A new move that would win but cannot be written: it names no domain, or it brings the key here while another local
user has its name. -/
def Blocked (db : Db) : Prop :=
  db.hasObject o.hash = false ∧ newWins (db.userHomes.find? (·.userKey = o.move.key)) o.move o.hash = true ∧
    (o.move.toInstance = "" ∨ nameClash state db o.move = true)

def written (db : Db) : Db :=
  moved state db o.move o.payload o.signature (newWins (db.userHomes.find? (·.userKey = o.move.key)) o.move o.hash)

end MoveObject

/-- The state after some deliveries, each with the clock that it is checked against. -/
def deliverMoves (state : AppState) (db : Db) (deliveries : List (MoveObject state.platform × Nat)) : Db :=
  deliveries.foldl (fun db delivery => deliverMove state db delivery.1.wire delivery.2) db

variable {o : MoveObject state.platform} {nowMs : Nat}

theorem deliverMove_cases (passes : admissible state o.move o.payload o.signature nowMs = true)
    (single : divergent db o.move = false) :
    (db.hasObject o.hash = true ∧ ¬ o.Deferred db nowMs ∧ deliverMove state db o.wire nowMs = db) ∨
    (db.hasObject o.hash = false ∧ o.Deferred db nowMs ∧ deliverMove state db o.wire nowMs = db) ∨
    (o.Blocked db ∧ ¬ o.Deferred db nowMs ∧ deliverMove state db o.wire nowMs = db) ∨
    (db.hasObject o.hash = false ∧ ¬ o.Blocked db ∧ ¬ o.Deferred db nowMs ∧
      deliverMove state db o.wire nowMs = o.written db) := by
  unfold MoveObject.Deferred deliverMove
  cases found : db.signedObjects.find? (·.canonicalHash = o.hash) with
  | some row =>
    left
    have same : row.canonicalHash = o.hash := by simpa using find?_some found
    have answer : applyOneMove state db o.wire nowMs = .ok (if row.payload.isNone then .schemaInvalid else .duplicate, db) := by
      unfold applyOneMove
      rw [o.decodes]
      dsimp only
      rw [← MoveObject.hash, found]
    refine ⟨any_eq_true.mpr ⟨row, mem_of_find?_eq_some found, by simp [same]⟩, ?_, ?_⟩
    · rw [answer]
      split <;> simp
    · rw [answer]
  | none =>
    right
    have absent : db.hasObject o.hash = false := Db.hasObject_of_find?_none found
    rw [applyOneMove_of_admissible o.decodes o.parses absent passes]
    by_cases waits : ungrounded db o.move = true
    · left
      rw [if_pos waits]
      exact ⟨absent, rfl, rfl⟩
    · right
      rw [if_neg waits, commitMove_eq single, ← MoveObject.hash]
      dsimp only
      by_cases wins : newWins (db.userHomes.find? (·.userKey = o.move.key)) o.move o.hash = true
      · by_cases nowhere : o.move.toInstance = ""
        · left
          simp [MoveObject.Blocked, absent, wins, nowhere]
        · by_cases clash : nameClash state db o.move = true
          · left
            simp [MoveObject.Blocked, absent, wins, nowhere, clash]
          · right
            simp [MoveObject.Blocked, MoveObject.written, absent, wins, nowhere, clash]
      · right
        rw [Bool.not_eq_true] at wins
        simp [MoveObject.Blocked, MoveObject.written, absent, wins]

structure MovesOf (key : Key) (genesisAt : Nat) (moves : List (MoveObject state.platform)) : Prop where
  own : ∀ o ∈ moves, o.move.key = key
  born : ∀ o ∈ moves, o.move.genesisAt = genesisAt
  apart : ∀ a ∈ moves, ∀ b ∈ moves, a.hash = b.hash → a.payload = b.payload

def HomeOf (state : AppState) (key : Key) (db : Db) : Option (Hash × Move) → Prop
  | none => ∀ row, db.userHomes.find? (·.userKey = key) = some row →
      row.currentMoveHash = none ∧ row.currentCreatedAt = none
  | some best => db.userHomes.find? (·.userKey = key) = some (moveHome best.2 best.1) ∧
      ∀ row ∈ db.users, row.publicKey = key → row.homeInstance = moveDestination state best.2

/-- An instance that has stored some of the moves, and has the key's home from the best of these. -/
structure MovesTracked (state : AppState) (key : Key) (genesisAt : Nat) (moves : List (MoveObject state.platform))
    (db : Db) : Prop where
  genesis : ∀ row, db.userGenesis.find? (·.userKey = key) = some row → row.genesisAt = asI64 genesisAt
  indexed : ∀ row, (row ∈ db.userMoves ∧ row.userKey = key) ↔
    ∃ o ∈ moves, db.hasObject o.hash = true ∧ row = ⟨key, o.hash, o.move.createdAt⟩
  fetched : ∀ o ∈ moves, db.hasObject o.hash = true → fetchMove state db o.hash = some o.move
  home : ∃ held, (∀ item, item ∈ held ↔ ∃ o ∈ moves, o.item = item ∧ db.hasObject o.hash = true) ∧
    HomeOf state key db (offers moveRank held)

variable {key : Key} {genesisAt : Nat} {moves : List (MoveObject state.platform)} {hash : Hash}

theorem MovesOf.item_eq (of : MovesOf key genesisAt moves) {a b : MoveObject state.platform} (inA : a ∈ moves)
    (inB : b ∈ moves) (same : a.hash = b.hash) : a.item = b.item := by
  have parsed := a.parses
  rw [of.apart a inA b inB same, b.parses, Option.some.injEq, SignedPayload.move.injEq] at parsed
  exact Prod.ext same parsed.symm

theorem MovesTracked.not_divergent (tracked : MovesTracked state key genesisAt moves db)
    (of : MovesOf key genesisAt moves) (mem : o ∈ moves) : divergent db o.move = false := by
  unfold divergent
  rw [of.own o mem]
  cases found : db.userGenesis.find? (·.userKey = key) with
  | none => rfl
  | some row => simp [tracked.genesis row found, of.born o mem, asU64_asI64_ofNat]

theorem hasObject_written (hash : Hash) : (o.written db).hasObject hash = true ↔ hash = o.hash ∨ db.hasObject hash = true :=
  hasObject_storeSignedObject

theorem fetchMove_written (absent : db.hasObject o.hash = false) : fetchMove state (o.written db) o.hash = some o.move := by
  have rows : (o.written db).signedObjects = db.signedObjects ++
      [{ canonicalHash := o.hash, innerClass := .move, payload := some o.payload, signature := o.signature }] :=
    congrArg signedObjects (storeSignedObject_of_absent absent)
  have none_ : db.signedObjects.find? (fun row => row.canonicalHash = o.hash ∧ row.innerClass = .move) = none := by
    rw [find?_eq_none]
    intro row mem named
    simp only [decide_eq_true_eq] at named
    have present : db.hasObject o.hash = true := any_eq_true.mpr ⟨row, mem, by simp [named.1]⟩
    rw [absent] at present
    cases present
  have found : (o.written db).signedObjects.find? (fun row => row.canonicalHash = o.hash ∧ row.innerClass = .move) =
      some { canonicalHash := o.hash, innerClass := .move, payload := some o.payload, signature := o.signature } := by
    rw [rows, find?_append, none_]
    simp
  unfold fetchMove
  rw [found]
  simp [o.parses]

theorem fetchMove_written_old {m : Move} (held : fetchMove state db hash = some m) :
    fetchMove state (o.written db) hash = some m := by
  unfold fetchMove at held ⊢
  obtain ⟨row, found, rest⟩ := Option.bind_eq_some_iff.mp held
  have kept : (o.written db).signedObjects.find? (fun row => row.canonicalHash = hash ∧ row.innerClass = .move) = some row := by
    change (db.storeSignedObject .move o.payload o.signature o.hash).signedObjects.find? _ = _
    unfold storeSignedObject
    dsimp only
    split
    · exact found
    · rw [find?_append, found]
      rfl
  rw [kept]
  exact rest

theorem MovesTracked.indexed_written (tracked : MovesTracked state key genesisAt moves db)
    (of : MovesOf key genesisAt moves) (mem : o ∈ moves) (small : o.move.createdAt < 2 ^ 63)
    (absent : db.hasObject o.hash = false) (row : UserMoveRow) :
    (row ∈ (o.written db).userMoves ∧ row.userKey = key) ↔
      ∃ other ∈ moves, (o.written db).hasObject other.hash = true ∧ row = ⟨key, other.hash, other.move.createdAt⟩ := by
  have column : asI64 o.move.createdAt = o.move.createdAt := by
    rw [asI64, Nat.mod_eq_of_lt (by omega), if_pos small]
  have appended : (o.written db).userMoves = db.userMoves ++ [⟨key, o.hash, o.move.createdAt⟩] := by
    change (insertUserMove db ⟨o.move.key, o.hash, asI64 o.move.createdAt⟩).userMoves = _
    unfold insertUserMove
    rw [column, of.own o mem]
    dsimp only
    rw [if_neg]
    intro present
    obtain ⟨old, inMoves, named⟩ := any_eq_true.mp present
    simp only [decide_eq_true_eq] at named
    obtain ⟨other, -, stored, isRow⟩ := (tracked.indexed old).mp ⟨inMoves, named.1⟩
    rw [isRow] at named
    have same : other.hash = o.hash := named.2
    rw [same, absent] at stored
    cases stored
  rw [appended, mem_append, mem_singleton]
  constructor
  · rintro ⟨old | rfl, own⟩
    · obtain ⟨other, inSet, stored, isRow⟩ := (tracked.indexed row).mp ⟨old, own⟩
      exact ⟨other, inSet, (hasObject_written _).mpr (.inr stored), isRow⟩
    · exact ⟨o, mem, (hasObject_written _).mpr (.inl rfl), rfl⟩
  · rintro ⟨other, inSet, stored, rfl⟩
    rcases (hasObject_written _).mp stored with same | old
    · have equal := of.item_eq inSet mem same
      simp only [MoveObject.item, Prod.mk.injEq] at equal
      exact ⟨.inr (by rw [equal.1, equal.2]), rfl⟩
    · have indexed := (tracked.indexed ⟨key, other.hash, other.move.createdAt⟩).mpr ⟨other, inSet, old, rfl⟩
      exact ⟨.inl indexed.1, rfl⟩

theorem newWins_seeded {row : UserHomeRow} {m : Move} (unmoved : row.currentMoveHash = none)
    (untimed : row.currentCreatedAt = none) : newWins (some row) m hash = true := by
  simp only [newWins, unmoved, untimed, Option.map_none, Option.getD_none, Nat.not_lt_zero, if_false, ite_self]

theorem newWins_rank (held new : Hash × Move) (small : held.2.createdAt < 2 ^ 63) :
    newWins (some (moveHome held.2 held.1)) new.2 new.1 = decide (moveRank held < moveRank new) := by
  have column : (asI64 held.2.createdAt).toNat = held.2.createdAt := by
    rw [asI64, Nat.mod_eq_of_lt (by omega), if_pos small, Int.toNat_natCast]
  rw [moveRank, moveRank, Bool.eq_iff_iff, decide_eq_true_eq, latest_lt]
  simp only [newWins, moveHome, Option.map_some, Option.getD_some, column]
  split
  · rename_i later
    simp [later]
  · split
    · rename_i notLater earlier
      simp only [Bool.false_eq_true, false_iff]
      omega
    · rename_i notLater notEarlier
      have same : held.2.createdAt = new.2.createdAt := by omega
      simp [same, BitVec.lt_def]

theorem HomeOf.of_wins (own : o.move.key = key)
    (wins : newWins (db.userHomes.find? (·.userKey = o.move.key)) o.move o.hash = true) :
    HomeOf state key (o.written db) (some o.item) := by
  unfold MoveObject.written
  rw [wins]
  refine ⟨?_, fun row mem named => ?_⟩
  · subst own
    exact @find?_upsertBy _ _ _ UserHomeRow.userKey db.userHomes (moveHome o.move o.hash)
  · obtain ⟨old, -, ⟨-, rfl⟩ | ⟨other, rfl⟩⟩ := mem_updateWhere.mp mem
    · rfl
    · rw [own] at other
      simp only [decide_eq_false_iff_not] at other
      exact absurd named other

theorem HomeOf.of_loses {best : Hash × Move}
    (loses : newWins (db.userHomes.find? (·.userKey = o.move.key)) o.move o.hash = false)
    (home : HomeOf state key db (some best)) : HomeOf state key (o.written db) (some best) := by
  obtain ⟨row, users⟩ := home
  unfold MoveObject.written
  rw [loses]
  exact ⟨row, forall_mem_updateWhere users fun _ => id⟩

theorem HomeOf.written {held : List (Hash × Move)} (small : ∀ item ∈ held, item.2.createdAt < 2 ^ 63)
    (own : o.move.key = key) (home : HomeOf state key db (offers moveRank held)) :
    HomeOf state key (o.written db) (offers moveRank (held ++ [o.item])) := by
  rw [offers_concat]
  obtain ⟨rfl, none_⟩ | ⟨best, isSome, isBest⟩ := offers_cases moveRank held
  · rw [none_] at home ⊢
    refine HomeOf.of_wins own ?_
    rw [own]
    cases found : db.userHomes.find? (·.userKey = key) with
    | none => rfl
    | some row => exact newWins_seeded (home row found).1 (home row found).2
  · rw [isSome] at home ⊢
    have wins := newWins_rank best o.item (small best isBest.member)
    rw [← home.1, ← own] at wins
    rw [keepHighest]
    by_cases outranked : moveRank best < moveRank o.item
    · rw [if_pos outranked]
      exact HomeOf.of_wins own (wins.trans (decide_eq_true outranked))
    · rw [if_neg outranked]
      exact HomeOf.of_loses (wins.trans (decide_eq_false outranked)) home

theorem MovesTracked.written (tracked : MovesTracked state key genesisAt moves db) (of : MovesOf key genesisAt moves)
    (small : ∀ o ∈ moves, o.move.createdAt < 2 ^ 63) (mem : o ∈ moves) (absent : db.hasObject o.hash = false) :
    MovesTracked state key genesisAt moves (o.written db) where
  genesis row found := by
    change (insertUserGenesis db (moveGenesis o.move)).userGenesis.find? _ = _ at found
    unfold insertUserGenesis at found
    dsimp only at found
    split at found
    · exact tracked.genesis row found
    · rw [find?_append, Option.or_eq_some_iff] at found
      rcases found with old | ⟨-, isNew⟩
      · exact tracked.genesis row old
      · rw [mem_singleton.mp (mem_of_find?_eq_some isNew)]
        exact congrArg asI64 (of.born o mem)
  indexed := tracked.indexed_written of mem (small o mem) absent
  fetched other inSet stored := by
    rcases (hasObject_written _).mp stored with same | old
    · have equal := of.item_eq inSet mem same
      simp only [MoveObject.item, Prod.mk.injEq] at equal
      rw [equal.1, equal.2]
      exact fetchMove_written absent
    · exact fetchMove_written_old (tracked.fetched other inSet old)
  home := by
    obtain ⟨held, holds, home⟩ := tracked.home
    have heldSmall : ∀ item ∈ held, item.2.createdAt < 2 ^ 63 := by
      intro item inHeld
      obtain ⟨other, inSet, rfl, -⟩ := (holds item).mp inHeld
      exact small other inSet
    refine ⟨held ++ [o.item], fun item => ?_, home.written heldSmall (of.own o mem)⟩
    rw [mem_append, holds, mem_singleton]
    constructor
    · rintro (⟨other, inSet, isItem, known⟩ | rfl)
      · exact ⟨other, inSet, isItem, (hasObject_written _).mpr (.inr known)⟩
      · exact ⟨o, mem, rfl, (hasObject_written _).mpr (.inl rfl)⟩
    · rintro ⟨other, inSet, rfl, known⟩
      rcases (hasObject_written _).mp known with same | old
      · exact .inr (of.item_eq inSet mem same)
      · exact .inl ⟨other, inSet, rfl, old⟩

/-- Deliveries of valid moves of a key, redelivered until none is deferred. -/
structure MoveRun (key : Key) (genesisAt : Nat) (moves : List (MoveObject state.platform)) (db : Db)
    (deliveries : List (MoveObject state.platform × Nat)) : Prop where
  of : MovesOf key genesisAt moves
  start : MovesTracked state key genesisAt moves db
  members : ∀ delivery ∈ deliveries, delivery.1 ∈ moves
  passes : ∀ delivery ∈ deliveries,
    admissible state delivery.1.move delivery.1.payload delivery.1.signature delivery.2 = true
  clock : ∀ delivery ∈ deliveries, delivery.2 + maxClockSkewMs < 2 ^ 63
  answered : ∀ o ∈ moves, ∃ earlier delivery later, deliveries = earlier ++ delivery :: later ∧
    delivery.1.hash = o.hash ∧ ¬ delivery.1.Deferred (deliverMoves state db earlier) delivery.2

/-- The move with the greatest time and, among equal times, the smallest hash. -/
structure MoveWinner (moves : List (MoveObject state.platform)) (winner : MoveObject state.platform) : Prop where
  member : winner ∈ moves
  first : ∀ o ∈ moves, o.move.createdAt < winner.move.createdAt ∨
    (o.move.createdAt = winner.move.createdAt ∧ winner.hash.toNat ≤ o.hash.toNat)

structure MovesResolved (state : AppState) (key : Key) (moves : List (MoveObject state.platform)) (db : Db) : Prop where
  indexed : ∀ o ∈ moves, (⟨key, o.hash, o.move.createdAt⟩ : UserMoveRow) ∈ db.userMoves
  home : moves ≠ [] → ∃ winner, MoveWinner moves winner ∧
    db.userHomes.find? (·.userKey = key) = some (moveHome winner.move winner.hash) ∧
    (∀ row ∈ db.users, row.publicKey = key →
      (row.homeInstance = none ↔ winner.move.toInstanceKey = state.instanceKey) ∧
      (winner.move.toInstanceKey ≠ state.instanceKey → row.homeInstance = some winner.move.toInstanceKey)) ∧
    ∀ t arrivedFrom, winner.move.createdAt ≤ t → resolveHomeAtT state db key t arrivedFrom = winner.move.toInstanceKey

variable {deliveries : List (MoveObject state.platform × Nat)}

section

variable (tracked : MovesTracked state key genesisAt moves db) (of : MovesOf key genesisAt moves)
include tracked of

theorem MovesTracked.deliver (small : ∀ o ∈ moves, o.move.createdAt < 2 ^ 63) (mem : o ∈ moves)
    (passes : admissible state o.move o.payload o.signature nowMs = true) :
    MovesTracked state key genesisAt moves (deliverMove state db o.wire nowMs) := by
  obtain ⟨-, -, same⟩ | ⟨-, -, same⟩ | ⟨-, -, same⟩ | ⟨absent, -, -, after⟩ :=
    deliverMove_cases passes (tracked.not_divergent of mem)
  · rwa [same]
  · rwa [same]
  · rwa [same]
  · rw [after]
    exact tracked.written of small mem absent

theorem MovesTracked.hasObject_deliver (mem : o ∈ moves)
    (passes : admissible state o.move o.payload o.signature nowMs = true)
    (known : db.hasObject hash = true) : (deliverMove state db o.wire nowMs).hasObject hash = true := by
  obtain ⟨-, -, same⟩ | ⟨-, -, same⟩ | ⟨-, -, same⟩ | ⟨-, -, -, after⟩ :=
    deliverMove_cases passes (tracked.not_divergent of mem)
  · rwa [same]
  · rwa [same]
  · rwa [same]
  · rw [after]
    exact (hasObject_written hash).mpr (.inr known)

variable (small : ∀ o ∈ moves, o.move.createdAt < 2 ^ 63) (members : ∀ delivery ∈ deliveries, delivery.1 ∈ moves)
  (passes : ∀ delivery ∈ deliveries, admissible state delivery.1.move delivery.1.payload delivery.1.signature delivery.2 = true)
include small members passes

theorem MovesTracked.deliverMoves : MovesTracked state key genesisAt moves (deliverMoves state db deliveries) ∧
      ∀ hash, db.hasObject hash = true → (Prismoire.deliverMoves state db deliveries).hasObject hash = true := by
  induction deliveries generalizing db with
  | nil => exact ⟨tracked, fun _ known => known⟩
  | cons delivery rest ih =>
    have mem := members delivery (by simp)
    have pass := passes delivery (by simp)
    obtain ⟨final, stays⟩ := ih (tracked.deliver of small mem pass)
      (fun other inRest => members other (mem_cons_of_mem _ inRest))
      fun other inRest => passes other (mem_cons_of_mem _ inRest)
    exact ⟨final, fun hash known => stays hash (tracked.hasObject_deliver of mem pass known)⟩

end

theorem MoveRun.small (run : MoveRun key genesisAt moves db deliveries) : ∀ o ∈ moves, o.move.createdAt < 2 ^ 63 := by
  intro o mem
  obtain ⟨earlier, delivery, later, rfl, same, -⟩ := run.answered o mem
  have inDeliveries : delivery ∈ earlier ++ delivery :: later := by simp
  have equal := run.of.item_eq (run.members delivery inDeliveries) mem same
  simp only [MoveObject.item, Prod.mk.injEq] at equal
  have passes := run.passes delivery inDeliveries
  simp only [admissible, Bool.and_eq_true, decide_eq_true_eq] at passes
  have clock := run.clock delivery inDeliveries
  rw [← equal.2]
  omega

theorem moveRank_le {a b : Hash × Move} : moveRank a ≤ moveRank b ↔
    a.2.createdAt < b.2.createdAt ∨ (a.2.createdAt = b.2.createdAt ∧ b.1.toNat ≤ a.1.toNat) := by
  rw [← not_lt, moveRank, moveRank, latest_lt]
  omega

def moveHistory (moves : List (MoveObject state.platform)) : MoveHistory where
  moves := moves.map MoveObject.item
  registered _ := 0

theorem moveHistory_lawful (of : MovesOf key genesisAt moves) (small : ∀ o ∈ moves, o.move.createdAt < 2 ^ 63) :
    (moveHistory moves).Lawful where
  apart a inA b inB same := by
    obtain ⟨a, memberA, rfl⟩ := mem_map.mp inA
    obtain ⟨b, memberB, rfl⟩ := mem_map.mp inB
    exact of.item_eq memberA memberB same
  small move mem := by
    obtain ⟨o, inSet, rfl⟩ := mem_map.mp mem
    exact small o inSet

section

variable (tracked : MovesTracked state key genesisAt moves db) (of : MovesOf key genesisAt moves)
  (small : ∀ o ∈ moves, o.move.createdAt < 2 ^ 63) (stored : ∀ o ∈ moves, db.hasObject o.hash = true)
include tracked of small stored

theorem MovesTracked.resolves
    {winner : MoveObject state.platform} (wins : MoveWinner moves winner) {t : Nat} (upTo : winner.move.createdAt ≤ t)
    (arrivedFrom : Key) : resolveHomeAtT state db key t arrivedFrom = winner.move.toInstanceKey := by
  have lawful := moveHistory_lawful of small
  have isLast : (moveHistory moves).Last key t winner.item := by
    refine ⟨mem_map_of_mem wins.member, of.own winner wins.member, upTo, fun other inHistory _ _ => ?_⟩
    obtain ⟨o, inSet, rfl⟩ := mem_map.mp inHistory
    exact wins.first o inSet
  have from_ : MovesOfFrom (moveHistory moves) db key := by
    intro row mem own
    obtain ⟨o, inSet, -, rfl⟩ := (tracked.indexed row).mp ⟨mem, own⟩
    refine ⟨o.item, mem_map_of_mem inSet, ?_⟩
    rw [← of.own o inSet]
    rfl
  have row := (tracked.indexed ⟨key, winner.hash, winner.move.createdAt⟩).mpr
    ⟨winner, wins.member, stored winner wins.member, rfl⟩
  have held : MoveHeld state db winner.item := by
    refine ⟨?_, tracked.fetched winner wins.member (stored winner wins.member)⟩
    rw [show winner.item.2.key = key from of.own winner wins.member]
    exact row.1
  have tells : TellsHome (moveHistory moves) state db key t arrivedFrom := .inl ⟨winner.item, isLast, held⟩
  exact (tells.resolve lawful from_).unique lawful (.inl ⟨winner.item, isLast, rfl⟩)

theorem MovesTracked.resolved : MovesResolved state key moves db := by
  refine ⟨fun o mem => ((tracked.indexed _).mpr ⟨o, mem, stored o mem, rfl⟩).1, fun some_ => ?_⟩
  obtain ⟨held, holds, home⟩ := tracked.home
  have all : ∀ item, item ∈ held ↔ ∃ o ∈ moves, o.item = item := by
    intro item
    rw [holds]
    exact ⟨fun ⟨o, mem, isItem, _⟩ => ⟨o, mem, isItem⟩,
      fun ⟨o, mem, isItem⟩ => ⟨o, mem, isItem, stored o mem⟩⟩
  obtain ⟨rfl, -⟩ | ⟨best, isSome, isBest⟩ := offers_cases moveRank held
  · obtain ⟨o, mem⟩ := exists_mem_of_ne_nil moves some_
    have := (all o.item).mpr ⟨o, mem, rfl⟩
    cases this
  · obtain ⟨winner, inSet, rfl⟩ := (all best).mp isBest.member
    have wins : MoveWinner moves winner :=
      ⟨inSet, fun o mem => moveRank_le.mp (isBest.highest o.item ((all o.item).mpr ⟨o, mem, rfl⟩))⟩
    rw [isSome] at home
    refine ⟨winner, wins, home.1, fun row mem named => ?_, fun t arrivedFrom upTo =>
      tracked.resolves of small stored wins upTo arrivedFrom⟩
    rw [home.2 row mem named, moveDestination]
    by_cases here : winner.item.2.toInstanceKey = state.instanceKey
    · rw [if_pos here]
      exact ⟨⟨fun _ => here, fun _ => rfl⟩, fun away => absurd here away⟩
    · rw [if_neg here]
      exact ⟨⟨nofun, fun isHere => absurd isHere here⟩, fun _ => rfl⟩

end

theorem MovesTracked.fresh
    (born : ∀ row, db.userGenesis.find? (·.userKey = key) = some row → row.genesisAt = asI64 genesisAt)
    (unmoved : ∀ row ∈ db.userMoves, row.userKey ≠ key) (seeded : HomeOf state key db none)
    (unknown : ∀ o ∈ moves, db.hasObject o.hash = false) : MovesTracked state key genesisAt moves db where
  genesis := born
  indexed row := by
    constructor
    · rintro ⟨mem, own⟩
      exact absurd own (unmoved row mem)
    · rintro ⟨o, mem, stored, -⟩
      rw [unknown o mem] at stored
      cases stored
  fetched o mem stored := by
    rw [unknown o mem] at stored
    cases stored
  home := by
    refine ⟨[], fun item => ?_, seeded⟩
    constructor
    · nofun
    · rintro ⟨o, mem, -, stored⟩
      rw [unknown o mem] at stored
      cases stored

end

end Prismoire
