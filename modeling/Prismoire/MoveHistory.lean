import Prismoire.RemoteUsers

namespace Prismoire

open Lib List

structure MoveHistory where
  moves : List (Hash × Move)
  registered : Key → Key

namespace MoveHistory

variable (history : MoveHistory)

/-- The last move of a key up to a time; among moves of one time the one with the smallest hash. -/
structure Last (key : Key) (t : Nat) (move : Hash × Move) : Prop where
  member : move ∈ history.moves
  own : move.2.key = key
  upTo : move.2.createdAt ≤ t
  last : ∀ other ∈ history.moves, other.2.key = key → other.2.createdAt ≤ t → other.2.createdAt < move.2.createdAt ∨
    (other.2.createdAt = move.2.createdAt ∧ move.1.toNat ≤ other.1.toNat)

structure First (key : Key) (move : Hash × Move) : Prop where
  member : move ∈ history.moves
  own : move.2.key = key
  first : ∀ other ∈ history.moves, other.2.key = key → move.2.createdAt < other.2.createdAt ∨
    (move.2.createdAt = other.2.createdAt ∧ move.1.toNat ≤ other.1.toNat)

def Unmoved (key : Key) (t : Nat) : Prop :=
  ∀ move ∈ history.moves, move.2.key = key → t < move.2.createdAt

def HomeAt (key : Key) (t : Nat) (home : Key) : Prop :=
  (∃ move, history.Last key t move ∧ home = move.2.toInstanceKey) ∨
    (history.Unmoved key t ∧ home = history.registered key)

/-- A hash names one move, and times are below the sign bit. -/
structure Lawful : Prop where
  apart : ∀ a ∈ history.moves, ∀ b ∈ history.moves, a.1 = b.1 → a = b
  small : ∀ move ∈ history.moves, move.2.createdAt < 2 ^ 63

end MoveHistory

variable {history : MoveHistory} {state : AppState} {db : Db} {key : Key} {t : Nat}

theorem MoveHistory.Last.unique (lawful : history.Lawful) {a b : Hash × Move} (isLast : history.Last key t a)
    (isLast' : history.Last key t b) : a = b := by
  have ab := isLast.last b isLast'.member isLast'.own isLast'.upTo
  have ba := isLast'.last a isLast.member isLast.own isLast.upTo
  exact lawful.apart a isLast.member b isLast'.member (BitVec.eq_of_toNat_eq (by omega))

theorem MoveHistory.HomeAt.unique (lawful : history.Lawful) {home other : Key} (isHome : history.HomeAt key t home)
    (isOther : history.HomeAt key t other) : home = other := by
  rcases isHome with ⟨move, isLast, rfl⟩ | ⟨unmoved, rfl⟩
  · rcases isOther with ⟨move', isLast', rfl⟩ | ⟨unmoved, -⟩
    · rw [isLast.unique lawful isLast']
    · exact absurd (unmoved move isLast.member isLast.own) (Nat.not_lt.mpr isLast.upTo)
  · rcases isOther with ⟨move', isLast', rfl⟩ | ⟨-, rfl⟩
    · exact absurd (unmoved move' isLast'.member isLast'.own) (Nat.not_lt.mpr isLast'.upTo)
    · rfl

def MovesOfFrom (history : MoveHistory) (db : Db) (key : Key) : Prop :=
  ∀ row ∈ db.userMoves, row.userKey = key → ∃ move ∈ history.moves, row = ⟨move.2.key, move.1, move.2.createdAt⟩

def MovesFrom (history : MoveHistory) (db : Db) : Prop :=
  ∀ key, MovesOfFrom history db key

/-- A move that is indexed here and whose bytes can be read. -/
def MoveHeld (state : AppState) (db : Db) (move : Hash × Move) : Prop :=
  (⟨move.2.key, move.1, move.2.createdAt⟩ : UserMoveRow) ∈ db.userMoves ∧ fetchMove state db move.1 = some move.2

theorem fetchMove_store {state : AppState} {db : Db} {innerClass : InnerClass} {payload signature : Bytes} {stored : Hash}
    (other : innerClass ≠ .move) (hash : Hash) :
    fetchMove state (db.storeSignedObject innerClass payload signature stored) hash = fetchMove state db hash := by
  have same : (db.storeSignedObject innerClass payload signature stored).signedObjects.find?
        (fun row => row.canonicalHash = hash ∧ row.innerClass = .move) =
      db.signedObjects.find? fun row => row.canonicalHash = hash ∧ row.innerClass = .move := by
    dsimp only [Db.storeSignedObject]
    split
    · rfl
    · rw [find?_append]
      simp [other]
  unfold fetchMove
  rw [same]

theorem moveLater_trans (a b c : UserMoveRow) (ab : moveLater a b = true) (bc : moveLater b c = true) :
    moveLater a c = true := by
  simp only [moveLater, Bool.or_eq_true, decide_eq_true_eq, Bool.and_eq_true, beq_iff_eq, BitVec.lt_def] at ab bc ⊢
  omega

theorem moveLater_irrefl (a : UserMoveRow) : moveLater a a = false := by
  simp [moveLater]

theorem moveEarlier_trans (a b c : UserMoveRow) (ab : moveEarlier a b = true) (bc : moveEarlier b c = true) :
    moveEarlier a c = true := by
  simp only [moveEarlier, Bool.or_eq_true, decide_eq_true_eq, Bool.and_eq_true, beq_iff_eq, BitVec.lt_def] at ab bc ⊢
  omega

theorem moveEarlier_irrefl (a : UserMoveRow) : moveEarlier a a = false := by
  simp [moveEarlier]

theorem clampI64_upTo {createdAt : Nat} (small : createdAt < 2 ^ 63) : (createdAt : Int) ≤ clampI64 t ↔ createdAt ≤ t := by
  unfold clampI64 i64Max
  omega

/-- The stored moves name the home of a key at a time: by its last move up to then, by its first one if it had not
moved yet, or, where no move is stored, through the peer that an object comes from. -/
def TellsHome (history : MoveHistory) (state : AppState) (db : Db) (key : Key) (t : Nat) (arrivedFrom : Key) : Prop :=
  (∃ move, history.Last key t move ∧ MoveHeld state db move) ∨
  (history.Unmoved key t ∧ ∃ move, history.First key move ∧ MoveHeld state db move ∧
    move.2.fromInstanceKey = some (history.registered key)) ∨
  ((∀ row ∈ db.userMoves, row.userKey ≠ key) ∧ history.HomeAt key t arrivedFrom)

theorem TellsHome.resolve {arrivedFrom : Key} (lawful : history.Lawful) (from_ : MovesOfFrom history db key)
    (tells : TellsHome history state db key t arrivedFrom) :
    history.HomeAt key t (resolveHomeAtT state db key t arrivedFrom) := by
  unfold resolveHomeAtT
  dsimp only
  rcases tells with ⟨move, isLast, indexed, fetched⟩ | ⟨unmoved, move, isFirst, ⟨indexed, fetched⟩, left⟩ | ⟨none_, isHome⟩
  · have mem : (⟨move.2.key, move.1, move.2.createdAt⟩ : UserMoveRow) ∈
        (db.userMoves.filter (·.userKey = key)).filter fun row : UserMoveRow => row.createdAt ≤ (clampI64 t : Int) := by
      simp only [mem_filter, decide_eq_true_eq]
      exact ⟨⟨indexed, isLast.own⟩, (clampI64_upTo (lawful.small move isLast.member)).mpr isLast.upTo⟩
    have picked := firstBy_eq_some moveLater_trans moveLater_irrefl mem fun other inRows isOther => by
      simp only [mem_filter, decide_eq_true_eq] at inRows
      obtain ⟨⟨inMoves, own⟩, upTo⟩ := inRows
      obtain ⟨move', inHistory, rfl⟩ := from_ other inMoves own
      have order := isLast.last move' inHistory own ((clampI64_upTo (lawful.small move' inHistory)).mp upTo)
      have apart : move'.1.toNat ≠ move.1.toNat := by
        intro same
        rw [lawful.apart move' inHistory move isLast.member (BitVec.eq_of_toNat_eq same)] at isOther
        exact isOther rfl
      simp only [moveLater, Bool.or_eq_true, decide_eq_true_eq, Bool.and_eq_true, beq_iff_eq, BitVec.lt_def]
      omega
    rw [picked]
    dsimp only
    rw [fetched]
    exact .inl ⟨move, isLast, rfl⟩
  · have empty : (db.userMoves.filter (·.userKey = key)).filter (fun row : UserMoveRow => row.createdAt ≤ (clampI64 t : Int)) = [] := by
      rw [filter_eq_nil_iff]
      intro row inRows
      obtain ⟨inMoves, own⟩ := mem_filter.mp inRows
      obtain ⟨move', inHistory, rfl⟩ := from_ row inMoves (by simpa using own)
      have after := unmoved move' inHistory (by simpa using own)
      have := (clampI64_upTo (t := t) (lawful.small move' inHistory)).not.mpr (Nat.not_le.mpr after)
      simpa using this
    have mem : (⟨move.2.key, move.1, move.2.createdAt⟩ : UserMoveRow) ∈ db.userMoves.filter (·.userKey = key) := by
      simp only [mem_filter, decide_eq_true_eq]
      exact ⟨indexed, isFirst.own⟩
    have picked := firstBy_eq_some moveEarlier_trans moveEarlier_irrefl mem fun other inRows isOther => by
      simp only [mem_filter, decide_eq_true_eq] at inRows
      obtain ⟨inMoves, own⟩ := inRows
      obtain ⟨move', inHistory, rfl⟩ := from_ other inMoves own
      have order := isFirst.first move' inHistory own
      have apart : move'.1.toNat ≠ move.1.toNat := by
        intro same
        rw [lawful.apart move' inHistory move isFirst.member (BitVec.eq_of_toNat_eq same)] at isOther
        exact isOther rfl
      simp only [moveEarlier, Bool.or_eq_true, decide_eq_true_eq, Bool.and_eq_true, beq_iff_eq, BitVec.lt_def]
      omega
    rw [empty, picked]
    dsimp only [firstBy, List.foldl]
    rw [fetched]
    dsimp only
    rw [left]
    exact .inr ⟨unmoved, rfl⟩
  · have empty : db.userMoves.filter (·.userKey = key) = [] := by
      rw [filter_eq_nil_iff]
      intro row mem
      simpa using none_ row mem
    rw [empty]
    exact isHome

end Prismoire
