import Prismoire.Homes

namespace Prismoire

open Lib

/-- A failed transaction rolls back, and the handler answers 500 for the whole batch. -/
def deliverMove (state : AppState) (db : Db) (wireBytes : Bytes) (nowMs : Nat) : Db :=
  match applyOneMove state db wireBytes nowMs with
  | .ok (_, after) => after
  | .error _ => db

section

variable (state : AppState) (db : Db) (m : Move)

/-- The home that a winning move gives the row of its key. -/
def moveDestination : Option Key :=
  if m.toInstanceKey = state.instanceKey then none else some m.toInstanceKey

def nameClash : Bool :=
  m.toInstanceKey = state.instanceKey ∧
    (db.user? m.key).any fun row => nameTaken db m.key row.displayName row.displayNameSkeleton

/-- The move leaves this instance, which still acts for the key. -/
def disposes : Bool :=
  m.fromInstanceKey = some state.instanceKey ∧ m.toInstanceKey ≠ state.instanceKey ∧
    (db.user? m.key).any (·.signupMethod ≠ .federated)

def movedUser (wins disposed : Bool) (row : UserRow) : UserRow :=
  { row with
    homeInstance := if wins then moveDestination state m else row.homeInstance
    signupMethod := if disposed then .federated else row.signupMethod }

def moveHome (canonicalHash : Hash) : UserHomeRow where
  userKey := m.key
  currentHomeKey := m.toInstanceKey
  currentHomeDomain := m.toInstance
  currentMoveHash := some canonicalHash
  currentCreatedAt := some (asI64 m.createdAt)

def moveGenesis : UserGenesisRow where
  userKey := m.key
  genesisAt := asI64 m.genesisAt
  birthInstanceKey := m.genesisAttestation.birthInstanceKey
  attestationSig := m.genesisAttestation.sig

/-- Another birth time is recorded for the key. -/
def divergent : Bool :=
  (db.userGenesis.find? (·.userKey = m.key)).any fun row => asU64 row.genesisAt ≠ UInt64.ofNat m.genesisAt

/-- A predecessor that is not stored as a move. -/
def ungrounded : Bool :=
  m.priorMoveHash.any fun prior => !db.signedObjects.any fun row =>
    row.canonicalHash = prior ∧ row.innerClass = .move ∧ row.payload.isSome

/-- The checks on a move before its transaction, the predecessor apart. -/
def admissible (payload signature : Bytes) (nowMs : Nat) : Bool :=
  let att := m.genesisAttestation
  signatureOk state.platform payload signature m.key && (state.platform.verifyingKeyFromBytes att.birthInstanceKey &&
      state.platform.ed25519Verify att.birthInstanceKey
        (state.platform.genesisAttestationSigningBytes att.key att.genesisAt att.birthInstanceKey) att.sig) &&
    decide (max nowMs m.createdAt - min nowMs m.createdAt ≤ maxClockSkewMs)

/-- The tables after the transaction of a move. -/
def moved (payload signature : Bytes) (wins : Bool) : Db :=
  let canonicalHash := state.platform.sha256 payload
  { db with
    signedObjects := (db.storeSignedObject .move payload signature canonicalHash).signedObjects
    userGenesis := (insertUserGenesis db (moveGenesis m)).userGenesis
    userMoves := (insertUserMove db ⟨m.key, canonicalHash, asI64 m.createdAt⟩).userMoves
    userHomes := if wins then (upsertUserHome db (moveHome m canonicalHash)).userHomes else db.userHomes
    users := updateWhere (·.publicKey = m.key) (movedUser state m wins (disposes state db m)) db.users
    signingKeys := if disposes state db m then db.signingKeys.filter (·.user ≠ m.key) else db.signingKeys }

end

variable {state : AppState} {db after : Db} {m : Move} {payload signature : Bytes} {status : MoveStatus}

theorem disposeLocalUserAuthority_eq (key : Key) : disposeLocalUserAuthority db key =
    if (db.user? key).any (·.signupMethod ≠ .federated) then
      { db with
        signingKeys := db.signingKeys.filter (·.user ≠ key)
        users := updateWhere (·.publicKey = key) (fun row => { row with signupMethod := .federated }) db.users }
    else db := by
  unfold disposeLocalUserAuthority
  cases db.user? key with
  | none => rfl
  | some row =>
    by_cases federated : row.signupMethod = .federated
    · simp [federated]
    · simp [federated]

theorem disposal_eq {mid : Db} (same : (mid.user? m.key).map (·.signupMethod) = (db.user? m.key).map (·.signupMethod)) :
    (if m.fromInstanceKey = some state.instanceKey ∧ m.toInstanceKey ≠ state.instanceKey then
      disposeLocalUserAuthority mid m.key else mid) =
    { mid with
      signingKeys := if disposes state db m then mid.signingKeys.filter (·.user ≠ m.key) else mid.signingKeys
      users := updateWhere (·.publicKey = m.key)
        (fun row => { row with signupMethod := if disposes state db m then .federated else row.signupMethod }) mid.users } := by
  have acts : (mid.user? m.key).any (·.signupMethod ≠ .federated) = (db.user? m.key).any (·.signupMethod ≠ .federated) := by
    have := congrArg (Option.any (· ≠ .federated)) same
    simpa [Option.any_map] using this
  rw [disposeLocalUserAuthority_eq, acts, disposes]
  have idle : ∀ rows, updateWhere (·.publicKey = m.key) (fun row : UserRow => { row with
      signupMethod := row.signupMethod }) rows = rows := updateWhere_noop fun _ => rfl
  by_cases outbound : m.fromInstanceKey = some state.instanceKey ∧ m.toInstanceKey ≠ state.instanceKey
  · cases (db.user? m.key).any (·.signupMethod ≠ .federated) with
    | true => simp [outbound]
    | false => simp [outbound, idle]
  · have kept : ¬ (m.fromInstanceKey = some state.instanceKey ∧ m.toInstanceKey ≠ state.instanceKey ∧
        (db.user? m.key).any (·.signupMethod ≠ .federated) = true) := fun all => outbound ⟨all.1, all.2.1⟩
    rw [if_neg outbound, decide_eq_false kept]
    simp [idle]

theorem setHomeInstance_eq (key : Key) (home : Option Key) : setHomeInstance db key home =
    if home.isNone && (db.user? key).any fun row => nameTaken db key row.displayName row.displayNameSkeleton then
      .error .unique
    else .ok { db with
      users := updateWhere (·.publicKey = key) (fun row => { row with homeInstance := home }) db.users } := by
  unfold setHomeInstance require
  cases home.isNone && (db.user? key).any fun row => nameTaken db key row.displayName row.displayNameSkeleton <;> rfl

theorem commitMove_eq (single : divergent db m = false) : commitMove state db m payload signature =
    let wins := newWins (db.userHomes.find? (·.userKey = m.key)) m (state.platform.sha256 payload)
    if wins && m.toInstance = "" then .error .check
    else if wins && nameClash state db m then .error .unique
    else .ok (if wins then .applied else .superseded, moved state db m payload signature wins) := by
  have clash : ((moveDestination state m).isNone && (db.user? m.key).any fun row =>
      nameTaken db m.key row.displayName row.displayNameSkeleton) = nameClash state db m := by
    unfold moveDestination nameClash
    by_cases here : m.toInstanceKey = state.instanceKey <;> simp [here]
  unfold commitMove
  dsimp only
  rw [if_neg (by rw [Bool.not_eq_true]; exact single)]
  cases newWins (db.userHomes.find? (·.userKey = m.key)) m (state.platform.sha256 payload) with
  | true =>
    by_cases nowhere : m.toInstance = ""
    · simp [nowhere, require, bind, Except.bind]
    have somewhere : require (m.toInstance ≠ "") .check = .ok () := by simp [require, nowhere]
    rw [if_pos rfl, somewhere, setHomeInstance_eq, decide_eq_false nowhere]
    change ((if ((moveDestination state m).isNone && (db.user? m.key).any fun row =>
      nameTaken db m.key row.displayName row.displayNameSkeleton) = true then _ else _ : Sql Db) >>= _) = _
    rw [clash]
    simp only [Bool.true_and, Bool.false_eq_true, if_false]
    split
    · rfl
    · change Except.ok _ = _
      have signup : ((updateWhere (·.publicKey = m.key) (fun row : UserRow => { row with
          homeInstance := moveDestination state m }) db.users).find? (·.publicKey = m.key)).map (·.signupMethod) =
          (db.user? m.key).map (·.signupMethod) := by
        rw [find?_updateWhere (by simp), Option.map_map, Db.user?]
        congr 1
        funext row
        simp only [Function.comp]
        split <;> rfl
      rw [@disposal_eq state db m _ ?same]
      case same => exact signup
      dsimp only
      rw [updateWhere_twice (by simp)]
      rfl
  | false =>
    rw [if_neg Bool.false_ne_true]
    change Except.ok _ = _
    rw [@disposal_eq state db m _ ?same]
    case same => rfl
    rfl

theorem signatureOk_of_admissible {nowMs : Nat} (passes : admissible state m payload signature nowMs = true) :
    signatureOk state.platform payload signature m.key = true := by
  simp only [admissible, Bool.and_eq_true] at passes
  exact passes.1.1

theorem commitMove_moved (single : divergent db m = false)
    (run : commitMove state db m payload signature = .ok (status, after)) :
    let wins := newWins (db.userHomes.find? (·.userKey = m.key)) m (state.platform.sha256 payload)
    status = (if wins then .applied else .superseded) ∧ after = moved state db m payload signature wins := by
  intro wins
  rw [commitMove_eq single] at run
  dsimp only at run
  split at run
  · cases run
  · split at run
    · cases run
    · cases run
      exact ⟨rfl, rfl⟩

variable {wire : Bytes} {nowMs : Nat}

theorem applyOneMove_of_admissible (decodes : state.platform.decodeSignedObject wire = some (payload, signature))
    (parses : state.platform.parse payload = some (.move m)) (absent : db.hasObject (state.platform.sha256 payload) = false)
    (passes : admissible state m payload signature nowMs = true) : applyOneMove state db wire nowMs =
      if ungrounded db m then .ok (.deferred, db) else commitMove state db m payload signature := by
  simp only [admissible, Bool.and_eq_true, decide_eq_true_eq] at passes
  obtain ⟨⟨signed, vouched⟩, near⟩ := passes
  unfold applyOneMove
  rw [decodes]
  dsimp only
  rw [Db.find?_none_of_hasObject absent]
  dsimp only
  rw [parses]
  dsimp only
  rw [signed, vouched.1, vouched.2, if_neg (by simp), if_neg (by simp), if_neg (by omega)]
  rfl

theorem applyOneMove_ok (run : applyOneMove state db wire nowMs = .ok (status, after)) :
    (after = db ∧ status ≠ .applied ∧ status ≠ .superseded) ∨
      ∃ payload signature m, state.platform.decodeSignedObject wire = some (payload, signature) ∧
        state.platform.parse payload = some (.move m) ∧ db.hasObject (state.platform.sha256 payload) = false ∧
        admissible state m payload signature nowMs = true ∧ ungrounded db m = false ∧ divergent db m = false ∧
        commitMove state db m payload signature = .ok (status, after) := by
  have ran := run
  unfold applyOneMove at run
  split at run
  · cases run
    exact .inl ⟨rfl, nofun, nofun⟩
  · rename_i payload signature decodes
    split at run
    · cases run
      refine .inl ⟨rfl, ?_, ?_⟩ <;> split <;> nofun
    · rename_i unknown
      have absent := Db.hasObject_of_find?_none unknown
      split at run <;> try (cases run; exact .inl ⟨rfl, nofun, nofun⟩)
      rename_i m parses
      by_cases passes : admissible state m payload signature nowMs = true
      · rw [applyOneMove_of_admissible decodes parses absent passes] at ran
        by_cases waits : ungrounded db m = true
        · rw [if_pos waits] at ran
          cases ran
          exact .inl ⟨rfl, nofun, nofun⟩
        · rw [if_neg waits] at ran
          cases single : divergent db m with
          | true =>
            unfold commitMove at ran
            dsimp only at ran
            rw [if_pos (by exact single)] at ran
            cases ran
            exact .inl ⟨rfl, nofun, nofun⟩
          | false =>
            exact .inr ⟨payload, signature, m, decodes, parses, absent, passes, by simpa using waits, single, ran⟩
      · left
        dsimp only at run
        split at run
        · cases run
          exact ⟨rfl, nofun, nofun⟩
        · split at run
          · cases run
            exact ⟨rfl, nofun, nofun⟩
          · split at run
            · cases run
              exact ⟨rfl, nofun, nofun⟩
            · rename_i signed vouched near
              simp only [Bool.or_eq_true, Bool.not_eq_true', not_or, Bool.not_eq_false] at signed vouched
              exact absurd (by simp only [admissible, signed, vouched, Bool.and_self, Bool.true_and, decide_eq_true_eq]; omega)
                passes

theorem applyOneMove_error {error : SqlError} (run : applyOneMove state db wire nowMs = .error error) :
    ∃ payload signature m, divergent db m = false ∧ commitMove state db m payload signature = .error error := by
  unfold applyOneMove at run
  split at run
  · cases run
  · rename_i payload signature decodes
    split at run
    · cases run
    · split at run <;> try cases run
      rename_i m parses
      dsimp only at run
      split at run
      · cases run
      split at run
      · cases run
      split at run
      · cases run
      split at run
      · cases run
      refine ⟨payload, signature, m, ?_, run⟩
      cases single : divergent db m with
      | false => rfl
      | true =>
        unfold commitMove at run
        dsimp only at run
        rw [if_pos (by exact single)] at run
        cases run

end Prismoire
