import Prismoire.HomeColumns
import Prismoire.MoveConvergence

namespace Prismoire

open Lib List

/-- The move that a registration signs: it names the prior home and carries the birth attestation on. -/
def registrationMove (state : AppState) (db : Db) (reg : CrossRegistration) : Option Move :=
  match reg.moveSource, loadGenesisAttestation db reg.publicKey with
  | some (fromKey, fromDomain), some attestation => some
      { key := reg.publicKey, fromInstanceKey := some fromKey, fromInstance := some fromDomain,
        toInstanceKey := state.instanceKey, toInstance := reg.instanceDomain, createdAt := reg.now,
        genesisAt := attestation.genesisAt, genesisAttestation := attestation, priorMoveHash := none }
  | _, _ => none

def HomesRecorded (db : Db) : Prop :=
  ∀ home ∈ db.userHomes, (home.currentMoveHash = none ∧ home.currentCreatedAt = none) ∨
    ∃ row ∈ db.userMoves, row.userKey = home.userKey ∧ home.currentMoveHash = some row.canonicalHash ∧
      home.currentCreatedAt = some row.createdAt

def SameMoves (key : Key) (db peer : Db) : Prop :=
  ∀ row : UserMoveRow, row.userKey = key → (row ∈ peer.userMoves ↔ row ∈ db.userMoves)

/-- The move is later than a recorded one; of two at the same time it has the smaller hash. -/
def Outranks (m : Move) (canonicalHash : Hash) (held : UserMoveRow) : Prop :=
  held.createdAt.toNat < m.createdAt ∨ held.createdAt.toNat = m.createdAt ∧ canonicalHash < held.canonicalHash

def RecordFits (db : Db) (row : UserMoveRow) : Prop :=
  ∀ held ∈ db.userMoves, held.userKey = row.userKey → held.canonicalHash = row.canonicalHash → held = row

def HashesFit (state : AppState) (db : Db) : HomeEvent → Prop
  | .signUp birth => RecordFits db ⟨birth.publicKey, state.platform.sha256 birth.move.payload, asI64 birth.createdAtMs⟩
  | .hydrate _ _ | .seed _ => True
  | .register reg => ∀ m, registrationMove state db reg = some m →
      RecordFits db ⟨m.key, state.platform.sha256 (reg.sign m).payload, asI64 m.createdAt⟩
  | .move wire _ => ∀ payload signature m, state.platform.decodeSignedObject wire = some (payload, signature) →
      state.platform.parse payload = some (.move m) →
        RecordFits db ⟨m.key, state.platform.sha256 payload, asI64 m.createdAt⟩

section

variable {state : AppState} {db after : Db} {reg : CrossRegistration} {m : Move} {row : UserMoveRow}

theorem registrationMove_isSome : (registrationMove state db reg).isSome = true ↔
    reg.moveSource.isSome = true ∧ ∃ row ∈ db.userGenesis, row.userKey = reg.publicKey := by
  have anchored : (loadGenesisAttestation db reg.publicKey).isSome = true ↔
      ∃ row ∈ db.userGenesis, row.userKey = reg.publicKey := by
    simp [loadGenesisAttestation]
  rw [← anchored]
  unfold registrationMove
  cases reg.moveSource with
  | none => simp
  | some source =>
    cases loadGenesisAttestation db reg.publicKey with
    | none => simp
    | some attestation => simp

theorem registrationMove_some (signs : registrationMove state db reg = some m) :
    m.key = reg.publicKey ∧ m.toInstanceKey = state.instanceKey ∧ m.createdAt = reg.now := by
  unfold registrationMove at signs
  split at signs
  · cases signs
    exact ⟨rfl, rfl, rfl⟩
  · cases signs

theorem publishRegistrationMove_none (skips : registrationMove state db reg = none) :
    publishRegistrationMove state db reg = db := by
  unfold registrationMove at skips
  unfold publishRegistrationMove
  cases isSource : reg.moveSource with
  | none => rfl
  | some source =>
    cases isAttested : loadGenesisAttestation db reg.publicKey with
    | none => rfl
    | some attestation =>
      rw [isSource, isAttested] at skips
      cases skips

theorem publishRegistrationMove_some (signs : registrationMove state db reg = some m) :
    publishRegistrationMove state db reg =
      let canonicalHash := state.platform.sha256 (reg.sign m).payload
      upsertUserHome
        (insertUserMove (db.storeSignedObject .move (reg.sign m).payload (reg.sign m).signature canonicalHash)
          ⟨m.key, canonicalHash, asI64 m.createdAt⟩) (moveHome m canonicalHash) := by
  unfold registrationMove at signs
  unfold publishRegistrationMove
  cases isSource : reg.moveSource with
  | none =>
    rw [isSource] at signs
    cases signs
  | some source =>
    cases isAttested : loadGenesisAttestation db reg.publicKey with
    | none =>
      rw [isSource, isAttested] at signs
      cases signs
    | some attestation =>
      rw [isSource, isAttested] at signs
      cases signs
      rfl

theorem completeRegistration_ok (run : completeRegistration state db reg = .ok after) :
    (db.user? reg.publicKey).any (·.signupMethod ≠ .federated) = false ∧
      nameHeld db reg.publicKey reg.displayName reg.skeleton = false ∧
      after = publishRegistrationMove state
        { db with users := registeredUsers db reg, signingKeys := db.signingKeys ++ [{ user := reg.publicKey }] } reg := by
  unfold completeRegistration at run
  split at run
  · cases run
  rename_i free
  split at run
  · cases run
  rename_i unheld
  split at run
  · cases run
  cases run
  exact ⟨by simpa using free, by simpa using unheld, rfl⟩

theorem registered_local : (∃ row ∈ registeredUsers db reg, row.publicKey = reg.publicKey) ∧
    ∀ row ∈ registeredUsers db reg, row.publicKey = reg.publicKey → row.homeInstance = none := by
  unfold registeredUsers
  split
  · rename_i known
    constructor
    · obtain ⟨row, mem, own⟩ := any_eq_true.mp known
      simp only [decide_eq_true_eq] at own
      exact ⟨_, mem_updateWhere.mpr ⟨row, mem, .inl ⟨by simpa using own, rfl⟩⟩, own⟩
    · intro row mem own
      obtain ⟨old, -, -, rfl⟩ | ⟨-, other⟩ := of_mem_updateWhere mem
      · rfl
      · exact absurd own other
  · rename_i unknown
    constructor
    · exact ⟨_, mem_append_right _ (mem_singleton.mpr rfl), rfl⟩
    · intro row mem own
      rcases mem_concat.mp mem with old | isNew
      · exact absurd (any_eq_true.mpr ⟨row, old, by simp [own]⟩) unknown
      · rw [isNew]

theorem mem_registeredUsers_of_mem {row : UserRow} (mem : row ∈ db.users) :
    ∃ kept ∈ registeredUsers db reg, kept.publicKey = row.publicKey := by
  unfold registeredUsers
  split
  · by_cases own : row.publicKey = reg.publicKey
    · exact ⟨_, mem_updateWhere.mpr ⟨row, mem, .inl ⟨by simpa using own, rfl⟩⟩, rfl⟩
    · exact ⟨row, mem_updateWhere.mpr ⟨row, mem, .inr ⟨by simpa using own, rfl⟩⟩, rfl⟩
  · exact ⟨row, mem_append_left _ mem, rfl⟩

theorem publishRegistrationMove_signingKeys (reg : CrossRegistration) :
    (publishRegistrationMove state db reg).signingKeys = db.signingKeys := by
  unfold publishRegistrationMove
  split <;> rfl

theorem completeRegistration_local (run : completeRegistration state db reg = .ok after) :
    (∃ row ∈ after.users, row.publicKey = reg.publicKey) ∧
      ∀ row ∈ after.users, row.publicKey = reg.publicKey → row.homeInstance = none := by
  obtain ⟨-, -, final⟩ := completeRegistration_ok run
  have users : after.users = registeredUsers db reg := by
    rw [final]
    exact publishRegistrationMove_users reg
  rw [users]
  exact registered_local

theorem mem_insertUserMove {row held : UserMoveRow} (mem : held ∈ db.userMoves) :
    held ∈ (insertUserMove db row).userMoves := by
  unfold insertUserMove
  dsimp only
  split
  · exact mem
  · exact mem_append_left _ mem

theorem insertUserMove_mem (fits : RecordFits db row) : row ∈ (insertUserMove db row).userMoves := by
  unfold insertUserMove
  dsimp only
  split
  · rename_i present
    obtain ⟨held, mem, same⟩ := any_eq_true.mp present
    simp only [decide_eq_true_eq] at same
    rw [← fits held mem same.1 same.2]
    exact mem
  · exact mem_append_right _ (mem_singleton.mpr rfl)

theorem mem_upsertUserHome {home row : UserHomeRow} (mem : row ∈ (upsertUserHome db home).userHomes) :
    row ∈ db.userHomes ∨ row = home := by
  unfold upsertUserHome at mem
  dsimp only at mem
  split at mem
  · obtain ⟨old, inHomes, ⟨-, rfl⟩ | ⟨-, rfl⟩⟩ := mem_updateWhere.mp mem
    · exact .inr rfl
    · exact .inl inHomes
  · rcases mem_concat.mp mem with old | isNew
    · exact .inl old
    · exact .inr isNew

section

variable (recorded : HomesRecorded db)
include recorded

theorem HomesRecorded.of_homes (kept : ∀ row ∈ db.userMoves, row ∈ after.userMoves)
    (homes : ∀ home ∈ after.userHomes, home ∈ db.userHomes ∨
      (home.currentMoveHash = none ∧ home.currentCreatedAt = none) ∨
      ∃ row ∈ after.userMoves, row.userKey = home.userKey ∧ home.currentMoveHash = some row.canonicalHash ∧
        home.currentCreatedAt = some row.createdAt) : HomesRecorded after := by
  intro home mem
  rcases homes home mem with old | justified
  · rcases recorded home old with seeded | ⟨row, inMoves, isRow⟩
    · exact .inl seeded
    · exact .inr ⟨row, kept row inMoves, isRow⟩
  · exact justified

theorem HomesRecorded.take {home : UserHomeRow} (fits : RecordFits db row)
    (own : row.userKey = home.userKey) (byHash : home.currentMoveHash = some row.canonicalHash)
    (byTime : home.currentCreatedAt = some row.createdAt) (moves : after.userMoves = (insertUserMove db row).userMoves)
    (homes : after.userHomes = (upsertUserHome db home).userHomes) : HomesRecorded after := by
  refine recorded.of_homes (fun held mem => ?_) fun held mem => ?_
  · rw [moves]
    exact mem_insertUserMove mem
  · rw [homes] at mem
    rcases mem_upsertUserHome mem with old | rfl
    · exact .inl old
    · refine .inr (.inr ⟨row, ?_, own, byHash, byTime⟩)
      rw [moves]
      exact insertUserMove_mem fits

theorem HomesRecorded.move {wire : Bytes} {nowMs : Nat}
    (fits : HashesFit state db (.move wire nowMs)) : HomesRecorded (deliverMove state db wire nowMs) := by
  unfold deliverMove
  split
  · rename_i status final run
    obtain ⟨rfl, -⟩ | ⟨payload, signature, m, decodes, parses, -, -, -, single, committed⟩ := applyOneMove_ok run
    · exact recorded
    · have fits := fits payload signature m decodes parses
      obtain ⟨-, rfl⟩ := commitMove_moved single committed
      cases wins : newWins (db.userHomes.find? (·.userKey = m.key)) m (state.platform.sha256 payload) with
      | true => exact recorded.take fits rfl rfl rfl rfl rfl
      | false => exact recorded.of_homes (fun row => mem_insertUserMove) fun home mem => .inl mem
  · exact recorded

theorem HomesRecorded.apply {event : HomeEvent} (fits : HashesFit state db event) :
    HomesRecorded (event.apply state db) := by
  cases event with
  | signUp birth =>
    dsimp only [HomeEvent.apply]
    cases run : completeLocalUserBirth state db birth with
    | error failed => exact recorded
    | ok final =>
      simp only [completeLocalUserBirth, require_bind_ok] at run
      obtain ⟨-, -, returned⟩ := run
      cases returned
      exact recorded.take fits rfl rfl rfl rfl rfl
  | hydrate profile arrivedFrom =>
    dsimp only [HomeEvent.apply]
    unfold hydrateProfile
    split
    · exact recorded
    · exact recorded.of_homes (fun _ mem => mem) fun _ mem => .inl mem
  | seed code =>
    dsimp only [HomeEvent.apply]
    unfold seedTrustCode
    split
    · exact recorded
    · refine recorded.of_homes (fun _ mem => mem) fun home mem => ?_
      dsimp only at mem
      split at mem
      · exact .inl mem
      · rcases mem_concat.mp mem with old | isNew
        · exact .inl old
        · rw [isNew]
          exact .inr (.inl ⟨rfl, rfl⟩)
  | register reg =>
    dsimp only [HomeEvent.apply]
    cases run : completeRegistration state db reg with
    | error failed => exact recorded
    | ok final =>
      obtain ⟨-, -, isFinal⟩ := completeRegistration_ok run
      change HomesRecorded final
      subst isFinal
      cases signs : registrationMove state db reg with
      | none =>
        rw [publishRegistrationMove_none (by exact signs)]
        exact recorded
      | some m =>
        rw [publishRegistrationMove_some (by exact signs)]
        exact recorded.take (fits m signs) rfl rfl rfl rfl rfl
  | move wire nowMs => exact recorded.move fits

theorem HomesRecorded.newWins {canonicalHash : Hash}
    (outranks : ∀ held ∈ db.userMoves, held.userKey = m.key → Outranks m canonicalHash held) :
    newWins (db.userHomes.find? (·.userKey = m.key)) m canonicalHash = true := by
  cases found : db.userHomes.find? (·.userKey = m.key) with
  | none => rfl
  | some home =>
    have own : home.userKey = m.key := by simpa using find?_some found
    rcases recorded home (mem_of_find?_eq_some found) with seeded | ⟨row, inMoves, named, byHash, byTime⟩
    · exact newWins_seeded seeded.1 seeded.2
    · unfold Prismoire.newWins
      dsimp only
      rw [byHash, byTime]
      simp only [Option.map_some, Option.getD_some]
      rcases outranks row inMoves (named.trans own) with later | ⟨tied, smaller⟩
      · rw [if_pos later]
      · rw [if_neg (by omega), if_neg (by omega)]
        exact decide_eq_true smaller

end

theorem homeRow_of_wins {payload signature : Bytes} {wire : Bytes} {nowMs : Nat} {status : MoveStatus}
    (decodes : state.platform.decodeSignedObject wire = some (payload, signature))
    (parses : state.platform.parse payload = some (.move m)) (run : applyOneMove state db wire nowMs = .ok (status, after))
    (answered : status = .applied ∨ status = .superseded)
    (wins : newWins (db.userHomes.find? (·.userKey = m.key)) m (state.platform.sha256 payload) = true) :
    after.userHomes.find? (·.userKey = m.key) = some (moveHome m (state.platform.sha256 payload)) := by
  obtain ⟨rfl, notApplied, notSuperseded⟩ | ⟨payload', signature', m', decodes', parses', -, -, -, single, committed⟩ :=
    applyOneMove_ok run
  · rcases answered with rfl | rfl
    · exact absurd rfl notApplied
    · exact absurd rfl notSuperseded
  · rw [decodes] at decodes'
    cases decodes'
    rw [parses] at parses'
    cases parses'
    obtain ⟨-, rfl⟩ := commitMove_moved single committed
    rw [wins]
    exact @find?_upsertBy _ _ _ UserHomeRow.userKey db.userHomes (moveHome m (state.platform.sha256 payload))

end

/-- Every home row is seeded or names a recorded move, in every state of a run that starts without home rows. -/
theorem homes_recorded {state : AppState} {db : Db} {events : List HomeEvent} (start : db.userHomes = [])
    (fits : MeetAlong (HomeEvent.apply state) (HashesFit state) db events) :
    HomesRecorded (events.foldl (HomeEvent.apply state) db) :=
  fits.invariant (fun _ _ recorded fits => recorded.apply fits) (by simp [HomesRecorded, start])

/-- A registration clears the home of the user. It takes the home row as well if it publishes a move, and then a peer
with the same moves, all of them outranked by the new one, ends with the same row. -/
theorem registration_homes {state : AppState} {db after : Db} {reg : CrossRegistration}
    (run : completeRegistration state db reg = .ok after) :
    (∃ row ∈ after.users, row.publicKey = reg.publicKey) ∧
    (∀ row ∈ after.users, row.publicKey = reg.publicKey → row.homeInstance = none) ∧
    ((registrationMove state db reg).isSome = true ↔
      reg.moveSource.isSome = true ∧ ∃ row ∈ db.userGenesis, row.userKey = reg.publicKey) ∧
    (registrationMove state db reg = none → after.userHomes = db.userHomes ∧ after.userMoves = db.userMoves) ∧
    ∀ m, registrationMove state db reg = some m →
      let canonicalHash := state.platform.sha256 (reg.sign m).payload
      after.userHomes.find? (·.userKey = reg.publicKey) = some (moveHome m canonicalHash) ∧
      homeKey? after reg.publicKey = some state.instanceKey ∧
      ((∀ held ∈ db.userMoves, held.userKey = reg.publicKey → Outranks m canonicalHash held) →
        ∀ (peerState : AppState) (start peerAfter : Db) (events : List HomeEvent) (wire : Bytes) (nowMs : Nat)
            (status : MoveStatus),
          let peer := events.foldl (HomeEvent.apply peerState) start
          peerState.platform = state.platform →
          state.platform.decodeSignedObject wire = some ((reg.sign m).payload, (reg.sign m).signature) →
          state.platform.parse (reg.sign m).payload = some (.move m) →
          start.userHomes = [] → MeetAlong (HomeEvent.apply peerState) (HashesFit peerState) start events →
          SameMoves reg.publicKey db peer →
          applyOneMove peerState peer wire nowMs = .ok (status, peerAfter) → status = .applied ∨ status = .superseded →
          peerAfter.userHomes.find? (·.userKey = reg.publicKey) = after.userHomes.find? (·.userKey = reg.publicKey)) := by
  obtain ⟨-, -, final⟩ := completeRegistration_ok run
  obtain ⟨present, isLocal⟩ := completeRegistration_local run
  refine ⟨present, isLocal, registrationMove_isSome, fun skips => ?_, fun m signs => ?_⟩
  · rw [publishRegistrationMove_none (by exact skips)] at final
    rw [final]
    exact ⟨rfl, rfl⟩
  · rw [publishRegistrationMove_some (by exact signs)] at final
    obtain ⟨own, here, -⟩ := registrationMove_some signs
    have row : after.userHomes.find? (·.userKey = reg.publicKey) =
        some (moveHome m (state.platform.sha256 (reg.sign m).payload)) := by
      rw [final, ← own]
      exact @find?_upsertBy _ _ _ UserHomeRow.userKey db.userHomes (moveHome m _)
    refine ⟨row, ?_, ?_⟩
    · rw [homeKey?, row, Option.map_some, ← here]
      rfl
    · intro outranks peerState start peerAfter events wire nowMs status peer samePlatform decodes parses unhomed fits sameMoves
        applied answered
      rw [row, ← own, ← samePlatform]
      rw [← samePlatform] at decodes parses outranks
      have recorded : HomesRecorded peer := homes_recorded unhomed fits
      refine homeRow_of_wins decodes parses applied answered (recorded.newWins fun held mem isOwn => ?_)
      rw [own] at isOwn
      exact outranks held ((sameMoves held isOwn).mp mem) isOwn

/-- A user of the instance `8`, where the key moved to before, registers here. -/
def rehomeState (movedAt : Nat) : AppState :=
  AppState.ofTable [.move ⟨1, some 8, some "home", 9, "here", 1000, 500, ⟨1, 500, 8, []⟩, none⟩,
    .move ⟨1, none, none, 8, "home", movedAt, 500, ⟨1, 500, 8, []⟩, none⟩]

def rehomeDb (movedAt : Nat) : Db where
  users := [⟨1, "ada", "ada", .federated, some 8, false⟩]
  userHomes := [⟨1, 8, "home", some 2, some movedAt⟩]
  userMoves := [⟨1, 2, movedAt⟩]
  userGenesis := [⟨1, 500, 8, []⟩]

/-- A peer, and what it holds once the earlier move was delivered to it. -/
def rehomePeer (movedAt : Nat) : AppState :=
  { rehomeState movedAt with instanceKey := 7 }

def rehomePeerDb (movedAt : Nat) : Db :=
  [HomeEvent.move [1] 1500].foldl (HomeEvent.apply (rehomePeer movedAt)) {}

def rehomer (moveSource : Option (Key × Text)) : CrossRegistration :=
  ⟨1, "ada", "ada", "here", 1000, moveSource, fun _ => ⟨[0], List.replicate 64 0⟩⟩

theorem rehomePeerDb_fits (movedAt : Nat) :
    MeetAlong (HomeEvent.apply (rehomePeer movedAt)) (HashesFit (rehomePeer movedAt)) {} [.move [1] 1500] :=
  ⟨fun _ _ _ _ _ _ mem => absurd mem not_mem_nil, trivial⟩

theorem rehomed_agrees : ∃ after peerAfter,
    completeRegistration (rehomeState 600) (rehomeDb 600) (rehomer (some (8, "home"))) = .ok after ∧
    applyOneMove (rehomePeer 600) (rehomePeerDb 600) [0] 1500 = .ok (.applied, peerAfter) ∧
    homeKey? after 1 = some 9 ∧
    peerAfter.userHomes.find? (·.userKey = 1) = after.userHomes.find? (·.userKey = 1) := by
  refine ⟨_, _, rfl, rfl, ?_, ?_⟩
  all_goals
    obtain ⟨-, -, -, -, published⟩ :=
      @registration_homes (rehomeState 600) (rehomeDb 600) _ (rehomer (some (8, "home"))) rfl
    obtain ⟨-, here, agrees⟩ := published _ rfl
  · exact here
  · have sameMoves : (rehomePeerDb 600).userMoves = (rehomeDb 600).userMoves := by decide +kernel
    refine agrees ?_ (rehomePeer 600) {} _ [.move [1] 1500] [0] 1500 .applied rfl rfl rfl rfl (rehomePeerDb_fits 600)
      (fun row _ => iff_of_eq (congrArg (row ∈ ·) sameMoves)) rfl (.inl rfl)
    intro held mem _
    rw [mem_singleton.mp mem]
    exact .inl (by decide)

/-- Without a prior home the home row stays behind, and a held move of a clock ahead keeps its row on the peer alone. -/
theorem rehomed_disagrees :
    (∃ after, completeRegistration (rehomeState 600) (rehomeDb 600) (rehomer none) = .ok after ∧
      after.users.map (fun row => (row.publicKey, row.homeInstance)) = [(1, none)] ∧ homeKey? after 1 = some 8) ∧
    ∃ after peerAfter, completeRegistration (rehomeState 1200) (rehomeDb 1200) (rehomer (some (8, "home"))) = .ok after ∧
      (rehomePeerDb 1200).userMoves = (rehomeDb 1200).userMoves ∧
      applyOneMove (rehomePeer 1200) (rehomePeerDb 1200) [0] 1500 = .ok (.superseded, peerAfter) ∧
      after.users.map (fun row => (row.publicKey, row.homeInstance)) = [(1, none)] ∧
      homeKey? after 1 = some 9 ∧ homeKey? peerAfter 1 = some 8 :=
  ⟨⟨_, rfl, by decide, by decide⟩, _, _, rfl, by decide +kernel, rfl, by decide, by decide +kernel, by decide +kernel⟩

end Prismoire
