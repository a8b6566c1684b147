import Prismoire.RegistrationMoves

namespace Prismoire

open Lib List Function

inductive ChallengeType where
  | registration
  | authentication
  | discoverable
  | crossInstanceRegister
  deriving DecidableEq

structure RegistrationChallengeRow where
  nonce : Hash
  userKey : Key
  createdAt : Nat
  consumed : Bool := false

structure AuthChallengeRow where
  id : Uuid
  challengeType : ChallengeType
  state : Bytes
  displayName : Option Text
  userId : Option Uuid

structure CredentialRow where
  userId : Uuid
  credentialId : Bytes
  deriving DecidableEq

/-- The tables of the ceremony beside the others: `users.id` by the key of its row, the passkeys, and the two kinds of
tokens. -/
structure RegistrationTables where
  db : Db
  userId : Key → Uuid
  credentials : List CredentialRow
  registrationChallenges : List RegistrationChallengeRow
  authChallenges : List AuthChallengeRow

/-- An instance with what the ceremony takes from its libraries: the name rules, WebAuthn and Ed25519. -/
structure RegistrationServer where
  state : AppState
  instanceDomain : Text
  validateDisplayName : Text → Option Text
  startPasskeyRegistration : Uuid → Text → Bytes
  finishPasskeyRegistration : Bytes → Bytes → Option Bytes
  encodeChallenge : RegistrationChallenge → Bytes
  verifyingKey : Bytes → Key
  signMoveWithKey : Bytes → Move → SigningOutput

def registrationChallengeTtlMs : Nat := 600000

inductive CeremonyError where
  | invalidDisplayName
  | invalidUserKey
  | base64
  | invalidChallenge
  | internal
  | challengeSchemaInvalid
  | notARegistrationChallenge
  | wrongDestinationKey
  | wrongDestinationDomain
  | expiredChallenge
  | userKeyNotValid
  | invalidSignature
  | privateKeyLength
  | keyMismatch
  | passkey
  | registration (error : RegistrationError)
  | session
  deriving DecidableEq

/-- The key is hex on the wire. -/
structure BeginRequest where
  displayName : Text
  userKey : Option Key

/-- What a begin draws, and the clock that it reads. -/
structure BeginDraw where
  userUuid : Uuid
  nonce : Hash
  challengeId : Uuid
  createdAt : Nat

structure BeginResponse where
  challengeId : Uuid
  registrationChallenge : Bytes

section

variable (server : RegistrationServer) (tables : RegistrationTables)

/-- `registration::begin`. Any row of the key counts as taken, and any row with the name. -/
def beginRegistration (req : BeginRequest) (draw : BeginDraw) :
    Except CeremonyError (BeginResponse × RegistrationTables) :=
  match server.validateDisplayName req.displayName with
  | none => .error .invalidDisplayName
  | some displayName =>
    match req.userKey with
    | none => .error .invalidUserKey
    | some userKey =>
      let skeleton := server.state.platform.displayNameSkeleton displayName
      if tables.db.users.any fun row => row.displayName = displayName ∨ row.displayNameSkeleton = skeleton then
        .error (.registration .displayNameTaken)
      else if tables.db.hasUser userKey then
        .error (.registration .userKeyTaken)
      else
        let challenge : RegistrationChallenge :=
          { userKey, destInstanceKey := server.state.instanceKey, destDomain := server.instanceDomain,
            nonce := draw.nonce, createdAt := draw.createdAt }
        let nonceRow : RegistrationChallengeRow := { nonce := draw.nonce, userKey, createdAt := draw.createdAt }
        let ceremony : AuthChallengeRow :=
          { id := draw.challengeId, challengeType := .crossInstanceRegister,
            state := server.startPasskeyRegistration draw.userUuid displayName,
            displayName := some displayName, userId := some draw.userUuid }
        .ok (⟨draw.challengeId, server.encodeChallenge challenge⟩, { tables with
            registrationChallenges := tables.registrationChallenges ++ [nonceRow]
            authChallenges := tables.authChallenges ++ [ceremony] })

/-- Three of the fields are base64 on the wire; `none` is one that does not decode. -/
structure CompleteRequest where
  challengeId : Uuid
  registrationChallenge : Option Bytes
  signature : Option Bytes
  privateKey : Option Bytes
  credential : Bytes

/-- A call of `complete` past its first checks, with what it carries over the probes into its transaction. -/
structure PendingComplete where
  challengeId : Uuid
  challenge : RegistrationChallenge
  displayName : Text
  userId : Uuid
  credentialId : Bytes
  imported : Bytes
  now : Nat

def checkComplete (req : CompleteRequest) (now : Nat) : Except CeremonyError PendingComplete :=
  let platform := server.state.platform
  match req.registrationChallenge, req.signature, req.privateKey with
  | some challengeBytes, some signatureBytes, some privateKeyBytes =>
    match tables.authChallenges.find? fun row => row.id = req.challengeId ∧ row.challengeType = .crossInstanceRegister with
    | none => .error .invalidChallenge
    | some authRow =>
      match authRow.displayName, authRow.userId with
      | some displayName, some userId =>
        match platform.parse challengeBytes with
        | none => .error .challengeSchemaInvalid
        | some (.registrationChallenge challenge) =>
          if challenge.destInstanceKey ≠ server.state.instanceKey then
            .error .wrongDestinationKey
          else if challenge.destDomain ≠ server.instanceDomain then
            .error .wrongDestinationDomain
          else if registrationChallengeTtlMs < now - challenge.createdAt then
            .error .expiredChallenge
          else if !platform.verifyingKeyFromBytes challenge.userKey then
            .error .userKeyNotValid
          else if !(verify platform challengeBytes signatureBytes challenge.userKey).isOk then
            .error .invalidSignature
          else if privateKeyBytes.length ≠ 32 then
            .error .privateKeyLength
          else if server.verifyingKey privateKeyBytes ≠ challenge.userKey then
            .error .keyMismatch
          else
            match server.finishPasskeyRegistration req.credential authRow.state with
            | none => .error .passkey
            | some credentialId =>
              .ok ⟨req.challengeId, challenge, displayName, userId, credentialId, privateKeyBytes, now⟩
        | some _ => .error .notARegistrationChallenge
      | _, _ => .error .internal
  | _, _, _ => .error .base64

def PendingComplete.registration (server : RegistrationServer) (call : PendingComplete)
    (moveSource : Option (Key × Text)) : CrossRegistration where
  publicKey := call.challenge.userKey
  displayName := call.displayName
  skeleton := server.state.platform.displayNameSkeleton call.displayName
  instanceDomain := server.instanceDomain
  now := call.now
  moveSource := moveSource
  sign := server.signMoveWithKey call.imported

/-- The transaction of `complete`: both tokens are used up, a stub keeps its id, and the passkey is bound to the row. -/
def commitComplete (call : PendingComplete)
    (moveSource : Option (Key × Text)) : Except CeremonyError (Uuid × RegistrationTables) :=
  match tables.registrationChallenges.find? (·.nonce = call.challenge.nonce) with
  | none => .error .invalidSignature
  | some nonceRow =>
    if nonceRow.consumed then
      .error .invalidSignature
    else if nonceRow.userKey ≠ call.challenge.userKey then
      .error .invalidSignature
    else if !tables.authChallenges.any (·.id = call.challengeId) then
      .error .invalidChallenge
    else
      match completeRegistration server.state tables.db (call.registration server moveSource) with
      | .error error => .error (.registration error)
      | .ok db =>
        let userId := if tables.db.hasUser call.challenge.userKey then tables.userId call.challenge.userKey else call.userId
        if tables.credentials.any (·.credentialId = call.credentialId) then
          .error (.registration (.sql .unique))
        else
          .ok (userId,
            { db
              userId := update tables.userId call.challenge.userKey userId
              credentials := tables.credentials ++ [⟨userId, call.credentialId⟩]
              registrationChallenges := updateWhere (·.nonce = call.challenge.nonce)
                (fun row => { row with consumed := true }) tables.registrationChallenges
              authChallenges := tables.authChallenges.filter (·.id ≠ call.challengeId) })

def openSession (userId : Uuid) (stored : Bool) : Except CeremonyError Uuid :=
  if stored then .ok userId else .error .session

/-- A call of `complete` that nothing comes between. -/
def complete (req : CompleteRequest) (now : Nat)
    (moveSource : Option (Key × Text)) (sessionStored : Bool) : Except CeremonyError Uuid × RegistrationTables :=
  match checkComplete server tables req now with
  | .error error => (.error error, tables)
  | .ok call =>
    match commitComplete server tables call moveSource with
    | .error error => (.error error, tables)
    | .ok (userId, after) => (openSession userId sessionStored, after)

/-- A registration from its begin: what the client asks, draws, signs and attests. -/
structure Attempt where
  req : BeginRequest
  draw : BeginDraw
  signature : Bytes
  privateKey : Bytes
  credential : Bytes
  now : Nat
  moveSource : Option (Key × Text)

/-- The begin and, right after it, the complete with the client's answers. -/
def registerAtOnce (attempt : Attempt) : Except CeremonyError Uuid × RegistrationTables :=
  match beginRegistration server tables attempt.req attempt.draw with
  | .error error => (.error error, tables)
  | .ok (response, begun) =>
    let req : CompleteRequest :=
      { challengeId := response.challengeId, registrationChallenge := some response.registrationChallenge,
        signature := some attempt.signature, privateKey := some attempt.privateKey, credential := attempt.credential }
    complete server begun req attempt.now attempt.moveSource true

def Attempt.challenge (server : RegistrationServer) (attempt : Attempt) (key : Key) : RegistrationChallenge where
  userKey := key
  destInstanceKey := server.state.instanceKey
  destDomain := server.instanceDomain
  nonce := attempt.draw.nonce
  createdAt := attempt.draw.createdAt

/-- The signature, the private key and the passkey of an attempt are right, and it comes in time. -/
structure Attempt.Answered (server : RegistrationServer) (tables : RegistrationTables) (attempt : Attempt) (key : Key)
    (displayName : Text) : Prop where
  parses : server.state.platform.parse (server.encodeChallenge (attempt.challenge server key)) =
    some (.registrationChallenge (attempt.challenge server key))
  signed : signatureOk server.state.platform (server.encodeChallenge (attempt.challenge server key)) attempt.signature key = true
  privateKey : attempt.privateKey.length = 32 ∧ server.verifyingKey attempt.privateKey = key
  passkey : ∃ credentialId, server.finishPasskeyRegistration attempt.credential
      (server.startPasskeyRegistration attempt.draw.userUuid displayName) = some credentialId ∧
    ∀ row ∈ tables.credentials, row.credentialId ≠ credentialId
  timely : attempt.now - attempt.draw.createdAt ≤ registrationChallengeTtlMs

structure Attempt.Eligible (server : RegistrationServer) (tables : RegistrationTables) (attempt : Attempt) (key : Key)
    (displayName : Text) : Prop where
  named : attempt.req.userKey = some key
  stubs : ∀ row ∈ tables.db.users, row.publicKey = key → row.signupMethod = .federated
  valid : server.validateDisplayName attempt.req.displayName = some displayName
  unused : nameHeld tables.db key displayName (server.state.platform.displayNameSkeleton displayName) = false

def Registers (attempt : Attempt) (key : Key) : Prop :=
  let outcome := registerAtOnce server tables attempt
  (∃ userId, outcome.1 = .ok userId) ∧ (tables.db.hasUser key = true → outcome.2.userId key = tables.userId key) ∧
    (∃ row ∈ outcome.2.db.users, row.publicKey = key) ∧ ∀ row ∈ outcome.2.db.users, row.publicKey = key → row.homeInstance = none

end

def KeysOwned (db : Db) : Prop :=
  ∀ row ∈ db.signingKeys, db.hasUser row.user = true

/-- What a fresh attempt needs of the tables: its tokens are drawn for the first time, and keys belong to users. -/
structure Attempt.Fresh (tables : RegistrationTables) (attempt : Attempt) : Prop where
  nonce : ∀ row ∈ tables.registrationChallenges, row.nonce ≠ attempt.draw.nonce
  challengeId : ∀ row ∈ tables.authChallenges, row.id ≠ attempt.draw.challengeId
  owned : KeysOwned tables.db

def Attempt.pending (server : RegistrationServer) (attempt : Attempt) (key : Key) (displayName : Text)
    (credentialId : Bytes) :
    PendingComplete where
  challengeId := attempt.draw.challengeId
  challenge := attempt.challenge server key
  displayName := displayName
  userId := attempt.draw.userUuid
  credentialId := credentialId
  imported := attempt.privateKey
  now := attempt.now

variable {server : RegistrationServer} {tables after : RegistrationTables} {attempt : Attempt} {key : Key}
  {displayName : Text} {call : PendingComplete} {moveSource : Option (Key × Text)} {userId : Uuid}

theorem commitComplete_ok (run : commitComplete server tables call moveSource = .ok (userId, after)) :
    (∃ row ∈ tables.registrationChallenges, row.nonce = call.challenge.nonce ∧ row.consumed = false) ∧
    (∃ row ∈ tables.authChallenges, row.id = call.challengeId) ∧
    completeRegistration server.state tables.db (call.registration server moveSource) = .ok after.db ∧
    after.registrationChallenges = updateWhere (·.nonce = call.challenge.nonce) (fun row => { row with consumed := true })
      tables.registrationChallenges ∧
    after.authChallenges = tables.authChallenges.filter (·.id ≠ call.challengeId) ∧
    (tables.db.hasUser call.challenge.userKey = true →
      after.userId call.challenge.userKey = tables.userId call.challenge.userKey) := by
  unfold commitComplete at run
  split at run
  · cases run
  rename_i nonceRow found
  split at run
  · cases run
  rename_i unconsumed
  split at run
  · cases run
  split at run
  · cases run
  rename_i awaited
  split at run
  · cases run
  rename_i db registered
  dsimp only at run
  split at run
  · cases run
  cases run
  have named : nonceRow.nonce = call.challenge.nonce := by simpa using find?_some found
  refine ⟨⟨nonceRow, mem_of_find?_eq_some found, named, by simpa using unconsumed⟩, ?_, registered, rfl, rfl, ?_⟩
  · simpa using awaited
  · intro known
    dsimp only
    rw [update_self, if_pos known]

theorem beginRegistration_ok (eligible : attempt.Eligible server tables key displayName)
    (unknown : tables.db.hasUser key = false) :
    beginRegistration server tables attempt.req attempt.draw =
      .ok (⟨attempt.draw.challengeId, server.encodeChallenge (attempt.challenge server key)⟩, { tables with
          registrationChallenges := tables.registrationChallenges ++
            [{ nonce := attempt.draw.nonce, userKey := key, createdAt := attempt.draw.createdAt }]
          authChallenges := tables.authChallenges ++ [⟨attempt.draw.challengeId, .crossInstanceRegister,
              server.startPasskeyRegistration attempt.draw.userUuid displayName, some displayName,
              some attempt.draw.userUuid⟩] }) := by
  have nameFree : (tables.db.users.any fun row => row.displayName = displayName ∨
      row.displayNameSkeleton = server.state.platform.displayNameSkeleton displayName) = false := by
    rw [any_eq_false]
    intro row mem
    have other : row.publicKey ≠ key := fun same => by
      have known : tables.db.hasUser key = true := any_eq_true.mpr ⟨row, mem, by simp [same]⟩
      rw [unknown] at known
      cases known
    have names := nameHeld_false.mp eligible.unused row mem other
    simpa [not_or] using And.intro names.1.symm names.2.symm
  unfold beginRegistration
  rw [eligible.valid, eligible.named]
  dsimp only
  rw [nameFree, unknown, if_neg Bool.false_ne_true, if_neg Bool.false_ne_true]
  rfl

theorem beginRegistration_known (eligible : attempt.Eligible server tables key displayName)
    (known : tables.db.hasUser key = true) :
    ∃ error, beginRegistration server tables attempt.req attempt.draw = .error error := by
  unfold beginRegistration
  rw [eligible.valid, eligible.named]
  dsimp only
  by_cases nameUsed : (tables.db.users.any fun row => row.displayName = displayName ∨
      row.displayNameSkeleton = server.state.platform.displayNameSkeleton displayName) = true
  · exact ⟨_, if_pos nameUsed⟩
  · exact ⟨_, (if_neg nameUsed).trans (if_pos known)⟩

theorem checkComplete_answered {credentialId : Bytes} {authRow : AuthChallengeRow}
    (answered : attempt.Answered server tables key displayName)
    (awaited : after.authChallenges.find? (fun row => row.id = attempt.draw.challengeId ∧
      row.challengeType = .crossInstanceRegister) = some authRow)
    (named : authRow.displayName = some displayName) (allocated : authRow.userId = some attempt.draw.userUuid)
    (attested : server.finishPasskeyRegistration attempt.credential authRow.state = some credentialId) :
    checkComplete server after
      ⟨attempt.draw.challengeId, some (server.encodeChallenge (attempt.challenge server key)), some attempt.signature,
        some attempt.privateKey, attempt.credential⟩ attempt.now =
      .ok (attempt.pending server key displayName credentialId) := by
  have signed := answered.signed
  simp only [signatureOk, Bool.and_eq_true] at signed
  have valid : (!server.state.platform.verifyingKeyFromBytes (attempt.challenge server key).userKey) = false := by
    rw [Bool.not_eq_false']
    exact signed.1
  have verified : (!(verify server.state.platform (server.encodeChallenge (attempt.challenge server key)) attempt.signature
      (attempt.challenge server key).userKey).isOk) = false := by
    rw [Bool.not_eq_false']
    exact signed.2
  unfold checkComplete
  dsimp only
  rw [awaited]
  dsimp only
  rw [named, allocated]
  dsimp only
  rw [answered.parses]
  dsimp only
  have here : ¬ (attempt.challenge server key).destInstanceKey ≠ server.state.instanceKey := not_not.mpr rfl
  have ourDomain : ¬ (attempt.challenge server key).destDomain ≠ server.instanceDomain := not_not.mpr rfl
  have inTime : ¬ registrationChallengeTtlMs < attempt.now - (attempt.challenge server key).createdAt :=
    Nat.not_lt.mpr answered.timely
  have derived : ¬ server.verifyingKey attempt.privateKey ≠ (attempt.challenge server key).userKey :=
    not_not.mpr answered.privateKey.2
  rw [valid, verified, if_neg here, if_neg ourDomain, if_neg inTime, if_neg (by nofun), if_neg (by nofun),
    if_neg (not_not.mpr answered.privateKey.1), if_neg derived, attested]
  rfl

theorem commitComplete_of {db : Db} {nonceRow : RegistrationChallengeRow}
    (found : tables.registrationChallenges.find? (·.nonce = call.challenge.nonce) = some nonceRow)
    (unconsumed : nonceRow.consumed = false) (bound : nonceRow.userKey = call.challenge.userKey)
    (awaited : tables.authChallenges.any (·.id = call.challengeId) = true)
    (registered : completeRegistration server.state tables.db (call.registration server moveSource) = .ok db)
    (unregistered : ∀ row ∈ tables.credentials, row.credentialId ≠ call.credentialId) :
    ∃ userId after, commitComplete server tables call moveSource = .ok (userId, after) := by
  have free : (tables.credentials.any (·.credentialId = call.credentialId)) = false := by
    rw [any_eq_false]
    exact fun row mem => by simpa using unregistered row mem
  unfold commitComplete
  rw [found]
  dsimp only
  rw [unconsumed, if_neg (by nofun), if_neg (not_not.mpr bound), awaited, if_neg (by nofun), registered]
  dsimp only
  rw [free, if_neg (by nofun)]
  exact ⟨_, _, rfl⟩

theorem completeRegistration_unknown {state : AppState} {db : Db} {reg : CrossRegistration} (owned : KeysOwned db)
    (unknown : db.hasUser reg.publicKey = false) (unused : nameHeld db reg.publicKey reg.displayName reg.skeleton = false) :
    ∃ after, completeRegistration state db reg = .ok after := by
  have noRow : db.user? reg.publicKey = none := by
    refine find?_eq_none.mpr fun row mem own => ?_
    have known : db.hasUser reg.publicKey = true := any_eq_true.mpr ⟨row, mem, own⟩
    rw [unknown] at known
    cases known
  have noKey : (db.signingKeys.any fun row => row.user = reg.publicKey ∧ row.active) = false := by
    rw [any_eq_false]
    intro row mem isActive
    simp only [decide_eq_true_eq] at isActive
    have known := owned row mem
    rw [isActive.1, unknown] at known
    cases known
  unfold completeRegistration
  rw [noRow, unused, noKey, if_neg (by nofun), if_neg (by nofun), if_neg (by nofun)]
  exact ⟨_, rfl⟩

theorem completeRegistration_owned {state : AppState} {db after : Db} {reg : CrossRegistration}
    (run : completeRegistration state db reg = .ok after) (owned : KeysOwned db) : KeysOwned after := by
  obtain ⟨row, mem, own⟩ := (completeRegistration_local run).1
  obtain ⟨-, -, final⟩ := completeRegistration_ok run
  have users : after.users = registeredUsers db reg := by
    rw [final]
    exact publishRegistrationMove_users reg
  have keys : after.signingKeys = db.signingKeys ++ [{ user := reg.publicKey }] := by
    rw [final]
    exact publishRegistrationMove_signingKeys reg
  intro key inKeys
  rw [keys] at inKeys
  rcases mem_concat.mp inKeys with old | isNew
  · obtain ⟨user, inUsers, named⟩ := any_eq_true.mp (owned key old)
    obtain ⟨kept, inAfter, same⟩ := mem_registeredUsers_of_mem inUsers
    exact any_eq_true.mpr ⟨kept, by rw [users]; exact inAfter, by rw [same]; exact named⟩
  · rw [isNew]
    exact any_eq_true.mpr ⟨row, mem, by simpa using own⟩

variable (eligible : attempt.Eligible server tables key displayName)
  (answered : attempt.Answered server tables key displayName) (fresh : attempt.Fresh tables)
include eligible answered fresh

theorem registers_unknown (unknown : tables.db.hasUser key = false) : Registers server tables attempt key := by
  obtain ⟨credentialId, attested, unregistered⟩ := answered.passkey
  unfold Registers registerAtOnce
  rw [beginRegistration_ok eligible unknown]
  dsimp only
  unfold complete
  rw [@checkComplete_answered server _ _ attempt key displayName credentialId
    ⟨attempt.draw.challengeId, .crossInstanceRegister, server.startPasskeyRegistration attempt.draw.userUuid displayName,
      some displayName, some attempt.draw.userUuid⟩ answered ?awaited rfl rfl attested]
  case awaited =>
    have noOther : tables.authChallenges.find? (fun row => row.id = attempt.draw.challengeId ∧
        row.challengeType = .crossInstanceRegister) = none :=
      find?_eq_none.mpr fun row mem => by simp [fresh.challengeId row mem]
    dsimp only
    rw [find?_append, noOther]
    simp
  obtain ⟨db, registered⟩ := @completeRegistration_unknown server.state tables.db
    ((attempt.pending server key displayName credentialId).registration server attempt.moveSource) fresh.owned unknown
    eligible.unused
  let nonceRow : RegistrationChallengeRow :=
    { nonce := attempt.draw.nonce, userKey := key, createdAt := attempt.draw.createdAt }
  have found : (tables.registrationChallenges ++ [nonceRow]).find? (·.nonce = attempt.draw.nonce) = some nonceRow := by
    have noOther : tables.registrationChallenges.find? (·.nonce = attempt.draw.nonce) = none :=
      find?_eq_none.mpr fun row mem => by simp [fresh.nonce row mem]
    rw [find?_append, noOther]
    simp [nonceRow]
  generalize begunIs : ({ tables with
    registrationChallenges := tables.registrationChallenges ++ _, authChallenges := tables.authChallenges ++ _ } :
      RegistrationTables) = begun
  have sameDb : begun.db = tables.db := by rw [← begunIs]
  obtain ⟨userId, final, committed⟩ := @commitComplete_of server begun (attempt.pending server key displayName credentialId)
    attempt.moveSource db nonceRow (by rw [← begunIs]; exact found) rfl rfl
    (by rw [← begunIs]; simp [Attempt.pending]) (by rw [sameDb]; exact registered)
    (by rw [← begunIs]; exact unregistered)
  dsimp only
  rw [committed]
  dsimp only
  have effect := (commitComplete_ok committed).2.2.1
  obtain ⟨present, isLocal⟩ := completeRegistration_local effect
  refine ⟨⟨userId, rfl⟩, fun known => ?_, present, isLocal⟩
  rw [unknown] at known
  cases known

theorem registers_iff : Registers server tables attempt key ↔ tables.db.hasUser key = false := by
  constructor
  · intro registers
    by_contra known
    rw [Bool.not_eq_false] at known
    obtain ⟨error, refused⟩ := beginRegistration_known eligible known
    obtain ⟨⟨userId, succeeded⟩, -⟩ := registers
    unfold registerAtOnce at succeeded
    rw [refused] at succeeded
    cases succeeded
  · exact registers_unknown eligible answered fresh

end Prismoire
