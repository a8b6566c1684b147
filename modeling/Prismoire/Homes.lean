import Prismoire.RemoteUsers

namespace Prismoire

open Lib List Option

/-- What the signing layer returns: the canonical bytes and the signature over them. -/
structure SigningOutput where
  payload : Bytes
  signature : Bytes
  deriving DecidableEq

abbrev Signer := SignedPayload → SigningOutput

/-- The signing layer that goes with the platform of a table. -/
def signByTable (table : List SignedPayload) : Signer := fun object =>
  { payload := [UInt8.ofNat (table.idxOf object)], signature := List.replicate 64 0 }

section

variable (db : Db)

def upsertUserHome (row : UserHomeRow) : Db :=
  { db with
    userHomes :=
      if db.userHomes.any (·.userKey = row.userKey) then
        updateWhere (·.userKey = row.userKey) (fun _ => row) db.userHomes
      else
        db.userHomes ++ [row] }

def insertUserMove (row : UserMoveRow) : Db :=
  { db with
    userMoves :=
      if db.userMoves.any fun old => old.userKey = row.userKey ∧ old.canonicalHash = row.canonicalHash then db.userMoves
      else db.userMoves ++ [row] }

def insertUserGenesis (row : UserGenesisRow) : Db :=
  { db with
    userGenesis :=
      if db.userGenesis.any (·.userKey = row.userKey) then db.userGenesis
      else db.userGenesis ++ [row] }

/-- The two unique indexes over the display names of locally homed users. -/
def nameTaken (publicKey : Key) (displayName skeleton : Text) : Bool :=
  db.users.any fun other => other.publicKey ≠ publicKey ∧ other.homeInstance = none ∧
    (other.displayName = displayName ∨ other.displayNameSkeleton = skeleton)

/-- The inputs of a birth; the genesis profile and the genesis move are signed with the new key. -/
structure LocalUserBirth where
  publicKey : Key
  displayName : Text
  skeleton : Text
  signupMethod : SignupMethod
  createdAtMs : Nat
  instanceDomain : Text
  genesisAttestation : GenesisAttestation
  profile : SigningOutput
  move : SigningOutput

def mintLocalUserGenesis (state : AppState) (db : Db) (birth : LocalUserBirth) : Db :=
  let canonicalHash := state.platform.sha256 birth.move.payload
  let db := db.storeSignedObject .move birth.move.payload birth.move.signature canonicalHash
  let db := insertUserMove db ⟨birth.publicKey, canonicalHash, asI64 birth.createdAtMs⟩
  let db := upsertUserHome db
    { userKey := birth.publicKey, currentHomeKey := state.instanceKey,
      currentHomeDomain := birth.instanceDomain, currentMoveHash := some canonicalHash,
      currentCreatedAt := some (asI64 birth.createdAtMs) }
  insertUserGenesis db ⟨birth.publicKey, asI64 birth.createdAtMs, state.instanceKey, birth.genesisAttestation.sig⟩

def completeLocalUserBirth (state : AppState) (db : Db) (birth : LocalUserBirth) : Sql Db := do
  require (!db.hasUser birth.publicKey) .unique
  require (!nameTaken db birth.publicKey birth.displayName birth.skeleton) .unique
  let user : UserRow :=
    { publicKey := birth.publicKey, displayName := birth.displayName,
      displayNameSkeleton := birth.skeleton, signupMethod := birth.signupMethod, homeInstance := none }
  let signingKey : SigningKeyRow := { user := birth.publicKey }
  let profileHash := state.platform.sha256 birth.profile.payload
  let profile : ProfileRevisionRow :=
    { user := birth.publicKey, displayName := birth.displayName, bio := "", avatarAttachmentHash := none,
      createdAt := birth.createdAtMs, signature := birth.profile.signature, priorProfileHash := none,
      canonicalHash := profileHash }
  let db := { db with
    users := db.users ++ [user]
    signingKeys := db.signingKeys ++ [signingKey]
    profileRevisions := db.profileRevisions ++ [profile] }
  let db := db.storeSignedObject .profile birth.profile.payload birth.profile.signature profileHash
  return mintLocalUserGenesis state db birth

structure TrustCode where
  userPubkey : Key
  displayName : Text
  homeDomain : Text
  instancePubkey : Key

/-- The seeding branch of `redeem_trust_code`: only a key without a row gets a stub and a home. -/
def seedTrustCode (state : AppState) (db : Db) (code : TrustCode) : Db :=
  if db.hasUser code.userPubkey then
    db
  else
    let db := hydrateStubUser state db code.userPubkey code.displayName code.instancePubkey
    { db with
      userHomes :=
        if db.userHomes.any (·.userKey = code.userPubkey) then db.userHomes
        else db.userHomes ++
          [{ userKey := code.userPubkey, currentHomeKey := code.instancePubkey,
             currentHomeDomain := code.homeDomain, currentMoveHash := none, currentCreatedAt := none }] }

/-- The hydration inside `project_remote_profile`, skipped for a locally homed key. -/
def hydrateProfile (state : AppState) (db : Db) (profile : ProfileRevision) (arrivedFrom : Key) : Db :=
  if isLocalAuthoritative state db profile.user arrivedFrom then
    db
  else
    hydrateStubUser state db profile.user profile.displayName (resolveCurrentHome db profile.user arrivedFrom)

inductive MoveStatus where
  | applied
  | duplicate
  | superseded
  | deferred
  | schemaInvalid
  | wrongClass
  | unknownClass
  | invalidSignature
  | skewExceeded
  deriving DecidableEq

def maxClockSkewMs : Nat := 300000

/-- The later time wins; on a tie the smaller hash, and any move against a seeded row. -/
def newWins (existing : Option UserHomeRow) (m : Move) (canonicalHash : Hash) : Bool :=
  match existing with
  | none => true
  | some row =>
    let priorTs := (row.currentCreatedAt.map Int.toNat).getD 0
    if priorTs < m.createdAt then
      true
    else if m.createdAt < priorTs then
      false
    else
      match row.currentMoveHash with
      | some priorHash => canonicalHash < priorHash
      | none => true

def setHomeInstance (key : Key) (home : Option Key) : Sql Db := do
  require (!(home.isNone && (db.user? key).any fun row =>
    nameTaken db key row.displayName row.displayNameSkeleton)) .unique
  return { db with
    users := updateWhere (·.publicKey = key) (fun row => { row with homeInstance := home }) db.users }

def disposeLocalUserAuthority (key : Key) : Db :=
  match db.user? key with
  | none => db
  | some row =>
    if row.signupMethod = .federated then
      db
    else
      { db with
        signingKeys := db.signingKeys.filter (·.user ≠ key)
        users := updateWhere (·.publicKey = key) (fun row => { row with signupMethod := .federated }) db.users }

/-- The transaction of `apply_one_move` for a move that passed every check before it; a home row must
name a domain. -/
def commitMove (state : AppState) (db : Db) (m : Move) (payload signature : Bytes) : Sql (MoveStatus × Db) := do
  let canonicalHash := state.platform.sha256 payload
  if (db.userGenesis.find? (·.userKey = m.key)).any fun row =>
      asU64 row.genesisAt ≠ UInt64.ofNat m.genesisAt then
    return (.schemaInvalid, db)
  else
    let wins := newWins (db.userHomes.find? (·.userKey = m.key)) m canonicalHash
    let db := db.storeSignedObject .move payload signature canonicalHash
    let db := insertUserGenesis db
      ⟨m.key, asI64 m.genesisAt, m.genesisAttestation.birthInstanceKey, m.genesisAttestation.sig⟩
    let db := insertUserMove db ⟨m.key, canonicalHash, asI64 m.createdAt⟩
    let db ←
      if wins then do
        require (m.toInstance ≠ "") .check
        setHomeInstance (upsertUserHome db
            { userKey := m.key, currentHomeKey := m.toInstanceKey, currentHomeDomain := m.toInstance,
              currentMoveHash := some canonicalHash, currentCreatedAt := some (asI64 m.createdAt) })
          m.key (if m.toInstanceKey = state.instanceKey then none else some m.toInstanceKey)
      else
        .ok db
    let outboundFromSelf :=
      m.fromInstanceKey = some state.instanceKey ∧ m.toInstanceKey ≠ state.instanceKey
    let db := if outboundFromSelf then disposeLocalUserAuthority db m.key else db
    return (if wins then .applied else .superseded, db)

def applyOneMove (state : AppState) (db : Db) (wireBytes : Bytes) (nowMs : Nat) : Sql (MoveStatus × Db) :=
  match state.platform.decodeSignedObject wireBytes with
  | none => .ok (.schemaInvalid, db)
  | some (payload, signature) =>
    match db.signedObjects.find? (·.canonicalHash = state.platform.sha256 payload) with
    | some row => .ok (if row.payload.isNone then .schemaInvalid else .duplicate, db)
    | none =>
      match state.platform.parse payload with
      | none => .ok (.schemaInvalid, db)
      | some (.fedEnvelope _) => .ok (.unknownClass, db)
      | some (.registrationChallenge _) => .ok (.unknownClass, db)
      | some (.priorHomeChallenge _) => .ok (.unknownClass, db)
      | some (.priorHomeResponse _) => .ok (.unknownClass, db)
      | some (.move m) =>
        let att := m.genesisAttestation
        if !signatureOk state.platform payload signature m.key then
          .ok (.invalidSignature, db)
        else if !state.platform.verifyingKeyFromBytes att.birthInstanceKey ||
            !state.platform.ed25519Verify att.birthInstanceKey
              (state.platform.genesisAttestationSigningBytes att.key att.genesisAt att.birthInstanceKey)
              att.sig then
          .ok (.schemaInvalid, db)
        else if maxClockSkewMs < max nowMs m.createdAt - min nowMs m.createdAt then
          .ok (.skewExceeded, db)
        else if m.priorMoveHash.any fun prior => !db.signedObjects.any fun row =>
            row.canonicalHash = prior ∧ row.innerClass = .move ∧ row.payload.isSome then
          .ok (.deferred, db)
        else
          commitMove state db m payload signature
      | some _ => .ok (.wrongClass, db)

/-- The wrong-route test of `apply_admin_rm`. -/
def targetLocal (targetAuthor : Key) : Bool :=
  db.hasUser targetAuthor

/-- The `is_home` test of `handle_admin_rm_report`. -/
def isHome (state : AppState) (db : Db) (targetAuthor : Key) : Bool :=
  match db.userHomes.find? (·.userKey = targetAuthor) with
  | some row => row.currentHomeKey = state.instanceKey
  | none => db.hasUser targetAuthor

def homeKey? (key : Key) : Option Key :=
  (db.userHomes.find? (·.userKey = key)).map (·.currentHomeKey)

end

/-- One write that can change where a key is homed. -/
inductive HomeStep (state : AppState) : Db → Db → Prop
  | birth {db after} (birth : LocalUserBirth) :
      completeLocalUserBirth state db birth = .ok after → HomeStep state db after
  | hydrate {db} (profile : ProfileRevision) (arrivedFrom : Key) :
      HomeStep state db (hydrateProfile state db profile arrivedFrom)
  | seed {db} (code : TrustCode) : HomeStep state db (seedTrustCode state db code)
  | move {db status after} (wireBytes : Bytes) (nowMs : Nat) :
      applyOneMove state db wireBytes nowMs = .ok (status, after) → HomeStep state db after

inductive HomeReachable (state : AppState) : Db → Prop
  | start {db} : db.users = [] → HomeReachable state db
  | step {db after} : HomeReachable state db → HomeStep state db after → HomeReachable state after

def LocalsHomed (state : AppState) (db : Db) : Prop :=
  ∀ row ∈ db.users, row.homeInstance = none → homeKey? db row.publicKey = some state.instanceKey

section Invariant

variable {state : AppState} {db after : Db}

theorem homeKey?_upsertUserHome (db : Db) (home : UserHomeRow) (key : Key) : homeKey? (upsertUserHome db home) key =
      if key = home.userKey then some home.currentHomeKey else homeKey? db key := by
  by_cases same : key = home.userKey
  · subst same
    rw [if_pos rfl]
    unfold homeKey? upsertUserHome
    by_cases present : db.userHomes.any (·.userKey = home.userKey) = true
    · obtain ⟨old, found⟩ : ∃ old, db.userHomes.find? (·.userKey = home.userKey) = some old := by
        rw [← isSome_iff_exists, find?_isSome]
        simpa using present
      have named := find?_some found
      simp only [present, if_true]
      rw [find?_updateWhere (by simp), found]
      simp only [map_some, named, if_true]
    · have absent : db.userHomes.find? (·.userKey = home.userKey) = none := by
        simpa [find?_eq_none] using present
      simp only [present, Bool.false_eq_true, if_false, find?_append, absent]
      simp
  · rw [if_neg same]
    have other : home.userKey ≠ key := fun equal => same equal.symm
    unfold homeKey? upsertUserHome
    dsimp only
    split
    · rw [find?_updateWhere]
      · cases found : db.userHomes.find? (·.userKey = key) with
        | none => rfl
        | some row =>
          have named : row.userKey = key := by simpa using find?_some found
          simp [named, same]
      · intro row named
        simp only [decide_eq_true_eq] at named
        simp [named]
    · simp [find?_append, other]

theorem homeKey?_mintLocalUserGenesis (state : AppState) (db : Db) (birth : LocalUserBirth) (key : Key) :
    homeKey? (mintLocalUserGenesis state db birth) key =
      if key = birth.publicKey then some state.instanceKey else homeKey? db key :=
  homeKey?_upsertUserHome _ _ _

theorem mem_users_hydrateStubUser {publicKey homeInstance : Key} {displayName : Text} {row : UserRow}
    (mem : row ∈ (hydrateStubUser state db publicKey displayName homeInstance).users) :
    row ∈ db.users ∨ row.homeInstance = some homeInstance := by
  unfold hydrateStubUser at mem
  split at mem
  · split at mem
    · obtain ⟨old, inUsers, ⟨-, rfl⟩ | ⟨-, rfl⟩⟩ := mem_updateWhere.mp mem
      · exact .inr rfl
      · exact .inl inUsers
    · exact .inl mem
  · rcases mem_concat.mp mem with old | new
    · exact .inl old
    · rw [new]
      exact .inr rfl

section

variable (homed : LocalsHomed state db)
include homed

theorem LocalsHomed.hydrateStubUser (publicKey : Key) (displayName : Text) (homeInstance : Key) :
    LocalsHomed state (hydrateStubUser state db publicKey displayName homeInstance) := by
  intro row mem isLocal
  rcases mem_users_hydrateStubUser mem with old | remote
  · exact homed row old isLocal
  · rw [isLocal] at remote
    cases remote

theorem LocalsHomed.seedTrustCode (code : TrustCode) : LocalsHomed state (seedTrustCode state db code) := by
  unfold Prismoire.seedTrustCode
  split
  · exact homed
  · intro row mem isLocal
    have before := homed.hydrateStubUser code.userPubkey code.displayName code.instancePubkey row mem isLocal
    dsimp only [homeKey?] at before ⊢
    split
    · exact before
    · rw [find?_append]
      obtain ⟨home, found, named⟩ := map_eq_some_iff.mp before
      simp [found, named]

theorem LocalsHomed.completeLocalUserBirth {birth : LocalUserBirth}
    (run : completeLocalUserBirth state db birth = .ok after) : LocalsHomed state after := by
  simp only [Prismoire.completeLocalUserBirth, require_bind_ok] at run
  obtain ⟨-, -, run⟩ := run
  cases run
  intro row mem isLocal
  rw [homeKey?_mintLocalUserGenesis]
  split
  · rfl
  · rename_i other
    rcases mem_concat.mp mem with old | new
    · exact homed row old isLocal
    · rw [new] at other
      exact absurd rfl other

theorem LocalsHomed.disposeLocalUserAuthority (key : Key) : LocalsHomed state (disposeLocalUserAuthority db key) := by
  unfold Prismoire.disposeLocalUserAuthority
  split
  · exact homed
  · split
    · exact homed
    · exact forall_mem_updateWhere homed fun _ => id

theorem LocalsHomed.rehome {home : UserHomeRow} (run : setHomeInstance (upsertUserHome db home) home.userKey
      (if home.currentHomeKey = state.instanceKey then none else some home.currentHomeKey) = .ok after) :
    LocalsHomed state after := by
  simp only [setHomeInstance, require_bind_ok] at run
  obtain ⟨-, run⟩ := run
  cases run
  intro row mem isLocal
  have named : homeKey? _ row.publicKey = _ := homeKey?_upsertUserHome db home row.publicKey
  dsimp only [homeKey?] at named ⊢
  rw [named]
  obtain ⟨old, inUsers, ⟨moved, rfl⟩ | ⟨moved, rfl⟩⟩ := mem_updateWhere.mp mem
  · simp only [decide_eq_true_eq] at moved
    have here : home.currentHomeKey = state.instanceKey := by
      by_contra away
      simp [away] at isLocal
    simp [moved, here]
  · simp only [decide_eq_false_iff_not] at moved
    rw [if_neg moved]
    exact homed row inUsers isLocal

theorem LocalsHomed.commitMove {m : Move} {payload signature : Bytes} {status : MoveStatus}
    (run : commitMove state db m payload signature = .ok (status, after)) : LocalsHomed state after := by
  unfold Prismoire.commitMove at run
  dsimp only at run
  split at run
  · cases run
    exact homed
  · split at run
    · obtain ⟨-, run⟩ := require_bind_ok.mp run
      obtain ⟨mid, moved, rest⟩ := bind_ok.mp run
      have midHomed : LocalsHomed state mid := LocalsHomed.rehome (by exact homed) moved
      cases rest
      split
      · exact midHomed.disposeLocalUserAuthority m.key
      · exact midHomed
    · cases run
      split
      · exact LocalsHomed.disposeLocalUserAuthority (by exact homed) m.key
      · exact homed

theorem LocalsHomed.applyOneMove {wireBytes : Bytes} {nowMs : Nat} {status : MoveStatus}
    (run : applyOneMove state db wireBytes nowMs = .ok (status, after)) : LocalsHomed state after := by
  unfold Prismoire.applyOneMove at run
  dsimp only at run
  repeat' split at run
  all_goals first
    | exact homed.commitMove run
    | (cases run; exact homed)

end

theorem HomeStep.localsHomed (step : HomeStep state db after) (homed : LocalsHomed state db) :
    LocalsHomed state after := by
  cases step with
  | birth birth run => exact homed.completeLocalUserBirth run
  | hydrate profile arrivedFrom =>
    unfold hydrateProfile
    split
    · exact homed
    · exact homed.hydrateStubUser _ _ _
  | seed code => exact homed.seedTrustCode code
  | move wireBytes nowMs run => exact homed.applyOneMove run

theorem HomeReachable.localsHomed (reached : HomeReachable state db) : LocalsHomed state db := by
  induction reached with
  | start empty => simp [LocalsHomed, empty]
  | step _ step ih => exact step.localsHomed ih

end Invariant

/-- The four tests for whether this instance is the home of a key give one answer. -/
def HomesAgree (state : AppState) (db : Db) (key arrivedFrom : Key) : Prop :=
  ∃ home : Bool, targetLocal db key = home ∧ isHome state db key = home ∧
    decide (resolveCurrentHome db key arrivedFrom = state.instanceKey) = home ∧
    (db.hasUser key = true → isLocalAuthoritative state db key arrivedFrom = home)

/-- A known key is homed here; an unknown one has no home row naming this instance, and without any
home row it came from elsewhere. -/
def HomeClear (state : AppState) (db : Db) (key arrivedFrom : Key) : Prop :=
  match db.user? key with
  | some row => row.homeInstance = none
  | none => homeKey? db key ≠ some state.instanceKey ∧
      (homeKey? db key = none → arrivedFrom ≠ state.instanceKey)

theorem resolveCurrentHome_eq (db : Db) (key arrivedFrom : Key) :
    resolveCurrentHome db key arrivedFrom = (homeKey? db key).getD arrivedFrom := by
  unfold resolveCurrentHome homeKey?
  cases db.userHomes.find? (·.userKey = key) <;> rfl

theorem isHome_eq (state : AppState) (db : Db) (key : Key) : isHome state db key =
      ((homeKey? db key).map fun home => decide (home = state.instanceKey)).getD (db.hasUser key) := by
  unfold isHome homeKey?
  cases db.userHomes.find? (·.userKey = key) <;> rfl

/-- In a reachable state the four tests agree on exactly the keys that are clear. -/
theorem homesAgree_iff {state : AppState} {db : Db} (reached : HomeReachable state db) (key arrivedFrom : Key) :
    HomesAgree state db key arrivedFrom ↔ HomeClear state db key arrivedFrom := by
  unfold HomesAgree HomeClear
  simp only [targetLocal, hasUser_eq, isHome_eq, resolveCurrentHome_eq, isLocalAuthoritative]
  cases found : db.user? key with
  | none =>
    cases homeKey? db key with
    | none => simp
    | some home => simp
  | some row =>
    have named : row.publicKey = key := by simpa using find?_some found
    simp only [isSome_some]
    constructor
    · rintro ⟨home, isTrue, -, -, same⟩
      have : row.homeInstance.isNone = true := by rw [same trivial, ← isTrue]
      simpa using this
    · intro isLocal
      have homed := reached.localsHomed row (mem_of_find?_eq_some found) isLocal
      rw [named] at homed
      exact ⟨true, rfl, by simp [homed], by simp [homed], fun _ => by simp [isLocal]⟩

def stubState : AppState where
  platform := Platform.ofTable []
  instanceKey := 9
  edgeRowId _ := 0
  edgeClock _ := ""

/-- The profile of a user of another instance, which arrives from that instance. -/
def stubProfile : ProfileRevision :=
  ⟨1, "a", "", none, 1000, none⟩

/-- For a hydrated stub the wrong-route test says local, while the three others look at the home. -/
theorem homesAgree_stub_false : ∃ state db key arrivedFrom, HomeReachable state db ∧
    arrivedFrom ≠ state.instanceKey ∧ ¬ HomesAgree state db key arrivedFrom := by
  refine ⟨stubState, hydrateProfile stubState {} stubProfile 8, 1, 8,
    .step (.start rfl) (.hydrate stubProfile 8), by decide, ?_⟩
  rintro ⟨home, isLocal, -, resolved, -⟩
  have known : targetLocal (hydrateProfile stubState {} stubProfile 8) 1 = true := by decide
  have away : resolveCurrentHome (hydrateProfile stubState {} stubProfile 8) 1 8 ≠ stubState.instanceKey := by
    decide
  rw [known] at isLocal
  subst isLocal
  exact away (of_decide_eq_true resolved)

def localBirth : LocalUserBirth where
  publicKey := 1
  displayName := "a"
  skeleton := "a"
  signupMethod := .invite
  createdAtMs := 1000
  instanceDomain := "here"
  genesisAttestation := ⟨1, 1000, 9, []⟩
  profile := ⟨[0], []⟩
  move := ⟨[1], []⟩

def bornDb : Db :=
  match completeLocalUserBirth stubState {} localBirth with
  | .ok db => db
  | .error _ => {}

theorem homesAgree_local : HomesAgree stubState bornDb 1 8 := by
  have born : completeLocalUserBirth stubState {} localBirth = .ok bornDb := rfl
  have reached : HomeReachable stubState bornDb := .step (.start rfl) (.birth localBirth born)
  have found : bornDb.user? 1 = some ⟨1, "a", "a", .invite, none, false⟩ := by decide
  have isLocal : HomeClear stubState bornDb 1 8 := by
    unfold HomeClear
    rw [found]
  exact (homesAgree_iff reached 1 8).mpr isLocal

end Prismoire
