import Prismoire.Lib.Run
import Prismoire.MoveDelivery

namespace Prismoire

open Lib List

inductive RegistrationError where
  | userKeyTaken
  | displayNameTaken
  | sql (error : SqlError)
  deriving DecidableEq

/-- A cross-instance registration whose challenge is consumed: the imported key, the chosen name and
the prior home that was found, with the signing layer of the key. -/
structure CrossRegistration where
  publicKey : Key
  displayName : Text
  skeleton : Text
  instanceDomain : Text
  now : Nat
  moveSource : Option (Key × Text)
  sign : Move → SigningOutput

def nameHeld (db : Db) (publicKey : Key) (displayName skeleton : Text) : Bool :=
  db.users.any fun other => other.publicKey ≠ publicKey ∧
    (other.displayName = displayName ∨ other.displayNameSkeleton = skeleton)

/-- `upgrade_federated_stub_in_place`, or the insert of `bootstrap_local_user`. -/
def registeredUsers (db : Db) (reg : CrossRegistration) : List UserRow :=
  if db.hasUser reg.publicKey then
    updateWhere (·.publicKey = reg.publicKey) (fun row => { row with
      displayName := reg.displayName, displayNameSkeleton := reg.skeleton,
      signupMethod := .crossInstanceRegister, homeInstance := none }) db.users
  else
    db.users ++
      [{ publicKey := reg.publicKey, displayName := reg.displayName, displayNameSkeleton := reg.skeleton,
         signupMethod := .crossInstanceRegister, homeInstance := none }]

def loadGenesisAttestation (db : Db) (key : Key) : Option GenesisAttestation :=
  (db.userGenesis.find? (·.userKey = key)).map fun row =>
    { key, genesisAt := (asU64 row.genesisAt).toNat, birthInstanceKey := row.birthInstanceKey, sig := row.attestationSig }

section

variable (state : AppState) (db : Db)

/-- The move that the registration publishes, once a prior home and the birth anchor are known. -/
def publishRegistrationMove (reg : CrossRegistration) : Db :=
  match reg.moveSource, loadGenesisAttestation db reg.publicKey with
  | some (fromKey, fromDomain), some attestation =>
    let signed := reg.sign
      { key := reg.publicKey, fromInstanceKey := some fromKey, fromInstance := some fromDomain,
        toInstanceKey := state.instanceKey, toInstance := reg.instanceDomain, createdAt := reg.now,
        genesisAt := attestation.genesisAt, genesisAttestation := attestation, priorMoveHash := none }
    let canonicalHash := state.platform.sha256 signed.payload
    let db := db.storeSignedObject .move signed.payload signed.signature canonicalHash
    let db := insertUserMove db ⟨reg.publicKey, canonicalHash, asI64 reg.now⟩
    upsertUserHome db
      { userKey := reg.publicKey, currentHomeKey := state.instanceKey, currentHomeDomain := reg.instanceDomain,
        currentMoveHash := some canonicalHash, currentCreatedAt := some (asI64 reg.now) }
  | _, _ => db

/-- The transaction of `registration::complete`. A stub is upgraded in place, any other row of the key
is taken; the name is looked for among all users, which covers the two indexes. -/
def completeRegistration (reg : CrossRegistration) : Except RegistrationError Db :=
  if (db.user? reg.publicKey).any (·.signupMethod ≠ .federated) then
    .error .userKeyTaken
  else if nameHeld db reg.publicKey reg.displayName reg.skeleton then
    .error .displayNameTaken
  else if db.signingKeys.any fun row => row.user = reg.publicKey ∧ row.active then
    .error (.sql .unique)
  else
    let signingKey : SigningKeyRow := { user := reg.publicKey }
    let db := { db with
      users := registeredUsers db reg
      signingKeys := db.signingKeys ++ [signingKey] }
    .ok (publishRegistrationMove state db reg)

/-- The writes that set a user's sign-up method, name or home. -/
inductive HomeEvent where
  | signUp (birth : LocalUserBirth)
  | hydrate (profile : ProfileRevision) (arrivedFrom : Key)
  | seed (code : TrustCode)
  | register (reg : CrossRegistration)
  | move (wire : Bytes) (nowMs : Nat)

/-- A write that fails leaves the tables as they are. -/
def HomeEvent.apply : HomeEvent → Db
  | .signUp birth => (completeLocalUserBirth state db birth).toOption.getD db
  | .hydrate profile arrivedFrom => hydrateProfile state db profile arrivedFrom
  | .seed code => seedTrustCode state db code
  | .register reg => (completeRegistration state db reg).toOption.getD db
  | .move wire nowMs => deliverMove state db wire nowMs

def StubFits (key : Key) (displayName : Text) (home : Key) : Prop :=
  home ≠ state.instanceKey ∧
    let name := sanitizeRemoteDisplayName displayName key
    nameTaken db key name (state.platform.displayNameSkeleton name) = false

/-- A move may be written: one that wins and comes here finds no stub of the key, and a row of it only under a name of its
own; one that loses takes no authority over a local row. -/
structure MoveFits (state : AppState) (db : Db) (m : Move) (canonicalHash : Hash) : Prop where
  arrives : newWins (db.userHomes.find? (·.userKey = m.key)) m canonicalHash = true → m.toInstanceKey = state.instanceKey →
    ∀ row ∈ db.users, row.publicKey = m.key → row.signupMethod ≠ .federated ∧
      nameHeld db m.key row.displayName row.displayNameSkeleton = false
  leaves : newWins (db.userHomes.find? (·.userKey = m.key)) m canonicalHash = false → disposes state db m = true →
    ∀ row ∈ db.users, row.publicKey = m.key → row.homeInstance ≠ none

/-- What each write must meet for the home columns to stay consistent. -/
def HomeFits : HomeEvent → Prop
  | .signUp birth => birth.signupMethod ≠ .federated ∧
      nameHeld db birth.publicKey birth.displayName birth.skeleton = false
  | .hydrate profile arrivedFrom => isLocalAuthoritative state db profile.user arrivedFrom = true ∨
      (db.user? profile.user).any (·.signupMethod ≠ .federated) = true ∨
      StubFits state db profile.user profile.displayName (resolveCurrentHome db profile.user arrivedFrom)
  | .seed code => db.hasUser code.userPubkey = true ∨
      StubFits state db code.userPubkey code.displayName code.instancePubkey
  | .register _ => True
  | .move wire _ => ∀ payload signature m, state.platform.decodeSignedObject wire = some (payload, signature) →
      state.platform.parse payload = some (.move m) → MoveFits state db m (state.platform.sha256 payload)

end

/-- A stub is homed elsewhere, and no user has the name of another local one. -/
structure HomesConsistent (state : AppState) (db : Db) : Prop where
  away : ∀ row ∈ db.users, row.homeInstance ≠ some state.instanceKey
  federated : ∀ row ∈ db.users, row.signupMethod = .federated → row.homeInstance ≠ none
  apart : ∀ row ∈ db.users, ∀ other ∈ db.users, row.publicKey ≠ other.publicKey → other.homeInstance = none →
    row.displayName ≠ other.displayName ∧ row.displayNameSkeleton ≠ other.displayNameSkeleton

section

variable {state : AppState} {db after : Db} {key : Key}

variable {displayName skeleton : Text} {row : UserRow}

theorem nameTaken_false : nameTaken db key displayName skeleton = false ↔
    ∀ other ∈ db.users, other.publicKey ≠ key → other.homeInstance = none →
      displayName ≠ other.displayName ∧ skeleton ≠ other.displayNameSkeleton := by
  simp only [nameTaken, any_eq_false, decide_eq_true_eq, not_and, not_or]
  exact forall₂_congr fun other _ => forall₂_congr fun _ _ => and_congr ne_comm ne_comm

theorem nameHeld_false : nameHeld db key displayName skeleton = false ↔ ∀ other ∈ db.users, other.publicKey ≠ key →
      displayName ≠ other.displayName ∧ skeleton ≠ other.displayNameSkeleton := by
  simp only [nameHeld, any_eq_false, decide_eq_true_eq, not_and, not_or]
  exact forall₂_congr fun other _ => forall_congr' fun _ => and_congr ne_comm ne_comm

theorem nameTaken_of_nameHeld (free : nameHeld db key displayName skeleton = false) :
    nameTaken db key displayName skeleton = false :=
  nameTaken_false.mpr fun other mem apart _ => nameHeld_false.mp free other mem apart

section

variable (consistent : HomesConsistent state db)
include consistent

theorem HomesConsistent.name_untaken (mem : row ∈ db.users) :
    nameTaken db row.publicKey row.displayName row.displayNameSkeleton = false :=
  nameTaken_false.mpr fun other inUsers apart isLocal => consistent.apart row mem other inUsers apart.symm isLocal

theorem HomesConsistent.name_unheld (mem : row ∈ db.users)
    (isLocal : row.homeInstance = none) : nameHeld db row.publicKey row.displayName row.displayNameSkeleton = false := by
  refine nameHeld_false.mpr fun other inUsers apart => ?_
  have names := consistent.apart other inUsers row mem apart isLocal
  exact ⟨names.1.symm, names.2.symm⟩

structure RowFits (state : AppState) (db : Db) (row : UserRow) : Prop where
  away : row.homeInstance ≠ some state.instanceKey
  federated : row.signupMethod = .federated → row.homeInstance ≠ none
  untaken : nameTaken db row.publicKey row.displayName row.displayNameSkeleton = false
  unheld : row.homeInstance = none → nameHeld db row.publicKey row.displayName row.displayNameSkeleton = false

theorem HomesConsistent.fits (mem : row ∈ db.users) : RowFits state db row :=
  ⟨consistent.away row mem, consistent.federated row mem, consistent.name_untaken mem,
    consistent.name_unheld mem⟩

theorem HomesConsistent.replace
    (rows : ∀ row ∈ after.users, (row ∈ db.users ∧ row.publicKey ≠ key) ∨ (row.publicKey = key ∧ RowFits state db row)) :
    HomesConsistent state after where
  away row mem := by
    rcases rows row mem with ⟨old, -⟩ | ⟨-, fits⟩
    · exact consistent.away row old
    · exact fits.away
  federated row mem := by
    rcases rows row mem with ⟨old, -⟩ | ⟨-, fits⟩
    · exact consistent.federated row old
    · exact fits.federated
  apart row mem other inUsers apart isLocal := by
    rcases rows row mem with ⟨old, -⟩ | ⟨own, fits⟩
    · rcases rows other inUsers with ⟨otherOld, -⟩ | ⟨-, otherFits⟩
      · exact consistent.apart row old other otherOld apart isLocal
      · have names := nameHeld_false.mp (otherFits.unheld isLocal) row old apart
        exact ⟨names.1.symm, names.2.symm⟩
    · rcases rows other inUsers with ⟨otherOld, -⟩ | ⟨otherOwn, -⟩
      · exact nameTaken_false.mp fits.untaken other otherOld apart.symm isLocal
      · exact absurd (own.trans otherOwn.symm) apart

theorem HomesConsistent.of_users (users : after.users = db.users) : HomesConsistent state after :=
  ⟨by rw [users]; exact consistent.away, by rw [users]; exact consistent.federated, by rw [users]; exact consistent.apart⟩

theorem HomesConsistent.signUp {birth : LocalUserBirth}
    (fits : HomeFits state db (.signUp birth)) (run : completeLocalUserBirth state db birth = .ok after) :
    HomesConsistent state after := by
  simp only [completeLocalUserBirth, require_bind_ok] at run
  obtain ⟨fresh, -, returned⟩ := run
  cases returned
  refine @HomesConsistent.replace state db _ birth.publicKey consistent fun row mem => ?_
  rcases mem_concat.mp mem with old | isNew
  · left
    refine ⟨old, fun same => ?_⟩
    have known : db.hasUser birth.publicKey = true := any_eq_true.mpr ⟨row, old, by simp [same]⟩
    rw [known] at fresh
    cases fresh
  · right
    rw [isNew]
    exact ⟨rfl, by simp, fun federated => absurd federated fits.1, nameTaken_of_nameHeld fits.2, fun _ => fits.2⟩

theorem HomesConsistent.hydrateStubUser {displayName : Text} {home : Key}
    (fits : (db.user? key).any (·.signupMethod ≠ .federated) = true ∨ StubFits state db key displayName home) :
    HomesConsistent state (hydrateStubUser state db key displayName home) := by
  unfold Prismoire.hydrateStubUser
  dsimp only
  have rowFits : StubFits state db key displayName home → ∀ row : UserRow, row.publicKey = key →
      RowFits state db { row with
        displayName := sanitizeRemoteDisplayName displayName key
        displayNameSkeleton := state.platform.displayNameSkeleton (sanitizeRemoteDisplayName displayName key)
        homeInstance := some home } := by
    rintro ⟨elsewhere, untaken⟩ row own
    exact ⟨fun same => elsewhere (Option.some.inj same), nofun, by rw [own]; exact untaken, nofun⟩
  cases found : db.user? key with
  | none =>
    have stub : StubFits state db key displayName home := by
      rw [found] at fits
      simpa using fits
    refine @HomesConsistent.replace state db _ key consistent fun row mem => ?_
    rcases mem_concat.mp mem with old | isNew
    · left
      refine ⟨old, fun same => ?_⟩
      have := find?_eq_none.mp found row old
      exact this (by simp [same])
    · right
      rw [isNew]
      exact ⟨rfl, rowFits stub ⟨key, "", "", .federated, none, false⟩ rfl⟩
  | some user =>
    dsimp only
    split
    · rename_i isStub
      have stub : StubFits state db key displayName home := by
        rw [found] at fits
        simpa [isStub] using fits
      refine @HomesConsistent.replace state db _ key consistent fun row mem => ?_
      obtain ⟨old, -, own, rfl⟩ | kept := of_mem_updateWhere mem
      · exact .inr ⟨own, rowFits stub old own⟩
      · exact .inl kept
    · exact consistent.of_users rfl

theorem HomesConsistent.seedTrustCode {code : TrustCode}
    (fits : HomeFits state db (.seed code)) : HomesConsistent state (seedTrustCode state db code) := by
  unfold Prismoire.seedTrustCode
  split
  · exact consistent
  · rename_i unknown
    have stub := fits.resolve_left unknown
    have hydrated := consistent.hydrateStubUser (.inr stub)
    exact hydrated.of_users rfl

end

theorem publishRegistrationMove_users (reg : CrossRegistration) : (publishRegistrationMove state db reg).users = db.users := by
  unfold publishRegistrationMove
  split <;> rfl

theorem HomesConsistent.register {reg : CrossRegistration} (consistent : HomesConsistent state db)
    (run : completeRegistration state db reg = .ok after) : HomesConsistent state after := by
  unfold completeRegistration at run
  split at run
  · cases run
  split at run
  · cases run
  rename_i unheld
  split at run
  · cases run
  cases run
  rw [Bool.not_eq_true] at unheld
  have rowFits : ∀ row : UserRow, row.publicKey = reg.publicKey → RowFits state db { row with
      displayName := reg.displayName
      displayNameSkeleton := reg.skeleton
      signupMethod := .crossInstanceRegister
      homeInstance := none } := by
    intro row own
    have free : nameHeld db row.publicKey reg.displayName reg.skeleton = false := by
      rw [own]
      exact unheld
    exact ⟨nofun, nofun, nameTaken_of_nameHeld free, fun _ => free⟩
  refine @HomesConsistent.replace state db _ reg.publicKey consistent fun row mem => ?_
  rw [publishRegistrationMove_users] at mem
  change row ∈ registeredUsers db reg at mem
  unfold registeredUsers at mem
  split at mem
  · obtain ⟨old, -, own, rfl⟩ | kept := of_mem_updateWhere mem
    · exact .inr ⟨own, rowFits old own⟩
    · exact .inl kept
  · rename_i unknown
    rcases mem_concat.mp mem with old | isNew
    · left
      exact ⟨old, fun same => unknown (any_eq_true.mpr ⟨row, old, by simp [same]⟩)⟩
    · right
      rw [isNew]
      exact ⟨rfl, rowFits ⟨reg.publicKey, "", "", .federated, none, false⟩ rfl⟩

theorem moveDestination_away {m : Move} : moveDestination state m ≠ some state.instanceKey := by
  unfold moveDestination
  split
  · nofun
  · rename_i elsewhere
    exact fun same => elsewhere (Option.some.inj same)

variable (consistent : HomesConsistent state db)
include consistent

theorem HomesConsistent.movedUser {m : Move} {hash : Hash}
    (fits : MoveFits state db m hash) (mem : row ∈ db.users) (own : row.publicKey = m.key) :
    RowFits state db (movedUser state m (newWins (db.userHomes.find? (·.userKey = m.key)) m hash)
      (disposes state db m) row) := by
  have old := consistent.fits mem
  have here : ∀ {home : Option Key}, home = moveDestination state m → home = none → m.toInstanceKey = state.instanceKey := by
    rintro home rfl isNone
    by_contra elsewhere
    simp [moveDestination, elsewhere] at isNone
  cases wins : newWins (db.userHomes.find? (·.userKey = m.key)) m hash with
  | true =>
    refine ⟨moveDestination_away, fun federated isNone => ?_, old.untaken, fun isNone => ?_⟩
    · have arrives := here rfl isNone
      have kept : disposes state db m = false := by simp [disposes, arrives]
      rw [kept] at federated
      exact (fits.arrives wins arrives row mem own).1 federated
    · exact own ▸ (fits.arrives wins (here rfl isNone) row mem own).2
  | false =>
    refine ⟨old.away, fun federated => ?_, old.untaken, old.unheld⟩
    cases disposed : disposes state db m with
    | true => exact fits.leaves wins disposed row mem own
    | false =>
      rw [disposed] at federated
      exact old.federated federated

theorem HomesConsistent.deliverMove {wire : Bytes} {nowMs : Nat}
    (fits : HomeFits state db (.move wire nowMs)) : HomesConsistent state (deliverMove state db wire nowMs) := by
  unfold Prismoire.deliverMove
  split
  · rename_i status final run
    obtain ⟨rfl, -⟩ | ⟨payload, signature, m, decodes, parses, -, -, -, single, committed⟩ := applyOneMove_ok run
    · exact consistent
    · have moveFits := fits payload signature m decodes parses
      obtain ⟨-, rfl⟩ := commitMove_moved single committed
      refine @HomesConsistent.replace state db _ m.key consistent fun row mem => ?_
      obtain ⟨old, inUsers, own, rfl⟩ | kept := of_mem_updateWhere mem
      · exact .inr ⟨own, consistent.movedUser moveFits inUsers own⟩
      · exact .inl kept
  · exact consistent

theorem HomesConsistent.apply {event : HomeEvent} (fits : HomeFits state db event) :
    HomesConsistent state (event.apply state db) := by
  cases event with
  | signUp birth =>
    dsimp only [HomeEvent.apply]
    cases run : completeLocalUserBirth state db birth with
    | error failed => exact consistent
    | ok final => exact consistent.signUp fits run
  | hydrate profile arrivedFrom =>
    dsimp only [HomeEvent.apply]
    unfold hydrateProfile
    split
    · exact consistent
    · rename_i remote
      exact consistent.hydrateStubUser (fits.resolve_left remote)
  | seed code => exact consistent.seedTrustCode fits
  | register reg =>
    dsimp only [HomeEvent.apply]
    cases run : completeRegistration state db reg with
    | error failed => exact consistent
    | ok final => exact consistent.register run
  | move wire nowMs => exact consistent.deliverMove fits

theorem HomesConsistent.applyOneMove_ne_unique (wire : Bytes) (nowMs : Nat) :
    applyOneMove state db wire nowMs ≠ .error .unique := by
  intro run
  have clash : ∀ m, nameClash state db m = false := by
    intro m
    unfold nameClash
    cases found : db.user? m.key with
    | none => simp
    | some row =>
      have own : row.publicKey = m.key := by simpa using find?_some found
      have untaken := consistent.name_untaken (mem_of_find?_eq_some found)
      rw [own] at untaken
      simp [untaken]
  obtain ⟨payload, signature, m, single, failed⟩ := applyOneMove_error run
  rw [commitMove_eq single] at failed
  dsimp only at failed
  split at failed
  · cases failed
  · rw [clash m, Bool.and_false, if_neg (by nofun)] at failed
    cases failed

end

/-- As long as every write fits, each stub is homed on another instance and no move fails on the name indexes. -/
theorem home_columns_consistent {state : AppState} {db : Db} {events reached : List HomeEvent} (start : db.users = [])
    (fits : MeetAlong (HomeEvent.apply state) (HomeFits state) db events) (within : reached <+: events) :
    let now := reached.foldl (HomeEvent.apply state) db
    (∀ row ∈ now.users, row.signupMethod = .federated →
      ∃ home, row.homeInstance = some home ∧ home ≠ state.instanceKey) ∧
    ∀ wire nowMs, applyOneMove state now wire nowMs ≠ .error .unique := by
  have consistent : HomesConsistent state db := ⟨by simp [start], by simp [start], by simp [start]⟩
  have now := (fits.of_shorter within).invariant (fun _ _ holds meets => holds.apply meets) consistent
  refine ⟨fun row mem federated => ?_, now.applyOneMove_ne_unique⟩
  obtain ⟨home, isHome⟩ := Option.ne_none_iff_exists'.mp (now.federated row mem federated)
  exact ⟨home, isHome, fun same => now.away row mem (by rw [isHome, same])⟩

/-- Moves of a user from this instance to `8`, and from there to this one. -/
def newcomerTable : List SignedPayload :=
  [.move ⟨1, some 9, some "here", 8, "home", 1000, 500, ⟨1, 500, 9, []⟩, none⟩,
    .move ⟨1, some 8, some "home", 9, "here", 1000, 500, ⟨1, 500, 8, []⟩, none⟩]

def newcomerBirth (name : Text) : LocalUserBirth where
  publicKey := 2
  displayName := name
  skeleton := name
  signupMethod := .invite
  createdAtMs := 900
  instanceDomain := "here"
  genesisAttestation := ⟨2, 900, 9, []⟩
  profile := ⟨[3], []⟩
  move := ⟨[4], []⟩

def newcomerProfile : ProfileRevision :=
  ⟨1, "ada", "", none, 800, none⟩

def newcomerEvents : List HomeEvent :=
  [.signUp (newcomerBirth "bob"), .hydrate newcomerProfile 8, .seed ⟨3, "eve", "far", 7⟩,
    .register ⟨1, "ada", "ada", "here", 950, none, fun _ => ⟨[5], []⟩⟩, .move [0] 1500]

theorem newcomers_consistent :
    let now := newcomerEvents.foldl (HomeEvent.apply (AppState.ofTable newcomerTable)) {}
    now.users.map (fun row => (row.publicKey, row.signupMethod, row.homeInstance)) =
        [(2, .invite, none), (1, .federated, some 8), (3, .federated, some 7)] ∧
    (∀ row ∈ now.users, row.signupMethod = .federated → ∃ home, row.homeInstance = some home ∧ home ≠ 9) ∧
    ∀ wire nowMs, applyOneMove (AppState.ofTable newcomerTable) now wire nowMs ≠ .error .unique := by
  have fits : MeetAlong (HomeEvent.apply (AppState.ofTable newcomerTable)) (HomeFits (AppState.ofTable newcomerTable)) {}
      newcomerEvents := by
    refine ⟨⟨by decide, by decide +kernel⟩, .inr (.inr ⟨by decide +kernel, by decide +kernel⟩),
      .inr ⟨by decide, by decide +kernel⟩, trivial, ?_, trivial⟩
    intro payload signature m decodes parses
    cases decodes
    cases parses
    exact ⟨fun _ here => absurd here (by decide), fun loses => absurd loses (by decide +kernel)⟩
  exact ⟨by decide +kernel, home_columns_consistent rfl fits (prefix_refl _)⟩

/-- A stub that moves here stays federated without a home, and with the name of a local user it cannot move here at all. -/
theorem newcomers_inconsistent :
    let state := AppState.ofTable newcomerTable
    let moved := [HomeEvent.hydrate newcomerProfile 8, .move [1] 1500].foldl (HomeEvent.apply state) {}
    let named := [HomeEvent.signUp (newcomerBirth "ada"), .hydrate newcomerProfile 8].foldl (HomeEvent.apply state) {}
    moved.users.map (fun row => (row.publicKey, row.signupMethod, row.homeInstance)) = [(1, .federated, none)] ∧
    admissible state ⟨1, some 8, some "home", 9, "here", 1000, 500, ⟨1, 500, 8, []⟩, none⟩ [1] (List.replicate 64 0) 1500 =
      true ∧
    applyOneMove state named [1] 1500 = .error .unique := by
  exact ⟨by decide +kernel, by decide +kernel, rfl⟩

end Prismoire
