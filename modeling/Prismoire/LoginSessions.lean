import Prismoire.AccountErasure
import Prismoire.HomeColumns

namespace Prismoire

open Lib List Option Function

structure PasskeyRow where
  user : Key
  credentialId : Bytes

/-- The passkeys that a `login_begin` read, all of one user. -/
structure PasskeyOffer where
  user : Key
  rows : List PasskeyRow
  owned : ∀ row ∈ rows, row.user = user

/-- `SELECT public_key FROM credentials WHERE user_id = ?`. -/
def readPasskeys (credentials : List PasskeyRow) (user : Key) : PasskeyOffer where
  user
  rows := credentials.filter (·.user = user)
  owned := fun row mem => by simpa using (mem_filter.mp mem).2

/-- The verification of an assertion against the passkeys of a challenge state; it accepts only one of them. -/
structure WebAuthn where
  finish : Bytes → List Bytes → Option Bytes
  sound : ∀ response allowed credentialId, finish response allowed = some credentialId → credentialId ∈ allowed

/-- An `authentication` row of `auth_challenges`. It names its account by the display name only: which user the offered
passkeys belong to is in no column. -/
structure LoginChallenge where
  id : Uuid
  displayName : Text
  offer : PasskeyOffer

/-- Where a running handler stands, statement by statement. -/
inductive LoginTask where
  | idle
  | found (displayName : Text) (user : Key)
  | offered (displayName : Text) (offer : PasskeyOffer)
  | selected (challenge : LoginChallenge)
  | consumed (challenge : LoginChallenge)
  | verified (challenge : LoginChallenge) (credentialId : Bytes)
  | resolved (challenge : LoginChallenge) (credentialId : Bytes) (user : Key)

/-- A session that `login_complete` created, with the challenge and the passkey that it was created for. -/
structure LoginOpened where
  user : Key
  offer : PasskeyOffer
  credentialId : Bytes

structure LoginState where
  db : Db := {}
  credentials : List PasskeyRow := []
  sessions : List (Uuid × Key) := []
  challenges : List LoginChallenge := []
  tasks : Nat → LoginTask := fun _ => .idle
  opened : List LoginOpened := []

structure LoginServer where
  state : AppState
  sign : Signer
  webAuthn : WebAuthn
  trim : Text → Text

inductive LoginEvent where
  | home (event : HomeEvent)
  | signUp (birth : LocalUserBirth) (credentialId : Bytes)
  | register (reg : CrossRegistration) (credentialId : Bytes)
  | delete (user : Key) (anonName : Text) (now : Nat)
  | expire (stale : Uuid → Bool)
  | beginLookup (task : Nat) (requested : Text)
  | beginCredentials (task : Nat)
  | beginChallenge (task : Nat) (challengeId : Uuid)
  | completeSelect (task : Nat) (challengeId : Uuid)
  | completeDelete (task : Nat)
  | completeVerify (task : Nat) (response : Bytes)
  | completeLookup (task : Nat)
  | completeSession (task : Nat) (token : Uuid)

def lookupName (db : Db) (displayName : Text) : Option UserRow :=
  db.users.find? fun row => decide (row.displayName = displayName) && !row.deleted

namespace LoginState

def setTask (s : LoginState) (task : Nat) (next : LoginTask) : LoginState :=
  { s with tasks := update s.tasks task next }

/-- An account is created with its passkey, in one transaction; credential ids are unique. -/
def born (s : LoginState) (written : Option Db) (user : Key) (credentialId : Bytes) : LoginState :=
  match written with
  | none => s
  | some db =>
    if s.credentials.any (·.credentialId = credentialId) then
      s
    else
      { s with db, credentials := s.credentials ++ [⟨user, credentialId⟩] }

def apply (server : LoginServer) (s : LoginState) : LoginEvent → LoginState
  | .home event => { s with db := event.apply server.state s.db }
  | .signUp birth credentialId =>
    s.born (completeLocalUserBirth server.state s.db birth).toOption birth.publicKey credentialId
  | .register reg credentialId => s.born (completeRegistration server.state s.db reg).toOption reg.publicKey credentialId
  | .delete user anonName now =>
    match softDeleteUser server.state server.sign s.db user anonName now with
    | .error _ => s
    | .ok db =>
      { s with
        db
        credentials := s.credentials.filter (·.user ≠ user)
        sessions := s.sessions.filter (·.2 ≠ user) }
  | .expire stale => { s with challenges := s.challenges.filter fun challenge => !stale challenge.id }
  | .beginLookup task requested =>
    match s.tasks task with
    | .idle =>
      let displayName := server.trim requested
      match lookupName s.db displayName with
      | none => s
      | some row => s.setTask task (.found displayName row.publicKey)
    | _ => s
  | .beginCredentials task =>
    match s.tasks task with
    | .found displayName user =>
      let offer := readPasskeys s.credentials user
      s.setTask task (if offer.rows.isEmpty then .idle else .offered displayName offer)
    | _ => s
  | .beginChallenge task challengeId =>
    match s.tasks task with
    | .offered displayName offer =>
      if s.challenges.any (·.id = challengeId) then
        s.setTask task .idle
      else
        { s.setTask task .idle with challenges := s.challenges ++ [⟨challengeId, displayName, offer⟩] }
    | _ => s
  | .completeSelect task challengeId =>
    match s.tasks task, s.challenges.find? (·.id = challengeId) with
    | .idle, some challenge => s.setTask task (.selected challenge)
    | _, _ => s
  | .completeDelete task =>
    match s.tasks task with
    | .selected challenge =>
      { s.setTask task (.consumed challenge) with challenges := s.challenges.filter (·.id ≠ challenge.id) }
    | _ => s
  | .completeVerify task response =>
    match s.tasks task with
    | .consumed challenge =>
      match server.webAuthn.finish response (challenge.offer.rows.map (·.credentialId)) with
      | none => s.setTask task .idle
      | some credentialId => s.setTask task (.verified challenge credentialId)
    | _ => s
  | .completeLookup task =>
    match s.tasks task with
    | .verified challenge credentialId =>
      match lookupName s.db challenge.displayName with
      | none => s.setTask task .idle
      | some row => s.setTask task (.resolved challenge credentialId row.publicKey)
    | _ => s
  | .completeSession task token =>
    match s.tasks task with
    | .resolved challenge credentialId user =>
      if s.sessions.any (·.1 = token) then
        s.setTask task .idle
      else
        { s.setTask task .idle with
          sessions := s.sessions ++ [(token, user)]
          opened := s.opened ++ [⟨user, challenge.offer, credentialId⟩] }
    | _ => s

end LoginState

def loginBegin (server : LoginServer) (s : LoginState) (requested : Text) : Option PasskeyOffer :=
  (lookupName s.db (server.trim requested)).bind fun row =>
    let offer := readPasskeys s.credentials row.publicKey
    if offer.rows.isEmpty then none else some offer

def LoginTask.login? : LoginTask → Option (Text × Key)
  | .idle => none
  | .found displayName user => some (displayName, user)
  | .offered displayName offer => some (displayName, offer.user)
  | .selected challenge => some (challenge.displayName, challenge.offer.user)
  | .consumed challenge => some (challenge.displayName, challenge.offer.user)
  | .verified challenge _ => some (challenge.displayName, challenge.offer.user)
  | .resolved _ _ _ => none

def LoginState.InProgress (s : LoginState) (displayName : Text) (user : Key) : Prop :=
  (∃ task, (s.tasks task).login? = some (displayName, user)) ∨
    ∃ challenge ∈ s.challenges, challenge.displayName = displayName ∧ challenge.offer.user = user

def Bears (db : Db) (key : Key) (displayName : Text) : Prop :=
  ∃ row ∈ db.users, row.deleted = false ∧ row.publicKey = key ∧ row.displayName = displayName

/-- A name that a row newly bears is borne by no other row, local or remote, and no login in progress was begun under it for
another user. -/
def NamesFree (server : LoginServer) (s : LoginState) (event : LoginEvent) : Prop :=
  let after := s.apply server event
  ∀ key displayName, Bears after.db key displayName → ¬ Bears s.db key displayName →
    (∀ other, Bears after.db other displayName → other = key) ∧ ∀ user, s.InProgress displayName user → user = key

/-- The session is for the user of the challenge, whose offer had the passkey. -/
def LoginOpened.Rightful (opened : LoginOpened) : Prop :=
  opened.user = opened.offer.user ∧ opened.credentialId ∈ opened.offer.rows.map (·.credentialId)

def LoginTask.Rightful : LoginTask → Prop
  | .verified challenge credentialId => credentialId ∈ challenge.offer.rows.map (·.credentialId)
  | .resolved challenge credentialId user => LoginOpened.Rightful ⟨user, challenge.offer, credentialId⟩
  | _ => True

/-- A name stands for one undeleted row, and for a login in progress for none but its user's. -/
structure NamesKept (s : LoginState) : Prop where
  unique : ∀ key other displayName, Bears s.db key displayName → Bears s.db other displayName → key = other
  begun : ∀ displayName user key, s.InProgress displayName user → Bears s.db key displayName → key = user
  tasks : ∀ task, (s.tasks task).Rightful
  opened : ∀ opened ∈ s.opened, opened.Rightful

section

variable {server : LoginServer} {s after : LoginState} {displayName : Text} {key user : Key} {event : LoginEvent}
  {row : UserRow}

theorem lookupName_bears (found : lookupName s.db displayName = some row) :
    Bears s.db row.publicKey displayName := by
  have holds := find?_some found
  simp only [Bool.and_eq_true, decide_eq_true_eq, Bool.not_eq_true'] at holds
  exact ⟨row, mem_of_find?_eq_some found, holds.2, rfl, holds.1⟩

theorem NamesKept.write (kept : NamesKept s)
    (free : ∀ key displayName, Bears after.db key displayName → ¬ Bears s.db key displayName →
      (∀ other, Bears after.db other displayName → other = key) ∧ ∀ user, s.InProgress displayName user → user = key)
    (challenges : after.challenges = s.challenges) (tasks : after.tasks = s.tasks) (opened : after.opened = s.opened) :
    NamesKept after where
  unique key other displayName bears again := by
    by_cases old : Bears s.db key displayName
    · by_cases older : Bears s.db other displayName
      · exact kept.unique key other displayName old older
      · exact (free other displayName again older).1 key bears
    · exact ((free key displayName bears old).1 other again).symm
  begun displayName user key inProgress bears := by
    have before : s.InProgress displayName user := by
      unfold LoginState.InProgress at inProgress ⊢
      rwa [challenges, tasks] at inProgress
    by_cases old : Bears s.db key displayName
    · exact kept.begun displayName user key before old
    · exact ((free key displayName bears old).2 user before).symm
  tasks task := by
    rw [tasks]
    exact kept.tasks task
  opened record mem := kept.opened record (opened ▸ mem)

theorem NamesKept.advance {task : Nat} {next : LoginTask} (kept : NamesKept s) (db : after.db = s.db)
    (tasks : after.tasks = update s.tasks task next)
    (challenges : ∀ challenge ∈ after.challenges, challenge ∈ s.challenges ∨
      s.InProgress challenge.displayName challenge.offer.user)
    (login : ∀ displayName user, next.login? = some (displayName, user) → s.InProgress displayName user ∨
      Bears s.db user displayName)
    (rightful : next.Rightful) (opened : ∀ record ∈ after.opened, record ∈ s.opened ∨ record.Rightful) :
    NamesKept after where
  unique := by
    rw [db]
    exact kept.unique
  begun displayName user key inProgress bears := by
    rw [db] at bears
    rcases inProgress with ⟨other, running⟩ | ⟨challenge, mem, rfl, rfl⟩
    · rw [tasks] at running
      by_cases same : other = task
      · rw [same, update_self] at running
        rcases login displayName user running with before | named
        · exact kept.begun displayName user key before bears
        · exact kept.unique key user displayName bears named
      · rw [update_of_ne same] at running
        exact kept.begun displayName user key (.inl ⟨other, running⟩) bears
    · rcases challenges challenge mem with old | begun
      · exact kept.begun _ _ key (.inr ⟨challenge, old, rfl, rfl⟩) bears
      · exact kept.begun _ _ key begun bears
  tasks other := by
    rw [tasks]
    by_cases same : other = task
    · rw [same, update_self]
      exact rightful
    · rw [update_of_ne same]
      exact kept.tasks other
  opened record mem := (opened record mem).elim (kept.opened record) id

theorem NamesKept.drop {task : Nat} (kept : NamesKept s) : NamesKept (s.setTask task .idle) :=
  kept.advance rfl rfl (fun _ mem => .inl mem) nofun trivial fun _ mem => .inl mem

theorem NamesFree.of_users (users : (s.apply server event).db.users = s.db.users) :
    NamesFree server s event := by
  intro key displayName bears absent
  refine absurd ?_ absent
  unfold Bears at bears ⊢
  rwa [users] at bears

theorem NamesFree.added (users : (s.apply server event).db.users = s.db.users ++ [row])
    (unborne : ∀ other ∈ s.db.users, other.deleted = false → other.displayName ≠ row.displayName)
    (unbegun : ∀ owner, ¬ s.InProgress row.displayName owner) : NamesFree server s event := by
  have bearer : ∀ other displayName, Bears (s.apply server event).db other displayName →
      Bears s.db other displayName ∨ (other = row.publicKey ∧ displayName = row.displayName) := by
    rintro other displayName ⟨found, mem, undeleted, rfl, rfl⟩
    rw [users] at mem
    rcases mem_concat.mp mem with old | new
    · exact .inl ⟨found, old, undeleted, rfl, rfl⟩
    · rw [new]
      exact .inr ⟨rfl, rfl⟩
  intro key displayName bears absent
  obtain ⟨rfl, rfl⟩ := (bearer key displayName bears).resolve_left absent
  refine ⟨fun other again => ?_, fun owner inProgress => absurd inProgress (unbegun owner)⟩
  rcases bearer other row.displayName again with ⟨found, mem, undeleted, rfl, named⟩ | ⟨same, -⟩
  · exact absurd named (unborne found mem undeleted)
  · exact same

theorem NamesKept.born {written : Option Db} {credentialId : Bytes} (kept : NamesKept s)
    (free : ∀ key displayName, Bears (s.born written user credentialId).db key displayName → ¬ Bears s.db key displayName →
      (∀ other, Bears (s.born written user credentialId).db other displayName → other = key) ∧
        ∀ owner, s.InProgress displayName owner → owner = key) : NamesKept (s.born written user credentialId) := by
  unfold LoginState.born at free ⊢
  split
  · exact kept
  · split
    · exact kept
    · rename_i fresh
      simp only [if_neg fresh] at free
      exact kept.write free rfl rfl rfl

theorem NamesKept.apply (kept : NamesKept s) (free : NamesFree server s event) :
    NamesKept (s.apply server event) := by
  unfold NamesFree at free
  cases event with
  | home event => exact kept.write free rfl rfl rfl
  | signUp birth credentialId => exact kept.born free
  | register reg credentialId => exact kept.born free
  | delete user anonName now =>
    unfold LoginState.apply at free ⊢
    dsimp only at free ⊢
    split
    · exact kept
    · rename_i db deleted
      rw [deleted] at free
      exact kept.write free rfl rfl rfl
  | expire stale =>
    have begun : ∀ displayName user, (s.apply server (.expire stale)).InProgress displayName user →
        s.InProgress displayName user := by
      rintro displayName user (running | ⟨challenge, mem, named⟩)
      · exact .inl running
      · exact .inr ⟨challenge, (mem_filter.mp mem).1, named⟩
    exact ⟨kept.unique, fun displayName user key inProgress => kept.begun displayName user key (begun displayName user inProgress),
      kept.tasks, kept.opened⟩
  | beginLookup task requested =>
    unfold LoginState.apply
    dsimp only
    split
    · split
      · exact kept
      · rename_i row found
        refine kept.advance rfl rfl (fun _ mem => .inl mem) ?_ trivial fun _ mem => .inl mem
        intro displayName user login
        cases login
        exact .inr (lookupName_bears found)
    · exact kept
  | beginCredentials task =>
    unfold LoginState.apply
    dsimp only
    split
    · rename_i displayName user atTask
      split
      · exact kept.drop
      · refine kept.advance rfl rfl (fun _ mem => .inl mem) ?_ trivial fun _ mem => .inl mem
        intro name owner login
        cases login
        exact .inl (.inl ⟨task, by rw [atTask]; rfl⟩)
    · exact kept
  | beginChallenge task challengeId =>
    unfold LoginState.apply
    dsimp only
    split
    · rename_i displayName offer atTask
      split
      · exact kept.drop
      · refine kept.advance rfl rfl ?_ nofun trivial fun _ mem => .inl mem
        exact forall_mem_concat.mpr ⟨fun _ => .inl, .inr (.inl ⟨task, by rw [atTask]; rfl⟩)⟩
    · exact kept
  | completeSelect task challengeId =>
    unfold LoginState.apply
    dsimp only
    split
    · rename_i challenge _ found
      refine kept.advance rfl rfl (fun _ mem => .inl mem) ?_ trivial fun _ mem => .inl mem
      intro name owner login
      cases login
      exact .inl (.inr ⟨challenge, mem_of_find?_eq_some found, rfl, rfl⟩)
    · exact kept
  | completeDelete task =>
    unfold LoginState.apply
    dsimp only
    split
    · rename_i challenge atTask
      refine kept.advance rfl rfl (fun _ mem => .inl (mem_filter.mp mem).1) ?_ trivial fun _ mem => .inl mem
      intro name owner login
      cases login
      exact .inl (.inl ⟨task, by rw [atTask]; rfl⟩)
    · exact kept
  | completeVerify task response =>
    unfold LoginState.apply
    dsimp only
    split
    · rename_i challenge atTask
      split
      · exact kept.drop
      · rename_i credentialId accepted
        refine kept.advance rfl rfl (fun _ mem => .inl mem) ?_
          (server.webAuthn.sound response _ credentialId accepted) fun _ mem => .inl mem
        intro name owner login
        cases login
        exact .inl (.inl ⟨task, by rw [atTask]; rfl⟩)
    · exact kept
  | completeLookup task =>
    unfold LoginState.apply
    dsimp only
    split
    · rename_i challenge credentialId atTask
      split
      · exact kept.drop
      · -- the row that bears the name is the one that the login was begun for
        rename_i row found
        have inProgress : s.InProgress challenge.displayName challenge.offer.user := .inl ⟨task, by rw [atTask]; rfl⟩
        have owner := kept.begun _ _ _ inProgress (lookupName_bears found)
        have verified := kept.tasks task
        rw [atTask] at verified
        exact kept.advance rfl rfl (fun _ mem => .inl mem) nofun ⟨owner, verified⟩ fun _ mem => .inl mem
    · exact kept
  | completeSession task token =>
    unfold LoginState.apply
    dsimp only
    split
    · rename_i challenge credentialId user atTask
      split
      · exact kept.drop
      · refine kept.advance rfl rfl (fun _ mem => .inl mem) nofun trivial ?_
        intro record mem
        have resolved := kept.tasks task
        rw [atTask] at resolved
        rcases mem_concat.mp mem with old | new
        · exact .inl old
        · rw [new]
          exact .inr resolved
    · exact kept

theorem NamesKept.loginBegin {requested : Text} (kept : NamesKept s) (mem : row ∈ s.db.users)
    (undeleted : row.deleted = false) (passkey : ∃ credential ∈ s.credentials, credential.user = row.publicKey)
    (named : server.trim requested = row.displayName) :
    ∃ offer, loginBegin server s requested = some offer ∧ offer.user = row.publicKey := by
  have bears : Bears s.db row.publicKey row.displayName := ⟨row, mem, undeleted, rfl, rfl⟩
  obtain ⟨first, found⟩ : ∃ first, lookupName s.db row.displayName = some first := by
    rw [← isSome_iff_exists, lookupName, find?_isSome]
    exact ⟨row, mem, by simp [undeleted]⟩
  have same := kept.unique _ _ _ (lookupName_bears found) bears
  obtain ⟨credential, has, own⟩ := passkey
  have offered : (readPasskeys s.credentials first.publicKey).rows.isEmpty = false := by
    rw [isEmpty_eq_false_iff_exists_mem]
    exact ⟨credential, mem_filter.mpr ⟨has, by simp [own, same]⟩⟩
  refine ⟨readPasskeys s.credentials first.publicKey, ?_, same⟩
  unfold Prismoire.loginBegin
  rw [named, found]
  simp only [bind_some, offered, Bool.false_eq_true, if_false]

end

/-- As long as every name that a users row takes is free, a session is created for the user whose passkey was offered and
verified, and every local user with a passkey can begin a login by its name, whatever names remote users bear. -/
theorem login_rightful {server : LoginServer} {events reached : List LoginEvent}
    (free : MeetAlong (LoginState.apply server) (NamesFree server) {} events) (within : reached <+: events) :
    let now := reached.foldl (LoginState.apply server) {}
    (∀ opened ∈ now.opened, opened.Rightful) ∧
    ∀ row ∈ now.db.users, row.homeInstance = none → row.deleted = false →
      (∃ credential ∈ now.credentials, credential.user = row.publicKey) →
      ∀ requested, server.trim requested = row.displayName →
        ∃ offer, loginBegin server now requested = some offer ∧ offer.user = row.publicKey := by
  have nobody : ∀ key displayName, ¬ Bears ({} : Db) key displayName := by
    rintro key displayName ⟨row, mem, -⟩
    cases mem
  have start : NamesKept {} := ⟨fun key _ displayName bears => absurd bears (nobody key displayName),
    fun displayName _ key _ bears => absurd bears (nobody key displayName), fun _ => trivial, by simp⟩
  have now := (free.of_shorter within).invariant (fun _ _ kept meets => NamesKept.apply kept meets) start
  exact ⟨now.opened, fun row mem _ undeleted passkey requested named => now.loginBegin mem undeleted passkey named⟩

def loginServer : LoginServer where
  state := AppState.ofTable []
  sign _ := ⟨[7], []⟩
  webAuthn := ⟨fun response allowed => if response ∈ allowed then some response else none, fun response allowed _ accepted => by
    split at accepted
    · cases accepted
      assumption
    · cases accepted⟩
  trim := id

def loginBirth (key : Key) (name : Text) : LocalUserBirth where
  publicKey := key
  displayName := name
  skeleton := name
  signupMethod := .invite
  createdAtMs := 900
  instanceDomain := "here"
  genesisAttestation := ⟨key, 900, 9, []⟩
  profile := ⟨[3], []⟩
  move := ⟨[4], []⟩

def loginProfile (key : Key) (name : Text) : HomeEvent :=
  .hydrate ⟨key, name, "", none, 800, none⟩ 8

def beginAda : List LoginEvent :=
  [.beginLookup 0 "ada", .beginCredentials 0, .beginChallenge 0 50]

def completeAda : List LoginEvent :=
  [.completeSelect 0 50, .completeDelete 0, .completeVerify 0 [1], .completeLookup 0, .completeSession 0 90]

/-- A user signs up, a remote user with another name is met, and the user logs in. -/
def loginEvents : List LoginEvent :=
  [.signUp (loginBirth 1 "ada") [1], .home (loginProfile 3 "bob")] ++ (beginAda ++ completeAda)

theorem login_rightful_ada :
    let now := loginEvents.foldl (LoginState.apply loginServer) {}
    now.sessions = [(90, 1)] ∧ (∀ opened ∈ now.opened, opened.Rightful) ∧
      ∃ offer, loginBegin loginServer now "ada" = some offer ∧ offer.user = 1 := by
  have unbegun : ∀ (s : LoginState) displayName owner, s.tasks = (fun _ => .idle) → s.challenges = [] →
      ¬ s.InProgress displayName owner := by
    rintro s displayName owner tasks challenges (⟨task, running⟩ | ⟨challenge, mem, -⟩)
    · rw [tasks] at running
      cases running
    · rw [challenges] at mem
      cases mem
  have free : MeetAlong (LoginState.apply loginServer) (NamesFree loginServer) {} loginEvents := by
    refine ⟨?_, ?_, .of_users rfl, .of_users rfl, .of_users rfl, .of_users rfl, .of_users rfl, .of_users rfl, .of_users rfl,
      .of_users rfl, trivial⟩
    · exact @NamesFree.added loginServer {} (.signUp (loginBirth 1 "ada") [1]) ⟨1, "ada", "ada", .invite, none, false⟩ rfl
        (by decide) fun owner => unbegun _ _ owner rfl rfl
    · refine @NamesFree.added loginServer _ (.home (loginProfile 3 "bob")) ⟨3, "bob", "bob", .federated, some 8, false⟩
        (by decide +kernel) (by decide +kernel) fun owner => unbegun _ _ owner rfl rfl
  obtain ⟨rightful, begins⟩ := login_rightful free (prefix_refl _)
  refine ⟨by decide +kernel, rightful, ?_⟩
  exact begins ⟨1, "ada", "ada", .invite, none, false⟩ (by decide +kernel) rfl rfl (by decide +kernel) "ada" rfl

/-- The account is deleted between the two halves of its login, and its name is taken again. -/
def retakenEvents : List LoginEvent :=
  [.signUp (loginBirth 1 "ada") [1]] ++ beginAda ++ [.delete 1 "deleted-1" 5, .signUp (loginBirth 2 "ada") [2]] ++ completeAda

/-- A remote user is met before a local one signs up, and takes the name of it later. -/
def shadowedEvents : List LoginEvent :=
  [.home (loginProfile 3 "bob"), .signUp (loginBirth 1 "ada") [1]]

/-- The session goes to the new owner of the name, and the local user can no longer begin a login. -/
theorem login_by_name_misled :
    let retaken := retakenEvents.foldl (LoginState.apply loginServer) {}
    let shadowed := shadowedEvents.foldl (LoginState.apply loginServer) {}
    retaken.sessions = [(90, 2)] ∧
      retaken.opened.map (fun opened => (opened.user, opened.offer.user, opened.credentialId)) = [(2, 1, [1])] ∧
      (loginBegin loginServer shadowed "ada").isSome = true ∧
      (loginBegin loginServer (shadowed.apply loginServer (.home (loginProfile 3 "ada"))) "ada").isSome = false := by
  exact ⟨by decide +kernel, by decide +kernel, by decide +kernel, by decide +kernel⟩

end Prismoire
