import Prismoire.LoginSessions

namespace Prismoire

open Lib List Function

structure InviteRow where
  id : Uuid
  code : Text
  createdBy : Key
  maxUses : Option Int
  expiresAt : Option Nat
  revoked : Bool := false

def isExhausted (maxUses : Option Int) (useCount : Nat) : Bool :=
  maxUses.any fun most => most ≤ (useCount : Int)

def isExpired (expiresAt : Option Nat) (now : Nat) : Bool :=
  expiresAt.any (· < now)

/-- A `registration` row of `auth_challenges`. -/
structure SignupChallenge where
  id : Uuid
  state : Bytes
  displayName : Text
  inviteCode : Text
  deriving DecidableEq

inductive SignupError where
  | sql (error : SqlError)
  | noKey
  | targetDeleted

/-- Where a running `signup_complete` stands, statement by statement. -/
inductive SignupTask where
  | idle
  | selected (challenge : SignupChallenge)
  | consumed (challenge : SignupChallenge)
  | registered (challenge : SignupChallenge) (credentialId : Bytes)
  | admitted (challenge : SignupChallenge) (credentialId : Bytes) (inviteId : Uuid) (inviter : Key)
  | committed (user : Key)
  | succeeded (user : Key)
  | failed
  deriving DecidableEq

/-- A committed sign-up, and whether its invite was revoked when its transaction began. -/
structure SignupCommit where
  task : Nat
  user : Key
  inviteId : Uuid
  revoked : Bool
  deriving DecidableEq

/-- The tables of a sign-up; `invite_id` is kept by the key of its users row. -/
structure SignupState where
  db : Db := {}
  credentials : List PasskeyRow := []
  invites : List InviteRow := []
  inviteOf : List (Key × Uuid) := []
  challenges : List SignupChallenge := []
  sessions : List (Uuid × Key) := []
  tasks : Nat → SignupTask := fun _ => .idle
  commits : List SignupCommit := []

structure SignupServer where
  state : AppState
  sign : Signer
  signEdge : TrustEdge → SigningOutput
  finishPasskeyRegistration : Bytes → Bytes → Option Bytes

def validateInviteForSignup (s : SignupState) (code : Text) (now : Nat) : Option InviteRow :=
  (s.invites.find? fun invite => decide (invite.code = code) && !invite.revoked).filter fun invite =>
    !isExhausted invite.maxUses (s.inviteOf.countP (·.2 = invite.id)) && !isExpired invite.expiresAt now

/-- `sign_trust_edge`, with the insert and the storage of what it signed. -/
def signupEdge (server : SignupServer) (db : Db) (source target : Key) (createdAt : Nat) : Except SignupError Db :=
  if !hasActiveKey db source then
    .error .noKey
  else if (db.user? target).any (·.deleted) then
    .error .targetDeleted
  else
    let edge : TrustEdge := ⟨source, target, .trust, createdAt, none⟩
    let signed := server.signEdge edge
    let canonicalHash := server.state.platform.sha256 signed.payload
    let db := { db with trustEdges := db.trustEdges ++ [edgeRow server.state edge canonicalHash signed.signature] }
    .ok (db.storeSignedObject .trustEdge signed.payload signed.signature canonicalHash)

/-- The transaction of `signup_complete`; what it returns is written at once or not at all. -/
def signupTransaction (server : SignupServer) (s : SignupState) (birth : LocalUserBirth) (credentialId : Bytes)
    (inviteId : Uuid) (inviter : Key) : Except SignupError SignupState := do
  let db ← (completeLocalUserBirth server.state s.db birth).mapError .sql
  if s.credentials.any (·.credentialId = credentialId) then
    .error (.sql .unique)
  else if !s.invites.any (·.id = inviteId) then
    .error (.sql .foreignKey)
  else
    let db ← signupEdge server db inviter birth.publicKey birth.createdAtMs
    let db ← signupEdge server db birth.publicKey inviter birth.createdAtMs
    return { s with
      db
      credentials := s.credentials ++ [⟨birth.publicKey, credentialId⟩]
      inviteOf := s.inviteOf ++ [(birth.publicKey, inviteId)] }

inductive SignupEvent where
  | home (event : HomeEvent)
  | createInvite (invite : InviteRow)
  | revokeInvite (id : Uuid)
  | revokeAllInvites (user : Key)
  | deleteAccount (user : Key) (anonName : Text) (now : Nat)
  | begin_ (challenge : SignupChallenge)
  | select (task : Nat) (challengeId : Uuid)
  | consume (task : Nat)
  | register (task : Nat) (credential : Bytes)
  | validate (task : Nat) (now : Nat)
  | commit (task : Nat) (birth : LocalUserBirth)
  | session (task : Nat) (token : Uuid)

namespace SignupState

def uses (s : SignupState) (inviteId : Uuid) : Nat :=
  s.inviteOf.countP (·.2 = inviteId)

def setTask (s : SignupState) (task : Nat) (next : SignupTask) : SignupState :=
  { s with tasks := update s.tasks task next }

/-- `revoke_all_invites`; `ban_user` and the deletion of an account run it in their transactions. -/
def revokeAll (s : SignupState) (user : Key) : SignupState :=
  { s with
    invites := updateWhere (fun invite => decide (invite.createdBy = user) && !invite.revoked)
      (fun invite => { invite with revoked := true }) s.invites }

/-- One statement of a `signup_complete` outside its transaction, or one transaction. `begin_` is the insert of
`signup_begin`, whose checks only refuse; `home` stands for accounts that come without an invite. -/
def apply (server : SignupServer) (s : SignupState) : SignupEvent → SignupState
  | .home event => { s with db := event.apply server.state s.db }
  | .createInvite invite =>
    if invite.maxUses.any (· < 1) || s.invites.any (fun old => old.id = invite.id ∨ old.code = invite.code) then
      s
    else
      { s with invites := s.invites ++ [{ invite with revoked := false }] }
  | .revokeInvite id =>
    { s with invites := updateWhere (·.id = id) (fun invite => { invite with revoked := true }) s.invites }
  | .revokeAllInvites user => s.revokeAll user
  | .deleteAccount user anonName now =>
    match softDeleteUser server.state server.sign s.db user anonName now with
    | .error _ => s
    | .ok db =>
      { s.revokeAll user with
        db
        credentials := s.credentials.filter (·.user ≠ user)
        sessions := s.sessions.filter (·.2 ≠ user) }
  | .begin_ challenge =>
    if s.challenges.any (·.id = challenge.id) then s else { s with challenges := s.challenges ++ [challenge] }
  | .select task challengeId =>
    match s.tasks task with
    | .idle =>
      match s.challenges.find? (·.id = challengeId) with
      | none => s.setTask task .failed
      | some challenge => s.setTask task (.selected challenge)
    | _ => s
  | .consume task =>
    match s.tasks task with
    | .selected challenge =>
      { s.setTask task (.consumed challenge) with challenges := s.challenges.filter (·.id ≠ challenge.id) }
    | _ => s
  | .register task credential =>
    match s.tasks task with
    | .consumed challenge =>
      match server.finishPasskeyRegistration credential challenge.state with
      | none => s.setTask task .failed
      | some credentialId => s.setTask task (.registered challenge credentialId)
    | _ => s
  | .validate task now =>
    match s.tasks task with
    | .registered challenge credentialId =>
      match validateInviteForSignup s challenge.inviteCode now with
      | none => s.setTask task .failed
      | some invite => s.setTask task (.admitted challenge credentialId invite.id invite.createdBy)
    | _ => s
  | .commit task birth =>
    match s.tasks task with
    | .admitted challenge credentialId inviteId inviter =>
      let birth := { birth with
        displayName := challenge.displayName
        skeleton := server.state.platform.displayNameSkeleton challenge.displayName
        signupMethod := .invite }
      match signupTransaction server s birth credentialId inviteId inviter with
      | .error _ => s.setTask task .failed
      | .ok after =>
        { after.setTask task (.committed birth.publicKey) with
          commits := s.commits ++
            [⟨task, birth.publicKey, inviteId, s.invites.any fun invite => invite.id = inviteId ∧ invite.revoked⟩] }
    | _ => s
  | .session task token =>
    match s.tasks task with
    | .committed user =>
      if s.sessions.any (·.1 = token) then
        s.setTask task .failed
      else
        { s.setTask task (.succeeded user) with sessions := s.sessions ++ [(token, user)] }
    | _ => s

end SignupState

def SignupEvent.task? : SignupEvent → Option Nat
  | .select task _ => some task
  | .consume task => some task
  | .register task _ => some task
  | .validate task _ => some task
  | .commit task _ => some task
  | .session task _ => some task
  | _ => none

def SignupTask.wrote : SignupTask → Bool
  | .committed _ => true
  | .succeeded _ => true
  | _ => false

/-- When the transaction of a sign-up begins, the invite that was validated before it is still neither revoked nor used up;
and a session token is new. -/
def InviteHolds (s : SignupState) : SignupEvent → Prop
  | .commit task _ => ∀ challenge credentialId inviteId inviter, s.tasks task = .admitted challenge credentialId inviteId inviter →
      ∀ invite ∈ s.invites, invite.id = inviteId → invite.revoked = false ∧ isExhausted invite.maxUses (s.uses inviteId) = false
  | .session _ token => s.sessions.any (·.1 = token) = false
  | _ => True

/-- No invite is used more often than it may be, and no sign-up used a revoked one or wrote an account and failed. -/
structure InvitesKept (s : SignupState) : Prop where
  known : ∀ use ∈ s.inviteOf, ∃ invite ∈ s.invites, invite.id = use.2
  bounded : ∀ invite ∈ s.invites, ∀ most, invite.maxUses = some most → (s.uses invite.id : Int) ≤ most
  unrevoked : ∀ commit ∈ s.commits, commit.revoked = false
  wrote : ∀ commit ∈ s.commits, (s.tasks commit.task).wrote = true

section

variable {server : SignupServer} {s after : SignupState}

theorem InvitesKept.revise {f : InviteRow → InviteRow} {hit : InviteRow → Bool} (kept : InvitesKept s)
    (same : ∀ invite, (f invite).id = invite.id ∧ (f invite).maxUses = invite.maxUses)
    (invites : after.invites = updateWhere hit f s.invites) (inviteOf : after.inviteOf = s.inviteOf)
    (commits : after.commits = s.commits) (tasks : after.tasks = s.tasks) : InvitesKept after where
  known use mem := by
    rw [invites]
    exact (exists_mem_updateWhere fun invite => by rw [(same invite).1]).mpr (kept.known use (inviteOf ▸ mem))
  bounded invite mem most limited := by
    rw [invites] at mem
    unfold SignupState.uses
    rw [inviteOf]
    obtain ⟨old, has, ⟨-, rfl⟩ | ⟨-, rfl⟩⟩ := mem_updateWhere.mp mem
    · rw [(same old).1]
      exact kept.bounded old has most ((same old).2.symm.trans limited)
    · exact kept.bounded _ has most limited
  unrevoked commit mem := kept.unrevoked commit (commits ▸ mem)
  wrote commit mem := by
    rw [tasks]
    exact kept.wrote commit (commits ▸ mem)

theorem revokes_only (invite : InviteRow) :
    ({ invite with revoked := true } : InviteRow).id = invite.id ∧
    ({ invite with revoked := true } : InviteRow).maxUses = invite.maxUses :=
  ⟨rfl, rfl⟩

variable {task : Nat} {birth : LocalUserBirth} {event : SignupEvent}

theorem InvitesKept.advance {next : SignupTask} (kept : InvitesKept s)
    (unwritten : (s.tasks task).wrote = false ∨ next.wrote = true) (invites : after.invites = s.invites)
    (inviteOf : after.inviteOf = s.inviteOf) (commits : after.commits = s.commits)
    (tasks : after.tasks = update s.tasks task next) : InvitesKept after where
  known := by
    rw [invites, inviteOf]
    exact kept.known
  bounded := by
    unfold SignupState.uses
    rw [invites, inviteOf]
    exact kept.bounded
  unrevoked commit mem := kept.unrevoked commit (commits ▸ mem)
  wrote commit mem := by
    have before := kept.wrote commit (commits ▸ mem)
    rw [tasks]
    by_cases same : commit.task = task
    · rw [same, update_self]
      rw [same] at before
      exact unwritten.resolve_left (by simp [before])
    · rwa [update_of_ne same]

theorem signupTransaction_ok {credentialId : Bytes} {inviteId : Uuid} {inviter : Key}
    (run : signupTransaction server s birth credentialId inviteId inviter = .ok after) :
    s.invites.any (·.id = inviteId) = true ∧ ∃ db, after = { s with
      db
      credentials := s.credentials ++ [⟨birth.publicKey, credentialId⟩]
      inviteOf := s.inviteOf ++ [(birth.publicKey, inviteId)] } := by
  obtain ⟨born, -, run⟩ := bind_ok.mp run
  split at run
  · cases run
  split at run
  · cases run
  rename_i known
  obtain ⟨inbound, -, run⟩ := bind_ok.mp run
  obtain ⟨outbound, -, run⟩ := bind_ok.mp run
  cases run
  exact ⟨by simpa using known, outbound, rfl⟩

theorem InvitesKept.commit (kept : InvitesKept s)
    (holds : InviteHolds s (.commit task birth)) : InvitesKept (s.apply server (.commit task birth)) := by
  unfold SignupState.apply
  dsimp only
  split
  · rename_i challenge credentialId inviteId inviter atTask
    split
    · exact kept.advance (.inl (by rw [atTask]; rfl)) rfl rfl rfl rfl
    · rename_i written run
      obtain ⟨known, db, rfl⟩ := signupTransaction_ok run
      have holds := holds challenge credentialId inviteId inviter atTask
      refine ⟨?_, ?_, ?_, ?_⟩
      · refine forall_mem_concat.mpr ⟨kept.known, ?_⟩
        obtain ⟨invite, has, named⟩ := any_eq_true.mp known
        exact ⟨invite, has, by simpa using named⟩
      · intro invite mem most limited
        simp only [SignupState.uses, SignupState.setTask, countP_append, countP_singleton]
        by_cases same : invite.id = inviteId
        · have left : ¬ most ≤ (s.inviteOf.countP (·.2 = inviteId) : Int) := by
            have unexhausted := (holds invite mem same).2
            rw [isExhausted, limited] at unexhausted
            exact of_decide_eq_false unexhausted
          rw [if_pos (by simp [same]), same]
          push_cast
          omega
        · rw [if_neg (by simpa using fun other => same other.symm)]
          exact kept.bounded invite mem most limited
      · intro commit mem
        rcases mem_concat.mp mem with old | new
        · exact kept.unrevoked commit old
        · rw [new, any_eq_false]
          intro invite mem'
          simp only [decide_eq_true_eq, not_and, Bool.not_eq_true]
          exact fun same => (holds invite mem' same).1
      · intro commit mem
        rcases mem_concat.mp mem with old | new
        · have before := kept.wrote commit old
          by_cases same : commit.task = task
          · rw [same, atTask] at before
            cases before
          · simpa [SignupState.setTask, update_of_ne same] using before
        · rw [new]
          simp [SignupState.setTask, SignupTask.wrote]
  · exact kept

theorem InvitesKept.apply (kept : InvitesKept s) (holds : InviteHolds s event) :
    InvitesKept (s.apply server event) := by
  cases event with
  | home event => exact ⟨kept.known, kept.bounded, kept.unrevoked, kept.wrote⟩
  | createInvite invite =>
    unfold SignupState.apply
    dsimp only
    split
    · exact kept
    · rename_i accepted
      simp only [Bool.or_eq_true, not_or, Bool.not_eq_true] at accepted
      refine ⟨?_, ?_, kept.unrevoked, kept.wrote⟩
      · intro use mem
        obtain ⟨old, has, named⟩ := kept.known use mem
        exact ⟨old, mem_append_left _ has, named⟩
      · intro row mem most limited
        rcases mem_append.mp mem with old | new
        · exact kept.bounded row old most limited
        · -- nobody has used the new invite, which is for one use at least
          rw [mem_singleton.mp new] at limited ⊢
          have unused : s.uses invite.id = 0 := by
            refine countP_eq_zero.mpr fun use mem used => ?_
            obtain ⟨old, has, named⟩ := kept.known use mem
            have apart := any_eq_false.mp accepted.2 old has
            simp only [decide_eq_true_eq] at used apart
            exact apart (.inl (named.trans used))
          have positive : ¬ most < 1 := by
            have := accepted.1
            rw [show invite.maxUses = some most from limited] at this
            simpa using this
          change ((s.uses invite.id : Nat) : Int) ≤ most
          rw [unused]
          push_cast
          omega
  | revokeInvite id => exact kept.revise revokes_only rfl rfl rfl rfl
  | revokeAllInvites user => exact kept.revise revokes_only rfl rfl rfl rfl
  | deleteAccount user anonName now =>
    unfold SignupState.apply
    dsimp only
    split
    · exact kept
    · exact kept.revise revokes_only rfl rfl rfl rfl
  | begin_ challenge =>
    unfold SignupState.apply
    dsimp only
    split
    · exact kept
    · exact ⟨kept.known, kept.bounded, kept.unrevoked, kept.wrote⟩
  | select task challengeId =>
    unfold SignupState.apply
    dsimp only
    split
    · rename_i atTask
      split <;> exact kept.advance (.inl (by rw [atTask]; rfl)) rfl rfl rfl rfl
    · exact kept
  | consume task =>
    unfold SignupState.apply
    dsimp only
    split
    · rename_i challenge atTask
      exact kept.advance (.inl (by rw [atTask]; rfl)) rfl rfl rfl rfl
    · exact kept
  | register task credential =>
    unfold SignupState.apply
    dsimp only
    split
    · rename_i challenge atTask
      split <;> exact kept.advance (.inl (by rw [atTask]; rfl)) rfl rfl rfl rfl
    · exact kept
  | validate task now =>
    unfold SignupState.apply
    dsimp only
    split
    · rename_i challenge credentialId atTask
      split <;> exact kept.advance (.inl (by rw [atTask]; rfl)) rfl rfl rfl rfl
    · exact kept
  | commit task birth => exact kept.commit holds
  | session task token =>
    unfold SignupState.apply
    dsimp only
    split
    · rename_i user atTask
      rw [if_neg (by rw [holds]; nofun)]
      exact kept.advance (.inr rfl) rfl rfl rfl rfl
    · exact kept

/-- The tables that a sign-up must leave alone unless it succeeds. -/
def SignupState.accountTables (s : SignupState) :
    List UserRow × List PasskeyRow × List TrustEdgeRow × List SignedObjectRow :=
  (s.db.users, s.credentials, s.db.trustEdges, s.db.signedObjects)

theorem SignupState.apply_accountTables (own : event.task? = some task) :
    (s.apply server event).accountTables = s.accountTables ∨ ((s.apply server event).tasks task).wrote = true := by
  cases event with
  | home | createInvite | revokeInvite | revokeAllInvites | deleteAccount | begin_ => cases own
  | select other challengeId =>
    left
    unfold SignupState.apply
    dsimp only
    split
    · split <;> rfl
    · rfl
  | consume other =>
    left
    unfold SignupState.apply
    dsimp only
    split <;> rfl
  | register other credential =>
    left
    unfold SignupState.apply
    dsimp only
    split
    · split <;> rfl
    · rfl
  | validate other now =>
    left
    unfold SignupState.apply
    dsimp only
    split
    · split <;> rfl
    · rfl
  | commit other birth =>
    cases own
    unfold SignupState.apply
    dsimp only
    split
    · split
      · exact .inl rfl
      · right
        simp [SignupState.setTask, SignupTask.wrote]
    · exact .inl rfl
  | session other token =>
    left
    unfold SignupState.apply
    dsimp only
    split
    · split <;> rfl
    · rfl

end

/-- As long as the invite of each sign-up still holds when its transaction begins, no invite admits more accounts than it
may, no account is written with an invite revoked before, and a sign-up that fails has written nothing. -/
theorem invites_bounded {server : SignupServer} {events reached : List SignupEvent}
    (holds : MeetAlong (SignupState.apply server) InviteHolds {} events) (within : reached <+: events) :
    let now := reached.foldl (SignupState.apply server) {}
    (∀ invite ∈ now.invites, ∀ most, invite.maxUses = some most → (now.uses invite.id : Int) ≤ most) ∧
    (∀ commit ∈ now.commits, commit.revoked = false) ∧
    (∀ commit ∈ now.commits, now.tasks commit.task ≠ .failed) ∧
    ∀ event task, event.task? = some task → (now.apply server event).accountTables = now.accountTables ∨
      ((now.apply server event).tasks task).wrote = true := by
  have start : InvitesKept {} := ⟨by simp, by simp, by simp, by simp⟩
  have now := (holds.of_shorter within).invariant (fun _ _ kept meets => InvitesKept.apply kept meets) start
  refine ⟨now.bounded, now.unrevoked, fun commit mem failed => ?_, fun event task own =>
    SignupState.apply_accountTables own⟩
  have wrote := now.wrote commit mem
  rw [failed] at wrote
  cases wrote

def doorServer : SignupServer where
  state := AppState.ofTable []
  sign _ := ⟨[7], []⟩
  signEdge edge := ⟨[8, (edge.fromKey.toNat % 256).toUInt8, (edge.toKey.toNat % 256).toUInt8], []⟩
  finishPasskeyRegistration credential _ := some credential

def doorBirth (key : Key) : LocalUserBirth :=
  ⟨key, "admin", "admin", .admin, 900, "here", ⟨key, 900, 9, []⟩, ⟨[3, (key.toNat % 256).toUInt8], []⟩,
    ⟨[4, (key.toNat % 256).toUInt8], []⟩⟩

def doorOpened : List SignupEvent :=
  [.home (.signUp (doorBirth 1)), .createInvite ⟨20, "code", 1, some 1, none, false⟩,
    .begin_ ⟨30, [], "ada", "code"⟩, .begin_ ⟨31, [], "bob", "code"⟩]

def doorEntered (task : Nat) (challengeId : Uuid) (credential : Bytes) : List SignupEvent :=
  [.select task challengeId, .consume task, .register task credential, .validate task 1000]

def doorEvents : List SignupEvent :=
  doorOpened ++ (doorEntered 0 30 [1] ++ [.commit 0 (doorBirth 2), .session 0 40] ++ doorEntered 1 31 [2])

theorem door_bounded :
    let now := doorEvents.foldl (SignupState.apply doorServer) {}
    now.tasks 0 = .succeeded 2 ∧ now.tasks 1 = .failed ∧ now.uses 20 = 1 ∧
      (∀ invite ∈ now.invites, ∀ most, invite.maxUses = some most → (now.uses invite.id : Int) ≤ most) := by
  have holds : MeetAlong (SignupState.apply doorServer) InviteHolds {} doorEvents := by
    refine ⟨trivial, trivial, trivial, trivial, trivial, trivial, trivial, trivial, ?_, ?_, trivial, trivial, trivial, trivial,
      trivial⟩
    · intro challenge credentialId inviteId inviter atTask invite mem same
      have admitted : SignupTask.admitted ⟨30, [], "ada", "code"⟩ [1] 20 1 = .admitted challenge credentialId inviteId inviter :=
        Eq.trans (by decide +kernel) atTask
      cases admitted
      revert invite
      decide +kernel
    · change List.any _ _ = false
      decide +kernel
  obtain ⟨bounded, -, -, -⟩ := invites_bounded holds (prefix_refl _)
  exact ⟨by decide +kernel, by decide +kernel, by decide +kernel, bounded⟩

/-- Both sign-ups validate the invite before either has used it. -/
def doorCrowded : List SignupEvent :=
  doorOpened ++ doorEntered 0 30 [1] ++ doorEntered 1 31 [2] ++
    [.commit 0 (doorBirth 2), .commit 1 (doorBirth 3), .session 0 40, .session 1 41]

def doorLate : List SignupEvent :=
  doorOpened ++ doorEntered 0 30 [1] ++ [.revokeInvite 20, .commit 0 (doorBirth 2), .session 0 40]

/-- An invite for one use admits two accounts, and a revoked one admits one. -/
theorem door_overrun :
    let crowded := doorCrowded.foldl (SignupState.apply doorServer) {}
    let late := doorLate.foldl (SignupState.apply doorServer) {}
    crowded.invites.map (fun invite => (invite.id, invite.maxUses)) = [(20, some 1)] ∧ crowded.uses 20 = 2 ∧
      crowded.tasks 0 = .succeeded 2 ∧ crowded.tasks 1 = .succeeded 3 ∧
      late.commits = [⟨0, 2, 20, true⟩] ∧ late.tasks 0 = .succeeded 2 := by
  exact ⟨by decide +kernel, by decide +kernel, by decide +kernel, by decide +kernel, by decide +kernel, by decide +kernel⟩

end Prismoire
