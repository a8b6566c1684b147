import Prismoire.Registration

namespace Prismoire

open Lib Option

structure SessionRow where
  token : Uuid
  userId : Uuid
  deriving DecidableEq

/-- The rows that let a user act here beside the signing keys, with `users.id` by the key of its row. -/
structure LoginTables where
  userId : Key → Uuid
  sessions : List SessionRow
  credentials : List CredentialRow

/-- The two other deletions of `dispose_local_user_authority`. -/
def disposeLogins (db : Db) (key : Key) (logins : LoginTables) : LoginTables :=
  match db.user? key with
  | none => logins
  | some row =>
    if row.signupMethod = .federated then
      logins
    else
      { logins with
        sessions := logins.sessions.filter (·.userId ≠ logins.userId key)
        credentials := logins.credentials.filter (·.userId ≠ logins.userId key) }

/-- The declaration names this instance as its source and another one as its target. -/
def outboundFromSelf (state : AppState) (m : Move) : Bool :=
  m.fromInstanceKey = some state.instanceKey ∧ m.toInstanceKey ≠ state.instanceKey

def wireMove (state : AppState) (wire : Bytes) : Option Move :=
  match (state.platform.decodeSignedObject wire).bind fun decoded => state.platform.parse decoded.1 with
  | some (.move m) => some m
  | _ => none

/-- `apply_one_move` with the sessions and passkeys that it deletes. No statement before the disposal writes the sign-up
method that the disposal reads. -/
def applyOneMoveLogins (state : AppState) (db : Db) (logins : LoginTables) (wire : Bytes) (nowMs : Nat) :
    Sql (MoveStatus × Db × LoginTables) := do
  let (status, after) ← applyOneMove state db wire nowMs
  match wireMove state wire with
  | none => return (status, after, logins)
  | some m =>
    if outboundFromSelf state m && (status = .applied || status = .superseded) then
      return (status, after, disposeLogins db m.key logins)
    else
      return (status, after, logins)

/-- Everything here that can act as the owner of a key. -/
structure LocalAuthority where
  signingKeys : List SigningKeyRow
  sessions : List SessionRow
  credentials : List CredentialRow
  deriving DecidableEq

def localAuthority (db : Db) (logins : LoginTables) (key : Key) : LocalAuthority where
  signingKeys := db.signingKeys.filter (·.user = key)
  sessions := logins.sessions.filter (·.userId = logins.userId key)
  credentials := logins.credentials.filter (·.userId = logins.userId key)

def LocalAuthority.none : LocalAuthority := ⟨[], [], []⟩

section

variable {state : AppState} {db : Db} {logins : LoginTables} {m : Move} {payload signature : Bytes}

theorem filter_own_of_others {α β : Type} [DecidableEq β] (rows : List α) (owner : α → β) (own : β) :
    (rows.filter (owner · ≠ own)).filter (owner · = own) = [] := by
  rw [List.filter_filter, List.filter_eq_nil_iff]
  simp

theorem localAuthority_disposed (key : Key) :
    localAuthority (disposeLocalUserAuthority db key) (disposeLogins db key logins) key =
      if (db.user? key).any (·.signupMethod ≠ .federated) then .none else localAuthority db logins key := by
  unfold disposeLocalUserAuthority disposeLogins
  cases db.user? key with
  | none => rfl
  | some row =>
    by_cases federated : row.signupMethod = .federated
    · simp [federated]
    · simp only [any_some, federated, ne_eq, not_false_eq_true, decide_true, if_true]
      simp only [localAuthority, LocalAuthority.none, LocalAuthority.mk.injEq]
      exact ⟨filter_own_of_others db.signingKeys SigningKeyRow.user key,
        filter_own_of_others logins.sessions SessionRow.userId (logins.userId key),
        filter_own_of_others logins.credentials CredentialRow.userId (logins.userId key)⟩

theorem moved_signingKeys (wins : Bool) : (moved state db m payload signature wins).signingKeys =
    (if outboundFromSelf state m then disposeLocalUserAuthority db m.key else db).signingKeys := by
  rw [disposeLocalUserAuthority_eq]
  unfold moved disposes outboundFromSelf
  dsimp only
  by_cases leaves : m.fromInstanceKey = some state.instanceKey ∧ m.toInstanceKey ≠ state.instanceKey
  · cases acts : (db.user? m.key).any (·.signupMethod ≠ .federated) with
    | true => simp [leaves]
    | false => simp [leaves]
  · have stays : ¬ (m.fromInstanceKey = some state.instanceKey ∧ m.toInstanceKey ≠ state.instanceKey ∧
        (db.user? m.key).any (·.signupMethod ≠ .federated) = true) := fun all => leaves ⟨all.1, all.2.1⟩
    rw [decide_eq_false stays, decide_eq_false leaves]
    rfl

theorem localAuthority_moved (wins : Bool) : localAuthority (moved state db m payload signature wins)
        (if outboundFromSelf state m then disposeLogins db m.key logins else logins) m.key =
      if disposes state db m then .none else localAuthority db logins m.key := by
  have keys : ∀ rows : LoginTables, localAuthority (moved state db m payload signature wins) rows m.key =
      localAuthority (if outboundFromSelf state m then disposeLocalUserAuthority db m.key else db) rows m.key := by
    intro rows
    unfold localAuthority
    rw [moved_signingKeys]
  rw [keys]
  by_cases leaves : outboundFromSelf state m = true
  · have same : disposes state db m = (db.user? m.key).any (·.signupMethod ≠ .federated) := by
      simp only [outboundFromSelf, decide_eq_true_eq] at leaves
      simp [disposes, leaves.1, leaves.2]
    have disposed := @localAuthority_disposed db logins m.key
    rw [same, ← disposed, if_pos leaves, if_pos leaves]
  · have stays : disposes state db m = false := by
      simp only [outboundFromSelf, decide_eq_true_eq, not_and, not_not] at leaves
      simp only [disposes, decide_eq_false_iff_not, not_and]
      exact fun source away => absurd (leaves source) away
    rw [if_neg leaves, if_neg leaves, stays, if_neg (by nofun)]

end

/-- A key that is homed here after one of its moves keeps all its local authority, unless the move was superseded and itself
leaves this instance, which is taken as leave to dispose of everything. -/
theorem move_keeps_authority {state : AppState} {db after : Db} {logins loginsAfter : LoginTables}
    {wire payload signature : Bytes}
    {nowMs : Nat} {m : Move} {status : MoveStatus}
    (decodes : state.platform.decodeSignedObject wire = some (payload, signature))
    (parses : state.platform.parse payload = some (.move m))
    (run : applyOneMoveLogins state db logins wire nowMs = .ok (status, after, loginsAfter))
    (here : homeKey? after m.key = some state.instanceKey) :
    localAuthority after loginsAfter m.key =
      if status = .superseded ∧ disposes state db m = true then .none else localAuthority db logins m.key := by
  obtain ⟨⟨answered, written⟩, moving, run⟩ := bind_ok.mp run
  have named : wireMove state wire = some m := by
    simp [wireMove, decodes, parses]
  rw [named] at run
  dsimp only at run
  obtain ⟨unchanged, unapplied, unsuperseded⟩ | ⟨payload', signature', m', decodes', parses', -, -, -, single, committed⟩ :=
    applyOneMove_ok moving
  · rw [if_neg (by simp [unapplied, unsuperseded])] at run
    cases run
    rw [if_neg fun stale => unsuperseded stale.1, unchanged]
  · cases decodes.symm.trans decodes'
    cases parses.symm.trans parses'
    rw [commitMove_eq single] at committed
    dsimp only at committed
    cases won : newWins (db.userHomes.find? (·.userKey = m.key)) m (state.platform.sha256 payload) with
    | true =>
      -- the winner decides the home, so a key homed here has been moved here
      rw [won] at committed
      simp only [Bool.true_and, if_true] at committed
      split at committed
      · cases committed
      split at committed
      · cases committed
      cases committed
      have target : m.toInstanceKey = state.instanceKey := by
        have := homeKey?_upsertUserHome db (moveHome m (state.platform.sha256 payload)) m.key
        have arrived : homeKey? (moved state db m payload signature true) m.key = some m.toInstanceKey := by
          exact this.trans (if_pos rfl)
        split at run <;> cases run <;> exact some.inj (arrived.symm.trans here)
      have stays : disposes state db m = false := by simp [disposes, target]
      have inbound : outboundFromSelf state m = false := by simp [outboundFromSelf, target]
      rw [inbound, Bool.false_and, if_neg Bool.false_ne_true] at run
      cases run
      have kept := @localAuthority_moved state db logins m payload signature true
      rw [inbound, stays] at kept
      simpa using kept
    | false =>
      rw [won] at committed
      simp only [Bool.false_and, Bool.false_eq_true, if_false] at committed
      cases committed
      have kept := @localAuthority_moved state db logins m payload signature false
      have logged : loginsAfter = (if outboundFromSelf state m then disposeLogins db m.key logins else logins) ∧
          after = moved state db m payload signature false ∧ status = .superseded := by
        by_cases leaves : outboundFromSelf state m = true
        · rw [leaves] at run ⊢
          cases run
          exact ⟨rfl, rfl, rfl⟩
        · rw [Bool.not_eq_true] at leaves
          rw [leaves] at run ⊢
          cases run
          exact ⟨rfl, rfl, rfl⟩
      obtain ⟨rfl, rfl, rfl⟩ := logged
      rw [kept]
      simp

/-- Two moves of one user away from here, of which the later one is a fork of the first. -/
def homecomingTable : List SignedPayload :=
  [.move ⟨1, some 9, some "here", 8, "home", 1000, 900, ⟨1, 900, 9, []⟩, some 5⟩,
    .move ⟨1, some 9, some "here", 7, "far", 2000, 900, ⟨1, 900, 9, []⟩, some 5⟩]

def homecomingState : AppState :=
  AppState.ofTable homecomingTable

def homecomingBirth : LocalUserBirth :=
  ⟨1, "ada", "ada", .invite, 900, "here", ⟨1, 900, 9, []⟩, ⟨[3], []⟩, ⟨[4], []⟩⟩

def homecomingEvents : List HomeEvent :=
  [.signUp homecomingBirth, .move [0] 1500, .register ⟨1, "ada", "ada", "here", 3000, some (8, "home"), fun _ => ⟨[6], []⟩⟩]

def homecoming : Db :=
  homecomingEvents.foldl (HomeEvent.apply homecomingState) {}

def homecomingLogins : LoginTables where
  userId key := key.toNat
  sessions := [⟨70, 1⟩, ⟨71, 2⟩]
  credentials := [⟨1, [80]⟩]

/-- The fork arrives after the return. It is superseded, the key stays homed here, and nothing can act for it any more. -/
theorem fork_disposes_authority : ∃ after loginsAfter,
    applyOneMoveLogins homecomingState homecoming homecomingLogins [1] 3500 = .ok (.superseded, after, loginsAfter) ∧
    homeKey? after 1 = some 9 ∧
    localAuthority homecoming homecomingLogins 1 = ⟨[⟨1, true⟩], [⟨70, 1⟩], [⟨1, [80]⟩]⟩ ∧
    localAuthority after loginsAfter 1 = .none := by
  refine ⟨_, _, rfl, ?_, ?_, ?_⟩ <;> decide +kernel

/-- The move away is redelivered. -/
theorem returned_keeps_authority : ∃ after loginsAfter,
    applyOneMoveLogins homecomingState homecoming homecomingLogins [0] 3500 = .ok (.duplicate, after, loginsAfter) ∧
    localAuthority after loginsAfter 1 = ⟨[⟨1, true⟩], [⟨70, 1⟩], [⟨1, [80]⟩]⟩ := by
  refine ⟨_, _, rfl, ?_⟩
  have kept := @move_keeps_authority homecomingState homecoming _ homecomingLogins _ [0] [0] (List.replicate 64 0) 3500
    ⟨1, some 9, some "here", 8, "home", 1000, 900, ⟨1, 900, 9, []⟩, some 5⟩ .duplicate rfl rfl rfl (by decide +kernel)
  exact kept.trans (by decide +kernel)

end Prismoire
