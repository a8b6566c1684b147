import Prismoire.Registration

namespace Prismoire

open Lib List

structure CommittedCall where
  call : PendingComplete
  userId : Uuid
  before : RegistrationTables
  after : RegistrationTables

/-- What a call of `complete` answered, and the tables around its transaction; a call that fails its first checks has none. -/
structure Answer where
  call : Option PendingComplete
  result : Except CeremonyError Uuid
  before : RegistrationTables
  after : RegistrationTables

/-- An instance with its calls of `complete` under way, each between its first checks and its transaction or between this
and its session. -/
structure RegistrationHost where
  tables : RegistrationTables
  nonces : List Hash := []
  challengeIds : List Uuid := []
  pending : List PendingComplete := []
  committed : List CommittedCall := []
  answers : List Answer := []

/-- What happens on an instance: the stages of the ceremonies in any order, other ceremonies, the sweeps, and whatever else
writes the users. -/
inductive RegistrationEvent where
  | begin_ (req : BeginRequest) (draw : BeginDraw)
  | start (req : CompleteRequest) (now : Nat)
  | commit (index : Nat) (moveSource : Option (Key × Text))
  | answer (index : Nat) (sessionStored : Bool)
  | ceremony (row : AuthChallengeRow)
  | sweep (keepsChallenge : RegistrationChallengeRow → Bool) (keepsCeremony : AuthChallengeRow → Bool)
  | write (db : Db) (userId : Key → Uuid) (credentials : List CredentialRow)

namespace RegistrationHost

variable (server : RegistrationServer) (host : RegistrationHost)

def begin_ (req : BeginRequest) (draw : BeginDraw) : RegistrationHost :=
  { host with
    tables :=
      match beginRegistration server host.tables req draw with
      | .error _ => host.tables
      | .ok (_, tables) => tables
    nonces := draw.nonce :: host.nonces
    challengeIds := draw.challengeId :: host.challengeIds }

def start (req : CompleteRequest) (now : Nat) : RegistrationHost :=
  match checkComplete server host.tables req now with
  | .error error => { host with answers := ⟨none, .error error, host.tables, host.tables⟩ :: host.answers }
  | .ok call => { host with pending := call :: host.pending }

/-- A transaction that fails rolls back. -/
def commit (index : Nat) (moveSource : Option (Key × Text)) : RegistrationHost :=
  match host.pending[index]? with
  | none => host
  | some call =>
    match commitComplete server host.tables call moveSource with
    | .error error =>
      { host with
        pending := host.pending.eraseIdx index
        answers := ⟨some call, .error error, host.tables, host.tables⟩ :: host.answers }
    | .ok (userId, after) =>
      { host with
        tables := after
        pending := host.pending.eraseIdx index
        committed := ⟨call, userId, host.tables, after⟩ :: host.committed }

def answer (index : Nat) (sessionStored : Bool) : RegistrationHost :=
  match host.committed[index]? with
  | none => host
  | some done =>
    { host with
      committed := host.committed.eraseIdx index
      answers := ⟨some done.call, openSession done.userId sessionStored, done.before, done.after⟩ :: host.answers }

def apply (host : RegistrationHost) : RegistrationEvent → RegistrationHost
  | .begin_ req draw => host.begin_ server req draw
  | .start req now => host.start server req now
  | .commit index moveSource => host.commit server index moveSource
  | .answer index sessionStored => host.answer index sessionStored
  | .ceremony row =>
    { host with
      tables := { host.tables with authChallenges := host.tables.authChallenges ++ [row] }
      challengeIds := row.id :: host.challengeIds }
  | .sweep keepsChallenge keepsCeremony =>
    { host with
      tables := { host.tables with
        registrationChallenges := host.tables.registrationChallenges.filter keepsChallenge
        authChallenges := host.tables.authChallenges.filter keepsCeremony } }
  | .write db userId credentials => { host with tables := { host.tables with db, userId, credentials } }

/-- Tokens are drawn once, and whatever writes the users keeps each signing key with one of them. -/
def Lawful (host : RegistrationHost) : RegistrationEvent → Prop
  | .begin_ _ draw => draw.nonce ∉ host.nonces ∧ draw.challengeId ∉ host.challengeIds
  | .ceremony row => row.id ∉ host.challengeIds
  | .write db _ _ => KeysOwned db
  | _ => True

def succeeded : List PendingComplete :=
  host.answers.filterMap fun answer => if answer.result.isOk then answer.call else none

/-- The calls that have used up their tokens: the succeeded ones, and those that wait for their session. -/
def spent : List PendingComplete :=
  host.committed.map (·.call) ++ host.succeeded

end RegistrationHost

def RegistrationEvent.StoresSession : RegistrationEvent → Prop
  | .answer _ sessionStored => sessionStored = true
  | _ => True

/-- The invariant of the tokens: those of a spent call are gone, and no two calls spent the same. -/
structure SingleUse (host : RegistrationHost) : Prop where
  drawnNonce : ∀ row ∈ host.tables.registrationChallenges, row.nonce ∈ host.nonces
  drawnId : ∀ row ∈ host.tables.authChallenges, row.id ∈ host.challengeIds
  spentNonce : ∀ call ∈ host.spent, call.challenge.nonce ∈ host.nonces ∧
    ∀ row ∈ host.tables.registrationChallenges, row.nonce = call.challenge.nonce → row.consumed = true
  spentId : ∀ call ∈ host.spent, call.challengeId ∈ host.challengeIds ∧
    ∀ row ∈ host.tables.authChallenges, row.id ≠ call.challengeId
  onceByNonce : (host.spent.map (·.challenge.nonce)).Nodup
  onceById : (host.spent.map (·.challengeId)).Nodup
  owned : KeysOwned host.tables.db

/-- Each failed call has left the tables as they were. -/
def FailuresClean (host : RegistrationHost) : Prop :=
  ∀ answer ∈ host.answers, answer.result.isOk = false → answer.after = answer.before

section

variable {server : RegistrationServer} {host : RegistrationHost} {event : RegistrationEvent}

section

variable (single : SingleUse host)
include single

theorem SingleUse.begin_ {req : BeginRequest} {draw : BeginDraw}
    (fresh : draw.nonce ∉ host.nonces ∧ draw.challengeId ∉ host.challengeIds) : SingleUse (host.begin_ server req draw) := by
  have tables : (∀ row ∈ (host.begin_ server req draw).tables.registrationChallenges,
        row ∈ host.tables.registrationChallenges ∨ row.nonce = draw.nonce) ∧
      (∀ row ∈ (host.begin_ server req draw).tables.authChallenges,
        row ∈ host.tables.authChallenges ∨ row.id = draw.challengeId) ∧
      (host.begin_ server req draw).tables.db = host.tables.db := by
    unfold RegistrationHost.begin_ beginRegistration
    dsimp only
    split
    · exact ⟨fun _ => .inl, fun _ => .inl, rfl⟩
    · rename_i response after run
      split at run
      · cases run
      split at run
      · cases run
      split at run
      · cases run
      split at run
      · cases run
      cases run
      refine ⟨fun row mem => ?_, fun row mem => ?_, rfl⟩
      · rcases mem_concat.mp mem with old | isNew
        · exact .inl old
        · exact .inr (by rw [isNew])
      · rcases mem_concat.mp mem with old | isNew
        · exact .inl old
        · exact .inr (by rw [isNew])
  obtain ⟨nonceRows, ceremonies, sameDb⟩ := tables
  refine ⟨fun row mem => ?_, fun row mem => ?_, fun call mem => ?_, fun call mem => ?_,
    single.onceByNonce, single.onceById, by rw [sameDb]; exact single.owned⟩
  · rcases nonceRows row mem with old | same
    · exact mem_cons_of_mem _ (single.drawnNonce row old)
    · exact same ▸ mem_cons_self
  · rcases ceremonies row mem with old | same
    · exact mem_cons_of_mem _ (single.drawnId row old)
    · exact same ▸ mem_cons_self
  · obtain ⟨drawn, used⟩ := single.spentNonce call mem
    refine ⟨mem_cons_of_mem _ drawn, fun row inRows same => ?_⟩
    rcases nonceRows row inRows with old | isDrawn
    · exact used row old same
    · exact absurd (isDrawn ▸ same ▸ drawn) fresh.1
  · obtain ⟨drawn, gone⟩ := single.spentId call mem
    refine ⟨mem_cons_of_mem _ drawn, fun row inRows same => ?_⟩
    rcases ceremonies row inRows with old | isDrawn
    · exact gone row old same
    · exact absurd (isDrawn ▸ same ▸ drawn) fresh.2

theorem SingleUse.of_fewer {after : RegistrationHost}
    (nonceRows : ∀ row ∈ after.tables.registrationChallenges, row ∈ host.tables.registrationChallenges)
    (ceremonies : ∀ row ∈ after.tables.authChallenges, row ∈ host.tables.authChallenges)
    (nonces : after.nonces = host.nonces) (challengeIds : after.challengeIds = host.challengeIds)
    (spent : after.spent.Subperm host.spent) (owned : KeysOwned after.tables.db) : SingleUse after where
  drawnNonce row mem := by
    rw [nonces]
    exact single.drawnNonce row (nonceRows row mem)
  drawnId row mem := by
    rw [challengeIds]
    exact single.drawnId row (ceremonies row mem)
  spentNonce call mem := by
    obtain ⟨drawn, used⟩ := single.spentNonce call (spent.subset mem)
    rw [nonces]
    exact ⟨drawn, fun row inRows => used row (nonceRows row inRows)⟩
  spentId call mem := by
    obtain ⟨drawn, gone⟩ := single.spentId call (spent.subset mem)
    rw [challengeIds]
    exact ⟨drawn, fun row inRows => gone row (ceremonies row inRows)⟩
  onceByNonce := by
    obtain ⟨kept, perm, sub⟩ := spent
    exact (perm.map _).nodup_iff.mp (single.onceByNonce.sublist (sub.map _))
  onceById := by
    obtain ⟨kept, perm, sub⟩ := spent
    exact (perm.map _).nodup_iff.mp (single.onceById.sublist (sub.map _))
  owned := owned

theorem SingleUse.commit {index : Nat} {moveSource : Option (Key × Text)} :
    SingleUse (host.commit server index moveSource) := by
  unfold RegistrationHost.commit
  split
  · exact single
  rename_i call found
  split
  · refine single.of_fewer (fun _ => id) (fun _ => id) rfl rfl ?_ single.owned
    exact List.Subperm.refl _
  rename_i userId after run
  obtain ⟨⟨nonceRow, inRows, itsNonce, unconsumed⟩, ⟨ceremony, inCeremonies, itsId⟩, registered, nonceRows, ceremonies, -⟩ :=
    commitComplete_ok run
  have newNonce : call.challenge.nonce ∉ host.spent.map (·.challenge.nonce) := by
    intro mem
    obtain ⟨other, inSpent, same⟩ := mem_map.mp mem
    have used := (single.spentNonce other inSpent).2 nonceRow inRows (itsNonce.trans same.symm)
    rw [unconsumed] at used
    cases used
  have newId : call.challengeId ∉ host.spent.map (·.challengeId) := by
    intro mem
    obtain ⟨other, inSpent, same⟩ := mem_map.mp mem
    exact (single.spentId other inSpent).2 ceremony inCeremonies (itsId.trans same.symm)
  have rowOf : ∀ row ∈ after.registrationChallenges, ∃ old ∈ host.tables.registrationChallenges, row.nonce = old.nonce ∧
      (old.consumed = true → row.consumed = true) ∧ (row.nonce = call.challenge.nonce → row.consumed = true) := by
    intro row mem
    rw [nonceRows] at mem
    obtain ⟨old, inOld, ⟨-, rfl⟩ | ⟨other, rfl⟩⟩ := mem_updateWhere.mp mem
    · exact ⟨old, inOld, rfl, fun _ => rfl, fun _ => rfl⟩
    · simp only [decide_eq_false_iff_not] at other
      exact ⟨row, inOld, rfl, id, fun same => absurd same other⟩
  have kept : ∀ row ∈ after.authChallenges, row ∈ host.tables.authChallenges ∧ row.id ≠ call.challengeId := by
    intro row mem
    rw [ceremonies] at mem
    simpa using mem_filter.mp mem
  refine ⟨fun row mem => ?_, fun row mem => ?_, fun other mem => ?_, fun other mem => ?_,
    nodup_cons.mpr ⟨newNonce, single.onceByNonce⟩, nodup_cons.mpr ⟨newId, single.onceById⟩,
    completeRegistration_owned registered single.owned⟩
  · obtain ⟨old, inOld, same, -⟩ := rowOf row mem
    rw [same]
    exact single.drawnNonce old inOld
  · exact single.drawnId row (kept row mem).1
  · rcases mem_cons.mp mem with rfl | earlier
    · refine ⟨itsNonce ▸ single.drawnNonce nonceRow inRows, fun row inAfter same => ?_⟩
      obtain ⟨-, -, -, -, used⟩ := rowOf row inAfter
      exact used same
    · obtain ⟨drawn, used⟩ := single.spentNonce other earlier
      refine ⟨drawn, fun row inAfter same => ?_⟩
      obtain ⟨old, inOld, sameNonce, stays, -⟩ := rowOf row inAfter
      exact stays (used old inOld (sameNonce.symm.trans same))
  · rcases mem_cons.mp mem with rfl | earlier
    · exact ⟨itsId ▸ single.drawnId ceremony inCeremonies, fun row inAfter => (kept row inAfter).2⟩
    · obtain ⟨drawn, gone⟩ := single.spentId other earlier
      exact ⟨drawn, fun row inAfter => gone row (kept row inAfter).1⟩

theorem SingleUse.answer {index : Nat} {sessionStored : Bool} : SingleUse (host.answer index sessionStored) := by
  unfold RegistrationHost.answer
  split
  · exact single
  rename_i done found
  refine single.of_fewer (fun _ => id) (fun _ => id) rfl rfl ?_ single.owned
  have split : host.committed.Perm (done :: host.committed.eraseIdx index) := by
    obtain ⟨within, rfl⟩ := List.getElem?_eq_some_iff.mp found
    exact (getElem_cons_eraseIdx_perm within).symm
  have spent : host.spent.Perm (done.call :: (host.committed.eraseIdx index).map (·.call) ++ host.succeeded) :=
    (split.map _).append_right _
  cases sessionStored with
  | true =>
    have moved : ((host.committed.eraseIdx index).map (·.call) ++ done.call :: host.succeeded).Perm host.spent :=
      perm_middle.trans spent.symm
    exact moved.subperm
  | false =>
    exact ((sublist_cons_self _ _).subperm).trans spent.symm.subperm

theorem SingleUse.apply (lawful : host.Lawful event) :
    SingleUse (host.apply server event) := by
  cases event with
  | begin_ req draw => exact single.begin_ lawful
  | start req now =>
    dsimp only [RegistrationHost.apply]
    unfold RegistrationHost.start
    split
    · exact single.of_fewer (fun _ => id) (fun _ => id) rfl rfl (List.Subperm.refl _) single.owned
    · exact single.of_fewer (fun _ => id) (fun _ => id) rfl rfl (List.Subperm.refl _) single.owned
  | commit index moveSource => exact single.commit
  | answer index sessionStored => exact single.answer
  | ceremony row =>
    refine ⟨single.drawnNonce, fun other mem => ?_, single.spentNonce, fun call mem => ?_, single.onceByNonce,
      single.onceById, single.owned⟩
    · rcases mem_concat.mp mem with old | isNew
      · exact mem_cons_of_mem _ (single.drawnId other old)
      · rw [isNew]
        exact mem_cons_self
    · obtain ⟨drawn, gone⟩ := single.spentId call mem
      refine ⟨mem_cons_of_mem _ drawn, fun other inRows => ?_⟩
      rcases mem_concat.mp inRows with old | isNew
      · exact gone other old
      · rw [isNew]
        exact fun same => lawful (same ▸ drawn)
  | sweep keepsChallenge keepsCeremony =>
    exact single.of_fewer (fun row mem => mem_of_mem_filter mem) (fun row mem => mem_of_mem_filter mem)
      rfl rfl (List.Subperm.refl _) single.owned
  | write db userId credentials =>
    exact single.of_fewer (fun _ => id) (fun _ => id) rfl rfl (List.Subperm.refl _) lawful

end

theorem FailuresClean.apply (clean : FailuresClean host) (stores : event.StoresSession) :
    FailuresClean (host.apply server event) := by
  cases event with
  | start req now =>
    dsimp only [RegistrationHost.apply]
    unfold RegistrationHost.start
    split
    · exact forall_mem_cons.mpr ⟨fun _ => rfl, clean⟩
    · exact clean
  | commit index moveSource =>
    dsimp only [RegistrationHost.apply]
    unfold RegistrationHost.commit
    split
    · exact clean
    split
    · exact forall_mem_cons.mpr ⟨fun _ => rfl, clean⟩
    · exact clean
  | answer index sessionStored =>
    dsimp only [RegistrationHost.apply]
    unfold RegistrationHost.answer
    split
    · exact clean
    · refine forall_mem_cons.mpr ⟨fun failed => ?_, clean⟩
      change sessionStored = true at stores
      rw [stores] at failed
      cases failed
  | begin_ _ _ => exact clean
  | ceremony _ => exact clean
  | sweep _ _ => exact clean
  | write _ _ _ => exact clean

theorem SingleUse.fresh {attempt : Attempt} (single : SingleUse host)
    (drawn : host.Lawful (.begin_ attempt.req attempt.draw)) : attempt.Fresh host.tables where
  nonce row mem same := drawn.1 (same ▸ single.drawnNonce row mem)
  challengeId row mem same := drawn.2 (same ▸ single.drawnId row mem)
  owned := single.owned

theorem SingleUse.succeeded_once (single : SingleUse host) :
    (host.succeeded.map (·.challenge.nonce)).Nodup ∧ (host.succeeded.map (·.challengeId)).Nodup := by
  have within : host.succeeded.Sublist host.spent := sublist_append_right _ _
  exact ⟨single.onceByNonce.sublist (within.map _), single.onceById.sublist (within.map _)⟩

end

/-- In every run a begin and its complete agree on the keys without a row and on no others, no token makes two calls
succeed, and as long as the sessions are stored a failed call leaves the tables as they were. -/
theorem registration_halves {server : RegistrationServer} {tables : RegistrationTables}
    {events reached : List RegistrationEvent} (noChallenges : tables.registrationChallenges = [])
    (noCeremonies : tables.authChallenges = []) (owned : KeysOwned tables.db)
    (lawful : MeetAlong (RegistrationHost.apply server) RegistrationHost.Lawful { tables } events)
    (within : reached <+: events) :
    let now := reached.foldl (RegistrationHost.apply server) { tables }
    (∀ (attempt : Attempt) (key : Key) (displayName : Text), now.Lawful (.begin_ attempt.req attempt.draw) →
      attempt.Eligible server now.tables key displayName → attempt.Answered server now.tables key displayName →
      (Registers server now.tables attempt key ↔ now.tables.db.hasUser key = false)) ∧
    (now.succeeded.map (·.challenge.nonce)).Nodup ∧ (now.succeeded.map (·.challengeId)).Nodup ∧
    ((∀ event ∈ reached, event.StoresSession) → FailuresClean now) := by
  have start : SingleUse { tables } :=
    ⟨by simp [noChallenges], by simp [noCeremonies], nofun, nofun, nodup_nil, nodup_nil, owned⟩
  have single := (lawful.of_shorter within).invariant (fun _ _ holds meets => holds.apply meets) start
  obtain ⟨onceByNonce, onceById⟩ := single.succeeded_once
  refine ⟨fun attempt key displayName drawn eligible answered => registers_iff eligible answered (single.fresh drawn),
    onceByNonce, onceById, fun stores => ?_⟩
  have stored : MeetAlong (RegistrationHost.apply server) (fun _ event => event.StoresSession) { tables } reached :=
    .of_forall fun event mem _ => stores event mem
  have clean : FailuresClean { tables } := nofun
  exact stored.invariant (fun _ _ holds meets => holds.apply meets) clean

def returnServer : RegistrationServer where
  state := AppState.ofTable [.registrationChallenge ⟨1, 9, "here", 7, 1000⟩]
  instanceDomain := "here"
  validateDisplayName := some
  startPasskeyRegistration _ _ := []
  finishPasskeyRegistration credential _ := some credential
  encodeChallenge _ := [0]
  verifyingKey _ := 1
  signMoveWithKey _ _ := ⟨[], []⟩

def returnTables (users : List UserRow) : RegistrationTables where
  db := { users }
  userId _ := 2
  credentials := []
  registrationChallenges := []
  authChallenges := []

def returner : Attempt where
  req := ⟨"eve", some 1⟩
  draw := ⟨3, 7, 4, 1000⟩
  signature := List.replicate 64 0
  privateKey := List.replicate 32 0
  credential := [6]
  now := 1500
  moveSource := none

def returnEvents (sessionStored : Bool) : List RegistrationEvent :=
  let req : CompleteRequest :=
    ⟨4, some [0], some (List.replicate 64 0), some (List.replicate 32 0), [6]⟩
  [.begin_ ⟨"eve", some 1⟩ ⟨3, 7, 4, 1000⟩, .start req 1500, .start req 1600, .commit 0 none, .commit 0 none,
    .answer 0 sessionStored]

theorem returner_fits {users : List UserRow} (either : users = [] ∨ users = [⟨1, "ada", "ada", .federated, some 8, false⟩]) :
    returner.Eligible returnServer (returnTables users) 1 "eve" ∧ returner.Answered returnServer (returnTables users) 1 "eve" := by
  constructor
  · rcases either with rfl | rfl
    · exact ⟨rfl, nofun, rfl, rfl⟩
    · refine ⟨rfl, fun row mem _ => ?_, rfl, by decide⟩
      rw [mem_singleton.mp mem]
  · exact ⟨rfl, rfl, ⟨rfl, rfl⟩, ⟨[6], rfl, nofun⟩, by decide⟩

theorem returnEvents_lawful (sessionStored : Bool) :
    MeetAlong (RegistrationHost.apply returnServer) RegistrationHost.Lawful { tables := returnTables [] }
      (returnEvents sessionStored) :=
  ⟨⟨by simp, by simp⟩, trivial, trivial, trivial, trivial, trivial, trivial⟩

theorem returner_registers :
    let now := (returnEvents true).foldl (RegistrationHost.apply returnServer) { tables := returnTables [] }
    now.answers.map (·.result) = [.ok 3, .error .invalidSignature] ∧
    now.succeeded.map (·.challenge.nonce) = [7] ∧
    Registers returnServer (returnTables []) returner 1 ∧
    (now.succeeded.map (·.challengeId)).Nodup ∧ FailuresClean now := by
  have agrees := (@registration_halves returnServer (returnTables []) (returnEvents true) [] rfl rfl nofun
    (returnEvents_lawful true) ( nil_prefix)).1
  have run := @registration_halves returnServer (returnTables []) (returnEvents true) (returnEvents true) rfl rfl nofun
    (returnEvents_lawful true) (prefix_refl _)
  obtain ⟨eligible, answered⟩ := returner_fits (.inl rfl)
  refine ⟨by decide +kernel, by decide +kernel, (agrees returner 1 "eve" ⟨by simp, by simp⟩ eligible answered).mpr rfl,
    run.2.2.1, run.2.2.2 fun event mem => ?_⟩
  simp only [returnEvents, mem_cons, not_mem_nil, or_false] at mem
  rcases mem with rfl | rfl | rfl | rfl | rfl | rfl <;> trivial

/-- The begin refuses the stub that the complete would upgrade, and a complete without its session has written the tables. -/
theorem returner_refused :
    (returner.Eligible returnServer (returnTables [⟨1, "ada", "ada", .federated, some 8, false⟩]) 1 "eve" ∧
      returner.Answered returnServer (returnTables [⟨1, "ada", "ada", .federated, some 8, false⟩]) 1 "eve" ∧
      (registerAtOnce returnServer (returnTables [⟨1, "ada", "ada", .federated, some 8, false⟩]) returner).1 =
        .error (.registration .userKeyTaken) ∧
      ¬ Registers returnServer (returnTables [⟨1, "ada", "ada", .federated, some 8, false⟩]) returner 1) ∧
    let now := (returnEvents false).foldl (RegistrationHost.apply returnServer) { tables := returnTables [] }
    now.answers.map (·.result) = [.error .session, .error .invalidSignature] ∧
      now.answers.map (fun answer => (answer.before.credentials, answer.after.credentials)) =
        [([], [⟨3, [6]⟩]), ([⟨3, [6]⟩], [⟨3, [6]⟩])] ∧
      ¬ FailuresClean now := by
  have refused : (registerAtOnce returnServer (returnTables [⟨1, "ada", "ada", .federated, some 8, false⟩]) returner).1 =
      .error (.registration .userKeyTaken) := by decide +kernel
  have results : ((returnEvents false).foldl (RegistrationHost.apply returnServer) { tables := returnTables [] }).answers.map
      (fun answer => (answer.result.isOk, answer.before.credentials, answer.after.credentials)) =
        [(false, [], [⟨3, [6]⟩]), (false, [⟨3, [6]⟩], [⟨3, [6]⟩])] := by decide +kernel
  obtain ⟨eligible, answered⟩ := returner_fits (.inr rfl)
  refine ⟨⟨eligible, answered, refused, fun registers => ?_⟩, by decide +kernel, by decide +kernel, fun clean => ?_⟩
  · obtain ⟨⟨userId, succeeded⟩, -⟩ := registers
    rw [refused] at succeeded
    cases succeeded
  · obtain ⟨answer, mem, same⟩ := mem_map.mp (results ▸ mem_cons_self)
    simp only [Prod.mk.injEq] at same
    obtain ⟨failed, before, after⟩ := same
    rw [clean answer mem failed, before] at after
    cases after

end Prismoire
