import Prismoire.Lib.Run
import Prismoire.ThreadHomes

namespace Prismoire

open Lib List Option Db

variable {corpus : Corpus} {db : Db} {history : MoveHistory}

section Deliveries

variable {state : AppState} {after : Db} {arrivedFrom : Key}

def MoveHistory.Covers (history : MoveHistory) (platform : Platform) (corpus : Corpus) : Prop :=
  ∀ payload signature m, Filed platform corpus payload signature (.move m) → (platform.sha256 payload, m) ∈ history.moves

/-- What an instance keeps between deliveries. -/
structure Homed (history : MoveHistory) (state : AppState) (corpus : Corpus) (db : Db) : Prop where
  sound : Sound state corpus db
  told : HomesTold history state corpus db
  moves : MovesFrom history db

/-- A delivered object that can open threads finds the moves that tell their homes: a thread-create its own, and a
profile those of the author's thread-creates that wait for it. -/
def OpensTold (history : MoveHistory) (state : AppState) (db : Db) (wire : Bytes) (arrivedFrom : Key) : Prop :=
  ∀ payload signature, state.platform.decodeSignedObject wire = some (payload, signature) →
    db.hasObject (state.platform.sha256 payload) = false →
    (∀ t, state.platform.parse payload = some (.threadCreate t) →
      TellsHome history state db t.author t.createdAt arrivedFrom) ∧
    (∀ p, state.platform.parse payload = some (.profileRevision p) →
      ∀ t, StoredThread state db p.user t → TellsHome history state db t.author t.createdAt arrivedFrom)

theorem eraseAllForUserKey_work {user : Key} {authority : Hash}
    (run : eraseAllForUserKey db user authority = .ok after) :
    after.threads = db.threads ∧ after.userMoves = db.userMoves := by
  obtain ⟨_, _, _, -, rfl⟩ | rfl := eraseAllForUserKey_frame run
  · exact ⟨rfl, rfl⟩
  · exact ⟨rfl, rfl⟩

theorem StoredThread.of_store {author : Key} {t : ThreadCreate} {cls : InnerClass} {payload signature : Bytes}
    {hash : Hash} (other : cls ≠ .threadCreate)
    (stored : StoredThread state (db.storeSignedObject cls payload signature hash) author t) :
    StoredThread state db author t := by
  obtain ⟨row, mem, isClass, rest⟩ := stored
  refine ⟨row, ?_, isClass, rest⟩
  dsimp only [storeSignedObject] at mem
  split at mem
  · exact mem
  · rcases mem_concat.mp mem with old | isNew
    · exact old
    · rw [isNew] at isClass
      exact absurd isClass other

section

variable (homed : Homed history state corpus db) (injective : CollisionFree state.platform corpus)
  (lawful : history.Lawful)
include homed injective lawful

theorem Homed.ingestObject {payload signature : Bytes} {object : SignedPayload} {status : ContentStatus}
    (occurs : corpus payload) (admitted : admitObject state.platform payload signature = .ok object)
    (absent : db.hasObject (state.platform.sha256 payload) = false)
    (opens : ∀ t, object = .threadCreate t → TellsHome history state db t.author t.createdAt arrivedFrom)
    (reopens : ∀ p, object = .profileRevision p → ∀ t, StoredThread state db p.user t →
      TellsHome history state db t.author t.createdAt arrivedFrom)
    (run : ingestObject state db payload signature arrivedFrom object = .ok (status, after)) :
    HomesTold history state corpus after ∧ after.userMoves = db.userMoves := by
  obtain ⟨rfl, -⟩ | ⟨a, rfl, applied⟩ | ⟨cls, key, classed, -, handled⟩ := ingestObject_ok run
  · exact ⟨homed.told, rfl⟩
  · obtain ⟨rfl, -⟩ | ⟨-, -, -, -, erased, erasedRun, rfl⟩ := applyAdminRm_ok applied
    · exact ⟨homed.told, rfl⟩
    · rw [erasePayloads_frame erasedRun]
      exact ⟨homed.told, rfl⟩
  · have filed := Filed.of_admitted occurs admitted classed
    have storing : Effect state corpus true db _ := filed.storing classed
    have told : HomesTold history state corpus (db.storeSignedObject cls payload signature
        (state.platform.sha256 payload)) := homed.told.of_threads rfl
    cases handled with
    | retraction ran =>
      rw [erasePayloads_frame ran]
      exact ⟨homed.told, rfl⟩
    | deactivation ran =>
      have work := eraseAllForUserKey_work ran
      exact ⟨told.of_threads work.1, work.2⟩
    | profileRevision ran =>
      cases classed
      refine told.projectRemoteProfile (storing.sound homed.sound) injective lawful (homed.moves.congr rfl)
        (filed.landing absent) (homed.sound.profile_fresh absent) (fun t stored => ?_) ran
      exact (reopens _ rfl t (stored.of_store (by nofun))).congr rfl (fetchMove_store (by nofun))
    | postRevision ran =>
      have work := projectRemotePostRevision_work ran
      exact ⟨told.of_threads work.threads, work.moves⟩
    | @threadCreate t ran =>
      cases classed
      have tells : TellsHome history state (db.storeSignedObject .threadCreate payload signature
          (state.platform.sha256 payload)) t.author t.createdAt arrivedFrom :=
        (opens t rfl).congr rfl (fetchMove_store (by nofun))
      have homing := told.projectThreadAndOrphans lawful (homed.moves.congr rfl) tells filed ran
      exact ⟨homing.told, homing.moves⟩

theorem Homed.deliverObject {wire : Bytes} (occurs : Occurs state corpus wire)
    (told : OpensTold history state db wire arrivedFrom) :
    Homed history state corpus (deliverObject state db wire arrivedFrom) := by
  have effects : Effects state corpus true db (Prismoire.deliverObject state db wire arrivedFrom) :=
    deliverObject_effects homed.sound occurs
  have kept : HomesTold history state corpus (Prismoire.deliverObject state db wire arrivedFrom) ∧
      (Prismoire.deliverObject state db wire arrivedFrom).userMoves = db.userMoves := by
    unfold Prismoire.deliverObject
    split
    · rename_i result final run
      obtain ⟨rfl, -⟩ | ⟨payload, signature, object, decodes, admitted, -, absent, -, ingested⟩ := applyOneObject_ok run
      · exact ⟨homed.told, rfl⟩
      · have parses := (admitObject_ok admitted).1
        obtain ⟨opens, reopens⟩ := told payload signature decodes absent
        exact homed.ingestObject injective lawful (occurs payload signature decodes) admitted absent
          (fun t same => opens t (parses.trans (congrArg some same)))
          (fun p same => reopens p (parses.trans (congrArg some same))) ingested
    · exact ⟨homed.told, rfl⟩
  exact ⟨effects.sound homed.sound, kept.1, homed.moves.congr kept.2⟩

end

theorem asI64_of_lt {n : Nat} (small : n < 2 ^ 63) : asI64 n = n := by
  rw [asI64, Nat.mod_eq_of_lt (by omega), if_pos small]

theorem MovesFrom.insertUserMove {move : Hash × Move} (from_ : MovesFrom history db) (lawful : history.Lawful)
    (mem : move ∈ history.moves)
    (moves : after.userMoves = (insertUserMove db ⟨move.2.key, move.1, asI64 move.2.createdAt⟩).userMoves) :
    MovesFrom history after := by
  intro key row inMoves own
  rw [moves] at inMoves
  unfold Prismoire.insertUserMove at inMoves
  dsimp only at inMoves
  split at inMoves
  · exact from_ key row inMoves own
  · rcases mem_concat.mp inMoves with old | isNew
    · exact from_ key row old own
    · rw [isNew, asI64_of_lt (lawful.small move mem)]
      exact ⟨move, mem, rfl⟩

theorem Homed.deliverMove {wire : Bytes} {nowMs : Nat} (homed : Homed history state corpus db) (lawful : history.Lawful)
    (covers : history.Covers state.platform corpus) (occurs : Occurs state corpus wire) :
    Homed history state corpus (deliverMove state db wire nowMs) := by
  unfold Prismoire.deliverMove
  split
  · rename_i status final run
    have effects := applyOneMove_effects occurs run
    have sound := effects.sound homed.sound
    obtain ⟨rfl, -⟩ | ⟨payload, signature, m, decodes, parses, -, passes, -, single, committed⟩ := applyOneMove_ok run
    · exact homed
    · obtain ⟨-, rfl⟩ := commitMove_moved single committed
      have mem := covers payload signature m
        ⟨occurs payload signature decodes, parses, m.key, signatureOk_of_admissible passes⟩
      exact ⟨sound, homed.told.of_threads rfl, homed.moves.insertUserMove lawful mem rfl⟩
  · exact homed

theorem Homed.setLocked (homed : Homed history state corpus db) (threadId : Uuid) (locked : Bool) :
    Homed history state corpus (setLocked db threadId locked) := by
  refine ⟨{ homed.sound with threads := ?_ }, ?_, homed.moves⟩
  · exact forall_mem_updateWhere homed.sound.threads fun _ ⟨payload, signature, t, filed, opens⟩ =>
      ⟨payload, signature, t, filed, opens.id, opens.author, opens.hash⟩
  · exact forall_mem_updateWhere homed.told fun _ ⟨payload, signature, t, filed, opens, isHome⟩ =>
      ⟨payload, signature, t, filed, ⟨opens.id, opens.author, opens.hash⟩, isHome⟩

end Deliveries

variable {host : Host} {s : StatusDb}

section Statuses

variable {after : StatusDb} {wire : Bytes}

variable {payload signature : Bytes} {answer : StatusAnswer}

theorem admitStatus_ok {ι σ ρ : Type} {cls : StatusClass ι σ ρ} {status : σ}
    (admitted : admitStatus cls host db payload signature = .ok status) :
    (host.platform.parse payload).bind cls.select = some status ∧
      ∃ home, cls.home host db status = .ok home ∧ signatureOk host.platform payload signature home = true := by
  obtain ⟨parsed, parses, rest⟩ := bind_ok.mp admitted
  obtain ⟨home, resolved, rest⟩ := bind_ok.mp rest
  have same : (host.platform.parse payload).bind cls.select = some parsed := by
    cases found : (host.platform.parse payload).bind cls.select with
    | none =>
      rw [found] at parses
      cases parses
    | some other =>
      rw [found] at parses
      cases parses
      rfl
  split at rest
  · cases rest
  · rename_i signed
    split at rest
    · cases rest
    · split at rest
      · cases rest
      · cases rest
        exact ⟨same, home, resolved, by simpa using signed⟩

theorem admitStatus_thread_error {mirrors : Bool}
    (refused : admitStatus (threadStatusClass mirrors) host db payload signature = .error answer) : answer ≠ .applied := by
  rintro rfl
  unfold admitStatus at refused
  cases parsed : (host.platform.parse payload).bind (threadStatusClass mirrors).select with
  | none =>
    rw [parsed] at refused
    cases refused
  | some status =>
    rw [parsed] at refused
    have split_ : (threadStatusClass mirrors).home host db status = .error .deferred ∨
        ∃ home, (threadStatusClass mirrors).home host db status = .ok home := by
      dsimp only [threadStatusClass]
      cases joinedThread db status.threadId with
      | none => exact .inl rfl
      | some row => exact .inr ⟨_, rfl⟩
    obtain unknown | ⟨home, resolved⟩ := split_
    · simp only [elim_some, unknown, bind, Except.bind] at refused
      cases refused
    · simp only [elim_some, resolved, bind, Except.bind] at refused
      split at refused
      · cases refused
      · split at refused
        · cases refused
        · split at refused <;> cases refused

theorem applyOneThreadStatus_ok (run : applyOneThreadStatus host s wire = .ok (answer, after)) :
    (after = s ∧ answer ≠ .applied) ∨ ∃ payload signature status row,
      host.platform.decodeSignedObject wire = some (payload, signature) ∧
      host.platform.parse payload = some (.threadStatus status) ∧ joinedThread s.db status.threadId = some row ∧
      signatureOk host.platform payload signature (row.homeInstance.getD host.instanceKey) = true ∧
      (after = (threadStatusClass true).upsert (host.platform.sha256 payload) status
          (storeStatus (threadStatusClass true) host s payload signature) ∨
        after = storeStatus (threadStatusClass true) host s payload signature) := by
  unfold applyOneThreadStatus applyOneStatus at run
  split at run
  · cases run
    exact .inl ⟨rfl, nofun⟩
  · rename_i payload signature decodes
    dsimp only at run
    split at run
    · cases run
      refine .inl ⟨rfl, ?_⟩
      split <;> nofun
    · split at run
      · rename_i refused
        cases run
        exact .inl ⟨rfl, admitStatus_thread_error refused⟩
      · rename_i status admitted
        obtain ⟨parses, home, resolved, signed⟩ := admitStatus_ok admitted
        have isStatus : host.platform.parse payload = some (.threadStatus status) := by
          obtain ⟨object, parsed, selected⟩ := bind_eq_some_iff.mp parses
          rw [parsed]
          cases object <;> cases selected
          rfl
        obtain ⟨row, joined, rfl⟩ : ∃ row, joinedThread s.db status.threadId = some row ∧
            row.homeInstance.getD host.instanceKey = home := by
          dsimp only [threadStatusClass] at resolved
          cases found : joinedThread s.db status.threadId with
          | none =>
            rw [found] at resolved
            cases resolved
          | some row =>
            rw [found] at resolved
            cases resolved
            exact ⟨row, rfl, rfl⟩
        refine .inr ⟨payload, signature, status, row, decodes, isStatus, joined, signed, ?_⟩
        split at run
        · obtain ⟨-, returned⟩ := require_bind_ok.mp run
          cases returned
          exact .inl rfl
        · cases run
          exact .inr rfl

theorem Homed.deliverThreadStatus (homed : Homed history host.toAppState corpus s.db)
    (occurs : Occurs host.toAppState corpus wire) :
    Homed history host.toAppState corpus (deliverStatus (threadStatusClass true) host s wire).db := by
  unfold deliverStatus
  split
  · rename_i answer final run
    obtain ⟨rfl, -⟩ | ⟨payload, signature, status, row, decodes, parses, -, signed, written⟩ := applyOneThreadStatus_ok run
    · exact homed
    · have filed : Filed host.platform corpus payload signature (.threadStatus status) :=
        ⟨occurs payload signature decodes, parses, _, signed⟩
      have storing : Effect host.toAppState corpus true s.db (s.db.storeSignedObject .threadStatus payload signature
          (host.platform.sha256 payload)) := .store filed rfl
      have stored : Homed history host.toAppState corpus (s.db.storeSignedObject .threadStatus payload signature
          (host.platform.sha256 payload)) :=
        ⟨storing.sound homed.sound, homed.told.of_threads rfl, homed.moves.congr rfl⟩
      rcases written with rfl | rfl
      · exact stored.setLocked _ _
      · exact stored
  · exact homed

end Statuses

/-- A delivery to an instance, with the peer that content comes from and the clock that a move is checked against. -/
inductive ThreadEvent where
  | content (wire : Bytes) (arrivedFrom : Key)
  | move (wire : Bytes) (nowMs : Nat)
  | threadStatus (wire : Bytes)

def ThreadEvent.wire : ThreadEvent → Bytes
  | .content wire _ => wire
  | .move wire _ => wire
  | .threadStatus wire => wire

def ThreadEvent.deliver (host : Host) (s : StatusDb) : ThreadEvent → StatusDb
  | .content wire arrivedFrom => { s with db := deliverObject host.toAppState s.db wire arrivedFrom }
  | .move wire nowMs => { s with db := deliverMove host.toAppState s.db wire nowMs }
  | .threadStatus wire => deliverStatus (threadStatusClass true) host s wire

def HomesKnown (history : MoveHistory) (host : Host) (s : StatusDb) : ThreadEvent → Prop
  | .content wire arrivedFrom => OpensTold history host.toAppState s.db wire arrivedFrom
  | _ => True

/-- A run of deliveries to an instance whose threads so far have the right homes. -/
structure ThreadRun (history : MoveHistory) (corpus : Corpus) (host : Host) (events : List ThreadEvent)
    (s : StatusDb) : Prop where
  start : Homed history host.toAppState corpus s.db
  occurs : ∀ event ∈ events, Occurs host.toAppState corpus event.wire
  known : MeetAlong (ThreadEvent.deliver host) (HomesKnown history host) s events

section Runs

variable {events : List ThreadEvent}

theorem Homed.deliver {event : ThreadEvent} (homed : Homed history host.toAppState corpus s.db) (lawful : history.Lawful)
    (injective : CollisionFree host.platform corpus) (covers : history.Covers host.platform corpus)
    (occurs : Occurs host.toAppState corpus event.wire) (known : HomesKnown history host s event) :
    Homed history host.toAppState corpus (event.deliver host s).db := by
  cases event with
  | content wire arrivedFrom => exact homed.deliverObject injective lawful occurs known
  | move wire nowMs => exact homed.deliverMove lawful covers occurs
  | threadStatus wire => exact homed.deliverThreadStatus occurs

theorem ThreadRun.homed (run : ThreadRun history corpus host events s) (lawful : history.Lawful)
    (injective : CollisionFree host.platform corpus) (covers : history.Covers host.platform corpus) :
    Homed history host.toAppState corpus (events.foldl (ThreadEvent.deliver host) s).db := by
  obtain ⟨start, occurs, known⟩ := run
  induction events generalizing s with
  | nil => exact start
  | cons event events ih =>
    have next := start.deliver lawful injective covers (occurs event mem_cons_self) known.1
    exact ih next (fun later mem => occurs later (mem_cons_of_mem _ mem)) known.2

theorem ThreadRun.of_shorter {reached : List ThreadEvent} (run : ThreadRun history corpus host events s)
    (shorter : reached <+: events) : ThreadRun history corpus host reached s :=
  ⟨run.start, fun event mem => run.occurs event (shorter.subset mem), run.known.of_shorter shorter⟩

theorem HomesTold.agree {a b : AppState} {dbA dbB : Db} (lawful : history.Lawful) (same : a.platform = b.platform)
    (injective : CollisionFree a.platform corpus) (toldA : HomesTold history a corpus dbA)
    (toldB : HomesTold history b corpus dbB) {rowA rowB : ThreadRow} (inA : rowA ∈ dbA.threads) (inB : rowB ∈ dbB.threads)
    (create : rowA.threadCreateHash = rowB.threadCreateHash) :
    rowA.homeInstance.getD a.instanceKey = rowB.homeInstance.getD b.instanceKey := by
  obtain ⟨payloadA, signatureA, createA, filedA, opensA, homeA⟩ := toldA rowA inA
  obtain ⟨payloadB, signatureB, createB, filedB, opensB, homeB⟩ := toldB rowB inB
  rw [← same] at filedB opensB
  have hashes : a.platform.sha256 payloadA = a.platform.sha256 payloadB := by
    rw [opensA.hash, opensB.hash] at create
    exact some.inj create
  have payloads := injective _ _ filedA.occurs filedB.occurs hashes
  have parsed := filedA.parses
  rw [payloads, filedB.parses, some.injEq, SignedPayload.threadCreate.injEq] at parsed
  subst parsed
  exact homeA.unique lawful homeB

end Runs

/-- Where the threads were opened with the moves at hand, a thread-status is applied only if the home that the author had
at the thread-create signed it, and every instance asks for the signature of the same key. -/
theorem locked_by_home {history : MoveHistory} {platform : Platform} {corpus : Corpus} (lawful : history.Lawful)
    (injective : CollisionFree platform corpus) (covers : history.Covers platform corpus) :
    (∀ (host : Host) (events reached : List ThreadEvent) (s : StatusDb), host.platform = platform →
      ThreadRun history corpus host events s → reached <+: events →
      let now := reached.foldl (ThreadEvent.deliver host) s
      ∀ wire after, applyOneThreadStatus host now wire = .ok (.applied, after) →
        ∃ payload signature status, platform.decodeSignedObject wire = some (payload, signature) ∧
          platform.parse payload = some (.threadStatus status) ∧
          ∃ row ∈ now.db.threads, row.id = status.threadId ∧
          ∃ create createSignature t, Filed platform corpus create createSignature (.threadCreate t) ∧
            row.Opens platform create t ∧
          ∃ home, history.HomeAt t.author t.createdAt home ∧ signatureOk platform payload signature home = true) ∧
    (∀ (hostA hostB : Host) (eventsA eventsB : List ThreadEvent) (a b : StatusDb), hostA.platform = platform →
      hostB.platform = platform → ThreadRun history corpus hostA eventsA a → ThreadRun history corpus hostB eventsB b →
      let nowA := eventsA.foldl (ThreadEvent.deliver hostA) a
      let nowB := eventsB.foldl (ThreadEvent.deliver hostB) b
      (∀ rowA ∈ nowA.db.threads, ∀ rowB ∈ nowB.db.threads, rowA.threadCreateHash = rowB.threadCreateHash →
        rowA.homeInstance.getD hostA.instanceKey = rowB.homeInstance.getD hostB.instanceKey) ∧
      ∀ status rowA rowB, joinedThread nowA.db status.threadId = some rowA →
        joinedThread nowB.db status.threadId = some rowB → rowA.threadCreateHash = rowB.threadCreateHash →
        (threadStatusClass true).home hostA nowA.db status = (threadStatusClass true).home hostB nowB.db status) := by
  constructor
  · rintro host events reached s rfl run shorter now wire after applied
    have homed := (run.of_shorter shorter).homed lawful injective covers
    obtain ⟨-, other⟩ | ⟨payload, signature, status, row, decodes, parses, joined, signed, -⟩ :=
      applyOneThreadStatus_ok applied
    · exact absurd rfl other
    · have mem := mem_of_find?_eq_some joined
      have named := find?_some joined
      simp only [decide_eq_true_eq] at named
      obtain ⟨create, createSignature, t, filed, opens, isHome⟩ := homed.told row mem
      exact ⟨payload, signature, status, decodes, parses, row, mem, named.1, create, createSignature, t, filed, opens, _,
        isHome, signed⟩
  · rintro hostA hostB eventsA eventsB a b rfl same runA runB nowA nowB
    have homedA := runA.homed lawful injective covers
    have homedB := runB.homed lawful (same ▸ injective) (same ▸ covers)
    have homes : ∀ rowA ∈ nowA.db.threads, ∀ rowB ∈ nowB.db.threads, rowA.threadCreateHash = rowB.threadCreateHash →
        rowA.homeInstance.getD hostA.instanceKey = rowB.homeInstance.getD hostB.instanceKey :=
      fun rowA inA rowB inB create => homedA.told.agree lawful same.symm injective homedB.told inA inB create
    refine ⟨homes, fun status rowA rowB joinedA joinedB create => ?_⟩
    have equal := homes rowA (mem_of_find?_eq_some joinedA) rowB (mem_of_find?_eq_some joinedB) create
    dsimp only [threadStatusClass]
    rw [joinedA, joinedB, elim_some, elim_some, equal]

def lockTable : List SignedPayload :=
  [.profileRevision ⟨1, "ada", "", none, 500, none⟩, .threadCreate ⟨5, 1, "town", "hello", none, 6, 1000⟩,
    .threadStatus ⟨5, .locked, "relay", none, 2000, none⟩, .threadStatus ⟨5, .locked, "home", none, 2000, none⟩]

def keyedPlatform (table : List SignedPayload) : Platform :=
  { Platform.ofTable table with
    decodeSignedObject
      | [i, key] => some ([i], List.replicate 64 key)
      | _ => none
    ed25519Verify key _ signature := signature = List.replicate 64 (UInt8.ofNat key.toNat) }

def lockHost (instanceKey : Key) : Host where
  platform := keyedPlatform lockTable
  instanceKey := instanceKey
  edgeRowId _ := 0
  edgeClock _ := ""
  instanceDomain := "here"

/-- The author registered on the instance `8` and never moved. -/
def lockHistory : MoveHistory where
  moves := []
  registered _ := 8

def lockCorpus (payload : Bytes) : Prop :=
  payload ∈ [[0], [1], [2], [3]]

def openThread (peer : Key) : List ThreadEvent :=
  [.content [0, 1] peer, .content [1, 1] peer]

theorem lockHistory_home : lockHistory.HomeAt 1 1000 8 :=
  .inr ⟨by simp [MoveHistory.Unmoved, lockHistory], rfl⟩

theorem lockCorpus_injective : CollisionFree (keyedPlatform lockTable) lockCorpus := by
  intro a b inA inB same
  simp only [lockCorpus, mem_cons, not_mem_nil, or_false] at inA inB
  rcases inA with rfl | rfl | rfl | rfl <;> rcases inB with rfl | rfl | rfl | rfl <;>
    first | rfl | exact absurd same (by decide)

theorem lockHistory_covers : lockHistory.Covers (keyedPlatform lockTable) lockCorpus := by
  intro payload signature m filed
  have inCorpus := filed.occurs
  have parses := filed.parses
  simp only [lockCorpus, mem_cons, not_mem_nil, or_false] at inCorpus
  rcases inCorpus with rfl | rfl | rfl | rfl <;> cases parses

theorem openThread_occurs (instanceKey : Key) :
    ∀ event ∈ openThread 8, Occurs (lockHost instanceKey).toAppState lockCorpus event.wire := by
  intro event mem payload signature decodes
  simp only [openThread, mem_cons, not_mem_nil, or_false] at mem
  rcases mem with rfl | rfl <;> cases decodes <;> simp [lockCorpus]

theorem openThread_run {instanceKey : Key} (either : instanceKey = 9 ∨ instanceKey = 6) :
    ThreadRun lockHistory lockCorpus (lockHost instanceKey) (openThread 8) { db := {} } := by
  refine ⟨⟨.empty, by simp [HomesTold], by simp [MovesFrom, MovesOfFrom]⟩, openThread_occurs instanceKey, ?_, ?_, trivial⟩
  · intro payload signature decodes _
    cases decodes
    refine ⟨nofun, fun p _ t stored => ?_⟩
    obtain ⟨row, mem, -⟩ := stored
    cases mem
  · intro payload signature decodes _
    cases decodes
    refine ⟨fun t parses => ?_, nofun⟩
    cases parses
    have unmoved : ((ThreadEvent.content [0, 1] 8).deliver (lockHost instanceKey) { db := {} }).db.userMoves = [] := by
      rcases either with rfl | rfl <;> decide +kernel
    exact .inr (.inr ⟨by rw [unmoved]; nofun, lockHistory_home⟩)

/-- The home delivers its own thread, and two instances hold it to the home's lock. -/
theorem home_locks_thread :
    let nowA := (openThread 8).foldl (ThreadEvent.deliver (lockHost 9)) { db := {} }
    let nowB := (openThread 8).foldl (ThreadEvent.deliver (lockHost 6)) { db := {} }
    (applyOneThreadStatus (lockHost 9) nowA [3, 8]).toOption.map Prod.fst = some .applied ∧
    (∃ payload signature status, (keyedPlatform lockTable).decodeSignedObject [3, 8] = some (payload, signature) ∧
      (keyedPlatform lockTable).parse payload = some (.threadStatus status) ∧
      ∃ row ∈ nowA.db.threads, row.id = status.threadId ∧
      ∃ create createSignature t, Filed (keyedPlatform lockTable) lockCorpus create createSignature (.threadCreate t) ∧
        row.Opens (keyedPlatform lockTable) create t ∧
      ∃ home, lockHistory.HomeAt t.author t.createdAt home ∧
        signatureOk (keyedPlatform lockTable) payload signature home = true) ∧
    nowA.db.threads.map (·.homeInstance.getD 9) = nowB.db.threads.map (·.homeInstance.getD 6) := by
  intro nowA nowB
  have lawful : lockHistory.Lawful := ⟨nofun, nofun⟩
  have applied : (applyOneThreadStatus (lockHost 9) nowA [3, 8]).toOption.map Prod.fst = some .applied := by
    decide +kernel
  obtain ⟨alone, together⟩ := locked_by_home lawful lockCorpus_injective lockHistory_covers
  refine ⟨applied, ?_, ?_⟩
  · obtain ⟨⟨answer, after⟩, run, isApplied⟩ := map_eq_some_iff.mp applied
    cases isApplied
    have ok : applyOneThreadStatus (lockHost 9) nowA [3, 8] = .ok (.applied, after) := by
      cases answered : applyOneThreadStatus (lockHost 9) nowA [3, 8] with
      | error failed =>
        rw [answered] at run
        cases run
      | ok result =>
        rw [answered] at run
        cases run
        rfl
    exact alone (lockHost 9) (openThread 8) (openThread 8) _ rfl (openThread_run (.inl rfl)) (prefix_refl _) [3, 8]
      after ok
  · obtain ⟨homes, -⟩ := together (lockHost 9) (lockHost 6) (openThread 8) (openThread 8) _ _ rfl rfl
      (openThread_run (.inl rfl)) (openThread_run (.inr rfl))
    obtain ⟨rowA, threadsA, createA⟩ : ∃ row, nowA.db.threads = [row] ∧ row.threadCreateHash = some 2 :=
      ⟨_, rfl, by decide +kernel⟩
    obtain ⟨rowB, threadsB, createB⟩ : ∃ row, nowB.db.threads = [row] ∧ row.threadCreateHash = some 2 :=
      ⟨_, rfl, by decide +kernel⟩
    have same := homes rowA (by rw [threadsA]; exact mem_singleton_self _) rowB
      (by rw [threadsB]; exact mem_singleton_self _) (createA.trans createB.symm)
    rw [threadsA, threadsB]
    exact congrArg (fun home => [home]) same

/-- A peer that relays the thread-create is taken for the home of the thread. Its lock is applied, though the author's home
never signed it, and the home's own lock is not; an instance that heard from the home has it the other way round. -/
theorem relay_locks_thread :
    let relayed := (openThread 7).foldl (ThreadEvent.deliver (lockHost 9)) { db := {} }
    let direct := (openThread 8).foldl (ThreadEvent.deliver (lockHost 9)) { db := {} }
    relayed.db.threads.map (·.homeInstance) = [some 7] ∧ direct.db.threads.map (·.homeInstance) = [some 8] ∧
    lockHistory.HomeAt 1 1000 8 ∧ signatureOk (keyedPlatform lockTable) [2] (List.replicate 64 7) 8 = false ∧
    ((applyOneThreadStatus (lockHost 9) relayed [2, 7]).toOption.map Prod.fst = some .applied ∧
      (applyOneThreadStatus (lockHost 9) relayed [3, 8]).toOption.map Prod.fst = some (.rejected .invalidSignature)) ∧
    ((applyOneThreadStatus (lockHost 9) direct [2, 7]).toOption.map Prod.fst = some (.rejected .invalidSignature) ∧
      (applyOneThreadStatus (lockHost 9) direct [3, 8]).toOption.map Prod.fst = some .applied) := by
  refine ⟨by decide +kernel, by decide +kernel, lockHistory_home, by decide +kernel, ⟨by decide +kernel, by decide +kernel⟩,
    by decide +kernel, by decide +kernel⟩

end Prismoire
