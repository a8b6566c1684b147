import Prismoire.Lib.Run
import Prismoire.StatusIssuer

namespace Prismoire

open Lib List Option Function

/-- `users.status` and `users.suspended_until`, the latter in seconds. -/
abbrev ModerationColumns := UserStatusKind × Option Int

/-- A moderation handler on one user, or the lazy expiry of a suspension by a request of that user. -/
inductive ModerationAction where
  | ban (reason : Text)
  | unban (reason : Text)
  | suspend (reason : Text) (untilMs : Nat)
  | unsuspend
  | expire (now : Int)
  deriving DecidableEq

structure ModerationTarget where
  subject : Key
  isAdmin : Bool
  homeInstance : Option Key

namespace ModerationAction

/-- The checks of the handlers on what they read of the user. -/
def admits (target : ModerationTarget) (seen : ModerationColumns) : ModerationAction → Bool
  | .ban reason => reason ≠ "" && !target.isAdmin && target.homeInstance.isNone && seen.1 ≠ .banned
  | .unban reason => reason ≠ "" && target.homeInstance.isNone && seen.1 = .banned
  | .suspend reason _ =>
    reason ≠ "" && !target.isAdmin && target.homeInstance.isNone && seen.1 ≠ .suspended && seen.1 ≠ .banned
  | .unsuspend => target.homeInstance.isNone && seen.1 = .suspended
  | .expire now => seen.1 = .suspended && seen.2.any (· < now)

/-- The UPDATE, which no longer looks at the status; a ban and an unban leave `suspended_until` as it is. -/
def write (now : ModerationColumns) : ModerationAction → ModerationColumns
  | .ban _ => (.banned, now.2)
  | .unban _ => (.active, now.2)
  | .suspend _ untilMs => (.suspended, some (untilMs / 1000 : Nat))
  | .unsuspend => (.active, none)
  | .expire _ => (.active, none)

def emits : ModerationAction → Option (UserStatusKind × Option Nat × Option Text)
  | .ban reason => some (.banned, none, some reason)
  | .unban reason => some (.active, none, some reason)
  | .suspend reason untilMs => some (.suspended, some untilMs, some reason)
  | .unsuspend => some (.active, none, some "manual unsuspend")
  | .expire _ => none

end ModerationAction

/-- Where a handler stands: `cleared` with what it read, `written` with its place among the writes. -/
inductive ModerationTask where
  | idle
  | refused
  | cleared (action : ModerationAction) (seen : ModerationColumns)
  | written (action : ModerationAction) (place : Nat)
  | answered (action : ModerationAction)
  deriving DecidableEq

/-- `performed` lists the tasks in the order of their writes, and `emitted` counts the writes up to the one whose object
was emitted last. -/
structure ModerationState where
  statuses : StatusDb
  tasks : Nat → ModerationTask := fun _ => .idle
  performed : List (Nat × ModerationAction) := []
  emitted : Nat := 0

structure ModerationServer where
  host : Host
  sign : UserStatus → SigningOutput
  target : ModerationTarget

/-- The read on the pool, the transaction, and the emission after it. -/
inductive ModerationEvent where
  | read (task : Nat) (action : ModerationAction)
  | write (task : Nat)
  | emit (task : Nat) (now : Nat)

def setUserColumns (statuses : StatusDb) (subject : Key) (columns : ModerationColumns) : StatusDb :=
  { statuses with userColumns := update statuses.userColumns subject columns }

namespace ModerationState

variable (server : ModerationServer) (s : ModerationState)

def columns : ModerationColumns :=
  s.statuses.userColumns server.target.subject

def setTask (task : Nat) (next : ModerationTask) : ModerationState :=
  { s with tasks := update s.tasks task next }

def apply : ModerationEvent → ModerationState
  | .read task action =>
    match s.tasks task with
    | .idle =>
      s.setTask task (if action.admits server.target (s.columns server) then .cleared action (s.columns server) else .refused)
    | _ => s
  | .write task =>
    match s.tasks task with
    | .cleared action _ =>
      { s.setTask task (if action.emits.isSome then .written action s.performed.length else .answered action) with
        statuses := setUserColumns s.statuses server.target.subject (action.write (s.columns server))
        performed := s.performed ++ [(task, action)] }
    | _ => s
  | .emit task now =>
    match s.tasks task with
    | .written action place =>
      match action.emits with
      | none => s
      | some (status, untilMs, reason) =>
        { s.setTask task (.answered action) with
          statuses := (dispatchLocalUserStatus server.host server.sign s.statuses server.target.subject status untilMs reason
            now).2
          emitted := place + 1 }
    | _ => s

end ModerationState

def runAlone (target : ModerationTarget) (start : ModerationColumns) : List ModerationAction → Option ModerationColumns
  | [] => some start
  | action :: rest => if action.admits target start then runAlone target (action.write start) rest else none

/-- A write finds the columns as its read found them, and the emissions keep the order of the writes. -/
def UndisturbedReads (server : ModerationServer) (s : ModerationState) : ModerationEvent → Prop
  | .read _ _ => True
  | .write task => ∀ action seen, s.tasks task = .cleared action seen → s.columns server = seen
  | .emit task _ => ∀ action place, s.tasks task = .written action place → s.emitted ≤ place

instance {server : ModerationServer} {s : ModerationState} : (event : ModerationEvent) → Decidable (UndisturbedReads server s event)
  | .read _ _ => isTrue trivial
  | .write task =>
    match atTask : s.tasks task with
    | .cleared action seen => decidable_of_iff (s.columns server = seen)
        ⟨fun same _ _ given => by cases atTask.symm.trans given; exact same, fun all => all action seen atTask⟩
    | .idle | .refused | .written _ _ | .answered _ => isTrue fun _ _ given => by cases atTask.symm.trans given
  | .emit task _ =>
    match atTask : s.tasks task with
    | .written action place => decidable_of_iff (s.emitted ≤ place)
        ⟨fun early _ _ given => by cases atTask.symm.trans given; exact early, fun all => all action place atTask⟩
    | .idle | .refused | .cleared _ _ | .answered _ => isTrue fun _ _ given => by cases atTask.symm.trans given

/-- The action of a handler that has written, whether or not it has emitted its object. -/
def ModerationTask.performed? : ModerationTask → Option ModerationAction
  | .written action _ => some action
  | .answered action => some action
  | _ => none

/-- The columns are those of the writes done one after another, and the last object emitted is that of its write. -/
structure Serialised (server : ModerationServer) (start : ModerationColumns) (s : ModerationState) : Prop where
  alone : runAlone server.target start (s.performed.map (·.2)) = some (s.columns server)
  once : (s.performed.map (·.1)).Nodup
  performed : ∀ task action, (task, action) ∈ s.performed ↔ (s.tasks task).performed? = some action
  cleared : ∀ task action seen, s.tasks task = .cleared action seen → action.admits server.target seen = true
  written : ∀ task action place, s.tasks task = .written action place → s.performed[place]? = some (task, action)
  due : ∀ place task action, s.performed[place]? = some (task, action) → action.emits.isSome = true →
    place < s.emitted ∨ s.tasks task = .written action place
  carried : ∀ place, s.emitted = place + 1 → ∃ task action status more, s.performed[place]? = some (task, action) ∧
    action.emits = some (status, more) ∧ (userStatusClass.row s.statuses server.target.subject).map (·.status) = some status

section

variable {server : ModerationServer} {start : ModerationColumns} {s : ModerationState}

variable {action : ModerationAction} {task : Nat}

theorem runAlone_concat {target : ModerationTarget} {actions : List ModerationAction}
    {reached : ModerationColumns} (run : runAlone target start actions = some reached)
    (admitted : action.admits target reached = true) :
    runAlone target start (actions ++ [action]) = some (action.write reached) := by
  induction actions generalizing start with
  | nil =>
    cases run
    simp [runAlone, admitted]
  | cons first rest ih =>
    rw [runAlone] at run
    split at run
    · rename_i passes
      rw [cons_append, runAlone, if_pos passes]
      exact ih run
    · cases run

theorem Serialised.move {next : ModerationTask} (kept : Serialised server start s)
    (idle : (s.tasks task).performed? = none) (unwritten : next.performed? = none)
    (cleared : ∀ action seen, next = .cleared action seen → action.admits server.target seen = true) :
    Serialised server start (s.setTask task next) where
  alone := kept.alone
  once := kept.once
  performed other action := by
    simp only [ModerationState.setTask]
    by_cases same : other = task
    · rw [same, update_self, kept.performed, idle, unwritten]
    · rw [update_of_ne same]
      exact kept.performed other action
  cleared other action seen := by
    simp only [ModerationState.setTask]
    by_cases same : other = task
    · rw [same, update_self]
      exact cleared action seen
    · rw [update_of_ne same]
      exact kept.cleared other action seen
  written other action place := by
    simp only [ModerationState.setTask]
    by_cases same : other = task
    · rw [same, update_self]
      intro isWritten
      rw [isWritten] at unwritten
      cases unwritten
    · rw [update_of_ne same]
      exact kept.written other action place
  due place other action atPlace emits := by
    refine (kept.due place other action atPlace emits).imp_right fun isWritten => ?_
    have apart : other ≠ task := by
      rintro rfl
      rw [isWritten] at idle
      cases idle
    simpa [ModerationState.setTask, update_of_ne apart] using isWritten
  carried := kept.carried

theorem Serialised.write {seen : ModerationColumns}
    (kept : Serialised server start s) (atTask : s.tasks task = .cleared action seen) (fresh : s.columns server = seen) :
    Serialised server start
      { s.setTask task (if action.emits.isSome then .written action s.performed.length else .answered action) with
        statuses := setUserColumns s.statuses server.target.subject (action.write (s.columns server))
        performed := s.performed ++ [(task, action)] } := by
  have idle : (s.tasks task).performed? = none := by rw [atTask]; rfl
  have absent : ∀ other, (task, other) ∉ s.performed := by
    intro other mem
    have := (kept.performed task other).mp mem
    rw [idle] at this
    cases this
  have done : (if action.emits.isSome then ModerationTask.written action s.performed.length else .answered action).performed? =
      some action := by
    split <;> rfl
  refine ⟨?_, ?_, ?_, ?_, ?_, ?_, ?_⟩
  · rw [map_append]
    have admitted := kept.cleared task action seen atTask
    rw [← fresh] at admitted
    refine (runAlone_concat kept.alone admitted).trans ?_
    simp [ModerationState.columns, setUserColumns]
  · rw [map_append, nodup_append]
    refine ⟨kept.once, nodup_singleton _, ?_⟩
    intro other listed last isLast same
    obtain ⟨⟨_, earlier⟩, mem, rfl⟩ := List.mem_map.mp listed
    rw [map_singleton, mem_singleton] at isLast
    subst isLast
    dsimp only at same
    subst same
    exact absent earlier mem
  · intro other done'
    simp only [ModerationState.setTask, mem_append, mem_singleton, Prod.mk.injEq]
    by_cases same : other = task
    · rw [same, update_self, done, some_inj]
      constructor
      · rintro (old | ⟨-, rfl⟩)
        · exact absurd old (absent done')
        · rfl
      · rintro rfl
        exact .inr ⟨rfl, rfl⟩
    · rw [update_of_ne same, ← kept.performed]
      simp [same]
  · intro other action' seen'
    simp only [ModerationState.setTask]
    by_cases same : other = task
    · rw [same, update_self]
      split <;> nofun
    · rw [update_of_ne same]
      exact kept.cleared other action' seen'
  · intro other action' place
    simp only [ModerationState.setTask]
    by_cases same : other = task
    · rw [same, update_self]
      split
      · intro isWritten
        cases isWritten
        rw [getElem?_append_right (le_refl _)]
        simp
      · nofun
    · rw [update_of_ne same]
      intro isWritten
      have atPlace := kept.written other action' place isWritten
      rw [getElem?_append_left (List.getElem?_eq_some_iff.mp atPlace).1]
      exact atPlace
  · intro place other action' atPlace emits
    rcases lt_or_ge place s.performed.length with early | late
    · rw [getElem?_append_left early] at atPlace
      refine (kept.due place other action' atPlace emits).imp_right fun isWritten => ?_
      have apart : other ≠ task := by
        rintro rfl
        rw [atTask] at isWritten
        cases isWritten
      simpa [ModerationState.setTask, update_of_ne apart] using isWritten
    · right
      rw [getElem?_append_right late, getElem?_singleton] at atPlace
      split at atPlace
      · cases atPlace
        have here : place = s.performed.length := by omega
        simp [ModerationState.setTask, emits, here]
      · cases atPlace
  · intro place counted
    obtain ⟨other, action', status, more, atPlace, emits, row⟩ := kept.carried place counted
    refine ⟨other, action', status, more, ?_, emits, row⟩
    rw [getElem?_append_left (List.getElem?_eq_some_iff.mp atPlace).1]
    exact atPlace

variable {status : UserStatusKind} {untilMs : Option Nat} {reason : Option Text} {now : Nat}

theorem row_dispatchLocalUserStatus {host : Host} {sign : UserStatus → SigningOutput} {statuses : StatusDb} {subject : Key} :
    (userStatusClass.row (dispatchLocalUserStatus host sign statuses subject status untilMs reason now).2 subject).map
      (·.status) = some status := by
  let object : UserStatus :=
    { subject, status, suspendedUntil := untilMs, signingInstance := host.instanceDomain, reason, createdAt := now,
      priorStatusHash := (userStatusClass.row statuses subject).map (·.currentStatusHash) }
  exact congrArg (Option.map (·.status)) (@find?_upsertBy _ _ _ UserStatusRow.subject statuses.userStatuses
    (userStatusRow (host.platform.sha256 (sign object).payload) object))

theorem Serialised.emit {place : Nat} (kept : Serialised server start s) (atTask : s.tasks task = .written action place)
    (emits : action.emits = some (status, untilMs, reason)) (inOrder : s.emitted ≤ place) :
    Serialised server start { s.setTask task (.answered action) with
        statuses := (dispatchLocalUserStatus server.host server.sign s.statuses server.target.subject status untilMs reason
          now).2
        emitted := place + 1 } := by
  have here := kept.written task action place atTask
  refine ⟨kept.alone, kept.once, ?_, ?_, ?_, ?_, ?_⟩
  · intro other done
    simp only [ModerationState.setTask]
    by_cases same : other = task
    · rw [same, update_self, kept.performed, atTask]
      rfl
    · rw [update_of_ne same]
      exact kept.performed other done
  · intro other action' seen
    simp only [ModerationState.setTask]
    by_cases same : other = task
    · rw [same, update_self]
      nofun
    · rw [update_of_ne same]
      exact kept.cleared other action' seen
  · intro other action' place'
    simp only [ModerationState.setTask]
    by_cases same : other = task
    · rw [same, update_self]
      nofun
    · rw [update_of_ne same]
      exact kept.written other action' place'
  · intro place' other action' atPlace emits'
    rcases kept.due place' other action' atPlace emits' with before | isWritten
    · exact .inl (by change place' < place + 1; omega)
    · by_cases same : other = task
      · rw [same, atTask] at isWritten
        cases isWritten
        exact .inl (Nat.lt_succ_self _)
      · right
        simpa [ModerationState.setTask, update_of_ne same] using isWritten
  · intro place' counted
    have same : place' = place := (Nat.succ.inj counted).symm
    subst same
    refine ⟨task, action, status, _, here, emits, ?_⟩
    exact row_dispatchLocalUserStatus

theorem Serialised.apply {event : ModerationEvent} (kept : Serialised server start s)
    (serial : UndisturbedReads server s event) :
    Serialised server start (s.apply server event) := by
  cases event with
  | read task action =>
    unfold ModerationState.apply
    dsimp only
    split
    · rename_i atTask
      refine kept.move (by rw [atTask]; rfl) ?_ ?_
      · split <;> rfl
      · intro action' seen
        split
        · rename_i admitted
          intro cleared
          cases cleared
          exact admitted
        · nofun
    · exact kept
  | write task =>
    unfold ModerationState.apply
    dsimp only
    split
    · rename_i action seen atTask
      exact kept.write atTask (serial action seen atTask)
    · exact kept
  | emit task now =>
    unfold ModerationState.apply
    dsimp only
    split
    · rename_i action place atTask
      split
      · exact kept
      · rename_i status untilMs reason emits
        exact kept.emit atTask emits (serial action place atTask)
    · exact kept

end

variable {target : ModerationTarget} {start reached : ModerationColumns}

variable {actions : List ModerationAction} {action : ModerationAction}

theorem runAlone_banned (run : runAlone target start actions = some reached) (banned : start.1 = .banned)
    (noUnban : ∀ reason, .unban reason ∉ actions) : actions = [] := by
  cases actions with
  | nil => rfl
  | cons action rest =>
    rw [runAlone] at run
    split at run
    · rename_i admitted
      cases action with
      | unban reason => exact absurd mem_cons_self (noUnban reason)
      | ban | suspend | unsuspend | expire => simp [ModerationAction.admits, banned] at admitted
    · cases run

theorem runAlone_append {first rest : List ModerationAction}
    (run : runAlone target start (first ++ rest) = some reached) :
    ∃ mid, runAlone target start first = some mid ∧ runAlone target mid rest = some reached := by
  induction first generalizing start with
  | nil => exact ⟨start, rfl, run⟩
  | cons action first ih =>
    rw [cons_append, runAlone] at run
    split at run
    · rename_i admitted
      obtain ⟨mid, before, after⟩ := ih run
      exact ⟨mid, by rw [runAlone, if_pos admitted, before], after⟩
    · cases run

theorem runAlone_last (run : runAlone target start (actions ++ [action]) = some reached) :
    ∃ before, reached = action.write before := by
  obtain ⟨mid, -, last⟩ := runAlone_append run
  rw [runAlone] at last
  split at last
  · exact ⟨mid, (some.inj last).symm⟩
  · cases last

theorem ModerationAction.write_status {now : ModerationColumns} {status : UserStatusKind}
    {more : Option Nat × Option Text} (emits : action.emits = some (status, more)) : (action.write now).1 = status := by
  cases action <;> cases emits <;> rfl

/-- If every write finds what its read found and the objects are emitted in the order of the writes, the status of a user is
that of the actions done one after another, a ban stands until an unban, and once all objects are emitted the last one
carries the status, unless the last action was the expiry of a suspension. -/
theorem moderation_serialises {server : ModerationServer} {statuses : StatusDb} {events reached : List ModerationEvent}
    (serial : MeetAlong (ModerationState.apply server) (UndisturbedReads server) { statuses } events)
    (within : reached <+: events) :
    let start := statuses.userColumns server.target.subject
    let now := reached.foldl (ModerationState.apply server) { statuses }
    (runAlone server.target start (now.performed.map (·.2)) = some (now.columns server) ∧ (now.performed.map (·.1)).Nodup ∧
      ∀ task action, (task, action) ∈ now.performed ↔ (now.tasks task).performed? = some action) ∧
    (∀ before reason later, now.performed.map (·.2) = before ++ .ban reason :: later → (∀ lifted, .unban lifted ∉ later) →
      (now.columns server).1 = .banned) ∧
    ((∀ task action place, now.tasks task ≠ .written action place) →
      ∀ last ∈ now.performed.getLast?, last.2.emits.isSome = true →
        (userStatusClass.row now.statuses server.target.subject).map (·.status) = some (now.columns server).1) := by
  have initially : Serialised server (statuses.userColumns server.target.subject) { statuses } :=
    ⟨rfl, nodup_nil, by simp [ModerationTask.performed?], by simp, by simp, by simp, by simp⟩
  have now := (serial.of_shorter within).invariant (fun _ _ kept meets => Serialised.apply kept meets) initially
  refine ⟨⟨now.alone, now.once, now.performed⟩, ?_, ?_⟩
  · intro before reason later performed noUnban
    have run := now.alone
    rw [performed] at run
    obtain ⟨mid, -, run⟩ := runAlone_append run
    rw [runAlone] at run
    split at run
    · have none := runAlone_banned run rfl noUnban
      rw [none] at run
      rw [← some.inj run]
      rfl
    · cases run
  · intro emitted last isLast emits
    obtain ⟨front, split⟩ := getLast?_eq_some_iff.mp isLast
    have run := now.alone
    rw [split, map_append] at run
    obtain ⟨mid, reachedBy⟩ := runAlone_last run
    have place : (reached.foldl (ModerationState.apply server) { statuses }).performed[front.length]? = some last := by
      rw [split, getElem?_append_right (le_refl _)]
      simp
    -- the last write emitted its object, and no write came after it
    have counted : (reached.foldl (ModerationState.apply server) { statuses }).emitted = front.length + 1 := by
      have least := (now.due front.length last.1 last.2 place emits).resolve_right (emitted _ _ _)
      obtain ⟨more, isMore⟩ := Nat.exists_eq_add_of_lt least
      obtain ⟨_, _, _, _, atMore, -, -⟩ := now.carried (front.length + more) (by omega)
      have bound := (List.getElem?_eq_some_iff.mp atMore).1
      rw [split, length_append, length_singleton] at bound
      omega
    obtain ⟨task, action, status, more, atPlace, emitsIt, row⟩ := now.carried front.length counted
    cases place.symm.trans atPlace
    rw [row, reachedBy]
    exact congrArg some (ModerationAction.write_status emitsIt).symm

def wardServer : ModerationServer where
  host := { AppState.ofTable [] with instanceDomain := "here" }
  sign status := ⟨[(status.createdAt % 256).toUInt8], []⟩
  target := ⟨1, false, none⟩

def wardStatuses (columns : ModerationColumns) : StatusDb where
  db := {}
  userColumns _ := columns

def wardEvents : List ModerationEvent :=
  [.read 0 (.suspend "spam" 5000), .write 0, .emit 0 1, .read 1 .unsuspend, .write 1, .read 2 (.ban "spam"), .emit 1 2,
    .write 2, .emit 2 3]

theorem ward_serialises :
    let now := wardEvents.foldl (ModerationState.apply wardServer) { statuses := wardStatuses (.active, none) }
    now.columns wardServer = (.banned, none) ∧
    runAlone wardServer.target (.active, none) (now.performed.map (·.2)) = some (now.columns wardServer) ∧
    (userStatusClass.row now.statuses 1).map (·.status) = some .banned := by
  have serial : MeetAlong (ModerationState.apply wardServer) (UndisturbedReads wardServer) { statuses := wardStatuses (.active, none) }
      wardEvents := by decide +kernel
  obtain ⟨⟨alone, -, -⟩, -, carried⟩ := moderation_serialises serial (prefix_refl _)
  refine ⟨by decide +kernel, alone, ?_⟩
  refine (carried ?_ (2, .ban "spam") (by decide +kernel) rfl).trans (by decide +kernel)
  intro task action place isWritten
  match task with
  | 0 =>
    have answered : (wardEvents.foldl (ModerationState.apply wardServer) { statuses := wardStatuses (.active, none) }).tasks 0 =
      .answered (.suspend "spam" 5000) := by decide +kernel
    cases answered.symm.trans isWritten
  | 1 =>
    have answered : (wardEvents.foldl (ModerationState.apply wardServer) { statuses := wardStatuses (.active, none) }).tasks 1 =
      .answered .unsuspend := by decide +kernel
    cases answered.symm.trans isWritten
  | 2 =>
    have answered : (wardEvents.foldl (ModerationState.apply wardServer) { statuses := wardStatuses (.active, none) }).tasks 2 =
      .answered (.ban "spam") := by decide +kernel
    cases answered.symm.trans isWritten
  | _ + 3 => cases isWritten

/-- A ban between the read and the write of a suspension, or of an expiry, is lost; and of a ban and an unban whose objects
are emitted in the other order the last one is the ban. -/
theorem ward_races :
    let suspended := [ModerationEvent.read 0 (.suspend "spam" 5000), .read 1 (.ban "spam"), .write 1, .emit 1 1, .write 0,
      .emit 0 2].foldl (ModerationState.apply wardServer) { statuses := wardStatuses (.active, none) }
    let expired := [ModerationEvent.read 0 (.expire 9), .read 1 (.ban "spam"), .write 1, .emit 1 1, .write 0].foldl
      (ModerationState.apply wardServer) { statuses := wardStatuses (.suspended, some 5) }
    let crossed := [ModerationEvent.read 0 (.ban "spam"), .write 0, .read 1 (.unban "appeal"), .write 1, .emit 1 1,
      .emit 0 2].foldl (ModerationState.apply wardServer) { statuses := wardStatuses (.active, none) }
    (suspended.columns wardServer = (.suspended, some 5) ∧
      suspended.performed = [(1, .ban "spam"), (0, .suspend "spam" 5000)]) ∧
    (expired.columns wardServer = (.active, none) ∧ expired.performed = [(1, .ban "spam"), (0, .expire 9)]) ∧
    crossed.columns wardServer = (.active, none) ∧
    (userStatusClass.row crossed.statuses 1).map (·.status) = some .banned := by
  decide +kernel

end Prismoire
