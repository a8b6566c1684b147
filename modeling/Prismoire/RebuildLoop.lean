import Prismoire.Lib.Run

namespace Prismoire

open Lib

/-- `RebuildSchedule`, as the configuration admits it. -/
structure RebuildSchedule where
  debounce : Nat
  minInterval : Nat
  maxInterval : Nat
  debounce_le : debounce ≤ minInterval
  min_le_max : minInterval ≤ maxInterval

/-- The variables of a scheduling window, and when the notification that opened it was given. -/
structure Window where
  schedule : RebuildSchedule
  notified : Nat
  opened : Nat
  lastMutation : Nat

/-- Where `rebuild_loop` stands. -/
inductive LoopPhase where
  | idle
  | window (window : Window)
  /-- With the number of changes that each of the two queries has seen. -/
  | rebuilding (trustRead distrustRead : Option Nat)
  | closing

structure RebuildStart where
  window : Window
  lastRebuild : Nat
  start : Nat

/-- The handlers, the loop and the clock. The changes of the database are numbered as they are committed. -/
structure RebuildServer where
  now : Nat := 0
  committed : Nat := 0
  unnotified : List Nat := []
  permit : Option Nat := none
  schedule : RebuildSchedule
  phase : LoopPhase := .rebuilding none none
  lastRebuild : Nat := 0
  reflected : Nat := 0
  starts : List RebuildStart := []

/-- The next attempt: after the debounce and the minimal interval, and not after the deadline. -/
def Window.target (window : Window) (lastRebuild : Nat) : Nat :=
  let debounceAt := window.lastMutation + window.schedule.debounce
  let earliestRebuild := lastRebuild + window.schedule.minInterval
  let deadline := window.opened + window.schedule.maxInterval
  min (max debounceAt earliestRebuild) deadline

inductive LoopEvent where
  /-- The clock advances, unless the loop is due. -/
  | tick
  | commit
  | notify (change : Nat)
  | configure (schedule : RebuildSchedule)
  /-- The loop takes a permit and opens a window. -/
  | open
  /-- The loop takes a permit in its window. -/
  | bump
  | fire
  | readTrust
  | readDistrust
  | swap
  | fail
  | finish

namespace RebuildServer

section

variable (server : RebuildServer)

/-- The loop has something to do at this instant. -/
def due : Bool :=
  match server.phase with
  | .idle => server.permit.isSome
  | .window window => window.target server.lastRebuild ≤ server.now
  | _ => false

def step : LoopEvent → RebuildServer
  | .tick => if server.due then server else { server with now := server.now + 1 }
  | .commit => { server with
      committed := server.committed + 1
      unnotified := server.unnotified ++ [server.committed] }
  | .notify change =>
    if change ∈ server.unnotified then { server with
      unnotified := server.unnotified.erase change
      permit := some (server.permit.getD server.now) }
    else server
  | .configure schedule => { server with schedule }
  | .open =>
    match server.phase, server.permit with
    | .idle, some notified => { server with
        permit := none
        phase := .window ⟨server.schedule, notified, server.now, server.now⟩ }
    | _, _ => server
  | .bump =>
    match server.phase, server.permit with
    | .window window, some _ => { server with
        permit := none
        phase := .window { window with lastMutation := server.now } }
    | _, _ => server
  | .fire =>
    match server.phase with
    | .window window =>
      if window.target server.lastRebuild ≤ server.now then { server with
        phase := .rebuilding none none
        starts := server.starts ++ [⟨window, server.lastRebuild, server.now⟩] }
      else server
    | _ => server
  | .readTrust =>
    match server.phase with
    | .rebuilding none none => { server with phase := .rebuilding (some server.committed) none }
    | _ => server
  | .readDistrust =>
    match server.phase with
    | .rebuilding (some trustRead) none => { server with phase := .rebuilding (some trustRead) (some server.committed) }
    | _ => server
  | .swap =>
    match server.phase with
    | .rebuilding (some trustRead) (some distrustRead) => { server with
        reflected := min trustRead distrustRead
        phase := .closing }
    | _ => server
  | .fail =>
    match server.phase with
    | .rebuilding _ _ => { server with phase := .closing }
    | _ => server
  | .finish =>
    match server.phase with
    | .closing => { server with phase := .idle, lastRebuild := server.now }
    | _ => server

/-- The loop will still read a change, or has read it for the graph that it is about to swap in. -/
def Coming (change : Nat) : Prop :=
  match server.phase with
  | .window _ => True
  | .rebuilding none _ => True
  | .rebuilding (some trustRead) _ => change < trustRead
  | _ => False

/-- A committed change that the graph lacks is still to be notified, or the loop still has to come to it. -/
def Remembered : Prop :=
  ∀ change < server.committed, server.reflected ≤ change →
    change ∈ server.unnotified ∨ server.permit.isSome ∨ server.Coming change

def isRebuilding : Bool :=
  match server.phase with
  | .rebuilding _ _ => true
  | _ => false

/-- A rebuild fails only when another one is sure to follow, or when it had nothing to add. -/
def FailsSafely : LoopEvent → Prop
  | .fail => server.isRebuilding = true → server.permit.isSome = true ∨
      ∀ change < server.committed, server.reflected ≤ change → change ∈ server.unnotified
  | _ => True

end

instance (server : RebuildServer) (event : LoopEvent) : Decidable (server.FailsSafely event) :=
  match event with
  | .fail => inferInstanceAs (Decidable (server.isRebuilding = true → server.permit.isSome = true ∨
      ∀ change < server.committed, server.reflected ≤ change → change ∈ server.unnotified))
  | .tick | .commit | .notify _ | .configure _ | .open | .bump | .fire | .readTrust | .readDistrust | .swap | .finish =>
    isTrue trivial

/-- A rebuild starts no earlier and no later than its window allows. -/
structure OnTime (start : RebuildStart) : Prop where
  afterPrevious : start.lastRebuild + start.window.schedule.minInterval ≤ start.start
  beforeDeadline : start.start ≤ start.window.opened + start.window.schedule.maxInterval
  opened : start.window.opened = max start.window.notified start.lastRebuild

/-- The clock of the loop. -/
structure Timed (server : RebuildServer) : Prop where
  rebuilt : server.lastRebuild ≤ server.now
  notified : ∀ time, server.permit = some time → time ≤ server.now
  taken : server.phase = .idle → ∀ time, server.permit = some time → server.now = max time server.lastRebuild
  opened : ∀ window, server.phase = .window window →
    window.opened = max window.notified server.lastRebuild ∧ window.opened ≤ server.now ∧
    server.now ≤ window.target server.lastRebuild
  starts : ∀ start ∈ server.starts, OnTime start

/-- The reads of a rebuild are later than those of the graph that it replaces. -/
structure Reading (server : RebuildServer) : Prop where
  reflected : server.reflected ≤ server.committed
  trustRead : ∀ first second, server.phase = .rebuilding (some first) second →
    server.reflected ≤ first ∧ first ≤ server.committed
  distrustRead : ∀ first second, server.phase = .rebuilding (some first) (some second) → first ≤ second

variable {server : RebuildServer} {event : LoopEvent}

theorem Reading.step (reading : server.Reading) : (server.step event).Reading := by
  have kept : ∀ {after : RebuildServer}, after.reflected = server.reflected → after.committed = server.committed →
      (∀ first second, after.phase ≠ .rebuilding (some first) second) → after.Reading := by
    intro after sameGraph sameDb other
    refine ⟨by rw [sameGraph, sameDb]; exact reading.reflected, fun _ _ inside => absurd inside (other _ _),
      fun _ _ inside => absurd inside (other _ _)⟩
  cases event with
  | tick =>
    dsimp only [RebuildServer.step]
    split
    · exact reading
    · exact ⟨reading.reflected, reading.trustRead, reading.distrustRead⟩
  | commit =>
    refine ⟨Nat.le_succ_of_le reading.reflected, fun first second inside => ?_, reading.distrustRead⟩
    obtain ⟨lower, upper⟩ := reading.trustRead first second inside
    exact ⟨lower, Nat.le_succ_of_le upper⟩
  | notify change =>
    dsimp only [RebuildServer.step]
    split
    · exact ⟨reading.reflected, reading.trustRead, reading.distrustRead⟩
    · exact reading
  | configure schedule => exact ⟨reading.reflected, reading.trustRead, reading.distrustRead⟩
  | readTrust =>
    dsimp only [RebuildServer.step]
    split
    · refine ⟨reading.reflected, fun first second inside => ?_, nofun⟩
      cases inside
      exact ⟨reading.reflected, le_rfl⟩
    · exact reading
  | readDistrust =>
    dsimp only [RebuildServer.step]
    split
    · rename_i trustRead inside
      have bounds := reading.trustRead trustRead none inside
      refine ⟨reading.reflected, fun first second again => ?_, fun first second again => ?_⟩
      · cases again
        exact bounds
      · cases again
        exact bounds.2
    · exact reading
  | swap =>
    dsimp only [RebuildServer.step]
    split
    · rename_i trustRead distrustRead inside
      exact ⟨(min_le_left _ _).trans (reading.trustRead _ _ inside).2, nofun, nofun⟩
    · exact reading
  | «open» | bump | fail | finish =>
    dsimp only [RebuildServer.step]
    split
    · exact kept rfl rfl nofun
    · exact reading
  | fire =>
    dsimp only [RebuildServer.step]
    split
    · split
      · exact kept rfl rfl nofun
      · exact reading
    · exact reading

theorem Remembered.step (remembered : server.Remembered) (reading : server.Reading)
    (safely : server.FailsSafely event) : (server.step event).Remembered := by
  cases event with
  | tick =>
    dsimp only [RebuildServer.step]
    split
    · exact remembered
    · exact remembered
  | commit =>
    intro change less missing
    rcases Nat.lt_succ_iff_lt_or_eq.mp less with old | rfl
    · rcases remembered change old missing with waiting | rest
      · exact .inl (List.mem_append_left _ waiting)
      · exact .inr rest
    · exact .inl (by simp [RebuildServer.step])
  | notify change =>
    dsimp only [RebuildServer.step]
    split
    · intro other _ _
      exact .inr (.inl rfl)
    · exact remembered
  | configure schedule => exact remembered
  | «open» =>
    dsimp only [RebuildServer.step]
    split
    · intro change _ _
      exact .inr (.inr trivial)
    · exact remembered
  | bump =>
    dsimp only [RebuildServer.step]
    split
    · intro change _ _
      exact .inr (.inr trivial)
    · exact remembered
  | fire =>
    dsimp only [RebuildServer.step]
    split
    · split
      · intro change _ _
        exact .inr (.inr trivial)
      · exact remembered
    · exact remembered
  | readTrust =>
    dsimp only [RebuildServer.step]
    split
    · intro change less _
      exact .inr (.inr less)
    · exact remembered
  | readDistrust =>
    dsimp only [RebuildServer.step]
    split
    · rename_i inside
      intro change less missing
      rcases remembered change less missing with waiting | permit | coming
      · exact .inl waiting
      · exact .inr (.inl permit)
      · rw [Coming, inside] at coming
        exact .inr (.inr coming)
    · exact remembered
  | swap =>
    dsimp only [RebuildServer.step]
    split
    · rename_i trustRead distrustRead inside
      intro change less missing
      have first : trustRead ≤ change := by
        rwa [min_eq_left (reading.distrustRead _ _ inside)] at missing
      rcases remembered change less ((reading.trustRead _ _ inside).1.trans first) with waiting | permit | coming
      · exact .inl waiting
      · exact .inr (.inl permit)
      · rw [Coming, inside] at coming
        exact absurd coming (Nat.not_lt.mpr first)
    · exact remembered
  | fail =>
    dsimp only [RebuildServer.step]
    split
    · rename_i reads more inside
      intro change less missing
      rcases safely (by rw [isRebuilding, inside]) with permit | known
      · exact .inr (.inl permit)
      · exact .inl (known change less missing)
    · exact remembered
  | finish =>
    dsimp only [RebuildServer.step]
    split
    · rename_i closing
      intro change less missing
      rcases remembered change less missing with waiting | permit | coming
      · exact .inl waiting
      · exact .inr (.inl permit)
      · rw [Coming, closing] at coming
        cases coming
    · exact remembered

variable {window : Window} {lastRebuild : Nat}

theorem Window.target_le : window.target lastRebuild ≤ window.opened + window.schedule.maxInterval :=
  min_le_right _ _

theorem Window.le_target (after : lastRebuild ≤ window.opened) :
    lastRebuild + window.schedule.minInterval ≤ window.target lastRebuild := by
  refine le_min (le_max_right _ _) ?_
  have := window.schedule.min_le_max
  omega

theorem Timed.step (timed : server.Timed) : (server.step event).Timed := by
  cases event with
  | tick =>
    dsimp only [RebuildServer.step]
    split
    · exact timed
    · rename_i notDue
      refine ⟨Nat.le_succ_of_le timed.rebuilt, fun time given => Nat.le_succ_of_le (timed.notified time given),
        fun idle time given => ?_, fun window inside => ?_, timed.starts⟩
      · have given : server.permit = some time := given
        have idle : server.phase = .idle := idle
        simp [due, idle, given] at notDue
      · have inside : server.phase = .window window := inside
        obtain ⟨opened, before, -⟩ := timed.opened window inside
        have early : ¬ window.target server.lastRebuild ≤ server.now := by simpa [due, inside] using notDue
        exact ⟨opened, Nat.le_succ_of_le before, Nat.lt_of_not_le early⟩
  | commit => exact ⟨timed.rebuilt, timed.notified, timed.taken, timed.opened, timed.starts⟩
  | configure schedule => exact ⟨timed.rebuilt, timed.notified, timed.taken, timed.opened, timed.starts⟩
  | notify change =>
    dsimp only [RebuildServer.step]
    split
    · refine ⟨timed.rebuilt, fun time given => ?_, fun idle time given => ?_, timed.opened, timed.starts⟩
      · cases held : server.permit with
        | none =>
          rw [held] at given
          cases given
          exact le_rfl
        | some earlier =>
          rw [held] at given
          cases given
          exact timed.notified _ held
      · cases held : server.permit with
        | none =>
          rw [held] at given
          cases given
          exact (max_eq_left timed.rebuilt).symm
        | some earlier =>
          rw [held] at given
          cases given
          exact timed.taken idle _ held
    · exact timed
  | «open» =>
    dsimp only [RebuildServer.step]
    split
    · rename_i notified idle held
      refine ⟨timed.rebuilt, nofun, nofun, fun window inside => ?_, timed.starts⟩
      cases inside
      refine ⟨timed.taken idle notified held, le_rfl, ?_⟩
      exact le_min ((Nat.le_add_right _ _).trans (le_max_left _ _)) (Nat.le_add_right _ _)
    · exact timed
  | bump =>
    dsimp only [RebuildServer.step]
    split
    · rename_i window _ inside held
      obtain ⟨opened, before, early⟩ := timed.opened window inside
      refine ⟨timed.rebuilt, nofun, nofun, fun window again => ?_, timed.starts⟩
      cases again
      exact ⟨opened, before, le_min ((Nat.le_add_right _ _).trans (le_max_left _ _)) (early.trans Window.target_le)⟩
    · exact timed
  | fire =>
    dsimp only [RebuildServer.step]
    split
    · rename_i window inside
      split
      · rename_i reached
        obtain ⟨opened, before, early⟩ := timed.opened window inside
        have after : server.lastRebuild ≤ window.opened := opened ▸ le_max_right _ _
        refine ⟨timed.rebuilt, timed.notified, nofun, nofun, fun start mem => ?_⟩
        rcases List.mem_append.mp mem with old | isNew
        · exact timed.starts start old
        · rw [List.mem_singleton.mp isNew]
          exact ⟨(Window.le_target after).trans reached, early.trans Window.target_le, opened⟩
      · exact timed
    · exact timed
  | readTrust | readDistrust | swap | fail =>
    dsimp only [RebuildServer.step]
    split
    · exact ⟨timed.rebuilt, timed.notified, nofun, nofun, timed.starts⟩
    · exact timed
  | finish =>
    dsimp only [RebuildServer.step]
    split
    · refine ⟨le_rfl, timed.notified, fun _ time given => ?_, nofun, timed.starts⟩
      exact (max_eq_right (timed.notified time given)).symm
    · exact timed

/-- The first build, a change, and the rebuild that it leads to. -/
def upToRebuild : List LoopEvent :=
  [.readTrust, .readDistrust, .swap, .finish, .commit, .notify 0, .open, .tick, .tick, .fire]

def followed : List LoopEvent :=
  upToRebuild ++ [.commit, .notify 1, .fail, .finish]

end RebuildServer

end Prismoire
