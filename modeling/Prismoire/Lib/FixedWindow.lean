import Mathlib.Algebra.GroupWithZero.Nat
import Mathlib.Data.List.Pairwise
import Mathlib.Algebra.BigOperators.Group.List.Basic

namespace Prismoire.Lib

open List Option Function

/-- What a peer has used since its window opened. -/
structure TallyWindow (Tally : Type) where
  start : Nat
  tally : Tally

/-- How a call is weighed against the tally of its peer's window. A free call is let through unseen,
and a call that asks for nothing is not answered. -/
structure Meter (Peer Call Tally : Type) where
  empty : Tally
  free : Call → Bool
  weigh : Peer → Call → Tally → Option Bool × Tally

inductive LimiterEvent (Peer Call : Type) where
  | call (peer : Peer) (call : Call)
  | cleanup

/-- One call of a run, how it was answered, and the start of its peer's window afterwards. -/
structure Verdict (Peer Call : Type) where
  time : Nat
  peer : Peer
  call : Call
  answer : Option Bool
  window : Option Nat

structure Limiter (σ Peer Call : Type) where
  serve : σ → Nat → Peer → Call → Option Bool × σ
  cleanup : σ → Nat → σ
  windowStart : σ → Peer → Option Nat

section Runs

variable {σ Peer Call : Type}

variable (limiter : Limiter σ Peer Call)

def Limiter.apply (state : σ) : Nat × LimiterEvent Peer Call → σ
  | (now, .call peer call) => (limiter.serve state now peer call).2
  | (now, .cleanup) => limiter.cleanup state now

def Limiter.run : σ → List (Nat × LimiterEvent Peer Call) → σ :=
  List.foldl limiter.apply

def Limiter.verdicts (limiter : Limiter σ Peer Call) :
    σ → List (Nat × LimiterEvent Peer Call) → List (Verdict Peer Call)
  | _, [] => []
  | state, (now, .call peer call) :: later =>
    let served := limiter.serve state now peer call
    ⟨now, peer, call, served.1, limiter.windowStart served.2 peer⟩ :: limiter.verdicts served.2 later
  | state, (now, .cleanup) :: later => limiter.verdicts (limiter.cleanup state now) later

def Limiter.answers (state : σ) (events : List (Nat × LimiterEvent Peer Call)) : List (Option Bool) :=
  (limiter.verdicts state events).map (·.answer)

/-- The clock of a run never goes back. -/
def InTime (events : List (Nat × LimiterEvent Peer Call)) : Prop :=
  events.Pairwise fun earlier later => earlier.1 ≤ later.1

instance (events : List (Nat × LimiterEvent Peer Call)) : Decidable (InTime events) :=
  inferInstanceAs (Decidable (List.Pairwise _ _))

/-- The units that a peer's admitted calls add up to, of those that meet a condition. -/
def admitted [DecidableEq Peer] (units : Call → Nat) (peer : Peer) (counted : Verdict Peer Call → Bool)
    (verdicts : List (Verdict Peer Call)) : Nat :=
  ((verdicts.filter fun verdict => verdict.peer = peer ∧ verdict.answer = some true ∧ counted verdict).map
    fun verdict => units verdict.call).sum

theorem admitted_cons [DecidableEq Peer] (units : Call → Nat) (peer : Peer) (counted : Verdict Peer Call → Bool)
    (verdict : Verdict Peer Call) (verdicts : List (Verdict Peer Call)) :
    admitted units peer counted (verdict :: verdicts) =
      (if verdict.peer = peer ∧ verdict.answer = some true ∧ counted verdict = true then units verdict.call else 0) +
        admitted units peer counted verdicts := by
  by_cases counts : verdict.peer = peer ∧ verdict.answer = some true ∧ counted verdict = true
  · simp [admitted, counts]
  · rw [if_neg counts, Nat.zero_add, admitted, filter_cons_of_neg (by simpa using counts)]
    rfl

def Verdict.inWindow (length begun : Nat) (verdict : Verdict Peer Call) : Bool :=
  verdict.window = some begun ∧ verdict.time < begun + length

def Verdict.inInterval (length since : Nat) (verdict : Verdict Peer Call) : Bool :=
  since ≤ verdict.time ∧ verdict.time < since + length

def LimiterEvent.isCall : LimiterEvent Peer Call → Bool
  | .call _ _ => true
  | .cleanup => false

def LimiterEvent.concerns [DecidableEq Peer] (peer : Peer) : LimiterEvent Peer Call → Bool
  | .call caller _ => caller = peer
  | .cleanup => true

/-- No window lets its peer have more than the cap, no interval as long as a window more than twice
that, and every call that costs something falls in its window. -/
structure Limiter.Bounds [DecidableEq Peer] (limiter : Limiter σ Peer Call) (start : σ) (length : Nat)
    (units : Call → Nat) (cap : Peer → Nat) : Prop where
  window : ∀ events, InTime events → ∀ peer begun,
    admitted units peer (Verdict.inWindow length begun) (limiter.verdicts start events) ≤ cap peer
  interval : ∀ events, InTime events → ∀ peer since,
    admitted units peer (Verdict.inInterval length since) (limiter.verdicts start events) ≤ 2 * cap peer
  placed : 0 < length → ∀ events, InTime events → ∀ verdict ∈ limiter.verdicts start events,
    units verdict.call ≠ 0 → ∃ begun, begun ≤ verdict.time ∧ verdict.inWindow length begun = true

/-- A call that is turned away, of the kind given, changes no later answer. -/
def Limiter.RejectionNeutral (start : σ) (kind : Peer → Call → Prop) : Prop :=
  ∀ before now peer call after, InTime (before ++ (now, .call peer call) :: after) →
    (limiter.serve (limiter.run start before) now peer call).1 = some false → kind peer call →
      limiter.answers (limiter.run start (before ++ [(now, .call peer call)])) after =
        limiter.answers (limiter.run start before) after

def Limiter.PeersApart [DecidableEq Peer] (start : σ) : Prop :=
  ∀ events peer, ((limiter.verdicts start events).filter fun verdict => verdict.peer = peer) =
    limiter.verdicts start (events.filter fun event => event.2.concerns peer)

/-- Two runs with the same calls give the same answers, wherever their cleanups are. -/
def Limiter.CleanupNeutral (start : σ) : Prop :=
  ∀ events other, InTime events → InTime other →
    (events.filter fun event => event.2.isCall) = (other.filter fun event => event.2.isCall) →
      limiter.answers start events = limiter.answers start other

end Runs

section Simulation

variable {σ τ Peer Call : Type}

/-- Two limiters that take the same steps, one state being seen as the other. -/
structure Limiter.Simulates (limiter : Limiter σ Peer Call) (other : Limiter τ Peer Call) (abs : σ → τ) : Prop where
  serve : ∀ state now peer call, other.serve (abs state) now peer call =
    ((limiter.serve state now peer call).1, abs (limiter.serve state now peer call).2)
  cleanup : ∀ state now, other.cleanup (abs state) now = abs (limiter.cleanup state now)
  windowStart : ∀ state peer, other.windowStart (abs state) peer = limiter.windowStart state peer

variable {limiter : Limiter σ Peer Call} {other : Limiter τ Peer Call} {abs : σ → τ}

section

variable (simulates : limiter.Simulates other abs) (state : σ)
include simulates state

theorem Limiter.Simulates.verdicts (events : List (Nat × LimiterEvent Peer Call)) :
    limiter.verdicts state events = other.verdicts (abs state) events := by
  induction events generalizing state with
  | nil => rfl
  | cons event later ih =>
    obtain ⟨now, ⟨peer, call⟩ | _⟩ := event
    · simp only [Limiter.verdicts, simulates.serve, simulates.windowStart, ih]
    · simp only [Limiter.verdicts, simulates.cleanup, ih]

theorem Limiter.Simulates.apply
    (event : Nat × LimiterEvent Peer Call) : abs (limiter.apply state event) = other.apply (abs state) event := by
  obtain ⟨now, ⟨peer, call⟩ | _⟩ := event
  · simp only [Limiter.apply, simulates.serve]
  · simp only [Limiter.apply, simulates.cleanup]

theorem Limiter.Simulates.run
    (events : List (Nat × LimiterEvent Peer Call)) : abs (limiter.run state events) = other.run (abs state) events := by
  induction events generalizing state with
  | nil => rfl
  | cons event later ih =>
    simp only [Limiter.run, foldl_cons] at ih ⊢
    rw [ih, simulates.apply]

theorem Limiter.Simulates.answers (events : List (Nat × LimiterEvent Peer Call)) :
    limiter.answers state events = other.answers (abs state) events := by
  simp only [Limiter.answers, simulates.verdicts]

end

variable {start : σ}

variable (simulates : limiter.Simulates other abs)
include simulates

theorem Limiter.Simulates.bounds [DecidableEq Peer] {length : Nat} {units : Call → Nat} {cap : Peer → Nat}
    (bounds : other.Bounds (abs start) length units cap) :
    limiter.Bounds start length units cap where
  window := by
    simp only [simulates.verdicts]
    exact bounds.window
  interval := by
    simp only [simulates.verdicts]
    exact bounds.interval
  placed := by
    simp only [simulates.verdicts]
    exact bounds.placed

theorem Limiter.Simulates.rejectionNeutral {kind : Peer → Call → Prop}
    (neutral : other.RejectionNeutral (abs start) kind) : limiter.RejectionNeutral start kind := by
  intro before now peer call after inTime rejected ofKind
  rw [simulates.answers, simulates.answers, simulates.run, simulates.run]
  apply neutral before now peer call after inTime _ ofKind
  rw [← simulates.run, simulates.serve]
  exact rejected

theorem Limiter.Simulates.peersApart [DecidableEq Peer]
    (apart : other.PeersApart (abs start)) : limiter.PeersApart start := by
  intro events peer
  rw [simulates.verdicts, simulates.verdicts]
  exact apart events peer

theorem Limiter.Simulates.cleanupNeutral
    (neutral : other.CleanupNeutral (abs start)) : limiter.CleanupNeutral start := by
  intro events more inTime inTimeToo same
  rw [simulates.answers, simulates.answers]
  exact neutral events more inTime inTimeToo same

end Simulation

variable {Peer Call Tally : Type}

def Meter.current (meter : Meter Peer Call Tally) (length now : Nat) : Option (TallyWindow Tally) → TallyWindow Tally
  | none => ⟨now, meter.empty⟩
  | some window => if length ≤ now - window.start then ⟨now, meter.empty⟩ else window

def Meter.weighIn (meter : Meter Peer Call Tally) (length now : Nat) (peer : Peer) (call : Call)
    (entry : Option (TallyWindow Tally)) : Option Bool × TallyWindow Tally :=
  let window := meter.current length now entry
  let weighed := meter.weigh peer call window.tally
  (weighed.1, ⟨window.start, weighed.2⟩)

def Meter.limiter [DecidableEq Peer] (meter : Meter Peer Call Tally) (length : Nat) :
    Limiter (Peer → Option (TallyWindow Tally)) Peer Call where
  serve windows now peer call :=
    if meter.free call then (some true, windows)
    else
      let (answer, window) := meter.weighIn length now peer call (windows peer)
      (answer, update windows peer (some window))
  cleanup windows now := fun peer => (windows peer).filter fun window => now - window.start < length
  windowStart windows peer := (windows peer).map (·.start)

/-- The tally keeps the units of the calls admitted, and none is admitted past the cap. -/
structure Meter.Counts (meter : Meter Peer Call Tally) (units : Call → Nat) (cap : Peer → Nat) (spent : Tally → Nat) :
    Prop where
  empty : spent meter.empty = 0
  free : ∀ call, meter.free call = true → units call = 0
  admits : ∀ peer call tally, spent tally ≤ cap peer → (meter.weigh peer call tally).1 = some true →
    spent (meter.weigh peer call tally).2 = spent tally + units call ∧
      spent (meter.weigh peer call tally).2 ≤ cap peer
  keeps : ∀ peer call tally, (meter.weigh peer call tally).1 ≠ some true →
    spent (meter.weigh peer call tally).2 = spent tally

variable {meter : Meter Peer Call Tally} {units : Call → Nat} {cap : Peer → Nat} {spent : Tally → Nat}
  {length now : Nat} {peer : Peer}

theorem Meter.current_cases (meter : Meter Peer Call Tally) (length now : Nat) (entry : Option (TallyWindow Tally)) :
    (meter.current length now entry = ⟨now, meter.empty⟩ ∧ entry = none) ∨
      (∃ window, entry = some window ∧ length ≤ now - window.start ∧
        meter.current length now entry = ⟨now, meter.empty⟩) ∨
      ∃ window, entry = some window ∧ now - window.start < length ∧ meter.current length now entry = window := by
  cases entry with
  | none => exact .inl ⟨rfl, rfl⟩
  | some window =>
    by_cases expired : length ≤ now - window.start
    · exact .inr (.inl ⟨window, rfl, expired, if_pos expired⟩)
    · exact .inr (.inr ⟨window, rfl, Nat.lt_of_not_le expired, if_neg expired⟩)

/-- A window has begun, and its peer has not used more than the cap in it. -/
def Sound (spent : Tally → Nat) (limit now : Nat) (entry : Option (TallyWindow Tally)) : Prop :=
  ∀ window ∈ entry, window.start ≤ now ∧ spent window.tally ≤ limit

theorem Meter.Counts.current (counts : meter.Counts units cap spent) (length : Nat) {entry : Option (TallyWindow Tally)}
    (sound : Sound spent (cap peer) now entry) :
    (meter.current length now entry).start ≤ now ∧ spent (meter.current length now entry).tally ≤ cap peer := by
  have fresh : now ≤ now ∧ spent meter.empty ≤ cap peer := ⟨Nat.le_refl now, by simp [counts.empty]⟩
  cases entry with
  | none => exact fresh
  | some window =>
    simp only [Meter.current]
    split
    · exact fresh
    · exact sound window rfl

theorem Meter.Counts.weigh (counts : meter.Counts units cap spent) (peer : Peer) (call : Call) {tally : Tally}
    (within : spent tally ≤ cap peer) :
    spent (meter.weigh peer call tally).2 =
        spent tally + (if (meter.weigh peer call tally).1 = some true then units call else 0) ∧
      spent (meter.weigh peer call tally).2 ≤ cap peer := by
  by_cases answered : (meter.weigh peer call tally).1 = some true
  · simp only [answered, if_true]
    exact counts.admits peer call tally within answered
  · have kept := counts.keeps peer call tally answered
    rw [if_neg answered, kept]
    exact ⟨rfl, within⟩

theorem Meter.Counts.weighIn (counts : meter.Counts units cap spent) (length : Nat) (call : Call)
    {entry : Option (TallyWindow Tally)} (sound : Sound spent (cap peer) now entry) :
    Sound spent (cap peer) now (some (meter.weighIn length now peer call entry).2) := by
  intro window held
  obtain rfl := some.inj held
  have current := counts.current length sound
  exact ⟨current.1, (counts.weigh peer call current.2).2⟩

theorem Sound.later {limit later : Nat} {entry : Option (TallyWindow Tally)} (sound : Sound spent limit now entry)
    (passed : now ≤ later) : Sound spent limit later entry :=
  fun window held => ⟨Nat.le_trans (sound window held).1 passed, (sound window held).2⟩

variable [DecidableEq Peer]

section Served

variable {windows : Peer → Option (TallyWindow Tally)} {call : Call}

theorem serve_free (free : meter.free call = true) :
    (meter.limiter length).serve windows now peer call = (some true, windows) := by
  simp [Meter.limiter, free]

theorem serve_weighed (weighed : ¬meter.free call = true) : (meter.limiter length).serve windows now peer call =
      ((meter.weighIn length now peer call (windows peer)).1,
        update windows peer (some (meter.weighIn length now peer call (windows peer)).2)) := by
  simp [Meter.limiter, weighed]

variable {later : List (Nat × LimiterEvent Peer Call)}

theorem verdicts_free (free : meter.free call = true) :
    (meter.limiter length).verdicts windows ((now, .call peer call) :: later) =
      ⟨now, peer, call, some true, (windows peer).map (·.start)⟩ :: (meter.limiter length).verdicts windows later := by
  simp only [Limiter.verdicts, serve_free free]
  rfl

theorem verdicts_weighed (weighed : ¬meter.free call = true) :
    (meter.limiter length).verdicts windows ((now, .call peer call) :: later) =
      ⟨now, peer, call, (meter.weighIn length now peer call (windows peer)).1,
          some (meter.weighIn length now peer call (windows peer)).2.start⟩ ::
        (meter.limiter length).verdicts
          (update windows peer (some (meter.weighIn length now peer call (windows peer)).2)) later := by
  simp only [Limiter.verdicts, serve_weighed weighed]
  simp only [Meter.limiter, update_self, map_some]

theorem verdicts_cleanup : (meter.limiter length).verdicts windows ((now, .cleanup) :: later) =
      (meter.limiter length).verdicts (fun peer => (windows peer).filter fun window => now - window.start < length)
        later := rfl

end Served

/-- What a peer may still be granted, of the calls that `counted` picks: it never grows, and every
call granted comes out of it. -/
structure Meter.Allowance (meter : Meter Peer Call Tally) (units : Call → Nat) (spent : Tally → Nat) (limit length : Nat)
    (peer : Peer) (counted : Verdict Peer Call → Bool) (allowance : Nat → Option (TallyWindow Tally) → Nat) : Prop where
  wait : ∀ now later entry, Sound spent limit now entry → now ≤ later → allowance later entry ≤ allowance now entry
  clean : ∀ now entry, Sound spent limit now entry →
    allowance now (entry.filter fun window => now - window.start < length) ≤ allowance now entry
  grant : ∀ now entry call, Sound spent limit now entry →
    let (answer, window) := meter.weighIn length now peer call entry
    (if answer = some true ∧ counted ⟨now, peer, call, answer, some window.start⟩ = true then units call else 0) +
      allowance now (some window) ≤ allowance now entry

variable {windows : Peer → Option (TallyWindow Tally)} {events : List (Nat × LimiterEvent Peer Call)}

/-- What a run grants is within the allowance it started with. -/
theorem Meter.Allowance.admitted_le {counted : Verdict Peer Call → Bool}
    {allowance : Nat → Option (TallyWindow Tally) → Nat} (counts : meter.Counts units cap spent)
    (allows : meter.Allowance units spent (cap peer) length peer counted allowance)
    (inTime : InTime events) (ahead : ∀ event ∈ events, now ≤ event.1)
    (sound : Sound spent (cap peer) now (windows peer)) :
    admitted units peer counted ((meter.limiter length).verdicts windows events) ≤ allowance now (windows peer) := by
  induction events generalizing now windows with
  | nil => simp [Limiter.verdicts, admitted]
  | cons event later ih =>
    obtain ⟨inOrder, inTimeLater⟩ := pairwise_cons.mp inTime
    have arrives := ahead event mem_cons_self
    have waited := allows.wait now event.1 (windows peer) sound arrives
    have soundThen := sound.later arrives
    refine Nat.le_trans ?_ waited
    obtain ⟨time, ⟨caller, call⟩ | _⟩ := event
    · by_cases free : meter.free call = true
      · -- a free call costs nothing and leaves the windows alone
        rw [verdicts_free free, admitted_cons, counts.free call free, ite_self, Nat.zero_add]
        exact ih inTimeLater inOrder soundThen
      · rw [verdicts_weighed free, admitted_cons]
        by_cases same : caller = peer
        · subst same
          have granted := allows.grant time (windows caller) call soundThen
          have rest := @ih time (update windows caller (some (meter.weighIn length time caller call (windows caller)).2))
            inTimeLater inOrder
            (by rw [update_self]; exact counts.weighIn length call soundThen)
          simp only [update_self, true_and] at rest granted ⊢
          omega
        · have untouched : ∀ entry, update windows caller entry peer = windows peer :=
            fun entry => update_of_ne (Ne.symm same) entry windows
          have rest := @ih time (update windows caller (some (meter.weighIn length time caller call (windows caller)).2))
            inTimeLater inOrder
            (by rw [untouched]; exact soundThen)
          simp only [untouched, same, false_and, if_false, Nat.zero_add] at rest ⊢
          exact rest
    · rw [verdicts_cleanup]
      refine Nat.le_trans ?_ (allows.clean time (windows peer) soundThen)
      exact ih inTimeLater inOrder fun window held => soundThen window (mem_filter_iff.mp held).1

/-- What is left of the window that begins at `begun`. -/
def windowAllowance (spent : Tally → Nat) (limit length begun now : Nat) (entry : Option (TallyWindow Tally)) : Nat :=
  if begun + length ≤ now then 0
  else
    match entry with
    | none => limit
    | some window =>
      if window.start = begun then limit - spent window.tally else if begun < window.start then 0 else limit

/-- What is left of an interval: the windows that reach into it are at most the one that was open
when it began and the next one. -/
def intervalAllowance (spent : Tally → Nat) (limit length since now : Nat) (entry : Option (TallyWindow Tally)) : Nat :=
  if since + length ≤ now then 0
  else
    match entry with
    | none => if since ≤ now then limit else 2 * limit
    | some window =>
      if since ≤ window.start then limit - spent window.tally
      else if since ≤ now then 2 * limit - spent window.tally
      else 2 * limit

omit [DecidableEq Peer] in
theorem Meter.Counts.windowAllowance (counts : meter.Counts units cap spent) (peer : Peer) (begun : Nat) :
    meter.Allowance units spent (cap peer) length peer (Verdict.inWindow length begun)
      (windowAllowance spent (cap peer) length begun) where
  wait := by
    intro now later entry sound passed
    cases entry <;> grind [Lib.windowAllowance]
  clean := by
    intro now entry sound
    cases entry with
    | none => exact Nat.le_refl _
    | some window =>
      have begunBefore := (sound window rfl).1
      simp only [filter_some]
      split <;> grind [Lib.windowAllowance]
  grant := by
    intro now entry call sound
    have weighed := counts.weigh peer call (counts.current length sound).2
    have nothing := counts.empty
    simp only [Meter.weighIn, Verdict.inWindow, some.injEq]
    obtain ⟨opened, rfl⟩ | ⟨window, rfl, expired, opened⟩ | ⟨window, rfl, live, opened⟩ :=
      meter.current_cases length now entry
    · simp only [opened] at weighed ⊢
      grind [Lib.windowAllowance]
    · have sound := sound window rfl
      simp only [opened] at weighed ⊢
      grind [Lib.windowAllowance]
    · have sound := sound window rfl
      simp only [opened] at weighed ⊢
      grind [Lib.windowAllowance]

omit [DecidableEq Peer] in
theorem Meter.Counts.intervalAllowance (counts : meter.Counts units cap spent) (peer : Peer) (since : Nat) :
    meter.Allowance units spent (cap peer) length peer (Verdict.inInterval length since)
      (intervalAllowance spent (cap peer) length since) where
  wait := by
    intro now later entry sound passed
    cases entry <;> grind [Lib.intervalAllowance]
  clean := by
    intro now entry sound
    cases entry with
    | none => exact Nat.le_refl _
    | some window =>
      have sound := sound window rfl
      simp only [filter_some]
      split <;> grind [Lib.intervalAllowance]
  grant := by
    intro now entry call sound
    have weighed := counts.weigh peer call (counts.current length sound).2
    have nothing := counts.empty
    simp only [Meter.weighIn, Verdict.inInterval]
    obtain ⟨opened, rfl⟩ | ⟨window, rfl, expired, opened⟩ | ⟨window, rfl, live, opened⟩ :=
      meter.current_cases length now entry
    · simp only [opened] at weighed ⊢
      grind [Lib.intervalAllowance]
    · have sound := sound window rfl
      simp only [opened] at weighed ⊢
      grind [Lib.intervalAllowance]
    · have sound := sound window rfl
      simp only [opened] at weighed ⊢
      grind [Lib.intervalAllowance]

theorem Meter.Counts.placed (counts : meter.Counts units cap spent) (positive : 0 < length)
    (inTime : InTime events) (ahead : ∀ event ∈ events, now ≤ event.1)
    (sound : ∀ peer, Sound spent (cap peer) now (windows peer)) :
    ∀ verdict ∈ (meter.limiter length).verdicts windows events, units verdict.call ≠ 0 →
      ∃ begun, begun ≤ verdict.time ∧ verdict.inWindow length begun = true := by
  induction events generalizing now windows with
  | nil => simp [Limiter.verdicts]
  | cons event later ih =>
    obtain ⟨inOrder, inTimeLater⟩ := pairwise_cons.mp inTime
    have arrives := ahead event mem_cons_self
    have soundThen := fun peer => (sound peer).later arrives
    obtain ⟨time, ⟨caller, call⟩ | _⟩ := event
    · by_cases free : meter.free call = true
      · rw [verdicts_free free]
        intro verdict mem costs
        obtain rfl | mem := mem_cons.mp mem
        · exact absurd (counts.free call free) costs
        · exact ih inTimeLater inOrder soundThen verdict mem costs
      · rw [verdicts_weighed free]
        intro verdict mem costs
        obtain rfl | mem := mem_cons.mp mem
        · have begun := (counts.current length (soundThen caller)).1
          refine ⟨(meter.current length time (windows caller)).start, begun, ?_⟩
          have within : time < (meter.current length time (windows caller)).start + length := by
            obtain ⟨opened, -⟩ | ⟨window, -, -, opened⟩ | ⟨window, -, live, opened⟩ :=
              meter.current_cases length time (windows caller)
            all_goals
              rw [opened]
              dsimp only at *
              omega
          simpa [Verdict.inWindow, Meter.weighIn] using within
        · refine ih inTimeLater inOrder (fun peer => ?_) verdict mem costs
          by_cases same : peer = caller
          · subst same
            rw [update_self]
            exact counts.weighIn length call (soundThen peer)
          · rw [update_of_ne same]
            exact soundThen peer
    · refine ih inTimeLater inOrder fun peer window held => ?_
      exact soundThen peer window (mem_filter_iff.mp held).1

theorem Meter.Counts.bounds (counts : meter.Counts units cap spent) :
    (meter.limiter length).Bounds (fun _ => none) length units cap := by
  have sound : ∀ peer, Sound spent (cap peer) 0 (none : Option (TallyWindow Tally)) := by
    intro peer window held
    cases held
  constructor
  · intro events inTime peer begun
    refine Nat.le_trans ((counts.windowAllowance peer begun).admitted_le counts inTime (fun _ _ => Nat.zero_le _)
      (sound peer)) ?_
    grind [Lib.windowAllowance]
  · intro events inTime peer since
    refine Nat.le_trans ((counts.intervalAllowance peer since).admitted_le counts inTime (fun _ _ => Nat.zero_le _)
      (sound peer)) ?_
    grind [Lib.intervalAllowance]
  · intro positive events inTime
    exact counts.placed positive inTime (fun _ _ => Nat.zero_le _) sound

theorem peersApart_of_agree {peer : Peer} {others : Peer → Option (TallyWindow Tally)}
    (agree : windows peer = others peer) (events : List (Nat × LimiterEvent Peer Call)) :
    (((meter.limiter length).verdicts windows events).filter fun verdict => verdict.peer = peer) =
      (meter.limiter length).verdicts others (events.filter fun event => event.2.concerns peer) := by
  induction events generalizing windows others with
  | nil => rfl
  | cons event later ih =>
    obtain ⟨time, ⟨caller, call⟩ | _⟩ := event
    · by_cases same : caller = peer
      · subst same
        rw [filter_cons_of_pos (by simp [LimiterEvent.concerns])]
        by_cases free : meter.free call = true
        · rw [verdicts_free free, verdicts_free free, filter_cons_of_pos (by simp), ih agree, agree]
        · rw [verdicts_weighed free, verdicts_weighed free, filter_cons_of_pos (by simp), agree]
          exact congrArg _ (ih (by rw [update_self, update_self]))
      · rw [filter_cons_of_neg (by simp [LimiterEvent.concerns, same])]
        by_cases free : meter.free call = true
        · rw [verdicts_free free, filter_cons_of_neg (by simp [same]), ih agree]
        · rw [verdicts_weighed free, filter_cons_of_neg (by simp [same])]
          exact ih (by rw [update_of_ne (Ne.symm same), agree])
    · rw [filter_cons_of_pos (by rfl), verdicts_cleanup, verdicts_cleanup]
      exact ih (by rw [agree])

theorem Meter.limiter_peersApart (meter : Meter Peer Call Tally) (length : Nat) :
    (meter.limiter length).PeersApart fun _ => none :=
  fun events _ => peersApart_of_agree rfl events

/-- The answers a peer gets do not depend on what its window has counted. -/
def Meter.Steady (meter : Meter Peer Call Tally) (peer : Peer) : Prop :=
  ∀ call, ¬meter.free call = true → ∀ tally another,
    (meter.weigh peer call tally).1 = (meter.weigh peer call another).1

/-- From now on the two states answer alike: a peer's next window is the same in both, or its
answers do not depend on it. -/
def Alike (meter : Meter Peer Call Tally) (length now : Nat) (windows others : Peer → Option (TallyWindow Tally)) :
    Prop :=
  ∀ peer, meter.Steady peer ∨
    ∀ later, now ≤ later → meter.current length later (windows peer) = meter.current length later (others peer)

variable {windows others : Peer → Option (TallyWindow Tally)}

omit [DecidableEq Peer] in
theorem Alike.later {after : Nat} (alike : Alike meter length now windows others) (passed : now ≤ after) :
    Alike meter length after windows others := fun peer =>
  (alike peer).imp_right fun same later ahead => same later (Nat.le_trans passed ahead)

omit [DecidableEq Peer] in
theorem current_cleaned (meter : Meter Peer Call Tally) {later : Nat} (entry : Option (TallyWindow Tally))
    (passed : now ≤ later) :
    meter.current length later (entry.filter fun window => now - window.start < length) =
      meter.current length later entry := by
  cases entry with
  | none => rfl
  | some window =>
    by_cases live : now - window.start < length
    · simp [filter_some, live]
    · have expired : length ≤ later - window.start := by omega
      simp [filter_some, live, Meter.current, expired]

omit [DecidableEq Peer] in
theorem Alike.cleaned (alike : Alike meter length now windows others) :
    Alike meter length now (fun peer => (windows peer).filter fun window => now - window.start < length) others := by
  intro peer
  refine (alike peer).imp_right fun same later passed => ?_
  rw [current_cleaned meter _ passed, same later passed]

omit [DecidableEq Peer] in
theorem Alike.answer (alike : Alike meter length now windows others) (peer : Peer) {call : Call}
    (weighed : ¬meter.free call = true) :
    (meter.weighIn length now peer call (windows peer)).1 = (meter.weighIn length now peer call (others peer)).1 := by
  obtain steady | same := alike peer
  · exact steady call weighed _ _
  · simp only [Meter.weighIn, same now (Nat.le_refl now)]

theorem Alike.weighed (alike : Alike meter length now windows others) (caller : Peer) (call : Call) :
    Alike meter length now
      (update windows caller (some (meter.weighIn length now caller call (windows caller)).2))
      (update others caller (some (meter.weighIn length now caller call (others caller)).2)) := by
  intro peer
  by_cases same : peer = caller
  · subst same
    refine (alike peer).imp_right fun agree later passed => ?_
    simp only [update_self, Meter.weighIn, agree now (Nat.le_refl now)]
  · simp only [update_of_ne same]
    exact alike peer

theorem Alike.answers (alike : Alike meter length now windows others)
    (inTime : InTime events) (ahead : ∀ event ∈ events, now ≤ event.1) :
    (meter.limiter length).answers windows events =
      (meter.limiter length).answers others (events.filter fun event => event.2.isCall) := by
  induction events generalizing now windows others with
  | nil => rfl
  | cons event later ih =>
    obtain ⟨inOrder, inTimeLater⟩ := pairwise_cons.mp inTime
    have alike := alike.later (ahead event mem_cons_self)
    simp only [Limiter.answers] at ih ⊢
    obtain ⟨time, ⟨caller, call⟩ | _⟩ := event
    · rw [filter_cons_of_pos (by rfl)]
      by_cases free : meter.free call = true
      · rw [verdicts_free free, verdicts_free free, map_cons, map_cons, ih alike inTimeLater inOrder]
      · rw [verdicts_weighed free, verdicts_weighed free, map_cons, map_cons,
          ih (alike.weighed caller call) inTimeLater inOrder, alike.answer caller free]
    · rw [filter_cons_of_neg (by simp [LimiterEvent.isCall]), verdicts_cleanup]
      exact ih alike.cleaned inTimeLater inOrder

omit [DecidableEq Peer] in
theorem Alike.refl (meter : Meter Peer Call Tally) (length now : Nat) (windows : Peer → Option (TallyWindow Tally)) :
    Alike meter length now windows windows :=
  fun _ => .inr fun _ _ => rfl

theorem Meter.limiter_cleanupNeutral (meter : Meter Peer Call Tally) (length : Nat) :
    (meter.limiter length).CleanupNeutral fun _ => none := by
  intro events other inTime inTimeToo same
  rw [(Alike.refl meter length 0 _).answers inTime fun _ _ => Nat.zero_le _,
    (Alike.refl meter length 0 _).answers inTimeToo fun _ _ => Nat.zero_le _, same]

theorem Meter.limiter_rejectionNeutral {kind : Peer → Call → Prop}
    (keeps : ∀ peer call tally, (meter.weigh peer call tally).1 = some false → (meter.weigh peer call tally).2 = tally)
    (fits : ∀ peer call, kind peer call → (meter.weigh peer call meter.empty).1 ≠ some false ∨ meter.Steady peer) :
    (meter.limiter length).RejectionNeutral (fun _ => none) kind := by
  intro before now peer call after inTime rejected ofKind
  obtain ⟨-, inTimeAfter, -⟩ := pairwise_append.mp inTime
  obtain ⟨ahead, inTimeAfter⟩ := pairwise_cons.mp inTimeAfter
  simp only [Limiter.run, foldl_append, foldl_cons, foldl_nil] at rejected ⊢
  generalize List.foldl (meter.limiter length).apply (fun _ => none) before = windows at rejected ⊢
  have weighed : ¬meter.free call = true := by
    intro free
    rw [serve_free free] at rejected
    cases rejected
  have alike : Alike meter length now ((meter.limiter length).apply windows (now, .call peer call)) windows := by
    simp only [Limiter.apply]
    rw [serve_weighed weighed] at rejected ⊢
    intro other
    by_cases same : other = peer
    · subst same
      refine (fits other call ofKind).symm.imp_right fun opens later passed => ?_
      have kept := keeps other call _ rejected
      obtain ⟨opened, -⟩ | ⟨window, -, -, opened⟩ | ⟨window, held, live, opened⟩ :=
        meter.current_cases length now (windows other)
      · exact absurd (by simpa [Meter.weighIn, opened] using rejected) opens
      · exact absurd (by simpa [Meter.weighIn, opened] using rejected) opens
      · simp only [update_self, Meter.weighIn, kept]
        rw [opened, held]
    · simp only [update_of_ne same, implies_true, or_true]
  rw [alike.answers inTimeAfter ahead, (Alike.refl meter length now windows).answers inTimeAfter ahead]

end Prismoire.Lib
