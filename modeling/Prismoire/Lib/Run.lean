import Mathlib.Data.List.Infix

namespace Prismoire.Lib

open List

variable {σ ε : Type} (step : σ → ε → σ)

/-- Each event of the run meets the condition in the state that it finds. -/
def MeetAlong (cond : σ → ε → Prop) : σ → List ε → Prop
  | _, [] => True
  | state, event :: events => cond state event ∧ MeetAlong cond (step state event) events

instance MeetAlong.decidable {cond : σ → ε → Prop} [∀ state event, Decidable (cond state event)] :
    (state : σ) → (events : List ε) → Decidable (MeetAlong step cond state events)
  | _, [] => isTrue trivial
  | state, event :: events => @instDecidableAnd _ _ inferInstance (MeetAlong.decidable (step state event) events)

variable {step} {cond : σ → ε → Prop} {state : σ} {events : List ε} {Inv : σ → Prop}

/-- A run splits where any of its states does. -/
theorem meetAlong_append {events more : List ε} : MeetAlong step cond state (events ++ more) ↔
      MeetAlong step cond state events ∧ MeetAlong step cond (events.foldl step state) more := by
  induction events generalizing state with
  | nil => simp [MeetAlong]
  | cons event events ih => simp only [cons_append, MeetAlong, ih, foldl_cons, and_assoc]

theorem MeetAlong.concat {event : ε} (meets : MeetAlong step cond state events)
    (next : cond (events.foldl step state) event) : MeetAlong step cond state (events ++ [event]) :=
  meetAlong_append.mpr ⟨meets, next, trivial⟩

theorem MeetAlong.of_forall (all : ∀ event ∈ events, ∀ state, cond state event) :
    MeetAlong step cond state events := by
  induction events generalizing state with
  | nil => trivial
  | cons event events ih =>
    exact ⟨all event mem_cons_self state, ih fun event later => all event (mem_cons_of_mem _ later)⟩

theorem MeetAlong.of_shorter {reached events : List ε} (meets : MeetAlong step cond state events)
    (shorter : reached <+: events) : MeetAlong step cond state reached := by
  obtain ⟨rest, rfl⟩ := shorter
  exact (meetAlong_append.mp meets).1

theorem MeetAlong.and {other : σ → ε → Prop} (meets : MeetAlong step cond state events)
    (more : MeetAlong step other state events) :
    MeetAlong step (fun state event => cond state event ∧ other state event) state events := by
  induction events generalizing state with
  | nil => trivial
  | cons event events ih => exact ⟨⟨meets.1, more.1⟩, ih meets.2 more.2⟩

/-- What each event keeps where it meets the condition, the whole run keeps. -/
theorem MeetAlong.invariant (meets : MeetAlong step cond state events)
    (keeps : ∀ state event, Inv state → cond state event → Inv (step state event)) (start : Inv state) :
    Inv (events.foldl step state) := by
  induction events generalizing state with
  | nil => exact start
  | cons event events ih => exact ih meets.2 (keeps state event start meets.1)

/-- Two states of one run are related when each step relates its two states. -/
theorem MeetAlong.related {R : σ → σ → Prop} {earlier later events : List ε}
    (meets : MeetAlong step cond state events)
    (keeps : ∀ state event, Inv state → cond state event → Inv (step state event))
    (moves : ∀ state event, Inv state → cond state event → R state (step state event))
    (refl : ∀ state, R state state) (trans : ∀ first second third, R first second → R second third → R first third)
    (start : Inv state) (before : earlier <+: later) (within : later <+: events) :
    R (earlier.foldl step state) (later.foldl step state) := by
  obtain ⟨rest, rfl⟩ := before
  obtain ⟨ours, onward⟩ := meetAlong_append.mp (meets.of_shorter within)
  have inv := ours.invariant keeps start
  rw [foldl_append]
  generalize earlier.foldl step state = reached at onward inv ⊢
  clear within ours meets start
  induction rest generalizing reached with
  | nil => exact refl reached
  | cons event rest ih =>
    have next := moves reached event inv onward.1
    exact trans _ _ _ next (ih _ onward.2 (keeps reached event inv onward.1))

end Prismoire.Lib
