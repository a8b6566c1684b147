import Mathlib.Data.List.Basic

namespace Prismoire.Lib

open List

/-- What one attempt on a pending item does to it: it lands, waits for the next pass, or is dropped. -/
inductive Outcome where
  | landed
  | waiting
  | dropped

def pass {σ α ε : Type} (attempt : σ → α → Except ε (Outcome × σ)) : σ → List α → Except ε (σ × List α × Bool)
  | state, [] => .ok (state, [], false)
  | state, item :: items => do
    let (outcome, state) ← attempt state item
    let (state, waiting, progressed) ← pass attempt state items
    match outcome with
    | .landed => return (state, waiting, true)
    | .waiting => return (state, item :: waiting, progressed)
    | .dropped => return (state, waiting, progressed)

/-- Passes until one makes no progress. Each pass with progress shortens the list, so a budget
above its length is never exhausted. -/
def settle {σ α ε : Type} (attempt : σ → α → Except ε (Outcome × σ)) : Nat → σ → List α → Except ε σ
  | 0, state, _ => .ok state
  | fuel + 1, state, pending => do
    let (state, waiting, progressed) ← pass attempt state pending
    if progressed then settle attempt fuel state waiting else return state

section Loops

variable {σ α ε : Type} {step : σ → α → Except ε σ} {items : List α} {state final : σ}

theorem foldlM_invariant (inv : σ → Prop)
    (keeps : ∀ item ∈ items, ∀ state final, inv state → step state item = .ok final → inv final)
    (start : inv state) (run : items.foldlM step state = .ok final) : inv final := by
  induction items generalizing state with
  | nil =>
    cases run
    exact start
  | cons item items ih =>
    rw [foldlM_cons] at run
    cases first : step state item with
    | error e => simp [first, bind, Except.bind] at run
    | ok mid =>
      simp only [first, bind, Except.bind] at run
      exact ih (fun other mem => keeps other (by simp [mem])) (keeps item (by simp) state mid start first) run

theorem foldlM_total {inv : σ → Prop} {fresh : α → σ → Prop} {apart : α → α → Prop}
    (safe : ∀ item ∈ items, ∀ state, inv state → fresh item state → ∃ final, step state item = .ok final ∧ inv final ∧
        ∀ other, apart item other → fresh other state → fresh other final)
    (distinct : items.Pairwise apart) (start : inv state) (allFresh : ∀ item ∈ items, fresh item state) :
    ∃ final, items.foldlM step state = .ok final ∧ inv final := by
  induction items generalizing state with
  | nil => exact ⟨state, rfl, start⟩
  | cons item items ih =>
    obtain ⟨first, distinct⟩ := pairwise_cons.mp distinct
    obtain ⟨mid, ran, midInv, keeps⟩ := safe item (by simp) state start (allFresh item (by simp))
    obtain ⟨final, rest, finalInv⟩ := ih (fun other mem => safe other (by simp [mem])) distinct midInv
      fun other mem => keeps other (first other mem) (allFresh other (by simp [mem]))
    exact ⟨final, by simp [foldlM_cons, ran, bind, Except.bind, rest], finalInv⟩

end Loops

variable {σ α ε : Type} {attempt : σ → α → Except ε (Outcome × σ)}

variable {progressed : Bool} {fuel : Nat}

theorem pass_cons_ok {state final : σ} {item : α} {items waiting : List α}
    (run : pass attempt state (item :: items) = .ok (final, waiting, progressed)) :
    ∃ outcome mid rest more, attempt state item = .ok (outcome, mid) ∧
      pass attempt mid items = .ok (final, rest, more) ∧
      ((outcome = .landed ∧ waiting = rest ∧ progressed = true) ∨
        (outcome = .waiting ∧ waiting = item :: rest ∧ progressed = more) ∨
        (outcome = .dropped ∧ waiting = rest ∧ progressed = more)) := by
  simp only [pass] at run
  cases tried : attempt state item with
  | error e => simp [tried, bind, Except.bind] at run
  | ok result =>
    obtain ⟨outcome, mid⟩ := result
    simp only [tried, bind, Except.bind] at run
    cases passed : pass attempt mid items with
    | error e => simp [passed] at run
    | ok result =>
      obtain ⟨last, rest, more⟩ := result
      simp only [passed] at run
      refine ⟨outcome, mid, rest, more, rfl, ?_⟩
      cases outcome <;> simp_all [pure, Except.pure]

theorem pass_invariant {inv : σ → Prop} {pending : List α} (step : ∀ item ∈ pending, ∀ state outcome final, inv state →
      attempt state item = .ok (outcome, final) → inv final)
    {state final : σ} {waiting : List α} (start : inv state)
    (run : pass attempt state pending = .ok (final, waiting, progressed)) :
    inv final ∧ (∀ item ∈ waiting, item ∈ pending) ∧
      (progressed = true → waiting.length < pending.length) ∧ waiting.length ≤ pending.length := by
  induction pending generalizing state waiting progressed with
  | nil =>
    simp only [pass, Except.ok.injEq, Prod.mk.injEq] at run
    obtain ⟨rfl, rfl, rfl⟩ := run
    simp [start]
  | cons item items ih =>
    obtain ⟨outcome, mid, rest, more, tried, passed, shape⟩ := pass_cons_ok run
    have midInv : inv mid := step item (by simp) state outcome mid start tried
    obtain ⟨finalInv, sub, shrink, short⟩ :=
      ih (fun other mem => step other (by simp [mem])) midInv passed
    refine ⟨finalInv, ?_, ?_, ?_⟩
    · rcases shape with ⟨-, rfl, -⟩ | ⟨-, rfl, -⟩ | ⟨-, rfl, -⟩
      · intro other mem
        exact mem_cons_of_mem _ (sub other mem)
      · intro other mem
        rcases mem_cons.mp mem with rfl | mem
        · exact mem_cons_self
        · exact mem_cons_of_mem _ (sub other mem)
      · intro other mem
        exact mem_cons_of_mem _ (sub other mem)
    · intro progress
      rcases shape with ⟨-, rfl, -⟩ | ⟨-, rfl, rfl⟩ | ⟨-, rfl, rfl⟩
      · simp only [length_cons]
        omega
      · have := shrink progress
        simp only [length_cons]
        omega
      · simp only [length_cons]
        omega
    · rcases shape with ⟨-, rfl, -⟩ | ⟨-, rfl, -⟩ | ⟨-, rfl, -⟩ <;> simp only [length_cons] <;> omega

theorem settle_invariant (inv : σ → Prop) {pending : List α}
    (step : ∀ item ∈ pending, ∀ state outcome final, inv state →
      attempt state item = .ok (outcome, final) → inv final) {state final : σ} (start : inv state)
    (run : settle attempt fuel state pending = .ok final) : inv final := by
  induction fuel generalizing state pending with
  | zero =>
    simp only [settle, Except.ok.injEq] at run
    exact run ▸ start
  | succ fuel ih =>
    simp only [settle] at run
    cases passed : pass attempt state pending with
    | error e => simp [passed, bind, Except.bind] at run
    | ok result =>
      obtain ⟨mid, waiting, progressed⟩ := result
      obtain ⟨midInv, sub, -, -⟩ := pass_invariant step start passed
      simp only [passed, bind, Except.bind] at run
      cases progressed with
      | false =>
        simp only [Bool.false_eq_true, if_false, pure, Except.pure, Except.ok.injEq] at run
        exact run ▸ midInv
      | true => exact ih (fun item mem => step item (sub item mem)) midInv run

/--
An attempt that never fails on an item that is still `fresh`, and that leaves fresh every item apart
from it. An item that waits stays fresh itself.
-/
def Safe (attempt : σ → α → Except ε (Outcome × σ)) (inv : σ → Prop) (fresh : α → σ → Prop)
    (apart : α → α → Prop) (pending : List α) : Prop :=
  ∀ item ∈ pending, ∀ state, inv state → fresh item state →
    ∃ outcome final, attempt state item = .ok (outcome, final) ∧ inv final ∧ (outcome = .waiting → fresh item final) ∧
      ∀ other, apart item other → fresh other state → fresh other final

section

variable {inv : σ → Prop} {fresh : α → σ → Prop} {apart : α → α → Prop} {pending : List α} {state : σ}
  (symm : ∀ item other, apart item other → apart other item) (step : Safe attempt inv fresh apart pending)
  (distinct : pending.Pairwise apart) (start : inv state) (allFresh : ∀ item ∈ pending, fresh item state)
include symm step distinct start allFresh

theorem pass_total : ∃ final waiting progressed, pass attempt state pending = .ok (final, waiting, progressed) ∧
      inv final ∧ waiting.Sublist pending ∧ (∀ item ∈ waiting, fresh item final) ∧
      ∀ other, (∀ item ∈ pending, apart item other) → fresh other state → fresh other final := by
  induction pending generalizing state with
  | nil => exact ⟨state, [], false, rfl, start, .slnil, by simp, fun _ _ before => before⟩
  | cons item items ih =>
    obtain ⟨first, distinct⟩ := pairwise_cons.mp distinct
    obtain ⟨outcome, mid, tried, midInv, waits, keeps⟩ :=
      step item (by simp) state start (allFresh item (by simp))
    have midFresh : ∀ other ∈ items, fresh other mid := by
      intro other mem
      exact keeps other (first other mem) (allFresh other (by simp [mem]))
    obtain ⟨final, waiting, progressed, passed, finalInv, sub, waitingFresh, kept⟩ :=
      ih (fun other mem => step other (by simp [mem])) distinct midInv midFresh
    have keptAll : ∀ other, (∀ item' ∈ item :: items, apart item' other) → fresh other state → fresh other final := by
      intro other away before
      exact kept other (fun item' mem => away item' (by simp [mem])) (keeps other (away item (by simp)) before)
    cases outcome with
    | landed =>
      exact ⟨final, waiting, true, by simp [pass, tried, passed, bind, Except.bind, pure, Except.pure],
        finalInv, sub.cons item, waitingFresh, keptAll⟩
    | dropped =>
      exact ⟨final, waiting, progressed, by simp [pass, tried, passed, bind, Except.bind, pure, Except.pure],
        finalInv, sub.cons item, waitingFresh, keptAll⟩
    | waiting =>
      refine ⟨final, item :: waiting, progressed,
        by simp [pass, tried, passed, bind, Except.bind, pure, Except.pure], finalInv, sub.cons_cons item, ?_,
        keptAll⟩
      intro other mem
      rcases mem_cons.mp mem with rfl | mem
      · exact kept other (fun item' inItems => symm _ _ (first item' inItems)) (waits rfl)
      · exact waitingFresh other mem

/-- Where no attempt on a fresh item fails and the items do not spoil each other, the loop returns. -/
theorem settle_total : ∃ final, settle attempt fuel state pending = .ok final ∧ inv final := by
  induction fuel generalizing state pending with
  | zero => exact ⟨state, rfl, start⟩
  | succ fuel ih =>
    obtain ⟨mid, waiting, progressed, passed, midInv, sub, waitingFresh, -⟩ :=
      pass_total symm step distinct start allFresh
    cases progressed with
    | false => exact ⟨mid, by simp [settle, passed, bind, Except.bind, pure, Except.pure], midInv⟩
    | true =>
      obtain ⟨final, run, holds⟩ :=
        ih (fun item mem => step item (sub.subset mem)) (distinct.sublist sub) midInv waitingFresh
      exact ⟨final, by simp [settle, passed, bind, Except.bind, run], holds⟩

end

def Landing (attempt : σ → α → Except ε (Outcome × σ)) (inv : σ → Prop) (done : α → σ → Prop)
    (pending : List α) : Prop :=
  ∀ item ∈ pending, ∀ state, inv state →
    (∃ final, attempt state item = .ok (.landed, final) ∧ inv final ∧ done item final ∧
      ∀ other, done other state → done other final) ∨
    attempt state item = .ok (.waiting, state)

section

variable {inv : σ → Prop} {done : α → σ → Prop} {pending : List α} (step : Landing attempt inv done pending)
include step

theorem pass_landing {state : σ} (start : inv state) :
    ∃ final waiting progressed, pass attempt state pending = .ok (final, waiting, progressed) ∧
      inv final ∧ (∀ item ∈ pending, done item final ∨ item ∈ waiting) ∧
      (∀ other, done other state → done other final) ∧
      (progressed = false → final = state ∧ ∀ item ∈ pending, attempt state item = .ok (.waiting, state)) := by
  induction pending generalizing state with
  | nil => exact ⟨state, [], false, rfl, start, by simp, fun _ h => h, fun _ => ⟨rfl, by simp⟩⟩
  | cons item items ih =>
    have rest : Landing attempt inv done items := fun other mem => step other (by simp [mem])
    rcases step item (by simp) state start with ⟨mid, tried, midInv, landed, keeps⟩ | tried
    · obtain ⟨final, waiting, progressed, passed, finalInv, covered, kept, -⟩ := ih rest midInv
      refine ⟨final, waiting, true, ?_, finalInv, ?_, fun other before => kept other (keeps other before), by simp⟩
      · simp [pass, tried, passed, bind, Except.bind, pure, Except.pure]
      · intro other mem
        rcases mem_cons.mp mem with rfl | mem
        · exact .inl (kept other landed)
        · exact covered other mem
    · obtain ⟨final, waiting, progressed, passed, finalInv, covered, kept, idle⟩ := ih rest start
      refine ⟨final, item :: waiting, progressed, ?_, finalInv, ?_, kept, ?_⟩
      · simp [pass, tried, passed, bind, Except.bind, pure, Except.pure]
      · intro other mem
        rcases mem_cons.mp mem with rfl | mem
        · exact .inr mem_cons_self
        · exact (covered other mem).imp id (mem_cons_of_mem _)
      · intro stalled
        obtain ⟨same, stuck⟩ := idle stalled
        refine ⟨same, ?_⟩
        intro other mem
        rcases mem_cons.mp mem with rfl | mem
        · exact tried
        · exact stuck other mem

theorem settle_landing (enough : pending.length < fuel) {state : σ} (start : inv state) :
    ∃ final, settle attempt fuel state pending = .ok final ∧ inv final ∧
      (∀ other, done other state → done other final) ∧
      ∀ item ∈ pending, done item final ∨ attempt final item = .ok (.waiting, final) := by
  induction fuel generalizing state pending with
  | zero => omega
  | succ fuel ih =>
    obtain ⟨mid, waiting, progressed, passed, midInv, covered, kept, idle⟩ := pass_landing step start
    have keeps : ∀ item ∈ pending, ∀ state outcome final, inv state →
        attempt state item = .ok (outcome, final) → inv final := by
      intro item mem state outcome final holds tried
      rcases step item mem state holds with ⟨final', tried', holds', -⟩ | tried'
      · rw [tried] at tried'
        cases tried'
        exact holds'
      · rw [tried] at tried'
        cases tried'
        exact holds
    obtain ⟨-, sub, shrink, -⟩ := pass_invariant keeps start passed
    cases progressed with
    | false =>
      obtain ⟨rfl, stuck⟩ := idle rfl
      refine ⟨mid, by simp [settle, passed, bind, Except.bind, pure, Except.pure], midInv, kept, ?_⟩
      intro item mem
      exact .inr (stuck item mem)
    | true =>
      have shorter := shrink rfl
      obtain ⟨final, run, finalInv, kept', settled⟩ :=
        ih (fun item mem => step item (sub item mem)) (by omega) midInv
      refine ⟨final, by simp [settle, passed, bind, Except.bind, run], finalInv,
        fun other before => kept' other (kept other before), ?_⟩
      intro item mem
      rcases covered item mem with landed | waits
      · exact .inl (kept' item landed)
      · exact settled item waits

end

theorem settle_dropped {pending : List α} {state : σ}
    (drops : ∀ item ∈ pending, attempt state item = .ok (.dropped, state)) :
    settle attempt fuel state pending = .ok state := by
  have passed : ∀ items : List α, (∀ item ∈ items, attempt state item = .ok (.dropped, state)) →
      pass attempt state items = .ok (state, [], false) := by
    intro items
    induction items with
    | nil => intro _; rfl
    | cons item items ih =>
      intro drops
      simp [pass, drops item (by simp), ih (fun other mem => drops other (by simp [mem])), bind,
        Except.bind, pure, Except.pure]
  cases fuel with
  | zero => rfl
  | succ fuel => simp [settle, passed pending drops, bind, Except.bind, pure, Except.pure]

end Prismoire.Lib
