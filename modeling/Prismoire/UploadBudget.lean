import Prismoire.AttachmentStore

namespace Prismoire

open List Option

/-- A call of `debit_budget` for one user, at a time of the clock in nanoseconds. -/
structure DebitCall where
  nowNanos : Nat
  bytes : Nat

def DebitCall.nowSecs (call : DebitCall) : Nat :=
  call.nowNanos / 10 ^ 9

/-- `instance_config` admits no more than this for the cap and for a day's refill. -/
def maxBudgetBytes : Nat := 10737418240

structure UploadConfig.Admitted (config : UploadConfig) : Prop where
  cap : config.capBytes ≤ maxBudgetBytes
  refill : config.refillBytesPerDay ≤ maxBudgetBytes

/-- Whole seconds since a stored time, none when that lies ahead. -/
def elapsedSecs (call : DebitCall) (row : StorageBudget) : Nat :=
  (call.nowNanos - row.lastRefillAt * 10 ^ 9) / 10 ^ 9

/-- The row of a user and, as history, the bytes debited since the first call. -/
structure BudgetRun where
  budget : Option StorageBudget
  debited : Nat := 0
  deriving DecidableEq

/-- A refused debit writes nothing; the stored time drops the fraction of the second. -/
def debitCall (config : UploadConfig) (run : BudgetRun) (call : DebitCall) : BudgetRun :=
  match debitBudget config run.budget call.nowSecs call.bytes with
  | none => run
  | some row => ⟨some row, run.debited + call.bytes⟩

def UploadConfig.earned (config : UploadConfig) (secs : Nat) : Nat :=
  config.refillBytesPerDay * secs / 86400

theorem UploadConfig.earned_add_le (config : UploadConfig) (secs more : Nat) :
    config.earned secs + config.earned more ≤ config.earned (secs + more) := by
  simp only [UploadConfig.earned, Nat.mul_add]
  omega

section Runs

variable {config : UploadConfig} {run : BudgetRun}

theorem debitBudget_some {budget : Option StorageBudget} {now bytes : Nat} {after : StorageBudget}
    (debited : debitBudget config budget now bytes = some after) :
    after.lastRefillAt = now ∧ after.availableBytes + bytes ≤ config.capBytes ∧ after.lifetimeSpent ≤ i64Max ∧
      ∀ row ∈ budget, after.availableBytes + bytes ≤ row.availableBytes + config.earned (now - row.lastRefillAt) := by
  cases budget with
  | none =>
    simp only [debitBudget] at debited
    split at debited
    · cases debited
    · cases debited
      refine ⟨rfl, ?_, Nat.min_le_right _ _, by simp⟩
      simp only [clampI64]
      omega
  | some row =>
    simp only [debitBudget] at debited
    split at debited
    · cases debited
    · cases debited
      refine ⟨rfl, ?_, Nat.min_le_right _ _, ?_⟩
      · simp only [clampI64]
        omega
      · intro row' held
        obtain rfl := some.inj held
        simp only [clampI64, UploadConfig.earned]
        omega

/-- The balance is within the cap, and with what was debited it is within the cap and the refill
that the row has been given since the first call. -/
structure BudgetKept (config : UploadConfig) (since now : Nat) (run : BudgetRun) : Prop where
  within : ∀ row ∈ run.budget, row.availableBytes ≤ config.capBytes
  paid : run.debited = 0 ∨ ∃ row, run.budget = some row ∧ since ≤ row.lastRefillAt ∧ row.lastRefillAt ≤ now ∧
    run.debited + row.availableBytes ≤ config.capBytes + config.earned (row.lastRefillAt - since)

theorem BudgetKept.debit {since now : Nat} (kept : BudgetKept config since now run) (call : DebitCall)
    (started : since ≤ call.nowSecs) (passed : now ≤ call.nowSecs) : BudgetKept config since call.nowSecs
    (debitCall config run call) := by
  cases debited : debitBudget config run.budget call.nowSecs call.bytes with
  | none =>
    simp only [debitCall, debited]
    refine ⟨kept.within, kept.paid.imp_right ?_⟩
    rintro ⟨row, held, after, before, paid⟩
    exact ⟨row, held, after, before.trans passed, paid⟩
  | some after =>
    simp only [debitCall, debited]
    obtain ⟨stamped, within, -, refilled⟩ := debitBudget_some debited
    refine ⟨?_, .inr ⟨after, rfl, by omega, by omega, ?_⟩⟩
    all_goals dsimp only
    · intro row held
      obtain rfl := some.inj held
      omega
    · obtain nothing | ⟨row, held, later, earlier, paid⟩ := kept.paid
      · rw [nothing]
        omega
      · have added := refilled row held
        have earned := config.earned_add_le (row.lastRefillAt - since) (call.nowSecs - row.lastRefillAt)
        have whole : row.lastRefillAt - since + (call.nowSecs - row.lastRefillAt) = after.lastRefillAt - since := by
          omega
        rw [whole] at earned
        omega

def CallsInTime (calls : List DebitCall) : Prop :=
  calls.Pairwise fun earlier later => earlier.nowNanos ≤ later.nowNanos

instance (calls : List DebitCall) : Decidable (CallsInTime calls) :=
  inferInstanceAs (Decidable (List.Pairwise _ _))

theorem DebitCall.nowSecs_le {earlier later : DebitCall} (passed : earlier.nowNanos ≤ later.nowNanos) :
    earlier.nowSecs ≤ later.nowSecs :=
  Nat.div_le_div_right passed

theorem BudgetKept.calls {since : Nat} {last : DebitCall} {calls : List DebitCall}
    (kept : BudgetKept config since last.nowSecs run) (started : since ≤ last.nowSecs)
    (inTime : CallsInTime (last :: calls)) :
    BudgetKept config since ((last :: calls).getLast (cons_ne_nil _ _)).nowSecs
      (calls.foldl (debitCall config) run) := by
  induction calls generalizing last run with
  | nil => exact kept
  | cons call calls ih =>
    have ahead : last.nowSecs ≤ call.nowSecs :=
      DebitCall.nowSecs_le ((pairwise_cons.mp inTime).1 call mem_cons_self)
    exact ih (kept.debit call (started.trans ahead) ahead) (started.trans ahead) (pairwise_cons.mp inTime).2

theorem lifetimeSpent_fits {calls : List DebitCall} (fits : ∀ row ∈ run.budget, row.lifetimeSpent ≤ i64Max) :
    ∀ row ∈ (calls.foldl (debitCall config) run).budget, row.lifetimeSpent ≤ i64Max := by
  induction calls generalizing run with
  | nil => exact fits
  | cons call calls ih =>
    refine ih ?_
    cases debited : debitBudget config run.budget call.nowSecs call.bytes with
    | none => simpa only [debitCall, debited] using fits
    | some after =>
      intro row held
      simp only [debitCall, debited] at held
      obtain rfl := some.inj held
      exact (debitBudget_some debited).2.2.1

end Runs

theorem refill_product_lt {config : UploadConfig} (admitted : config.Admitted) {secs : Nat} (fits : secs < 2 ^ 64) :
    config.refillBytesPerDay * secs < 2 ^ 128 :=
  calc config.refillBytesPerDay * secs ≤ maxBudgetBytes * 2 ^ 64 := Nat.mul_le_mul admitted.refill fits.le
    _ < 2 ^ 128 := by decide

/-- Debits of one user in the order of the clock: the balance stays within the cap, what is computed and stored fits,
a refused debit changes nothing, and the bytes debited are within the cap and the refill of the whole seconds. -/
theorem upload_budget_bounded (config : UploadConfig) (admitted : config.Admitted) (start : Option StorageBudget)
    (within : ∀ row ∈ start, row.availableBytes ≤ config.capBytes) (first : DebitCall) (calls : List DebitCall)
    (inTime : CallsInTime (first :: calls)) :
    let after := (first :: calls).foldl (debitCall config) ⟨start, 0⟩
    let last := (first :: calls).getLast (cons_ne_nil _ _)
    (∀ row ∈ after.budget, row.availableBytes ≤ config.capBytes ∧ row.availableBytes ≤ i64Max ∧
        ((∀ before ∈ start, before.lifetimeSpent ≤ i64Max) → row.lifetimeSpent ≤ i64Max) ∧
        ∀ call : DebitCall, elapsedSecs call row < 2 ^ 64 →
          config.refillBytesPerDay * elapsedSecs call row < 2 ^ 128) ∧
      (∀ call : DebitCall, debitBudget config after.budget call.nowSecs call.bytes = none →
        (debitCall config after call).budget = after.budget) ∧
      after.debited ≤ config.capBytes + (config.refillBytesPerDay * (last.nowSecs - first.nowSecs) + 86399) / 86400 := by
  have kept : BudgetKept config first.nowSecs first.nowSecs ⟨start, 0⟩ := ⟨within, .inl rfl⟩
  have done := (kept.debit first le_rfl le_rfl).calls le_rfl inTime
  refine ⟨fun row held => ⟨done.within row held, ?_, fun fits =>
    @lifetimeSpent_fits config ⟨start, 0⟩ (first :: calls) fits row held, fun call fits => refill_product_lt admitted fits⟩,
    ?_, ?_⟩
  · have small := done.within row held
    have cap := admitted.cap
    simp only [maxBudgetBytes, i64Max] at *
    omega
  · intro call refused
    simp only [debitCall, refused]
  · simp only [foldl_cons]
    obtain nothing | ⟨row, held, later, earlier, paid⟩ := done.paid
    · omega
    · have earned : config.earned (row.lastRefillAt - first.nowSecs) ≤
          config.earned (((first :: calls).getLast (cons_ne_nil _ _)).nowSecs - first.nowSecs) :=
        Nat.div_le_div_right (Nat.mul_le_mul_left _ (by omega))
      simp only [UploadConfig.earned] at paid earned
      omega

theorem budget_of_three_uploads :
    let calls : List DebitCall := [⟨10 ^ 9, 900⟩, ⟨5 * 10 ^ 9, 500⟩, ⟨11 * 10 ^ 9, 110⟩]
    let after := calls.foldl (debitCall ⟨1000, 86400, 0⟩) ⟨none, 0⟩
    after = ⟨some ⟨0, 11, 1010⟩, 1010⟩ ∧ after.debited ≤ 1000 + (86400 * (11 - 1) + 86399) / 86400 := by
  have bounded := (upload_budget_bounded ⟨1000, 86400, 0⟩ ⟨by decide, by decide⟩ none (by simp) ⟨10 ^ 9, 900⟩
    [⟨5 * 10 ^ 9, 500⟩, ⟨11 * 10 ^ 9, 110⟩] (by decide +kernel)).2.2
  exact ⟨by decide +kernel, bounded.trans (by decide +kernel)⟩

/-- Two uploads a nanosecond apart, across a full second, earn the refill of a second; and the
refill of a long idle account is a product that only fits `u128`. -/
theorem stored_time_drops_fraction :
    let config : UploadConfig := ⟨1000, 86400000, 0⟩
    let first : DebitCall := ⟨999999999, 1000⟩
    let last : DebitCall := ⟨1000000000, 1000⟩
    config.Admitted ∧ CallsInTime [first, last] ∧
      (config.capBytes + (config.refillBytesPerDay * (last.nowNanos - first.nowNanos) + (86400 * 10 ^ 9 - 1)) /
          (86400 * 10 ^ 9) <
        ([first, last].foldl (debitCall config) ⟨none, 0⟩).debited) ∧
      i64Max < maxBudgetBytes * elapsedSecs ⟨10 ^ 18, 0⟩ ⟨0, 0, 0⟩ :=
  ⟨⟨by decide, by decide⟩, by decide, by decide +kernel, by decide +kernel⟩

end Prismoire
