import Prismoire.PushRoutes
import Prismoire.Lib.FixedWindow

namespace Prismoire

open Option Function

open Lib (Limiter Meter TallyWindow)

def retainLive {K : Type} (windowSecs nowSecs : Nat) (windows : K → Option WindowState) : K → Option WindowState :=
  fun key => (windows key).filter fun entry => nowSecs - entry.windowStartSecs < windowSecs

def PushRateLimiter.cleanupStaleIn (windowSecs : Nat) (limiter : PushRateLimiter) (nowSecs : Nat) : PushRateLimiter :=
  { limiter with windows := retainLive windowSecs nowSecs limiter.windows }

/-- The cap is set once; the map behind the lock is all that changes. -/
def PushRateLimiter.steps (windowSecs : Nat) (maxRequestsPerWindow : UInt32) :
    Limiter (Key → Option WindowState) Key Unit where
  serve windows nowSecs sender _ :=
    let limiter : PushRateLimiter := ⟨windows, maxRequestsPerWindow.toNat⟩
    let (admitted, limiter) := limiter.tryAdmitIn windowSecs sender nowSecs
    (some admitted, limiter.windows)
  cleanup windows nowSecs :=
    let limiter : PushRateLimiter := ⟨windows, maxRequestsPerWindow.toNat⟩
    (limiter.cleanupStaleIn windowSecs nowSecs).windows
  windowStart windows sender := (windows sender).map (·.windowStartSecs)

def ContentRateLimiter.cleanupStaleIn (windowSecs : Nat) (limiter : ContentRateLimiter) (nowSecs : Nat) :
    ContentRateLimiter :=
  { limiter with windows := retainLive windowSecs nowSecs limiter.windows }

def ContentRateLimiter.steps (windowSecs : Nat) (maxPerHour : UInt32) :
    Limiter (Key → Option WindowState) Key UInt32 where
  serve windows nowSecs sender batchSize :=
    let limiter : ContentRateLimiter := ⟨windows, maxPerHour.toNat⟩
    let (admitted, limiter) := limiter.checkAndCountIn windowSecs sender batchSize.toNat nowSecs
    (some admitted, limiter.windows)
  cleanup windows nowSecs :=
    let limiter : ContentRateLimiter := ⟨windows, maxPerHour.toNat⟩
    (limiter.cleanupStaleIn windowSecs nowSecs).windows
  windowStart windows sender := (windows sender).map (·.windowStartSecs)

structure BackfillWindow where
  windowStartSecs : Nat
  requestCount : Nat
  bytesCount : Nat

/-- Counts requests and the bytes of their answers. -/
structure BackfillRateLimiter where
  windows : Key → Option BackfillWindow
  maxRequestsPerWindow : Nat
  maxBytesPerWindow : Nat

namespace BackfillRateLimiter

section

variable (windowSecs : Nat) (limiter : BackfillRateLimiter)

/-- Both calls begin with this. -/
def openEntry (sender : Key) (nowSecs : Nat) : BackfillWindow :=
  let entry := (limiter.windows sender).getD ⟨nowSecs, 0, 0⟩
  if windowSecs ≤ nowSecs - entry.windowStartSecs then ⟨nowSecs, 0, 0⟩ else entry

def store (limiter : BackfillRateLimiter) (sender : Key) (entry : BackfillWindow) : BackfillRateLimiter :=
  { limiter with windows := update limiter.windows sender (some entry) }

def tryAdmitIn (sender : Key) (nowSecs : Nat) : Bool × BackfillRateLimiter :=
  let entry := limiter.openEntry windowSecs sender nowSecs
  if limiter.maxRequestsPerWindow ≤ entry.requestCount then
    (false, limiter.store sender entry)
  else if limiter.maxBytesPerWindow ≤ entry.bytesCount then
    (false, limiter.store sender entry)
  else
    (true, limiter.store sender { entry with requestCount := min (entry.requestCount + 1) (2 ^ 32 - 1) })

def chargeBytesIn (sender : Key) (bytes nowSecs : Nat) : BackfillRateLimiter :=
  let entry := limiter.openEntry windowSecs sender nowSecs
  limiter.store sender { entry with bytesCount := min (entry.bytesCount + bytes) (2 ^ 64 - 1) }

def cleanupStaleIn (nowSecs : Nat) : BackfillRateLimiter :=
  { limiter with
    windows := fun sender =>
      (limiter.windows sender).filter fun entry => nowSecs - entry.windowStartSecs < windowSecs }

end

/-- The window of the deployed limiter is a minute. -/
def tryAdmitAt : BackfillRateLimiter → Key → Nat → Bool × BackfillRateLimiter :=
  tryAdmitIn 60

def chargeBytesAt : BackfillRateLimiter → Key → Nat → Nat → BackfillRateLimiter :=
  chargeBytesIn 60

inductive Call where
  | tryAdmit
  | chargeBytes (bytes : UInt64)

/-- A charge is not answered. -/
def steps (windowSecs : Nat) (maxRequestsPerWindow : UInt32) (maxBytesPerWindow : UInt64) :
    Limiter (Key → Option BackfillWindow) Key Call where
  serve windows nowSecs sender
    | .tryAdmit =>
      let limiter : BackfillRateLimiter := ⟨windows, maxRequestsPerWindow.toNat, maxBytesPerWindow.toNat⟩
      let (admitted, limiter) := limiter.tryAdmitIn windowSecs sender nowSecs
      (some admitted, limiter.windows)
    | .chargeBytes bytes =>
      let limiter : BackfillRateLimiter := ⟨windows, maxRequestsPerWindow.toNat, maxBytesPerWindow.toNat⟩
      (none, (limiter.chargeBytesIn windowSecs sender bytes.toNat nowSecs).windows)
  cleanup windows nowSecs :=
    let limiter : BackfillRateLimiter := ⟨windows, maxRequestsPerWindow.toNat, maxBytesPerWindow.toNat⟩
    (limiter.cleanupStaleIn windowSecs nowSecs).windows
  windowStart windows sender := (windows sender).map (·.windowStartSecs)

def units : Call → Nat
  | .tryAdmit => 1
  | .chargeBytes _ => 0

end BackfillRateLimiter

section Challenges

variable {Ip : Type} [DecidableEq Ip]

/-- The step that both maps share. -/
def admitIn {K : Type} [DecidableEq K] (windowSecs : Nat) (map : K → Option WindowState) (key : K)
    (nowSecs maxPerWindow : Nat) : Bool × (K → Option WindowState) :=
  let entry := (map key).getD ⟨nowSecs, 0⟩
  let entry := if windowSecs ≤ nowSecs - entry.windowStartSecs then ⟨nowSecs, 0⟩ else entry
  if maxPerWindow ≤ entry.count then
    (false, update map key (some entry))
  else
    (true, update map key (some { entry with count := min (entry.count + 1) (2 ^ 32 - 1) }))

/-- Counts challenges by the address that asks and by the key asked about. -/
structure PriorHomeChallengeRateLimiter (Ip : Type) where
  ips : Ip → Option WindowState
  keys : Key → Option WindowState
  maxPerIpPerWindow : Nat
  maxPerKeyPerWindow : Nat

namespace PriorHomeChallengeRateLimiter

section

variable (windowSecs : Nat) (limiter : PriorHomeChallengeRateLimiter Ip)

def tryAdmitIpIn (ip : Ip) (nowSecs : Nat) : Bool × PriorHomeChallengeRateLimiter Ip :=
  let (admitted, ips) := admitIn windowSecs limiter.ips ip nowSecs limiter.maxPerIpPerWindow
  (admitted, { limiter with ips })

def tryAdmitKeyIn (key : Key) (nowSecs : Nat) : Bool × PriorHomeChallengeRateLimiter Ip :=
  let (admitted, keys) := admitIn windowSecs limiter.keys key nowSecs limiter.maxPerKeyPerWindow
  (admitted, { limiter with keys })

def cleanupStaleIn (nowSecs : Nat) : PriorHomeChallengeRateLimiter Ip :=
  { limiter with
    ips := retainLive windowSecs nowSecs limiter.ips
    keys := retainLive windowSecs nowSecs limiter.keys }

end

/-- An address and a key are counted apart. -/
def steps (Ip : Type) [DecidableEq Ip] (windowSecs : Nat) (maxPerIpPerWindow maxPerKeyPerWindow : UInt32) :
    Limiter ((Ip → Option WindowState) × (Key → Option WindowState)) (Ip ⊕ Key) Unit where
  serve maps nowSecs source _ :=
    let limiter : PriorHomeChallengeRateLimiter Ip :=
      ⟨maps.1, maps.2, maxPerIpPerWindow.toNat, maxPerKeyPerWindow.toNat⟩
    let (admitted, limiter) :=
      match source with
      | .inl ip => limiter.tryAdmitIpIn windowSecs ip nowSecs
      | .inr key => limiter.tryAdmitKeyIn windowSecs key nowSecs
    (some admitted, limiter.ips, limiter.keys)
  cleanup maps nowSecs :=
    let limiter : PriorHomeChallengeRateLimiter Ip :=
      ⟨maps.1, maps.2, maxPerIpPerWindow.toNat, maxPerKeyPerWindow.toNat⟩
    let limiter := limiter.cleanupStaleIn windowSecs nowSecs
    (limiter.ips, limiter.keys)
  windowStart maps source := (source.elim maps.1 maps.2).map (·.windowStartSecs)

end PriorHomeChallengeRateLimiter

end Challenges

def WindowState.tallied (entry : WindowState) : TallyWindow Nat :=
  ⟨entry.windowStartSecs, entry.count⟩

def tallies {K : Type} (windows : K → Option WindowState) : K → Option (TallyWindow Nat) :=
  fun key => (windows key).map WindowState.tallied

def requestMeter {Peer Call : Type} (cap : Peer → UInt32) : Meter Peer Call Nat where
  empty := 0
  free _ := false
  weigh peer _ count :=
    if (cap peer).toNat ≤ count then (some false, count) else (some true, min (count + 1) (2 ^ 32 - 1))

/-- As many as the batch holds, all of them or none. -/
def batchMeter (maxPerHour : UInt32) : Meter Key UInt32 Nat where
  empty := 0
  free batchSize := batchSize.toNat = 0
  weigh _ batchSize count :=
    let newCount := min (count + batchSize.toNat) (2 ^ 32 - 1)
    if maxPerHour.toNat < newCount then (some false, count) else (some true, newCount)

/-- A request each, none once the answers have used up the bytes. -/
def backfillMeter (maxRequestsPerWindow : UInt32) (maxBytesPerWindow : UInt64) :
    Meter Key BackfillRateLimiter.Call (Nat × Nat) where
  empty := (0, 0)
  free _ := false
  weigh _ call counts :=
    match call with
    | .tryAdmit =>
      if maxRequestsPerWindow.toNat ≤ counts.1 then (some false, counts)
      else if maxBytesPerWindow.toNat ≤ counts.2 then (some false, counts)
      else (some true, min (counts.1 + 1) (2 ^ 32 - 1), counts.2)
    | .chargeBytes bytes => (none, counts.1, min (counts.2 + bytes.toNat) (2 ^ 64 - 1))

section Requests

variable {Peer Call : Type} (cap : Peer → UInt32)

theorem requestMeter_counts : (requestMeter cap : Meter Peer Call Nat).Counts (fun _ => 1)
    (fun peer => (cap peer).toNat) id where
  empty := rfl
  free := by simp [requestMeter]
  admits peer call count within answered := by
    have small := (cap peer).toNat_lt
    by_cases full : (cap peer).toNat ≤ count
    · simp [requestMeter, full] at answered
    · simp only [requestMeter, full, if_false, id]
      omega
  keeps peer call count turned := by
    by_cases full : (cap peer).toNat ≤ count
    · simp [requestMeter, full]
    · simp [requestMeter, full] at turned

theorem requestMeter_fits (peer : Peer) (call : Call) :
    ((requestMeter cap).weigh peer call (requestMeter cap : Meter Peer Call Nat).empty).1 ≠ some false ∨
      (requestMeter cap : Meter Peer Call Nat).Steady peer := by
  by_cases shut : (cap peer).toNat = 0
  · exact .inr fun call _ count another => by simp [requestMeter, shut]
  · exact .inl (by simp [requestMeter, shut])

theorem requestMeter_keeps (peer : Peer) (call : Call) (count : Nat)
    (turned : ((requestMeter cap).weigh peer call count).1 = some false) :
    ((requestMeter cap).weigh peer call count).2 = count := by
  by_cases full : (cap peer).toNat ≤ count
  · simp [requestMeter, full]
  · simp [requestMeter, full] at turned

end Requests

variable {maxPerHour : UInt32}

theorem batchMeter_counts (below : maxPerHour.toNat < 2 ^ 32 - 1) :
    (batchMeter maxPerHour).Counts UInt32.toNat (fun _ => maxPerHour.toNat) id where
  empty := rfl
  free := by simp [batchMeter]
  admits peer batchSize count within answered := by
    by_cases past : maxPerHour.toNat < min (count + batchSize.toNat) (2 ^ 32 - 1)
    · simp only [batchMeter, past, if_true] at answered
      cases answered
    · simp only [batchMeter, past, if_false, id]
      omega
  keeps peer batchSize count turned := by
    by_cases past : maxPerHour.toNat < min (count + batchSize.toNat) (2 ^ 32 - 1)
    · simp only [batchMeter, past, if_true, id]
    · simp only [batchMeter, past, if_false] at turned
      exact absurd rfl turned

theorem batchMeter_fits (peer : Key) (batchSize : UInt32) (fits : batchSize ≤ maxPerHour ∨ maxPerHour = 0) :
    ((batchMeter maxPerHour).weigh peer batchSize (batchMeter maxPerHour).empty).1 ≠ some false ∨
      (batchMeter maxPerHour).Steady peer := by
  obtain fits | rfl := fits
  · left
    have within : ¬maxPerHour.toNat < min (0 + batchSize.toNat) (2 ^ 32 - 1) := by
      have := UInt32.le_iff_toNat_le.mp fits
      omega
    simp only [batchMeter, within, if_false, ne_eq, some.injEq, Bool.true_eq_false, not_false_eq_true]
  · right
    intro batch weighed count another
    have some_ : batch.toNat ≠ 0 := by simpa [batchMeter] using weighed
    have past : ∀ count, (0 : UInt32).toNat < min (count + batch.toNat) (2 ^ 32 - 1) := by
      intro count
      have : (0 : UInt32).toNat = 0 := rfl
      omega
    simp only [batchMeter, past, if_true]

theorem batchMeter_keeps (peer : Key) (batchSize : UInt32) (count : Nat)
    (turned : ((batchMeter maxPerHour).weigh peer batchSize count).1 = some false) :
    ((batchMeter maxPerHour).weigh peer batchSize count).2 = count := by
  by_cases past : maxPerHour.toNat < min (count + batchSize.toNat) (2 ^ 32 - 1)
  · simp only [batchMeter, past, if_true]
  · simp only [batchMeter, past, if_false] at turned
    cases turned

section Backfills

variable {maxRequestsPerWindow : UInt32} {maxBytesPerWindow : UInt64}

theorem backfillMeter_counts : (backfillMeter maxRequestsPerWindow maxBytesPerWindow).Counts BackfillRateLimiter.units
      (fun _ => maxRequestsPerWindow.toNat) Prod.fst where
  empty := rfl
  free := by simp [backfillMeter]
  admits peer call counts within answered := by
    have small := maxRequestsPerWindow.toNat_lt
    cases call with
    | chargeBytes bytes => simp [backfillMeter] at answered
    | tryAdmit =>
      simp only [backfillMeter] at answered ⊢
      split at answered
      · cases answered
      · split at answered
        · cases answered
        · simp only [*, if_false, BackfillRateLimiter.units]
          omega
  keeps peer call counts turned := by
    cases call with
    | chargeBytes bytes => rfl
    | tryAdmit =>
      simp only [backfillMeter] at turned ⊢
      split at turned
      · simp only [*, if_true]
      · split at turned
        · simp only [*, if_true, if_false]
        · exact absurd rfl turned

theorem backfillMeter_fits (peer : Key) (call : BackfillRateLimiter.Call) :
    ((backfillMeter maxRequestsPerWindow maxBytesPerWindow).weigh peer call
        (backfillMeter maxRequestsPerWindow maxBytesPerWindow).empty).1 ≠ some false ∨
      (backfillMeter maxRequestsPerWindow maxBytesPerWindow).Steady peer := by
  by_cases shut : maxRequestsPerWindow.toNat = 0 ∨ maxBytesPerWindow.toNat = 0
  · right
    intro call _ counts another
    cases call with
    | chargeBytes bytes => rfl
    | tryAdmit =>
      obtain shut | shut := shut <;> simp [backfillMeter, shut]
  · left
    rw [not_or] at shut
    cases call with
    | chargeBytes bytes => simp [backfillMeter]
    | tryAdmit => simp [backfillMeter, shut.1, shut.2]

theorem backfillMeter_keeps (peer : Key) (call : BackfillRateLimiter.Call) (counts : Nat × Nat)
    (turned : ((backfillMeter maxRequestsPerWindow maxBytesPerWindow).weigh peer call counts).1 = some false) :
    ((backfillMeter maxRequestsPerWindow maxBytesPerWindow).weigh peer call counts).2 = counts := by
  cases call with
  | chargeBytes bytes => cases turned
  | tryAdmit =>
    simp only [backfillMeter] at turned ⊢
    split at turned
    · simp only [*, if_true]
    · split at turned
      · simp only [*, if_true, if_false]
      · cases turned

end Backfills

theorem tallies_update {K : Type} [DecidableEq K] (windows : K → Option WindowState) (key : K) (entry : WindowState) :
    tallies (update windows key (some entry)) = update (tallies windows) key (some entry.tallied) := by
  funext other
  by_cases same : other = key
  · subst same
    simp [tallies]
  · simp [tallies, same]

theorem tallies_retainLive {K : Type} (windowSecs nowSecs : Nat) (windows : K → Option WindowState) :
    tallies (retainLive windowSecs nowSecs windows) =
      fun key => (tallies windows key).filter fun window => nowSecs - window.start < windowSecs := by
  funext key
  cases held : windows key with
  | none => simp [tallies, retainLive, held]
  | some entry =>
    by_cases live : nowSecs - entry.windowStartSecs < windowSecs <;>
      simp [tallies, retainLive, held, WindowState.tallied, filter_some, live]

theorem current_tallies {K Peer Call : Type} (meter : Meter Peer Call Nat) (zero : meter.empty = 0)
    (windows : K → Option WindowState) (windowSecs nowSecs : Nat) (key : K) :
    meter.current windowSecs nowSecs (tallies windows key) =
      (if windowSecs ≤ nowSecs - ((windows key).getD ⟨nowSecs, 0⟩).windowStartSecs then ⟨nowSecs, 0⟩
        else (windows key).getD ⟨nowSecs, 0⟩ : WindowState).tallied := by
  cases held : windows key with
  | none => simp [tallies, held, Meter.current, WindowState.tallied, zero]
  | some entry =>
    by_cases expired : windowSecs ≤ nowSecs - entry.windowStartSecs <;>
      simp [tallies, held, Meter.current, WindowState.tallied, zero, expired]

theorem PushRateLimiter.steps_simulates (windowSecs : Nat) (cap : UInt32) :
    (PushRateLimiter.steps windowSecs cap).Simulates
      (Meter.limiter (requestMeter fun _ => cap) windowSecs) tallies where
  serve windows nowSecs sender call := by
    have current : (requestMeter fun _ : Key => cap).current windowSecs nowSecs (tallies windows sender) =
        (openWindow windows windowSecs sender nowSecs).tallied :=
      current_tallies (requestMeter fun _ : Key => cap : Meter Key Unit Nat) rfl windows windowSecs nowSecs sender
    rw [Lib.serve_weighed (by simp [requestMeter])]
    simp only [Meter.weighIn, current, PushRateLimiter.steps, PushRateLimiter.tryAdmitIn]
    generalize openWindow windows windowSecs sender nowSecs = entry
    by_cases full : cap.toNat ≤ entry.count <;> simp [requestMeter, WindowState.tallied, full, tallies_update]
  cleanup windows nowSecs := (tallies_retainLive windowSecs nowSecs windows).symm
  windowStart windows sender := by
    cases held : windows sender <;> simp [Meter.limiter, tallies, PushRateLimiter.steps, held, WindowState.tallied]

theorem ContentRateLimiter.steps_simulates (windowSecs : Nat) (cap : UInt32) :
    (ContentRateLimiter.steps windowSecs cap).Simulates ((batchMeter cap).limiter windowSecs) tallies where
  serve windows nowSecs sender batchSize := by
    by_cases none_ : batchSize.toNat = 0
    · rw [Lib.serve_free (by simp [batchMeter, none_])]
      simp [ContentRateLimiter.steps, ContentRateLimiter.checkAndCountIn, none_]
    · have current : (batchMeter cap).current windowSecs nowSecs (tallies windows sender) =
          (openWindow windows windowSecs sender nowSecs).tallied :=
        current_tallies (batchMeter cap) rfl windows windowSecs nowSecs sender
      rw [Lib.serve_weighed (by simp [batchMeter, none_])]
      simp only [Meter.weighIn, current, ContentRateLimiter.steps, ContentRateLimiter.checkAndCountIn, none_, if_false]
      generalize openWindow windows windowSecs sender nowSecs = entry
      by_cases past : cap.toNat < min (entry.count + batchSize.toNat) (2 ^ 32 - 1)
      · simp only [batchMeter, WindowState.tallied, past, if_true, tallies_update]
      · simp only [batchMeter, WindowState.tallied, past, if_false, tallies_update]
  cleanup windows nowSecs := (tallies_retainLive windowSecs nowSecs windows).symm
  windowStart windows sender := by
    cases held : windows sender <;> simp [Meter.limiter, tallies, ContentRateLimiter.steps, held, WindowState.tallied]

def BackfillWindow.tallied (entry : BackfillWindow) : TallyWindow (Nat × Nat) :=
  ⟨entry.windowStartSecs, entry.requestCount, entry.bytesCount⟩

def backfillTallies (windows : Key → Option BackfillWindow) : Key → Option (TallyWindow (Nat × Nat)) :=
  fun sender => (windows sender).map BackfillWindow.tallied

theorem backfillTallies_update (windows : Key → Option BackfillWindow) (sender : Key) (entry : BackfillWindow) :
    backfillTallies (update windows sender (some entry)) =
      update (backfillTallies windows) sender (some entry.tallied) := by
  funext other
  by_cases same : other = sender
  · subst same
    simp [backfillTallies]
  · simp [backfillTallies, same]

theorem BackfillRateLimiter.openEntry_tallied (limiter : BackfillRateLimiter) (maxRequestsPerWindow : UInt32)
    (maxBytesPerWindow : UInt64) (windowSecs nowSecs : Nat) (sender : Key) :
    (backfillMeter maxRequestsPerWindow maxBytesPerWindow).current windowSecs nowSecs
        (backfillTallies limiter.windows sender) =
      (limiter.openEntry windowSecs sender nowSecs).tallied := by
  cases held : limiter.windows sender with
  | none =>
    simp [backfillTallies, held, Meter.current, BackfillWindow.tallied, backfillMeter, BackfillRateLimiter.openEntry]
  | some entry =>
    by_cases expired : windowSecs ≤ nowSecs - entry.windowStartSecs <;>
      simp [backfillTallies, held, Meter.current, BackfillWindow.tallied, backfillMeter,
        BackfillRateLimiter.openEntry, expired]

theorem BackfillRateLimiter.steps_simulates (windowSecs : Nat) (maxRequestsPerWindow : UInt32)
    (maxBytesPerWindow : UInt64) :
    (BackfillRateLimiter.steps windowSecs maxRequestsPerWindow maxBytesPerWindow).Simulates
      ((backfillMeter maxRequestsPerWindow maxBytesPerWindow).limiter windowSecs) backfillTallies where
  serve windows nowSecs sender call := by
    have current := BackfillRateLimiter.openEntry_tallied
      ⟨windows, maxRequestsPerWindow.toNat, maxBytesPerWindow.toNat⟩ maxRequestsPerWindow maxBytesPerWindow windowSecs
      nowSecs sender
    rw [Lib.serve_weighed (by simp [backfillMeter])]
    cases call with
    | chargeBytes bytes =>
      simp only [Meter.weighIn, current, BackfillRateLimiter.steps, BackfillRateLimiter.chargeBytesIn,
        BackfillRateLimiter.store, backfillTallies_update]
      rfl
    | tryAdmit =>
      simp only [Meter.weighIn, current, BackfillRateLimiter.steps, BackfillRateLimiter.tryAdmitIn,
        BackfillRateLimiter.store]
      generalize BackfillRateLimiter.openEntry windowSecs _ sender nowSecs = entry
      by_cases full : maxRequestsPerWindow.toNat ≤ entry.requestCount
      · simp [backfillMeter, BackfillWindow.tallied, full, backfillTallies_update]
      · by_cases spent : maxBytesPerWindow.toNat ≤ entry.bytesCount <;>
          simp [backfillMeter, BackfillWindow.tallied, full, spent, backfillTallies_update]
  cleanup windows nowSecs := by
    funext sender
    cases held : windows sender with
    | none => simp [Meter.limiter, backfillTallies, BackfillRateLimiter.steps, BackfillRateLimiter.cleanupStaleIn, held]
    | some entry =>
      by_cases live : nowSecs - entry.windowStartSecs < windowSecs <;>
        simp [Meter.limiter, backfillTallies, BackfillRateLimiter.steps, BackfillRateLimiter.cleanupStaleIn, held,
          BackfillWindow.tallied, filter_some, live]
  windowStart windows sender := by
    cases held : windows sender <;>
      simp [Meter.limiter, backfillTallies, BackfillRateLimiter.steps, held, BackfillWindow.tallied]

section Challenges

variable {Ip : Type} [DecidableEq Ip]

def challengeTallies (maps : (Ip → Option WindowState) × (Key → Option WindowState)) :
    Ip ⊕ Key → Option (TallyWindow Nat) :=
  Sum.elim (tallies maps.1) (tallies maps.2)

theorem admitIn_tallied {K Peer : Type} [DecidableEq K] [DecidableEq Peer] (cap : Peer → UInt32) (peer : Peer)
    (windowSecs nowSecs : Nat) (map : K → Option WindowState) (key : K) :
    let served := admitIn windowSecs map key nowSecs (cap peer).toNat
    let weighed := (requestMeter cap : Meter Peer Unit Nat).weighIn windowSecs nowSecs peer () (tallies map key)
    weighed.1 = some served.1 ∧ tallies served.2 = update (tallies map) key (some weighed.2) := by
  have current := current_tallies (requestMeter cap : Meter Peer Unit Nat) rfl map windowSecs nowSecs key
  simp only [Meter.weighIn, current, admitIn]
  generalize (if windowSecs ≤ nowSecs - ((map key).getD ⟨nowSecs, 0⟩).windowStartSecs then ⟨nowSecs, 0⟩
    else (map key).getD ⟨nowSecs, 0⟩ : WindowState) = entry
  by_cases full : (cap peer).toNat ≤ entry.count <;> simp [requestMeter, WindowState.tallied, full, tallies_update]

theorem PriorHomeChallengeRateLimiter.steps_simulates (windowSecs : Nat) (maxPerIp maxPerKey : UInt32) :
    (PriorHomeChallengeRateLimiter.steps Ip windowSecs maxPerIp maxPerKey).Simulates
      (Meter.limiter (requestMeter (Sum.elim (fun _ => maxPerIp) fun _ => maxPerKey)) windowSecs)
      challengeTallies where
  serve maps nowSecs source call := by
    rw [Lib.serve_weighed (by simp [requestMeter])]
    cases source with
    | inl ip =>
      obtain ⟨answer, map⟩ := admitIn_tallied (Sum.elim (fun _ : Ip => maxPerIp) fun _ : Key => maxPerKey) (.inl ip)
        windowSecs nowSecs maps.1 ip
      refine Prod.ext answer ?_
      exact (Sum.update_elim_inl ..).trans (congrArg (Sum.elim · (tallies maps.2)) map.symm)
    | inr key =>
      obtain ⟨answer, map⟩ := admitIn_tallied (Sum.elim (fun _ : Ip => maxPerIp) fun _ : Key => maxPerKey) (.inr key)
        windowSecs nowSecs maps.2 key
      refine Prod.ext answer ?_
      exact (Sum.update_elim_inr ..).trans (congrArg (Sum.elim (tallies maps.1)) map.symm)
  cleanup maps nowSecs := by
    funext source
    cases source <;> exact (congrFun (tallies_retainLive windowSecs nowSecs _) _).symm
  windowStart maps source := by
    obtain ip | key := source
    · cases held : maps.1 ip <;>
        simp [Meter.limiter, challengeTallies, tallies, PriorHomeChallengeRateLimiter.steps, held, WindowState.tallied]
    · cases held : maps.2 key <;>
        simp [Meter.limiter, challengeTallies, tallies, PriorHomeChallengeRateLimiter.steps, held, WindowState.tallied]

end Challenges

variable {Ip : Type} [DecidableEq Ip]

/-- What every limiter of the family keeps from a fresh start on. -/
structure Rationed {σ Peer Call : Type} [DecidableEq Peer] (limiter : Limiter σ Peer Call) (start : σ)
    (neutralKind : Peer → Call → Prop) : Prop where
  rejection : limiter.RejectionNeutral start neutralKind
  apart : limiter.PeersApart start
  cleanup : limiter.CleanupNeutral start

theorem rationed_of_simulates {σ Peer Call Tally : Type} [DecidableEq Peer] {limiter : Limiter σ Peer Call}
    {meter : Meter Peer Call Tally} {windowSecs : Nat} {abs : σ → Peer → Option (TallyWindow Tally)} {start : σ}
    {kind : Peer → Call → Prop} (simulates : limiter.Simulates (meter.limiter windowSecs) abs)
    (fresh : abs start = fun _ => none)
    (keeps : ∀ peer call tally, (meter.weigh peer call tally).1 = some false → (meter.weigh peer call tally).2 = tally)
    (fits : ∀ peer call, kind peer call → (meter.weigh peer call meter.empty).1 ≠ some false ∨ meter.Steady peer) :
    Rationed limiter start kind where
  rejection := simulates.rejectionNeutral (by rw [fresh]; exact Meter.limiter_rejectionNeutral keeps fits)
  apart := simulates.peersApart (by rw [fresh]; exact meter.limiter_peersApart windowSecs)
  cleanup := simulates.cleanupNeutral (by rw [fresh]; exact meter.limiter_cleanupNeutral windowSecs)

/-- Each limiter admits at most its cap in a window and twice the cap in any interval of that length. What it rejects,
other peers and the cleanup change no later answer to a peer. The batch counter needs a cap that its sum can pass. -/
theorem limiters_ration (windowSecs : Nat) (cap keyCap : UInt32) (bytesCap : UInt64) :
    ((PushRateLimiter.steps windowSecs cap).Bounds (fun _ => none) windowSecs (fun _ => 1) (fun _ => cap.toNat) ∧
      Rationed (PushRateLimiter.steps windowSecs cap) (fun _ => none) fun _ _ => True) ∧
    ((cap.toNat < 2 ^ 32 - 1 →
        (ContentRateLimiter.steps windowSecs cap).Bounds (fun _ => none) windowSecs UInt32.toNat
          (fun _ => cap.toNat)) ∧
      Rationed (ContentRateLimiter.steps windowSecs cap) (fun _ => none)
        fun _ batchSize => batchSize ≤ cap ∨ cap = 0) ∧
    ((BackfillRateLimiter.steps windowSecs cap bytesCap).Bounds (fun _ => none) windowSecs BackfillRateLimiter.units
        (fun _ => cap.toNat) ∧
      Rationed (BackfillRateLimiter.steps windowSecs cap bytesCap) (fun _ => none) fun _ _ => True) ∧
    ((PriorHomeChallengeRateLimiter.steps Ip windowSecs cap keyCap).Bounds (fun _ => none, fun _ => none) windowSecs
        (fun _ => 1) (Sum.elim (fun _ => cap.toNat) fun _ => keyCap.toNat) ∧
      Rationed (PriorHomeChallengeRateLimiter.steps Ip windowSecs cap keyCap) (fun _ => none, fun _ => none)
        fun _ _ => True) := by
  have push := PushRateLimiter.steps_simulates windowSecs cap
  have content := ContentRateLimiter.steps_simulates windowSecs cap
  have backfill := BackfillRateLimiter.steps_simulates windowSecs cap bytesCap
  have challenge := @PriorHomeChallengeRateLimiter.steps_simulates Ip _ windowSecs cap keyCap
  have none_ : challengeTallies ((fun _ => none, fun _ => none) : (Ip → _) × (Key → _)) = fun _ => none := by
    funext source
    cases source <;> rfl
  have caps : (fun peer : Ip ⊕ Key => (Sum.elim (fun _ => cap) (fun _ => keyCap) peer : UInt32).toNat) =
      Sum.elim (fun _ => cap.toNat) fun _ => keyCap.toNat := by
    funext source
    cases source <;> rfl
  refine ⟨⟨?_, ?_⟩, ⟨?_, ?_⟩, ⟨?_, ?_⟩, ?_, ?_⟩
  · exact push.bounds (requestMeter_counts _).bounds
  · exact rationed_of_simulates push rfl (requestMeter_keeps _) fun peer call _ => requestMeter_fits _ peer call
  · exact fun below => content.bounds (batchMeter_counts below).bounds
  · exact rationed_of_simulates content rfl batchMeter_keeps batchMeter_fits
  · exact backfill.bounds backfillMeter_counts.bounds
  · exact rationed_of_simulates backfill rfl backfillMeter_keeps fun peer call _ => backfillMeter_fits peer call
  · rw [← caps]
    exact challenge.bounds (by rw [none_]; exact (requestMeter_counts _).bounds)
  · exact rationed_of_simulates challenge none_ (requestMeter_keeps _) fun peer call _ => requestMeter_fits _ peer call

theorem content_batches_rationed : (3 : UInt32).toNat < 2 ^ 32 - 1 ∧
      (ContentRateLimiter.steps 3600 3).Bounds (fun _ => none) 3600 UInt32.toNat (fun _ => 3) :=
  ⟨by decide, (@limiters_ration Unit _ 3600 3 0 0).2.1.1 (by decide)⟩

/-- A batch above the cap is turned away and still opens the hour; and at the largest cap no batch
is ever turned away. -/
theorem oversize_batch_opens_window :
    ¬(ContentRateLimiter.steps 3600 1).RejectionNeutral (fun _ => none) (fun _ _ => True) ∧
      ¬(ContentRateLimiter.steps 3600 4294967295).Bounds (fun _ => none) 3600 UInt32.toNat (fun _ => 4294967295) := by
  constructor
  · intro neutral
    have same := neutral [] 0 0 2 [(3599, .call 0 1), (3600, .call 0 1)] (by decide) (by decide +kernel) trivial
    exact absurd same (by decide +kernel)
  · intro bounds
    have within := bounds.window [(0, .call 0 4294967295), (0, .call 0 4294967295)] (by decide) 0 0
    exact absurd within (by decide +kernel)

end Prismoire
