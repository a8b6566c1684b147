import Prismoire.OutboundAccounting
import Prismoire.Lib.Ledger

namespace Prismoire

open Lib Table

inductive DispatchOutcome
  | success
  | terminal4xx
  | transient
  deriving DecidableEq

/-- Where a drain worker stands: parked on its `Notify`, before one of its two checks, before
`take_batch`, before `mark_idle`, waiting for the answer to a request, before `requeue_front`, before
`mark_in_flight_false`, or before it leaves the wake-up to a timer. -/
inductive Stage
  | parked
  | woken
  | looping
  | taking
  | drained
  | dispatching (batch : List QueuedObject)
  | failed (batch : List QueuedObject)
  | requeued
  | backingOff
  deriving DecidableEq

/-- A running drain worker. -/
structure Worker where
  peer : Key
  wake : Nat
  stage : Stage := .parked

def Worker.batch (worker : Worker) : List QueuedObject :=
  match worker.stage with
  | .dispatching batch => batch
  | .failed batch => batch
  | _ => []

/-- What a call of `enqueue` or `drop_peer` still has to do after its lock section. -/
inductive Errand
  | spawn (peer : Key) (wake : Nat)
  | notify (wake : Nat)
  deriving DecidableEq

def Errand.task : Errand → Option (Key × Nat)
  | .spawn peer wake => some (peer, wake)
  | .notify _ => none

def OutboundQueuesState.queued (state : OutboundQueuesState) (peer : Key) : List QueuedObject :=
  match state.peers.get? peer with
  | none => []
  | some queue => queue.items

structure Dispatch where
  batch : List QueuedObject
  outcome : DispatchOutcome

/-- The queues, the running workers, the calls past their lock section, the backoff timers and the
stored permits, each by the `Notify` it belongs to. The last five fields record what happened. -/
structure System where
  queues : OutboundQueuesState := {}
  workers : List Worker := []
  errands : List Errand := []
  timers : List Nat := []
  permits : List Nat := []
  tickets : Nat := 0
  accepted : List (Key × QueuedObject) := []
  dispatched : List (Key × Dispatch) := []
  stale : List (Key × QueuedObject) := []
  evicted : List (Key × QueuedObject) := []
  discarded : List (Key × QueuedObject × Nat) := []

/-- One step of one party: the lock section of a call, the next step of a call or of a worker, a
timer that fires, or a new order of the map. -/
inductive Event
  | enqueue (peer : Key) (path bodyKey : Text) (wireBytes : Bytes) (clock : Nat)
  | dropPeer (peer : Key)
  | proceed (errand : Nat)
  | timer (timer : Nat)
  | work (worker : Nat) (clock : Nat → Nat) (outcome : DispatchOutcome)
  | rehash (order : Table Key PeerQueue)

namespace System

variable (config : OutboundQueueConfig) (system : System)

def enqueue (peer : Key) (path bodyKey : Text) (wireBytes : Bytes) (clock : Nat) : System :=
  let object : QueuedObject := { path, bodyKey, wireBytes, enqueuedAt := clock, ticket := system.tickets }
  match system.queues.enqueue config peer object with
  | (queues, evicted, answer) =>
    let system : System := { system with
      queues := queues
      tickets := system.tickets + 1
      evicted := system.evicted ++ evicted }
    match answer with
    | none => system
    | some (spawnNeeded, wake) => { system with
        accepted := system.accepted ++ [(peer, object)]
        errands := system.errands ++ [if spawnNeeded then .spawn peer wake else .notify wake] }

def dropPeer (peer : Key) : System :=
  match system.queues.dropPeer system.tickets peer with
  | (queues, none) => { system with
      queues := queues }
  | (queues, some wake) => { system with
      queues := queues
      errands := system.errands ++ [.notify wake] }

def notifyOne (wake : Nat) : System :=
  { system with
    permits := system.permits.insert wake }

def proceed (i : Nat) : System :=
  match system.errands[i]? with
  | none => system
  | some (.spawn peer wake) => { system with
      workers := system.workers ++ [{ peer, wake }]
      errands := system.errands.set i (.notify wake) }
  | some (.notify wake) => { system.notifyOne wake with
      errands := system.errands.eraseIdx i }

def fire (i : Nat) : System :=
  match system.timers[i]? with
  | none => system
  | some wake => { system.notifyOne wake with
      timers := system.timers.eraseIdx i }

def goTo (i : Nat) (worker : Worker) (stage : Stage) : System :=
  { system with
    workers := system.workers.set i { worker with
      stage := stage } }

def check (i : Nat) (worker : Worker) (stage : Stage) : System :=
  match system.queues.checkAndRemoveIfStopped worker.peer with
  | (false, _, queues) => ({ system with
      queues := queues } : System).goTo i worker stage
  | (true, none, queues) => { system with
      queues := queues
      workers := system.workers.eraseIdx i }
  | (true, some removed, queues) => { system with
      queues := queues
      workers := system.workers.eraseIdx i
      discarded := system.discarded ++ removed.items.map fun object => (worker.peer, object, removed.droppedAt) }

def finish (i : Nat) (worker : Worker) (batch : List QueuedObject) (outcome : DispatchOutcome) : System :=
  ({ system with
    dispatched := system.dispatched ++ [(worker.peer, ⟨batch, outcome⟩)] } : System).goTo i worker
      (if outcome = .transient then .failed batch else .looping)

/-- The next step of a worker; `clock` and `outcome` are what it would read from the clock, at
every look, and get as the answer to its request. -/
def work (i : Nat) (clock : Nat → Nat) (outcome : DispatchOutcome) : System :=
  match system.workers[i]? with
  | none => system
  | some worker =>
    match worker.stage with
    | .parked =>
      if worker.wake ∈ system.permits then
        ({ system with
          permits := system.permits.filter (· ≠ worker.wake) } : System).goTo i worker .woken
      else
        system
    | .woken => system.check i worker .looping
    | .looping => system.check i worker .taking
    | .taking =>
      match system.queues.takeBatch config clock worker.peer with
      | (batch, stale, queues) => ({ system with
          queues := queues
          stale := system.stale ++ stale.map fun object => (worker.peer, object) } : System).goTo i worker
            (if batch.isEmpty then .drained else .dispatching batch)
    | .drained => ({ system with
        queues := system.queues.markIdle worker.peer } : System).goTo i worker .parked
    | .dispatching batch => system.finish i worker batch outcome
    | .failed batch => ({ system with
        queues := system.queues.requeueFront worker.peer batch } : System).goTo i worker .requeued
    | .requeued => ({ system with
        queues := system.queues.markInFlightFalse worker.peer } : System).goTo i worker .backingOff
    | .backingOff => ({ system with
        timers := system.timers ++ [worker.wake] } : System).goTo i worker .parked

def step : Event → System
  | .enqueue peer path bodyKey wireBytes clock => system.enqueue config peer path bodyKey wireBytes clock
  | .dropPeer peer => system.dropPeer peer
  | .proceed i => system.proceed i
  | .timer i => system.fire i
  | .work i clock outcome => system.work config i clock outcome
  | .rehash order => { system with
      queues := system.queues.rehash order }

def run (events : List Event) : System :=
  events.foldl (fun system event => system.step config event) system

def held (peer : Key) : List QueuedObject :=
  (system.workers.filter (·.peer = peer)).flatMap Worker.batch

/-- The objects of a peer in requests with one outcome, in the order of the requests. -/
def sent (outcome : DispatchOutcome) (peer : Key) : List QueuedObject :=
  ((valuesAt system.dispatched peer).filter (·.outcome = outcome)).flatMap Dispatch.batch

def ledger (peer : Key) : Ledger QueuedObject where
  accepted := valuesAt system.accepted peer
  queued := system.queues.queued peer
  inFlight := system.held peer
  delivered := system.sent .success peer
  refused := system.sent .terminal4xx peer
  stale := valuesAt system.stale peer
  evicted := valuesAt system.evicted peer
  discarded := (valuesAt system.discarded peer).map Prod.fst

/-- The workers that run and those that a call is about to spawn. -/
def tasks : Table Key Nat :=
  system.workers.map (fun worker => (worker.peer, worker.wake)) ++ system.errands.filterMap Errand.task

def Signalled (wake : Nat) : Prop :=
  wake ∈ system.permits ∨ Errand.notify wake ∈ system.errands ∨ wake ∈ system.timers

instance (wake : Nat) : Decidable (system.Signalled wake) :=
  inferInstanceAs (Decidable (_ ∨ _ ∨ _))

end System

end Prismoire
