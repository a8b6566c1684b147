import Prismoire.DrainWorkers

namespace Prismoire

open Lib List

/-- The `Notify` of a peer's entry, and whether a worker was spawned for it. -/
def OutboundQueuesState.shape (state : OutboundQueuesState) (peer : Key) : Option (Nat × Bool) :=
  (state.peers.get? peer).map fun queue => (queue.wake, queue.workerSpawned)

/-- Every entry with the spawn flag up has exactly one worker, which runs or is about to be spawned
with the entry's `Notify`. -/
structure Staffed (system : System) : Prop where
  keyed : Table.Keyed system.tasks
  fresh : ∀ {peer wake spawned}, system.queues.shape peer = some (wake, spawned) → wake < system.queues.nextWake
  apart : ∀ {peer other wake spawned otherSpawned}, system.queues.shape peer = some (wake, spawned) →
    system.queues.shape other = some (wake, otherSpawned) → peer = other
  owned : ∀ {peer wake}, (peer, wake) ∈ system.tasks ↔ system.queues.shape peer = some (wake, true)

/-- What one step can do to a system whose workers all have their entry. -/
inductive Change (config : OutboundQueueConfig) (system : System) : Event → System → Prop
  | stayed (event : Event) : Change config system event system
  | rehashed {order : Table Key PeerQueue} (perm : order.Perm system.queues.peers) :
      Change config system (.rehash order) { system with
        queues := { system.queues with
          peers := order } }
  | refused {peer : Key} {mid : OutboundQueuesState} {dropped : List (Key × QueuedObject)}
      {path bodyKey : Text} {wireBytes : Bytes} {clock : Nat}
      (shed : Shed (system.queues.ensureEntry peer) mid dropped) :
      Change config system (.enqueue peer path bodyKey wireBytes clock) { system with
        queues := mid
        tickets := system.tickets + 1
        evicted := system.evicted ++ dropped }
  | accepted {peer : Key} {mid : OutboundQueuesState} {dropped : List (Key × QueuedObject)} {queue : PeerQueue}
      {object : QueuedObject} {path bodyKey : Text} {wireBytes : Bytes} {clock : Nat}
      (shed : Shed (system.queues.ensureEntry peer) mid dropped)
      (found : mid.peers.get? peer = some queue) (ticket : object.ticket = system.tickets)
      (count : 0 < config.objectsPerPeer → queue.items.length + 1 ≤ config.objectsPerPeer)
      (bytes : sizes queue.items + object.size ≤ config.bytesPerPeer)
      (total : mid.totalBytes.value + object.size ≤ config.totalBytes) :
      Change config system (.enqueue peer path bodyKey wireBytes clock) { system with
        queues := mid.push peer object
        tickets := system.tickets + 1
        evicted := system.evicted ++ dropped
        accepted := system.accepted ++ [(peer, object)]
        errands := system.errands ++ [if !queue.workerSpawned then .spawn peer queue.wake else .notify queue.wake] }
  | dropped {peer : Key} {queue : PeerQueue} (found : system.queues.peers.get? peer = some queue) :
      Change config system (.dropPeer peer) { system with
        queues := { system.queues with
          peers := system.queues.peers.modify peer fun queue => { queue with
            stopped := true
            droppedAt := system.tickets } }
        errands := system.errands ++ [.notify queue.wake] }
  | spawned {i : Nat} {peer : Key} {wake : Nat} (errand : system.errands[i]? = some (.spawn peer wake)) :
      Change config system (.proceed i) { system with
        workers := system.workers ++ [{ peer, wake }]
        errands := system.errands.set i (.notify wake) }
  | notified {i wake : Nat} (errand : system.errands[i]? = some (.notify wake)) :
      Change config system (.proceed i) { system.notifyOne wake with
        errands := system.errands.eraseIdx i }
  | fired {i wake : Nat} (timer : system.timers[i]? = some wake) :
      Change config system (.timer i) { system.notifyOne wake with
        timers := system.timers.eraseIdx i }
  | woke {i : Nat} {clock : Nat → Nat} {outcome : DispatchOutcome} {worker : Worker}
      (mem : system.workers[i]? = some worker) (parked : worker.stage = .parked) :
      Change config system (.work i clock outcome) (({ system with
        permits := system.permits.filter (· ≠ worker.wake) } : System).goTo i worker .woken)
  | checked {i : Nat} {clock : Nat → Nat} {outcome : DispatchOutcome} {worker : Worker} {stage : Stage}
      (mem : system.workers[i]? = some worker)
      (allowed : worker.stage = .woken ∧ stage = .looping ∨ worker.stage = .looping ∧ stage = .taking) :
      Change config system (.work i clock outcome) (system.goTo i worker stage)
  | exited {i : Nat} {clock : Nat → Nat} {outcome : DispatchOutcome} {worker : Worker} {queue : PeerQueue}
      (mem : system.workers[i]? = some worker)
      (quiet : worker.batch = []) (found : system.queues.peers.get? worker.peer = some queue)
      (stopped : queue.stopped = true) :
      Change config system (.work i clock outcome) { system with
        queues := { system.queues with
          peers := system.queues.peers.remove worker.peer
          totalBytes := system.queues.totalBytes.sub queue.bytes.value }
        workers := system.workers.eraseIdx i
        discarded := system.discarded ++ queue.items.map fun object => (worker.peer, object, queue.droppedAt) }
  | took {i : Nat} {clock : Nat → Nat} {outcome : DispatchOutcome} {worker : Worker} {queue : PeerQueue}
      {batch stale kept : List QueuedObject}
      {after : OutboundQueuesState} (mem : system.workers[i]? = some worker) (taking : worker.stage = .taking)
      (found : system.queues.peers.get? worker.peer = some queue)
      (taken : Taken config.maxBatch none queue.items batch stale kept) (accounted : Accounted after)
      (wakes : after.nextWake = system.queues.nextWake)
      (total : after.totalBytes.value ≤ system.queues.totalBytes.value)
      (peers : after.peers = system.queues.peers.modify worker.peer fun queue => { queue.holding kept with
        inFlight := queue.inFlight || !batch.isEmpty }) :
      Change config system (.work i clock outcome) (({ system with
        queues := after
        stale := system.stale ++ stale.map fun object => (worker.peer, object) } : System).goTo i worker
          (if batch.isEmpty then .drained else .dispatching batch))
  | idled {i : Nat} {clock : Nat → Nat} {outcome : DispatchOutcome} {worker : Worker} {stage : Stage}
      (mem : system.workers[i]? = some worker)
      (allowed : worker.stage = .drained ∧ stage = .parked ∨ worker.stage = .requeued ∧ stage = .backingOff) :
      Change config system (.work i clock outcome) (({ system with
        queues := system.queues.markInFlightFalse worker.peer } : System).goTo i worker stage)
  | answered {i : Nat} {clock : Nat → Nat} {worker : Worker} {batch : List QueuedObject}
      (mem : system.workers[i]? = some worker)
      (dispatching : worker.stage = .dispatching batch) (outcome : DispatchOutcome) :
      Change config system (.work i clock outcome) (system.finish i worker batch outcome)
  | requeued {i : Nat} {clock : Nat → Nat} {outcome : DispatchOutcome} {worker : Worker} {queue : PeerQueue}
      {batch : List QueuedObject}
      (mem : system.workers[i]? = some worker) (failed : worker.stage = .failed batch)
      (found : system.queues.peers.get? worker.peer = some queue) :
      Change config system (.work i clock outcome) (({ system with
        queues := system.queues.requeueFront worker.peer batch } : System).goTo i worker .requeued)
  | backedOff {i : Nat} {clock : Nat → Nat} {outcome : DispatchOutcome} {worker : Worker}
      (mem : system.workers[i]? = some worker)
      (backing : worker.stage = .backingOff) :
      Change config system (.work i clock outcome) (({ system with
        timers := system.timers ++ [worker.wake] } : System).goTo i worker .parked)

variable {system : System} (config : OutboundQueueConfig)

variable {worker : Worker}

theorem Staffed.task (staffed : Staffed system) (mem : worker ∈ system.workers) :
    system.queues.shape worker.peer = some (worker.wake, true) :=
  staffed.owned.mp (mem_append_left _ (mem_map.mpr ⟨worker, mem, rfl⟩))

theorem Staffed.entry (staffed : Staffed system) (mem : worker ∈ system.workers) :
    ∃ queue, system.queues.peers.get? worker.peer = some queue ∧ queue.wake = worker.wake ∧
      queue.workerSpawned = true := by
  obtain ⟨queue, found, shape⟩ := Option.map_eq_some_iff.mp (staffed.task mem)
  exact ⟨queue, found, congrArg Prod.fst shape, congrArg Prod.snd shape⟩

theorem change_of_enqueue (acc : Accounted system.queues) (peer : Key) (path bodyKey : Text) (wireBytes : Bytes)
    (clock : Nat) : Change config system (.enqueue peer path bodyKey wireBytes clock)
      (system.enqueue config peer path bodyKey wireBytes clock) := by
  obtain ⟨mid, dropped, queue, shed, found, refused | ⟨taken, count, bytes, total⟩⟩ := enqueue_cases config acc peer
    { path, bodyKey, wireBytes, enqueuedAt := clock, ticket := system.tickets }
  · simp only [System.enqueue, refused]
    exact .refused shed
  · simp only [System.enqueue, taken]
    exact .accepted shed found rfl count bytes total

theorem change_of_dropPeer (peer : Key) : Change config system (.dropPeer peer) (system.dropPeer peer) := by
  cases found : system.queues.peers.get? peer with
  | none =>
    simp only [System.dropPeer, OutboundQueuesState.dropPeer, found]
    exact .stayed _
  | some queue =>
    simp only [System.dropPeer, OutboundQueuesState.dropPeer, found]
    exact .dropped found

theorem change_of_proceed (i : Nat) : Change config system (.proceed i) (system.proceed i) := by
  rw [System.proceed]
  split
  · exact .stayed _
  · rename_i errand
    exact .spawned errand
  · rename_i errand
    exact .notified errand

theorem change_of_fire (i : Nat) : Change config system (.timer i) (system.fire i) := by
  rw [System.fire]
  split
  · exact .stayed _
  · rename_i timer
    exact .fired timer

theorem change_of_check (staffed : Staffed system) {i : Nat} {clock : Nat → Nat} {outcome : DispatchOutcome} {stage : Stage}
    (mem : system.workers[i]? = some worker)
    (allowed : worker.stage = .woken ∧ stage = .looping ∨ worker.stage = .looping ∧ stage = .taking) :
    Change config system (.work i clock outcome) (system.check i worker stage) := by
  obtain ⟨queue, found, -⟩ := staffed.entry (mem_of_getElem? mem)
  by_cases stopped : queue.stopped = true
  · have quiet : worker.batch = [] := by
      rcases allowed with ⟨stage, -⟩ | ⟨stage, -⟩ <;> simp only [Worker.batch, stage]
    simp only [System.check, OutboundQueuesState.checkAndRemoveIfStopped, found, stopped, if_true]
    exact .exited mem quiet found stopped
  · simp only [System.check, OutboundQueuesState.checkAndRemoveIfStopped, found, stopped, if_false,
      Bool.false_eq_true]
    exact .checked mem allowed

theorem change_of_work (acc : Accounted system.queues) (staffed : Staffed system) (i : Nat) (clock : Nat → Nat)
    (outcome : DispatchOutcome) : Change config system (.work i clock outcome) (system.work config i clock outcome) := by
  cases mem : system.workers[i]? with
  | none =>
    simp only [System.work, mem]
    exact .stayed _
  | some worker =>
    obtain ⟨queue, found, -⟩ := staffed.entry (mem_of_getElem? mem)
    cases stage : worker.stage with
    | parked =>
      simp only [System.work, mem, stage]
      split
      · exact .woke mem stage
      · exact .stayed _
    | woken =>
      simp only [System.work, mem, stage]
      exact change_of_check config staffed mem (.inl ⟨stage, rfl⟩)
    | looping =>
      simp only [System.work, mem, stage]
      exact change_of_check config staffed mem (.inr ⟨stage, rfl⟩)
    | taking =>
      obtain ⟨batch, stale, kept, after, taken, run, accounted, wakes, total, peers⟩ :=
        takeBatch_cases config acc clock found
      simp only [System.work, mem, stage, run]
      exact .took mem stage found taken accounted wakes total peers
    | drained =>
      simp only [System.work, mem, stage]
      exact .idled mem (.inl ⟨stage, rfl⟩)
    | dispatching batch =>
      simp only [System.work, mem, stage]
      exact .answered mem stage outcome
    | failed batch =>
      simp only [System.work, mem, stage]
      exact .requeued mem stage found
    | requeued =>
      simp only [System.work, mem, stage]
      exact .idled mem (.inr ⟨stage, rfl⟩)
    | backingOff =>
      simp only [System.work, mem, stage]
      exact .backedOff mem stage

theorem change_of_step (acc : Accounted system.queues) (staffed : Staffed system) (event : Event) :
    Change config system event (system.step config event) := by
  cases event with
  | enqueue peer path bodyKey wireBytes clock => exact change_of_enqueue config acc peer path bodyKey wireBytes clock
  | dropPeer peer => exact change_of_dropPeer config peer
  | proceed i => exact change_of_proceed config i
  | timer i => exact change_of_fire config i
  | work i clock outcome => exact change_of_work config acc staffed i clock outcome
  | rehash order =>
    simp only [System.step, OutboundQueuesState.rehash]
    split
    · rename_i perm
      exact .rehashed perm
    · exact .stayed _

end Prismoire
