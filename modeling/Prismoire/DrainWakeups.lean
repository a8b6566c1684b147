import Prismoire.DrainDelivery

namespace Prismoire

open Lib List Option Table

def OutboundQueuesState.flying (state : OutboundQueuesState) (peer : Key) : Bool :=
  (state.peers.get? peer).any (·.inFlight)

variable {dropped : List (Key × QueuedObject)}

section Flying

variable {state after : OutboundQueuesState} {peer other : Key} {queue : PeerQueue}

theorem flying_congr (same : after.peers.get? peer = state.peers.get? peer) : after.flying peer = state.flying peer := by
  rw [OutboundQueuesState.flying, same, OutboundQueuesState.flying]

theorem flying_of_found (found : state.peers.get? peer = some queue) : state.flying peer = queue.inFlight := by
  rw [OutboundQueuesState.flying, found, any_some]

theorem flying_flags (set : PeerQueue → PeerQueue) (same : ∀ queue, (set queue).inFlight = queue.inFlight)
    (peers : after.peers = state.peers.modify peer set) (other : Key) : after.flying other = state.flying other := by
  by_cases hit : other = peer
  · subst hit
    rw [OutboundQueuesState.flying, OutboundQueuesState.flying, peers, Table.get?_modify_self]
    cases state.peers.get? other with
    | none => rfl
    | some queue => exact same queue
  · exact flying_congr (by rw [peers, Table.get?_modify_other hit])

theorem Shed.flying (shed : Shed state after dropped) (peer : Key) :
    after.flying peer = state.flying peer := by
  cases found : state.peers.get? peer with
  | none => exact flying_congr ((shed.missing peer found).1.trans found.symm)
  | some queue =>
    obtain ⟨kept, -, foundAfter⟩ := shed.queue peer queue found
    rw [flying_of_found found, flying_of_found foundAfter]
    rfl

theorem flying_ensureEntry (state : OutboundQueuesState) (peer other : Key) :
    (state.ensureEntry peer).flying other = state.flying other := by
  by_cases same : other = peer
  · subst same
    obtain ⟨queue, found, eq⟩ | ⟨missing, found, -⟩ := ensureEntry_self state other
    · rw [eq]
    · rw [flying_of_found found, OutboundQueuesState.flying, missing]
      rfl
  · exact flying_congr (ensureEntry_other same)

theorem flying_push (found : state.peers.get? peer = some queue) (object : QueuedObject) (other : Key) :
    (state.push peer object).flying other = state.flying other := by
  by_cases same : other = peer
  · subst same
    rw [flying_of_found (push_self found object), flying_of_found found]
  · exact flying_congr (push_other same object)

end Flying

/-- A worker that waits, or is about to, while its queue holds an object is going to be notified; a
worker with a batch has the flag of its entry up; and only entries with a worker hold objects. -/
structure Awake (system : System) : Prop where
  filled : ∀ {peer}, system.queues.queued peer ≠ [] → ∃ wake, system.queues.shape peer = some (wake, true)
  flights : ∀ worker ∈ system.workers, worker.batch ≠ [] → system.queues.flying worker.peer = true
  signalled : ∀ worker ∈ system.workers, worker.stage = .parked ∨ worker.stage = .drained →
    system.queues.queued worker.peer ≠ [] → system.Signalled worker.wake

variable {system after : System} {event : Event} {config : OutboundQueueConfig} {i : Nat} {worker : Worker}
  {stage : Stage}

theorem Staffed.goTo_cases (staffed : Staffed system) (mem : system.workers[i]? = some worker) {other : Worker}
    (inAfter : other ∈ (system.goTo i worker stage).workers) :
    other = { worker with
      stage := stage } ∨ other ∈ system.workers ∧ other.peer ≠ worker.peer := by
  by_cases same : other.peer = worker.peer
  · exact .inl ((staffed.goTo mem stage).workers.eq inAfter (mem_goTo mem stage) same)
  · rcases mem_or_eq_of_mem_set inAfter with old | rfl
    · exact .inr ⟨old, same⟩
    · exact absurd rfl same

theorem Staffed.exit_cases (staffed : Staffed system) (mem : system.workers[i]? = some worker) {other : Worker}
    (inAfter : other ∈ system.workers.eraseIdx i) : other ∈ system.workers ∧ other.peer ≠ worker.peer := by
  refine ⟨mem_of_mem_eraseIdx inAfter, ?_⟩
  have unique := staffed.workers
  rw [UniqueBy, ((perm_cons_eraseIdx mem).map Worker.peer).nodup_iff] at unique
  intro same
  exact (nodup_cons.mp unique).1 (List.mem_map.mpr ⟨other, inAfter, same⟩)

theorem Signalled.mono {wake : Nat} (signalled : system.Signalled wake)
    (permits : wake ∈ system.permits → wake ∈ after.permits)
    (errands : .notify wake ∈ system.errands → wake ∈ after.permits ∨ .notify wake ∈ after.errands)
    (timers : wake ∈ system.timers → wake ∈ after.permits ∨ wake ∈ after.timers) : after.Signalled wake := by
  rcases signalled with permit | errand | timer
  · exact .inl (permits permit)
  · rcases errands errand with permit | errand
    · exact .inl permit
    · exact .inr (.inl errand)
  · rcases timers timer with permit | timer
    · exact .inl permit
    · exact .inr (.inr timer)

theorem Awake.frame (awake : Awake system) (workers : after.workers = system.workers)
    (shapes : ∀ peer, after.queues.shape peer = system.queues.shape peer)
    (queued : ∀ peer, after.queues.queued peer = system.queues.queued peer)
    (flying : ∀ peer, after.queues.flying peer = system.queues.flying peer)
    (signals : ∀ wake, system.Signalled wake → after.Signalled wake) : Awake after where
  filled := by
    intro peer some
    rw [queued] at some
    rw [shapes]
    exact awake.filled some
  flights := by
    rw [workers]
    intro worker mem some
    rw [flying]
    exact awake.flights worker mem some
  signalled := by
    rw [workers]
    intro worker mem waits some
    rw [queued] at some
    exact signals _ (awake.signalled worker mem waits some)

theorem Awake.worker_step (awake : Awake system) (staffed : Staffed system)
    (mem : system.workers[i]? = some worker) (workers : after.workers = (system.goTo i worker stage).workers)
    (shapes : ∀ peer, after.queues.shape peer = system.queues.shape peer)
    (frame : ∀ peer, peer ≠ worker.peer → after.queues.queued peer = system.queues.queued peer ∧
      after.queues.flying peer = system.queues.flying peer)
    (flying : Worker.batch { worker with
      stage := stage } ≠ [] → after.queues.flying worker.peer = true)
    (signalled : stage = .parked ∨ stage = .drained → after.queues.queued worker.peer ≠ [] →
      after.Signalled worker.wake)
    (others : ∀ wake, wake ≠ worker.wake → system.Signalled wake → after.Signalled wake) : Awake after where
  filled := by
    intro peer some
    rw [shapes]
    by_cases same : peer = worker.peer
    · exact ⟨worker.wake, same ▸ staffed.task (mem_of_getElem? mem)⟩
    · rw [(frame peer same).1] at some
      exact awake.filled some
  flights := by
    intro other inAfter some
    rw [workers] at inAfter
    rcases staffed.goTo_cases mem inAfter with rfl | ⟨old, apart⟩
    · exact flying some
    · rw [(frame other.peer apart).2]
      exact awake.flights other old some
  signalled := by
    intro other inAfter waits some
    rw [workers] at inAfter
    rcases staffed.goTo_cases mem inAfter with rfl | ⟨old, apart⟩
    · exact signalled waits some
    · have wakes : other.wake ≠ worker.wake := by
        intro same
        have shape := staffed.task (mem_of_getElem? mem)
        rw [← same] at shape
        exact apart (staffed.apart (staffed.task old) shape)
      rw [(frame other.peer apart).1] at some
      exact others other.wake wakes (awake.signalled other old waits some)

theorem shape_ensureEntry {state : OutboundQueuesState} {peer other : Key} {shape : Nat × Bool}
    (isShape : state.shape other = some shape) : (state.ensureEntry peer).shape other = some shape := by
  by_cases same : other = peer
  · subst same
    obtain ⟨queue, found, eq⟩ | ⟨missing, -⟩ := ensureEntry_self state other
    · rw [eq]
      exact isShape
    · rw [OutboundQueuesState.shape, missing] at isShape
      cases isShape
  · rw [OutboundQueuesState.shape, ensureEntry_other same]
    exact isShape

section

variable (awake : Awake system)
include awake

variable {peer : Key} {wake : Nat}

theorem Awake.shed {mid : OutboundQueuesState}
    (shed : Shed (system.queues.ensureEntry peer) mid dropped) :
    Awake { system with
      queues := mid
      tickets := system.tickets + 1
      evicted := system.evicted ++ dropped } := by
  have had : ∀ {other}, mid.queued other ≠ [] → system.queues.queued other ≠ [] := by
    intro other some none
    have split := shed.queued other
    rw [queued_ensureEntry, none] at split
    exact some (append_eq_nil_iff.mp split.symm).2
  refine ⟨?_, ?_, ?_⟩
  · intro other some
    obtain ⟨wake, shape⟩ := awake.filled (had some)
    exact ⟨wake, (shed.shape other).trans (shape_ensureEntry shape)⟩
  · intro worker mem some
    simp only [shed.flying, flying_ensureEntry]
    exact awake.flights worker mem some
  · intro worker mem waits some
    exact awake.signalled worker mem waits (had some)

theorem Awake.push (staffed : Staffed system) {queue : PeerQueue}
    (object : QueuedObject) (found : system.queues.peers.get? peer = some queue)
    (queues : after.queues = system.queues.push peer object) (workers : after.workers = system.workers)
    (permits : after.permits = system.permits) (timers : after.timers = system.timers)
    (errands : after.errands = system.errands ++
      [if !queue.workerSpawned then .spawn peer queue.wake else .notify queue.wake]) : Awake after := by
  have more : ∀ {wake}, system.Signalled wake → after.Signalled wake := by
    intro wake signalled
    refine Signalled.mono signalled (by rw [permits]; exact id) ?_ (by rw [timers]; exact .inr)
    intro errand
    rw [errands]
    exact .inr (mem_append_left _ errand)
  refine ⟨?_, ?_, ?_⟩
  · intro other some
    by_cases same : other = peer
    · refine ⟨queue.wake, ?_⟩
      rw [same, queues, OutboundQueuesState.shape, push_self found object, map_some]
    · rw [queues] at some ⊢
      rw [queued_congr (push_other same object)] at some
      rw [OutboundQueuesState.shape, push_other same object]
      exact awake.filled some
  · intro worker mem some
    rw [workers] at mem
    rw [queues, flying_push found]
    exact awake.flights worker mem some
  · intro worker mem waits some
    rw [workers] at mem
    by_cases same : worker.peer = peer
    · obtain ⟨own, foundOwn, isWake, spawned⟩ := staffed.entry mem
      rw [same] at foundOwn
      obtain rfl := Option.some.inj (found.symm.trans foundOwn)
      refine .inr (.inl ?_)
      rw [errands, spawned, ← isWake]
      exact mem_append_right _ (by simp)
    · rw [queues, queued_congr (push_other same object)] at some
      exact more (awake.signalled worker mem waits some)

theorem Awake.spawn (errand : system.errands[i]? = some (.spawn peer wake)) : Awake { system with
      workers := system.workers ++ [{ peer, wake }]
      errands := system.errands.set i (.notify wake) } := by
  obtain ⟨inside, isSpawn⟩ := List.getElem?_eq_some_iff.mp errand
  refine ⟨awake.filled, ?_, ?_⟩
  · exact forall_mem_concat.mpr ⟨awake.flights, fun some => absurd rfl some⟩
  · intro worker mem waits some
    rcases mem_concat.mp mem with old | new
    · refine Signalled.mono (awake.signalled worker old waits some) id ?_ .inr
      intro isNotify
      rcases mem_cons.mp ((perm_cons_eraseIdx errand).mem_iff.mp isNotify) with isSpawn | inRest
      · cases isSpawn
      · exact .inr ((set_perm_of_some errand _).mem_iff.mpr (mem_cons_of_mem _ inRest))
    · rw [new]
      exact .inr (.inl (mem_set inside _))

theorem Awake.notify (queues : after.queues = system.queues)
    (workers : after.workers = system.workers) (permits : after.permits = system.permits.insert wake)
    (errands : ∀ other, .notify other ∈ system.errands → other = wake ∨ .notify other ∈ after.errands)
    (timers : ∀ other ∈ system.timers, other = wake ∨ other ∈ after.timers) : Awake after := by
  have has : ∀ {other}, other = wake ∨ other ∈ system.permits → other ∈ after.permits := by
    intro other is
    rw [permits]
    exact mem_insert_iff.mpr is
  refine ⟨by rw [queues]; exact awake.filled, by rw [queues, workers]; exact awake.flights, ?_⟩
  intro worker mem waits some
  rw [workers] at mem
  rw [queues] at some
  refine Signalled.mono (awake.signalled worker mem waits some) (fun permit => has (.inr permit)) ?_ ?_
  · exact fun errand => (errands _ errand).imp_left fun same => has (.inl same)
  · exact fun timer => (timers _ timer).imp_left fun same => has (.inl same)

theorem Awake.exit (staffed : Staffed system) (mem : system.workers[i]? = some worker)
    (workers : after.workers = system.workers.eraseIdx i)
    (peers : after.queues.peers = system.queues.peers.remove worker.peer)
    (signals : ∀ wake, system.Signalled wake → after.Signalled wake) : Awake after := by
  have frame : ∀ {other}, other ≠ worker.peer → after.queues.peers.get? other = system.queues.peers.get? other := by
    intro other apart
    rw [peers, Table.get?_remove_other apart]
  refine ⟨?_, ?_, ?_⟩
  · intro other some
    have apart : other ≠ worker.peer := by
      rintro rfl
      exact some (queued_of_missing (by rw [peers, Table.get?_remove_self]))
    rw [queued_congr (frame apart)] at some
    rw [OutboundQueuesState.shape, frame apart]
    exact awake.filled some
  · intro other inAfter some
    rw [workers] at inAfter
    obtain ⟨old, apart⟩ := staffed.exit_cases mem inAfter
    rw [flying_congr (frame apart)]
    exact awake.flights other old some
  · intro other inAfter waits some
    rw [workers] at inAfter
    obtain ⟨old, apart⟩ := staffed.exit_cases mem inAfter
    rw [queued_congr (frame apart)] at some
    exact signals _ (awake.signalled other old waits some)

theorem Awake.change (consistent : Consistent system) (change : Change config system event after) : Awake after := by
  have staffed := consistent.staffed
  cases change with
  | stayed event => exact awake
  | @rehashed order perm =>
    have same : ∀ peer, order.get? peer = system.queues.peers.get? peer :=
      fun _ => consistent.accounted.keyed.get?_perm perm
    refine awake.frame rfl ?_ (fun peer => queued_congr (same peer)) (fun peer => flying_congr (same peer)) fun _ => id
    intro peer
    rw [OutboundQueuesState.shape, same peer, OutboundQueuesState.shape]
  | refused shed => exact awake.shed shed
  | @accepted peer mid dropped queue object path bodyKey wireBytes clock shed found ticket count bytes total =>
    have thinned : Staffed { system with
        queues := mid
        tickets := system.tickets + 1
        evicted := system.evicted ++ dropped } :=
      (staffed.ensureEntry peer).congr shed.shape shed.wakes (.refl _)
    exact (awake.shed shed).push thinned object found rfl rfl rfl rfl rfl
  | dropped found =>
    refine awake.frame rfl (shape_modify (fun queue => { queue with
      stopped := true
      droppedAt := system.tickets }) rfl fun _ => ⟨rfl, rfl⟩) (queued_flags (fun queue => { queue with
        stopped := true
        droppedAt := system.tickets }) (fun _ => rfl) rfl) (flying_flags (fun queue => { queue with
          stopped := true
          droppedAt := system.tickets }) (fun _ => rfl) rfl) ?_
    intro wake signalled
    exact Signalled.mono signalled id (fun errand => .inr (mem_append_left _ errand)) .inr
  | spawned errand => exact awake.spawn errand
  | notified errand =>
    refine awake.notify rfl rfl rfl ?_ fun _ timer => .inr timer
    intro other isNotify
    rcases mem_cons.mp ((perm_cons_eraseIdx errand).mem_iff.mp isNotify) with same | inRest
    · exact .inl (Errand.notify.inj same)
    · exact .inr inRest
  | fired timer =>
    refine awake.notify rfl rfl rfl (fun _ errand => .inr errand) ?_
    intro other isTimer
    exact mem_cons.mp ((perm_cons_eraseIdx timer).mem_iff.mp isTimer)
  | woke mem parked =>
    refine awake.worker_step staffed mem rfl (fun _ => rfl) (fun _ _ => ⟨rfl, rfl⟩) (fun some => absurd rfl some)
      (by simp) ?_
    intro wake apart signalled
    refine Signalled.mono signalled ?_ .inr .inr
    intro permit
    exact mem_filter.mpr ⟨permit, by simpa using apart⟩
  | checked mem allowed =>
    refine awake.worker_step staffed mem rfl (fun _ => rfl) (fun _ _ => ⟨rfl, rfl⟩) ?_ ?_ fun _ _ => id
    · rcases allowed with ⟨-, rfl⟩ | ⟨-, rfl⟩ <;> exact fun some => absurd rfl some
    · rcases allowed with ⟨-, rfl⟩ | ⟨-, rfl⟩ <;> simp
  | exited mem quiet found stopped => exact awake.exit staffed mem rfl rfl fun _ => id
  | @took i clock outcome worker queue batch stale kept queues mem taking found taken accounted wakes total peers =>
    have frame : ∀ {peer}, peer ≠ worker.peer → queues.peers.get? peer = system.queues.peers.get? peer := by
      intro peer apart
      rw [peers, Table.get?_modify_other apart]
    have isNow : queues.peers.get? worker.peer = some { queue.holding kept with
        inFlight := queue.inFlight || !batch.isEmpty } := by
      rw [peers, Table.get?_modify_self, found, map_some]
    refine awake.worker_step staffed mem rfl (shape_modify _ peers fun _ => ⟨rfl, rfl⟩)
      (fun _ apart => ⟨queued_congr (frame apart), flying_congr (frame apart)⟩) ?_ ?_ fun _ _ => id
    · intro some
      refine (flying_of_found isNow).trans ?_
      cases batch with
      | nil => exact absurd rfl some
      | cons => simp
    · intro waits some
      cases batch with
      | nil =>
        refine absurd ?_ some
        exact (queued_of_found isNow).trans (taken.exhausted config.batches rfl rfl)
      | cons => simp at waits
  | @idled i clock outcome worker stage mem allowed =>
    have frame : ∀ {peer}, peer ≠ worker.peer →
        (system.queues.markInFlightFalse worker.peer).peers.get? peer = system.queues.peers.get? peer := by
      intro peer apart
      rw [OutboundQueuesState.markInFlightFalse, Table.get?_modify_other apart]
    refine awake.worker_step staffed mem rfl (shape_modify (fun queue => { queue with
      inFlight := false }) rfl fun _ => ⟨rfl, rfl⟩)
      (fun _ apart => ⟨queued_congr (frame apart), flying_congr (frame apart)⟩) ?_ ?_ fun _ _ => id
    · rcases allowed with ⟨-, rfl⟩ | ⟨-, rfl⟩ <;> exact fun some => absurd rfl some
    · intro waits some
      rcases allowed with ⟨drained, rfl⟩ | ⟨-, rfl⟩
      · refine awake.signalled worker (mem_of_getElem? mem) (.inr drained) ?_
        intro none
        refine some ?_
        refine (queued_flags (fun queue => { queue with
          inFlight := false }) (fun _ => rfl) rfl worker.peer).trans none
      · simp at waits
  | @answered i clock worker batch mem dispatching outcome =>
    have isBatch : worker.batch = batch := by rw [Worker.batch, dispatching]
    refine awake.worker_step staffed mem rfl (fun _ => rfl) (fun _ _ => ⟨rfl, rfl⟩) ?_ ?_ fun _ _ => id
    · intro some
      apply awake.flights worker (mem_of_getElem? mem)
      rw [isBatch]
      rintro rfl
      cases outcome <;> exact some rfl
    · cases outcome <;> simp
  | @requeued i clock outcome worker queue batch mem failed found =>
    have peers : (system.queues.requeueFront worker.peer batch).peers =
        system.queues.peers.modify worker.peer fun queue => { queue with
          items := batch ++ queue.items
          bytes := queue.bytes.add (sizes batch) } := by
      simp only [OutboundQueuesState.requeueFront, found]
    have frame : ∀ {peer}, peer ≠ worker.peer →
        (system.queues.requeueFront worker.peer batch).peers.get? peer = system.queues.peers.get? peer := by
      intro peer apart
      rw [peers, Table.get?_modify_other apart]
    exact awake.worker_step staffed mem rfl (shape_modify _ peers fun _ => ⟨rfl, rfl⟩)
      (fun _ apart => ⟨queued_congr (frame apart), flying_congr (frame apart)⟩) (fun some => absurd rfl some)
      (by simp) fun _ _ => id
  | @backedOff i clock outcome worker mem backing =>
    refine awake.worker_step staffed mem rfl (fun _ => rfl) (fun _ _ => ⟨rfl, rfl⟩) (fun some => absurd rfl some)
      ?_ ?_
    · intro _ _
      exact .inr (.inr (mem_append_right _ (mem_singleton_self _)))
    · intro wake _ signalled
      exact Signalled.mono signalled id .inr fun timer => .inr (mem_append_left _ timer)

end

theorem run_awake (events : List Event) :
    Awake (System.run config {} events) ∧ Consistent (System.run config {} events) := by
  refine run_invariant config ⟨?_, ?_, ?_⟩ (fun consistent awake change => awake.change consistent change) events
  · intro peer some
    exact absurd rfl some
  · simp
  · simp

/-- A queue with an object has a worker that is not parked or is going to be notified, or the call
that put its first object in is about to spawn one. No entry has two workers, and idle queues have
no batch under way. -/
theorem filled_queue_wakes (events : List Event) :
    let system := System.run config {} events
    (∀ peer, system.queues.queued peer ≠ [] → (∃ worker ∈ system.workers, worker.peer = peer ∧
        (worker.stage ≠ .parked ∨ system.Signalled worker.wake)) ∨
      ∃ wake, system.queues.shape peer = some (wake, true) ∧ .spawn peer wake ∈ system.errands) ∧
    (system.workers.map Worker.peer).Nodup ∧
    (system.queues.isIdleNow = true → ∀ worker ∈ system.workers, worker.batch = []) := by
  intro system
  obtain ⟨awake, consistent⟩ : Awake system ∧ Consistent system := run_awake events
  refine ⟨?_, consistent.staffed.workers, ?_⟩
  · intro peer some
    obtain ⟨wake, shape⟩ := awake.filled some
    rcases mem_append.mp (consistent.staffed.owned.mpr shape) with running | starting
    · obtain ⟨worker, mem, isTask⟩ := List.mem_map.mp running
      obtain ⟨rfl, rfl⟩ := Prod.mk.inj isTask
      refine .inl ⟨worker, mem, rfl, ?_⟩
      by_cases parked : worker.stage = .parked
      · exact .inr (awake.signalled worker mem (.inl parked) some)
      · exact .inl parked
    · obtain ⟨errand, mem, isTask⟩ := mem_filterMap.mp starting
      cases errand with
      | spawn spawnPeer spawnWake =>
        obtain ⟨rfl, rfl⟩ := Prod.mk.inj (Option.some.inj isTask)
        exact .inr ⟨spawnWake, shape, mem⟩
      | notify _ => cases isTask
  · intro idle worker mem
    by_contra some
    have flying := awake.flights worker mem some
    obtain ⟨queue, found, -⟩ := consistent.staffed.entry mem
    rw [flying_of_found found] at flying
    have quiet := List.all_eq_true.mp idle _ (mem_of_get? found)
    simp [flying] at quiet

/-- Between the lock section and the spawn of the first `enqueue` for a peer there is no worker yet. -/
theorem filled_queue_without_worker :
    let config : OutboundQueueConfig :=
      { totalBytes := 10, bytesPerPeer := 10, objectsPerPeer := 10, objectMaxAge := 10 }
    let system := System.run config {} [.enqueue 7 "/federation/v1/content" "objects" [1] 0]
    system.queues.queued 7 ≠ [] ∧ ∀ worker ∈ system.workers, worker.peer ≠ 7 := by
  decide

end Prismoire
