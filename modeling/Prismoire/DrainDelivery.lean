import Prismoire.DrainStaff

namespace Prismoire

open Lib List Table

variable {other peer : Key} {queue : PeerQueue}

section Queued

variable {state after : OutboundQueuesState} {set : PeerQueue → PeerQueue}

theorem queued_of_found (found : state.peers.get? peer = some queue) : state.queued peer = queue.items := by
  rw [OutboundQueuesState.queued, found]

theorem queued_of_missing (missing : state.peers.get? peer = none) : state.queued peer = [] := by
  rw [OutboundQueuesState.queued, missing]

theorem queued_congr (same : after.peers.get? peer = state.peers.get? peer) : after.queued peer = state.queued peer := by
  rw [OutboundQueuesState.queued, same, OutboundQueuesState.queued]

theorem queued_modify_self (found : state.peers.get? peer = some queue)
    (peers : after.peers = state.peers.modify peer set) : after.queued peer = (set queue).items := by
  rw [OutboundQueuesState.queued, peers, Table.get?_modify_self, found, Option.map_some]

theorem queued_modify_other (apart : other ≠ peer)
    (peers : after.peers = state.peers.modify peer set) : after.queued other = state.queued other :=
  queued_congr (by rw [peers, Table.get?_modify_other apart])

theorem queued_flags (set : PeerQueue → PeerQueue) (items : ∀ queue, (set queue).items = queue.items)
    (peers : after.peers = state.peers.modify peer set) (other : Key) : after.queued other = state.queued other := by
  by_cases same : other = peer
  · subst same
    cases found : state.peers.get? other with
    | none =>
      rw [queued_of_missing found, queued_of_missing]
      rw [peers, Table.get?_modify_self, found, Option.map_none]
    | some queue => rw [queued_modify_self found peers, items, queued_of_found found]
  · exact queued_modify_other same peers

theorem queued_ensureEntry (state : OutboundQueuesState) (peer other : Key) :
    (state.ensureEntry peer).queued other = state.queued other := by
  by_cases same : other = peer
  · subst same
    obtain ⟨queue, found, eq⟩ | ⟨missing, found, -⟩ := ensureEntry_self state other
    · rw [eq]
    · rw [queued_of_found found, queued_of_missing missing]
  · exact queued_congr (ensureEntry_other same)

theorem Shed.queued {dropped : List (Key × QueuedObject)} (shed : Shed state after dropped) (peer : Key) :
    state.queued peer = valuesAt dropped peer ++ after.queued peer := by
  cases found : state.peers.get? peer with
  | none =>
    obtain ⟨missing, none⟩ := shed.missing peer found
    rw [queued_of_missing found, queued_of_missing missing, none, append_nil]
  | some queue =>
    obtain ⟨kept, split, foundAfter⟩ := shed.queue peer queue found
    rw [queued_of_found found, queued_of_found foundAfter, split]
    rfl

end Queued

variable {i : Nat} {system : System} {worker : Worker}

section Held

theorem Staffed.workers (staffed : Staffed system) : UniqueBy Worker.peer system.workers := by
  have keyed := staffed.keyed
  rw [Keyed, System.tasks, map_append, map_map, nodup_append] at keyed
  exact keyed.1

theorem Staffed.held (staffed : Staffed system) (mem : worker ∈ system.workers) :
    system.held worker.peer = worker.batch := by
  rw [System.held, staffed.workers.filter_eq mem]
  simp

variable (mem : system.workers[i]? = some worker) (stage : Stage)
include mem

theorem Staffed.goTo (staffed : Staffed system) : Staffed (system.goTo i worker stage) :=
  staffed.congr (fun _ => rfl) rfl (.of_eq (tasks_goTo mem stage))

theorem mem_goTo : ({ worker with
      stage := stage } : Worker) ∈ (system.goTo i worker stage).workers := by
  obtain ⟨inside, -⟩ := List.getElem?_eq_some_iff.mp mem
  exact mem_set inside _

theorem Staffed.held_goTo (staffed : Staffed system) :
    (system.goTo i worker stage).held worker.peer = Worker.batch { worker with
      stage := stage } :=
  (staffed.goTo mem stage).held (mem_goTo mem stage)

theorem held_goTo_other (apart : other ≠ worker.peer) : (system.goTo i worker stage).held other = system.held other := by
  rw [System.held, System.goTo, filter_set_of_false mem, System.held]
  · simpa using apart.symm
  · simpa using apart.symm

theorem Staffed.held_quiet (staffed : Staffed system) (before : worker.batch = []) (after : Worker.batch { worker with
      stage := stage } = []) (peer : Key) : (system.goTo i worker stage).held peer = system.held peer := by
  by_cases same : peer = worker.peer
  · rw [same, staffed.held_goTo mem stage, after, staffed.held (mem_of_getElem? mem), before]
  · exact held_goTo_other mem stage same

end Held

variable {event : Event}

section Simulation

variable {after : System} {config : OutboundQueueConfig}

theorem sent_append (peer other : Key) (dispatch : Dispatch) (outcome : DispatchOutcome) : ({ system with
      dispatched := system.dispatched ++ [(other, dispatch)] } : System).sent outcome peer =
      system.sent outcome peer ++ if other = peer ∧ dispatch.outcome = outcome then dispatch.batch else [] := by
  simp only [System.sent, valuesAt_append, filter_append, flatMap_append]
  congr 1
  by_cases same : other = peer
  · by_cases kind : dispatch.outcome = outcome <;> simp [valuesAt, same, kind]
  · simp [valuesAt, same]

variable {batch : List QueuedObject}

variable {mid : OutboundQueuesState} {dropped : List (Key × QueuedObject)} {queues : OutboundQueuesState}

theorem moves_of_shed (shed : Shed (system.queues.ensureEntry peer) mid dropped) (other : Key) :
    Ledger.Moves (system.ledger other) (({ system with
      queues := mid
      tickets := system.tickets + 1
      evicted := system.evicted ++ dropped } : System).ledger other) := by
  have split := shed.queued other
  rw [queued_ensureEntry] at split
  have move : Ledger.Move (system.ledger other) { system.ledger other with
      queued := mid.queued other
      evicted := (system.ledger other).evicted ++ valuesAt dropped other } := .evict split
  refine .single ?_
  convert move using 1
  simp only [System.ledger, valuesAt_append]
  rfl

theorem ledger_congr (queued : after.queues.queued peer = system.queues.queued peer)
    (held : after.held peer = system.held peer) (accepted : after.accepted = system.accepted)
    (dispatched : after.dispatched = system.dispatched) (stale : after.stale = system.stale)
    (evicted : after.evicted = system.evicted) (discarded : after.discarded = system.discarded) :
    after.ledger peer = system.ledger peer := by
  simp only [System.ledger, System.sent, queued, held, accepted, dispatched, stale, evicted, discarded]

theorem moves_of_accept {object : QueuedObject} {errand : Errand}
    (shed : Shed (system.queues.ensureEntry peer) mid dropped) (found : mid.peers.get? peer = some queue)
    (other : Key) :
    Ledger.Moves (system.ledger other) (({ system with
      queues := mid.push peer object
      tickets := system.tickets + 1
      evicted := system.evicted ++ dropped
      accepted := system.accepted ++ [(peer, object)]
      errands := system.errands ++ [errand] } : System).ledger other) := by
  refine (moves_of_shed shed other).trans ?_
  by_cases same : other = peer
  · subst same
    refine .single ?_
    convert Ledger.Move.accept object using 1
    refine Ledger.ext ?_ ?_ rfl rfl rfl rfl rfl rfl
    · exact (valuesAt_append _ _).trans (congrArg _ (valuesAt_tagged [object]))
    · have pushed := queued_of_found (push_self found object)
      exact pushed.trans (congrArg (· ++ [object]) (queued_of_found found).symm)
  · have frame : ({ system with
        queues := mid.push peer object
        tickets := system.tickets + 1
        evicted := system.evicted ++ dropped
        accepted := system.accepted ++ [(peer, object)]
        errands := system.errands ++ [errand] } : System).ledger other = ({ system with
          queues := mid
          tickets := system.tickets + 1
          evicted := system.evicted ++ dropped } : System).ledger other := by
      refine Ledger.ext ?_ ?_ rfl rfl rfl rfl rfl rfl
      · refine (valuesAt_append _ _).trans ?_
        rw [show valuesAt [(peer, object)] other = [] from valuesAt_other (Ne.symm same) [object]]
        exact append_nil _
      · exact queued_congr (push_other same object)
    rw [frame]

theorem moves_of_exit (mem : system.workers[i]? = some worker) (quiet : worker.batch = [])
    (found : system.queues.peers.get? worker.peer = some queue)
    (peers : queues.peers = system.queues.peers.remove worker.peer) (peer : Key) :
    Ledger.Moves (system.ledger peer) (({ system with
      queues := queues
      workers := system.workers.eraseIdx i
      discarded := system.discarded ++ queue.items.map fun object => (worker.peer, object, queue.droppedAt) }
        : System).ledger peer) := by
  have held : ((system.workers.eraseIdx i).filter (·.peer = peer)).flatMap Worker.batch = system.held peer :=
    flatMap_eraseIdx_of_nil mem quiet
  have tagged : (queue.items.map fun object => (worker.peer, object, queue.droppedAt)) =
      (queue.items.map fun object => (object, queue.droppedAt)).map fun value => (worker.peer, value) := by
    rw [map_map]
    rfl
  by_cases same : peer = worker.peer
  · subst same
    refine .single ?_
    convert Ledger.Move.discard using 1
    refine Ledger.ext rfl (queued_of_missing ?_) held rfl rfl rfl rfl ?_
    · exact (congrArg (·.get? worker.peer) peers).trans Table.get?_remove_self
    · simp only [System.ledger]
      rw [tagged, valuesAt_append, valuesAt_tagged, map_append, map_map, queued_of_found found]
      simp [Function.comp_def]
  · have frame : ({ system with
        queues := queues
        workers := system.workers.eraseIdx i
        discarded := system.discarded ++ queue.items.map fun object => (worker.peer, object, queue.droppedAt) }
          : System).ledger peer = system.ledger peer := by
      refine Ledger.ext rfl (queued_congr ?_) held rfl rfl rfl rfl ?_
      · exact (congrArg (·.get? peer) peers).trans (Table.get?_remove_other same)
      · simp only [System.ledger]
        rw [tagged, valuesAt_append, valuesAt_other (Ne.symm same), append_nil]
    rw [frame]

section

variable (staffed : Staffed system) (mem : system.workers[i]? = some worker)
include staffed mem

theorem moves_of_take {stale kept : List QueuedObject} (taking : worker.stage = .taking)
    (found : system.queues.peers.get? worker.peer = some queue)
    (taken : Taken config.maxBatch none queue.items batch stale kept)
    (peers : queues.peers = system.queues.peers.modify worker.peer fun queue => { queue.holding kept with
      inFlight := queue.inFlight || !batch.isEmpty }) (peer : Key) :
    Ledger.Moves (system.ledger peer) ((({ system with
      queues := queues
      stale := system.stale ++ stale.map fun object => (worker.peer, object) } : System).goTo i worker
        (if batch.isEmpty then .drained else .dispatching batch)).ledger peer) := by
  by_cases same : peer = worker.peer
  · subst same
    have holds : Worker.batch { worker with
        stage := if batch.isEmpty then .drained else .dispatching batch } = batch := by
      cases batch <;> rfl
    have ready : system.held worker.peer = [] := by
      rw [staffed.held (mem_of_getElem? mem), Worker.batch, taking]
    have order : (batch ++ kept).Sublist (system.queues.queued worker.peer) := by
      rw [queued_of_found found]
      exact taken.order
    have all : (system.queues.queued worker.peer).Perm (batch ++ stale ++ kept) := by
      rw [queued_of_found found]
      exact taken.all
    have move : Ledger.Move (system.ledger worker.peer) { system.ledger worker.peer with
        queued := kept
        inFlight := batch
        stale := (system.ledger worker.peer).stale ++ stale } := .take ready order all
    refine .single ?_
    convert move using 1
    refine Ledger.ext rfl (queued_modify_self found peers) ?_ rfl rfl ?_ rfl rfl
    · exact (staffed.held_goTo mem _).trans holds
    · simp only [System.ledger, System.goTo, valuesAt_append, valuesAt_tagged]
  · have frame : (({ system with
        queues := queues
        stale := system.stale ++ stale.map fun object => (worker.peer, object) } : System).goTo i worker
          (if batch.isEmpty then .drained else .dispatching batch)).ledger peer = system.ledger peer := by
      refine Ledger.ext rfl (queued_modify_other same peers) (held_goTo_other mem _ same) rfl rfl ?_ rfl rfl
      simp only [System.ledger, System.goTo, valuesAt_append, valuesAt_other (Ne.symm same), append_nil]
    rw [frame]

theorem moves_of_answer (dispatching : worker.stage = .dispatching batch) (outcome : DispatchOutcome) (peer : Key) :
    Ledger.Moves (system.ledger peer) ((system.finish i worker batch outcome).ledger peer) := by
  have sent : ∀ kind, (system.finish i worker batch outcome).sent kind peer =
      system.sent kind peer ++ if worker.peer = peer ∧ outcome = kind then batch else [] :=
    fun kind => sent_append peer worker.peer ⟨batch, outcome⟩ kind
  by_cases same : peer = worker.peer
  · subst same
    have inFlight : (system.ledger worker.peer).inFlight = batch := by
      simp only [System.ledger]
      rw [staffed.held (mem_of_getElem? mem), Worker.batch, dispatching]
    have holds : (system.finish i worker batch outcome).held worker.peer = Worker.batch { worker with
          stage := if outcome = .transient then .failed batch else .looping } := staffed.held_goTo mem _
    cases outcome with
    | success =>
      refine .single ?_
      convert Ledger.Move.deliver using 1
      refine Ledger.ext rfl rfl holds ?_ ?_ rfl rfl rfl
      · rw [inFlight]
        exact (sent .success).trans (by simp [System.ledger])
      · exact (sent .terminal4xx).trans (by simp [System.ledger])
    | terminal4xx =>
      refine .single ?_
      convert Ledger.Move.refuse using 1
      refine Ledger.ext rfl rfl holds ?_ ?_ rfl rfl rfl
      · exact (sent .success).trans (by simp [System.ledger])
      · rw [inFlight]
        exact (sent .terminal4xx).trans (by simp [System.ledger])
    | transient =>
      have frame : (system.finish i worker batch .transient).ledger worker.peer = system.ledger worker.peer := by
        refine Ledger.ext rfl rfl ?_ ?_ ?_ rfl rfl rfl
        · rw [inFlight]
          exact holds
        · exact (sent .success).trans (by simp [System.ledger])
        · exact (sent .terminal4xx).trans (by simp [System.ledger])
      rw [frame]
  · have frame : (system.finish i worker batch outcome).ledger peer = system.ledger peer := by
      refine Ledger.ext rfl rfl (held_goTo_other mem _ same) ?_ ?_ rfl rfl rfl
      · exact (sent .success).trans (by simp [System.ledger, Ne.symm same])
      · exact (sent .terminal4xx).trans (by simp [System.ledger, Ne.symm same])
    rw [frame]

theorem moves_of_requeue (failed : worker.stage = .failed batch)
    (found : system.queues.peers.get? worker.peer = some queue) (peer : Key) :
    Ledger.Moves (system.ledger peer) ((({ system with
      queues := system.queues.requeueFront worker.peer batch } : System).goTo i worker .requeued).ledger peer) := by
  have peers : (system.queues.requeueFront worker.peer batch).peers =
      system.queues.peers.modify worker.peer fun queue => { queue with
        items := batch ++ queue.items
        bytes := queue.bytes.add (sizes batch) } := by
    simp only [OutboundQueuesState.requeueFront, found]
  by_cases same : peer = worker.peer
  · subst same
    have inFlight : (system.ledger worker.peer).inFlight = batch := by
      simp only [System.ledger]
      rw [staffed.held (mem_of_getElem? mem), Worker.batch, failed]
    refine .single ?_
    convert Ledger.Move.requeue using 1
    refine Ledger.ext rfl ?_ (staffed.held_goTo mem _) rfl rfl rfl rfl rfl
    rw [inFlight]
    exact (queued_modify_self found peers).trans (congrArg (batch ++ ·) (queued_of_found found).symm)
  · have frame : (({ system with
        queues := system.queues.requeueFront worker.peer batch } : System).goTo i worker .requeued).ledger peer =
        system.ledger peer :=
      ledger_congr (queued_modify_other same peers) (held_goTo_other mem _ same) rfl rfl rfl rfl rfl
    rw [frame]

end

theorem moves_of_frame (same : after.ledger peer = system.ledger peer) :
    Ledger.Moves (system.ledger peer) (after.ledger peer) := by
  rw [same]

theorem moves_of_change (staffed : Staffed system) (acc : Accounted system.queues)
    (change : Change config system event after) (peer : Key) :
    Ledger.Moves (system.ledger peer) (after.ledger peer) := by
  cases change with
  | stayed event => exact .refl
  | rehashed perm =>
    exact moves_of_frame (ledger_congr (queued_congr (acc.keyed.get?_perm perm)) rfl rfl rfl rfl rfl rfl)
  | refused shed => exact moves_of_shed shed peer
  | accepted shed found ticket count bytes total => exact moves_of_accept shed found peer
  | dropped found =>
    exact moves_of_frame (ledger_congr (queued_flags (fun queue => { queue with
      stopped := true
      droppedAt := system.tickets }) (fun _ => rfl) rfl peer) rfl rfl rfl rfl rfl rfl)
  | @spawned i spawnedPeer wake errand =>
    refine moves_of_frame (ledger_congr rfl ?_ rfl rfl rfl rfl rfl)
    simp only [System.held, filter_append, flatMap_append]
    by_cases same : spawnedPeer = peer <;> simp [same, Worker.batch]
  | notified errand => exact .refl
  | fired timer => exact .refl
  | woke mem parked =>
    have quiet := staffed.held_quiet mem .woken (by rw [Worker.batch, parked]) rfl peer
    exact moves_of_frame (ledger_congr rfl quiet rfl rfl rfl rfl rfl)
  | checked mem allowed =>
    refine moves_of_frame (ledger_congr rfl (staffed.held_quiet mem _ ?_ ?_ peer) rfl rfl rfl rfl rfl)
    · rcases allowed with ⟨stage, -⟩ | ⟨stage, -⟩ <;> rw [Worker.batch, stage]
    · rcases allowed with ⟨-, rfl⟩ | ⟨-, rfl⟩ <;> rfl
  | exited mem quiet found stopped => exact moves_of_exit mem quiet found rfl peer
  | took mem taking found taken accounted wakes total peers =>
    exact moves_of_take staffed mem taking found taken peers peer
  | idled mem allowed =>
    refine moves_of_frame (ledger_congr (queued_flags (fun queue => { queue with
      inFlight := false }) (fun _ => rfl) rfl peer) (staffed.held_quiet mem _ ?_ ?_ peer) rfl rfl rfl rfl rfl)
    · rcases allowed with ⟨stage, -⟩ | ⟨stage, -⟩ <;> rw [Worker.batch, stage]
    · rcases allowed with ⟨-, rfl⟩ | ⟨-, rfl⟩ <;> rfl
  | answered mem dispatching outcome => exact moves_of_answer staffed mem dispatching outcome peer
  | requeued mem failed found => exact moves_of_requeue staffed mem failed found peer
  | backedOff mem backing =>
    have quiet := staffed.held_quiet mem .parked (by rw [Worker.batch, backing]) rfl peer
    exact moves_of_frame (ledger_congr rfl quiet rfl rfl rfl rfl rfl)

end Simulation

variable {after : System} (config : OutboundQueueConfig)

/-- The counters are right and the workers have their entries. -/
structure Consistent (system : System) : Prop where
  accounted : Accounted system.queues
  staffed : Staffed system

theorem Consistent.empty : Consistent {} where
  accounted := .empty
  staffed := by
    refine ⟨nodup_nil, ?_, ?_, ?_⟩
    · intro peer wake spawned shape
      cases shape
    · intro peer other wake spawned otherSpawned shape
      cases shape
    · intro peer wake
      constructor
      · intro mem
        cases mem
      · intro shape
        cases shape

theorem Consistent.change {config} (consistent : Consistent system) (change : Change config system event after) : Consistent after :=
  ⟨consistent.accounted.change change, consistent.staffed.change consistent.accounted change⟩

theorem Consistent.changes (consistent : Consistent system) (event : Event) :
    Change config system event (system.step config event) :=
  change_of_step config consistent.accounted consistent.staffed event

def StepsMeet (cond : System → Event → Prop) : System → List Event → Prop
  | _, [] => True
  | system, event :: events => cond system event ∧ StepsMeet cond (system.step config event) events

instance StepsMeet.decidable {cond : System → Event → Prop} [∀ system event, Decidable (cond system event)] :
    (system : System) → (events : List Event) → Decidable (StepsMeet config cond system events)
  | _, [] => .isTrue trivial
  | system, event :: events => @instDecidableAnd _ _ inferInstance (StepsMeet.decidable (system.step config event) events)

variable {cond : System → Event → Prop} {events : List Event} {Inv : System → Prop}

theorem StepsMeet.of_shorter {reached : List Event}
    (meets : StepsMeet config cond system events) (shorter : reached <+: events) :
    StepsMeet config cond system reached := by
  induction events generalizing system reached with
  | nil =>
    rw [prefix_nil.mp shorter]
    exact trivial
  | cons event events ih =>
    cases reached with
    | nil => exact trivial
    | cons first reached =>
      obtain ⟨rfl, rest⟩ := cons_prefix_cons.mp shorter
      exact ⟨meets.1, ih meets.2 rest⟩

theorem run_invariant_of (init : Inv {})
    (keeps : ∀ {system after event}, Consistent system → Inv system → cond system event →
      Change config system event after → Inv after) (meets : StepsMeet config cond {} events) :
    Inv (System.run config {} events) ∧ Consistent (System.run config {} events) := by
  have from_ : ∀ system, StepsMeet config cond system events → Consistent system → Inv system →
      Inv (system.run config events) ∧ Consistent (system.run config events) := by
    clear meets
    induction events with
    | nil => exact fun system _ consistent inv => ⟨inv, consistent⟩
    | cons event events ih =>
      intro system meets consistent inv
      have change := consistent.changes config event
      exact ih _ meets.2 (consistent.change change) (keeps consistent inv meets.1 change)
  exact from_ {} meets .empty init

theorem run_invariant (init : Inv {})
    (keeps : ∀ {system after event}, Consistent system → Inv system → Change config system event after → Inv after)
    (events : List Event) : Inv (System.run config {} events) ∧ Consistent (System.run config {} events) := by
  have meets : ∀ (events : List Event) (system : System), StepsMeet config (fun _ _ => True) system events := by
    intro events
    induction events with
    | nil => exact fun _ => trivial
    | cons event events ih => exact fun system => ⟨trivial, ih _⟩
  exact run_invariant_of config init (fun consistent inv _ change => keeps consistent inv change) (meets events {})

/-- Tickets number the accepted objects upwards. -/
structure Ticketed (system : System) : Prop where
  rising : (system.accepted.map fun entry => entry.2.ticket).Pairwise (· < ·)
  issued : ∀ entry ∈ system.accepted, entry.2.ticket < system.tickets

theorem Ticketed.change {config} (ticketed : Ticketed system) (change : Change config system event after) :
    Ticketed after := by
  cases change with
  | refused shed => exact ⟨ticketed.rising, fun entry mem => Nat.lt_succ_of_lt (ticketed.issued entry mem)⟩
  | @accepted peer mid dropped queue object path bodyKey wireBytes clock shed found ticket count bytes total =>
    constructor
    · simp only [map_append, map_cons, map_nil]
      rw [pairwise_append]
      refine ⟨ticketed.rising, pairwise_singleton _ _, ?_⟩
      intro old isOld new isNew
      obtain ⟨entry, mem, rfl⟩ := mem_map.mp isOld
      rw [mem_singleton.mp isNew, ticket]
      exact ticketed.issued entry mem
    · exact forall_mem_concat.mpr
        ⟨fun entry isOld => Nat.lt_succ_of_lt (ticketed.issued entry isOld), Nat.lt_succ_of_le (Nat.le_of_eq ticket)⟩
  | _ => exact ⟨ticketed.rising, ticketed.issued⟩

theorem Ticketed.nodup (ticketed : Ticketed system) : system.accepted.Nodup := by
  have nodup : (system.accepted.map fun entry => entry.2.ticket).Nodup :=
    ticketed.rising.imp fun less => Nat.ne_of_lt less
  exact .of_map _ nodup

theorem Ticketed.nodup_at (ticketed : Ticketed system) (peer : Key) : (valuesAt system.accepted peer).Nodup := by
  refine ticketed.nodup.filterMap ?_
  intro left right object isLeft isRight
  split at isLeft <;> split at isRight <;> simp_all [Prod.ext_iff]

/-- What a request may carry. -/
structure Sendable (batch : List QueuedObject) : Prop where
  some : 0 < batch.length
  fits : batch.length ≤ config.maxBatch
  oneRoute : ∃ route, ∀ object ∈ batch, object.route = route

/-- Every batch in the hands of a worker or in a request is one that a request may carry. -/
structure Batched (system : System) : Prop where
  held : ∀ worker ∈ system.workers, worker.stage ≠ .dispatching [] ∧ (worker.batch ≠ [] → Sendable config worker.batch)
  sent : ∀ entry ∈ system.dispatched, Sendable config entry.2.batch

variable {config}

theorem Taken.sendable {items batch stale kept : List QueuedObject}
    (taken : Taken config.maxBatch none items batch stale kept) (some : batch ≠ []) : Sendable config batch := by
  obtain ⟨route, -, shared⟩ := taken.oneRoute
  exact ⟨length_pos_of_ne_nil some, taken.fits, route, shared⟩

theorem Batched.goTo (batched : Batched config system) {i : Nat} {worker : Worker} {stage : Stage}
    (workers : after.workers = (system.goTo i worker stage).workers) (dispatched : after.dispatched = system.dispatched)
    (held : stage ≠ .dispatching [] ∧ (Worker.batch { worker with
      stage := stage } ≠ [] → Sendable config (Worker.batch { worker with
        stage := stage }))) : Batched config after where
  held := by
    intro other mem
    rw [workers] at mem
    rcases mem_or_eq_of_mem_set mem with old | rfl
    · exact batched.held other old
    · exact held
  sent := by
    rw [dispatched]
    exact batched.sent

theorem Batched.change (batched : Batched config system) (change : Change config system event after) :
    Batched config after := by
  cases change with
  | spawned errand =>
    refine ⟨?_, batched.sent⟩
    exact forall_mem_append.mpr
      ⟨batched.held, forall_mem_singleton.mpr ⟨by simp, fun some => absurd rfl some⟩⟩
  | woke mem parked => exact batched.goTo rfl rfl ⟨by simp, fun some => absurd rfl some⟩
  | checked mem allowed =>
    refine batched.goTo rfl rfl ?_
    rcases allowed with ⟨-, rfl⟩ | ⟨-, rfl⟩ <;> exact ⟨by simp, fun some => absurd rfl some⟩
  | exited mem quiet found stopped =>
    exact ⟨fun worker inRest => batched.held worker (mem_of_mem_eraseIdx inRest), batched.sent⟩
  | took mem taking found taken accounted wakes total peers =>
    refine batched.goTo rfl rfl ?_
    split
    · exact ⟨by simp, fun some => absurd rfl some⟩
    · rename_i some
      rw [List.isEmpty_iff] at some
      exact ⟨by simpa using some, fun _ => taken.sendable some⟩
  | idled mem allowed =>
    refine batched.goTo rfl rfl ?_
    rcases allowed with ⟨-, rfl⟩ | ⟨-, rfl⟩ <;> exact ⟨by simp, fun some => absurd rfl some⟩
  | @answered i clock worker batch mem dispatching outcome =>
    obtain ⟨notEmpty, sendable⟩ := batched.held worker (mem_of_getElem? mem)
    have isBatch : worker.batch = batch := by rw [Worker.batch, dispatching]
    have some : batch ≠ [] := by
      rintro rfl
      exact notEmpty dispatching
    rw [isBatch] at sendable
    have noted : Batched config { system with
        dispatched := system.dispatched ++ [(worker.peer, ⟨batch, outcome⟩)] } := by
      refine ⟨batched.held, ?_⟩
      exact forall_mem_append.mpr ⟨batched.sent, forall_mem_singleton.mpr (sendable some)⟩
    refine noted.goTo rfl rfl ?_
    split
    · exact ⟨by simp, fun _ => sendable some⟩
    · exact ⟨by simp, fun some => absurd rfl some⟩
  | requeued mem failed found => exact batched.goTo rfl rfl ⟨by simp, fun some => absurd rfl some⟩
  | backedOff mem backing => exact batched.goTo rfl rfl ⟨by simp, fun some => absurd rfl some⟩
  | _ => exact ⟨batched.held, batched.sent⟩

structure Booked (system : System) : Prop where
  inOrder : ∀ peer, (system.ledger peer).InOrder
  conserved : ∀ peer, (system.ledger peer).Conserved

theorem Booked.change (booked : Booked system) (consistent : Consistent system) (change : Change config system event after) :
    Booked after := by
  have moves := moves_of_change consistent.staffed consistent.accounted change
  exact ⟨fun peer => (booked.inOrder peer).moves (moves peer), fun peer => (booked.conserved peer).moves (moves peer)⟩

theorem run_booked (events : List Event) :
    Booked (System.run config {} events) ∧ Consistent (System.run config {} events) := by
  refine run_invariant config ⟨?_, ?_⟩ (fun consistent booked change => booked.change consistent change) events
  · exact fun _ => .slnil
  · exact fun _ => .nil

/-- A queue hands its objects over in the order in which they were put in, each at most once and in
short requests of one route, one at a time. -/
theorem delivery_in_order (events : List Event) (peer : Key) :
    let system := System.run config {} events
    (system.sent .success peer).Sublist (valuesAt system.accepted peer) ∧
      (valuesAt system.accepted peer).Nodup ∧
      (∀ dispatch ∈ valuesAt system.dispatched peer, Sendable config dispatch.batch) ∧
      (∀ worker ∈ system.workers, ∀ batch, worker.stage = .dispatching batch → Sendable config batch) ∧
      (system.workers.filter fun worker => worker.peer = peer ∧ worker.batch ≠ []).length ≤ 1 := by
  intro system
  obtain ⟨booked, consistent⟩ : Booked system ∧ Consistent system := run_booked events
  have ticketed : Ticketed system :=
    (run_invariant config ⟨.nil, by simp⟩ (fun _ ticketed change => ticketed.change change) events).1
  have batched : Batched config system :=
    (run_invariant config ⟨by simp, by simp⟩ (fun _ batched change => batched.change change) events).1
  refine ⟨?_, ticketed.nodup_at peer, ?_, ?_, ?_⟩
  · exact (sublist_append_left _ _).trans (booked.inOrder peer)
  · intro dispatch mem
    obtain ⟨entry, inLog, isDispatch⟩ := mem_filterMap.mp mem
    split at isDispatch
    · cases isDispatch
      exact batched.sent entry inLog
    · cases isDispatch
  · intro worker mem batch dispatching
    obtain ⟨notEmpty, sendable⟩ := batched.held worker mem
    have isBatch : worker.batch = batch := by rw [Worker.batch, dispatching]
    rw [isBatch] at sendable
    apply sendable
    rintro rfl
    exact notEmpty dispatching
  · apply consistent.staffed.workers.length_filter_le
    intro worker other passes otherPasses
    simp only [decide_eq_true_eq] at passes otherPasses
    rw [passes.1, otherPasses.1]

end Prismoire
