import Prismoire.DrainDelivery

namespace Prismoire

open Lib List Option

/-- The three caps. -/
structure Capped (config : OutboundQueueConfig) (state : OutboundQueuesState) : Prop where
  queues : ∀ {peer queue}, state.peers.get? peer = some queue →
    queue.items.length ≤ config.objectsPerPeer ∧ queue.bytes.value ≤ config.bytesPerPeer
  total : state.totalBytes.value ≤ config.totalBytes

/-- The batch that a step is about to put back, and its peer. -/
def System.returning (system : System) : Event → Option (Key × List QueuedObject)
  | .work i _ _ =>
    match system.workers[i]? with
    | none => none
    | some worker =>
      match worker.stage with
      | .failed batch => some (worker.peer, batch)
      | _ => none
  | _ => none

/-- A batch that is put back fits the caps together with what came in meanwhile. -/
def RequeueFits (config : OutboundQueueConfig) (system : System) (event : Event) : Prop :=
  ∀ returned ∈ system.returning event, ∀ queue ∈ system.queues.peers.get? returned.1,
    returned.2.length + queue.items.length ≤ config.objectsPerPeer ∧
      sizes returned.2 + queue.bytes.value ≤ config.bytesPerPeer ∧
      sizes returned.2 + system.queues.totalBytes.value ≤ config.totalBytes

instance (config : OutboundQueueConfig) (system : System) (event : Event) :
    Decidable (RequeueFits config system event) :=
  inferInstanceAs (Decidable (∀ _ ∈ _, ∀ _ ∈ _, _))

variable {system after : System} {event : Event} {config : OutboundQueueConfig}
variable {before mid : OutboundQueuesState} {peer : Key} {dropped : List (Key × QueuedObject)}

theorem Capped.modify (capped : Capped config before) {state : OutboundQueuesState} (set : PeerQueue → PeerQueue)
    (peers : state.peers = before.peers.modify peer set)
    (own : ∀ queue, before.peers.get? peer = some queue → (set queue).items.length ≤ config.objectsPerPeer ∧
      (set queue).bytes.value ≤ config.bytesPerPeer)
    (total : state.totalBytes.value ≤ config.totalBytes) : Capped config state := by
  refine ⟨?_, total⟩
  intro other queue found
  rw [peers] at found
  by_cases same : other = peer
  · subst same
    rw [Table.get?_modify_self] at found
    obtain ⟨old, isOld, rfl⟩ := map_eq_some_iff.mp found
    exact own old isOld
  · rw [Table.get?_modify_other same] at found
    exact capped.queues found

theorem Capped.shed (capped : Capped config before) (acc : Accounted before) (shed : Shed before mid dropped) :
    Capped config mid := by
  refine ⟨?_, Nat.le_trans shed.total capped.total⟩
  intro peer queue found
  cases isBefore : before.peers.get? peer with
  | none =>
    rw [(shed.missing peer isBefore).1] at found
    cases found
  | some old =>
    obtain ⟨kept, split, foundMid⟩ := shed.queue peer old isBefore
    obtain rfl := some.inj (foundMid.symm.trans found)
    obtain ⟨count, bytes⟩ := capped.queues isBefore
    rw [acc.found isBefore] at bytes
    simp only [split, length_append, sizes_append] at count bytes
    simp only [PeerQueue.holding]
    omega

theorem Capped.ensureEntry (capped : Capped config before) (peer : Key) : Capped config (before.ensureEntry peer) := by
  have sameTotal : (before.ensureEntry peer).totalBytes = before.totalBytes := by
    rw [OutboundQueuesState.ensureEntry]
    split <;> rfl
  refine ⟨?_, by rw [sameTotal]; exact capped.total⟩
  intro other queue found
  by_cases same : other = peer
  · subst same
    obtain ⟨old, foundOld, eq⟩ | ⟨-, foundNew, -⟩ := ensureEntry_self before other
    · rw [eq] at found
      exact capped.queues found
    · obtain rfl := some.inj (foundNew.symm.trans found)
      exact ⟨Nat.zero_le _, Nat.zero_le _⟩
  · rw [ensureEntry_other same] at found
    exact capped.queues found

theorem Capped.change (positive : 0 < config.objectsPerPeer) (capped : Capped config system.queues)
    (consistent : Consistent system) (change : Change config system event after)
    (fits : RequeueFits config system event) : Capped config after.queues := by
  have acc := consistent.accounted
  cases change with
  | @rehashed order perm =>
    refine ⟨?_, capped.total⟩
    intro peer queue found
    simp only [acc.keyed.get?_perm perm] at found
    exact capped.queues found
  | refused shed => exact (capped.ensureEntry _).shed acc.ensureEntry shed
  | @accepted peer mid dropped queue object path bodyKey wireBytes clock shed found ticket count bytes total =>
    refine ((capped.ensureEntry peer).shed acc.ensureEntry shed).modify (fun queue => { queue with
      items := queue.items ++ [object]
      bytes := queue.bytes.add object.size
      workerSpawned := true }) rfl ?_ total
    intro own isOwn
    obtain rfl := some.inj (found.symm.trans isOwn)
    have held : queue.bytes.value = sizes queue.items := by rw [shed.accounted.found found]
    have room := count positive
    simp only [length_append, length_cons, length_nil, Counter.add]
    omega
  | dropped found =>
    exact capped.modify (fun queue => { queue with
      stopped := true
      droppedAt := system.tickets }) rfl (fun _ isQueue => (capped.queues isQueue :)) capped.total
  | @exited i clock outcome worker queue mem quiet found stopped =>
    refine ⟨?_, Nat.le_trans (Nat.sub_le _ _) capped.total⟩
    intro peer other isOther
    by_cases same : peer = worker.peer
    · subst same
      simp only [Table.get?_remove_self] at isOther
      cases isOther
    · simp only [Table.get?_remove_other same] at isOther
      exact capped.queues isOther
  | took mem taking found taken accounted wakes total peers =>
    refine capped.modify _ peers ?_ (Nat.le_trans total capped.total)
    intro own isOwn
    obtain rfl := some.inj (found.symm.trans isOwn)
    obtain ⟨count, bytes⟩ := capped.queues found
    rw [acc.found found] at bytes
    have shorter := taken.order.length_le
    rw [length_append] at shorter
    have split := taken.sizes
    simp only [PeerQueue.holding] at bytes ⊢
    omega
  | idled mem allowed =>
    exact capped.modify (fun queue => { queue with
      inFlight := false }) rfl (fun _ isQueue => (capped.queues isQueue :)) capped.total
  | @requeued i clock outcome worker queue batch mem failed found =>
    have isReturning : system.returning (.work i clock outcome) = some (worker.peer, batch) := by
      simp only [System.returning, mem, failed]
    obtain ⟨count, bytes, total⟩ := fits _ isReturning queue found
    simp only at count bytes total
    simp only [System.goTo, OutboundQueuesState.requeueFront, found]
    refine capped.modify (fun queue => { queue with
      items := batch ++ queue.items
      bytes := queue.bytes.add (sizes batch) }) rfl ?_ ?_
    · intro own isOwn
      obtain rfl := some.inj (found.symm.trans isOwn)
      simp only [length_append, Counter.add]
      omega
    · simp only [Counter.add]
      omega
  | _ => exact capped

theorem requeue_fits (capped : Capped config (system.step config event).queues) : RequeueFits config system event := by
  intro returned isReturning queue found
  cases event with
  | work i clock outcome =>
    cases mem : system.workers[i]? with
    | none => simp [System.returning, mem] at isReturning
    | some worker =>
      cases failed : worker.stage with
      | failed batch =>
        simp only [System.returning, mem, failed, mem_def, some.injEq] at isReturning
        subst isReturning
        simp only [mem_def] at found
        simp only [System.step, System.work, mem, failed, System.goTo, OutboundQueuesState.requeueFront,
          found] at capped
        have after : (system.queues.peers.modify worker.peer fun queue => { queue with
            items := batch ++ queue.items
            bytes := queue.bytes.add (sizes batch) }).get? worker.peer = some { queue with
              items := batch ++ queue.items
              bytes := queue.bytes.add (sizes batch) } := by
          rw [Table.get?_modify_self, found, map_some]
        obtain ⟨count, bytes⟩ := capped.queues after
        have total := capped.total
        simp only [length_append, Counter.add] at count bytes total ⊢
        omega
      | _ => simp [System.returning, mem, failed] at isReturning
  | _ => cases isReturning

theorem capped_of_steps (positive : 0 < config.objectsPerPeer) (events : List Event)
    (consistent : Consistent system) (capped : Capped config system.queues) :
    (∀ reached, reached <+: events → Capped config (system.run config reached).queues) ↔
      StepsMeet config (RequeueFits config) system events := by
  induction events generalizing system with
  | nil =>
    refine ⟨fun _ => trivial, ?_⟩
    intro _ reached isPrefix
    rw [prefix_nil.mp isPrefix]
    exact capped
  | cons event events ih =>
    have change := consistent.changes config event
    constructor
    · intro holds
      have next : Capped config (system.step config event).queues := holds [event] (by simp)
      refine ⟨requeue_fits next, (ih (consistent.change change) next).mp ?_⟩
      intro reached isPrefix
      exact holds (event :: reached) (cons_prefix_cons.mpr ⟨rfl, isPrefix⟩)
    · rintro ⟨fits, rest⟩ reached isPrefix
      have next := capped.change positive consistent change fits
      cases reached with
      | nil => exact capped
      | cons first reached =>
        obtain ⟨rfl, shorter⟩ := cons_prefix_cons.mp isPrefix
        exact (ih (consistent.change change) next).mpr rest reached shorter

theorem Capped.empty : Capped config {} := by
  refine ⟨?_, Nat.zero_le _⟩
  intro peer queue found
  cases found

/-- The caps hold all along a run exactly when every batch that is put back still fits. -/
theorem caps_hold_iff_requeues_fit (positive : 0 < config.objectsPerPeer) (events : List Event) :
    (∀ reached, reached <+: events → Capped config (System.run config {} reached).queues) ↔
      StepsMeet config (RequeueFits config) {} events :=
  capped_of_steps positive events .empty .empty

/-- A request that fails after another object was queued. -/
def failedRequest : List Event :=
  let work : DispatchOutcome → Event := .work 0 fun _ => 0
  [.enqueue 7 "/federation/v1/content" "objects" [1] 0, .proceed 0, .proceed 0, work .success, work .success,
    work .success, work .success, .enqueue 7 "/federation/v1/content" "objects" [2] 0, work .transient, work .success]

theorem caps_hold_with_room :
    let config : OutboundQueueConfig :=
      { totalBytes := 10, bytesPerPeer := 10, objectsPerPeer := 2, objectMaxAge := 10 }
    0 < config.objectsPerPeer ∧
      ∀ reached, reached <+: failedRequest → Capped config (System.run config {} reached).queues := by
  intro config
  exact ⟨by decide, (caps_hold_iff_requeues_fit (by decide) failedRequest).mpr (by decide)⟩

/-- A request fails after another object took the place of its own. -/
theorem requeue_overfills :
    let config : OutboundQueueConfig :=
      { totalBytes := 10, bytesPerPeer := 10, objectsPerPeer := 1, objectMaxAge := 10 }
    ¬ Capped config (System.run config {} failedRequest).queues := by
  intro config capped
  have found : (System.run config {} failedRequest).queues.peers.get? 7 = some {
        wake := 0
        items := [⟨"/federation/v1/content", "objects", [1], 0, 0⟩, ⟨"/federation/v1/content", "objects", [2], 0, 1⟩]
        bytes := ⟨2, true⟩
        workerSpawned := true
        inFlight := true } := by
    decide
  exact absurd (capped.queues found).1 (by decide)

end Prismoire
