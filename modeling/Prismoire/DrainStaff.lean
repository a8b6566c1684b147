import Prismoire.DrainSteps
import Prismoire.Lib.Rows

namespace Prismoire

open Lib List Option

section Shapes

variable {state after : OutboundQueuesState} {peer other : Key} {queue : PeerQueue}

theorem shape_modify (set : PeerQueue → PeerQueue) {state' : OutboundQueuesState}
    (peers : state'.peers = state.peers.modify peer set)
    (same : ∀ queue, (set queue).wake = queue.wake ∧ (set queue).workerSpawned = queue.workerSpawned) (other : Key) :
    state'.shape other = state.shape other := by
  rw [OutboundQueuesState.shape, OutboundQueuesState.shape, peers]
  by_cases hit : other = peer
  · subst hit
    rw [Table.get?_modify_self, Option.map_map]
    congr 1
    funext queue
    exact Prod.ext (same queue).1 (same queue).2
  · rw [Table.get?_modify_other hit]

theorem Shed.shape {dropped : List (Key × QueuedObject)} (shed : Shed state after dropped) (peer : Key) :
    after.shape peer = state.shape peer := by
  rw [OutboundQueuesState.shape, OutboundQueuesState.shape]
  cases found : state.peers.get? peer with
  | none => rw [(shed.missing peer found).1]
  | some queue =>
    obtain ⟨kept, -, foundAfter⟩ := shed.queue peer queue found
    rw [foundAfter]
    rfl

theorem ensureEntry_other (apart : other ≠ peer) :
    (state.ensureEntry peer).peers.get? other = state.peers.get? other := by
  rw [OutboundQueuesState.ensureEntry]
  split
  · rfl
  · rw [Table.get?_append]
    simp [Table.get?, Ne.symm apart]

theorem ensureEntry_self (state : OutboundQueuesState) (peer : Key) :
    (∃ queue, state.peers.get? peer = some queue ∧ state.ensureEntry peer = state) ∨ (state.peers.get? peer = none ∧
        (state.ensureEntry peer).peers.get? peer = some { wake := state.nextWake } ∧
        (state.ensureEntry peer).nextWake = state.nextWake + 1) := by
  cases found : state.peers.get? peer with
  | some queue => exact .inl ⟨queue, rfl, by simp only [OutboundQueuesState.ensureEntry, found]⟩
  | none =>
    refine .inr ⟨rfl, ?_, ?_⟩
    · simp only [OutboundQueuesState.ensureEntry, found, Table.get?_append, none_or]
      simp [Table.get?]
    · simp only [OutboundQueuesState.ensureEntry, found]

theorem push_self (found : state.peers.get? peer = some queue) (object : QueuedObject) :
    (state.push peer object).peers.get? peer = some { queue with
      items := queue.items ++ [object]
      bytes := queue.bytes.add object.size
      workerSpawned := true } := by
  simp only [OutboundQueuesState.push, Table.get?_modify_self, found, map_some]

theorem push_other (apart : other ≠ peer) (object : QueuedObject) :
    (state.push peer object).peers.get? other = state.peers.get? other := by
  simp only [OutboundQueuesState.push, Table.get?_modify_other apart]

end Shapes

variable {system after : System} {event : Event} {i : Nat} {worker : Worker} {config : OutboundQueueConfig}

theorem tasks_goTo (mem : system.workers[i]? = some worker) (stage : Stage) :
    (system.goTo i worker stage).tasks = system.tasks := by
  rw [System.tasks, System.tasks, System.goTo]
  congr 1
  exact map_set_of_same mem rfl

theorem tasks_errand (system : System) (errand : Errand) : ({ system with
      errands := system.errands ++ [errand] } : System).tasks = system.tasks ++ errand.task.toList := by
  simp only [System.tasks, filterMap_append, append_assoc]
  cases errand <;> rfl

theorem tasks_notified {wake : Nat} (errand : system.errands[i]? = some (.notify wake)) :
    (system.errands.eraseIdx i).filterMap Errand.task |>.Perm (system.errands.filterMap Errand.task) :=
  ((perm_cons_eraseIdx errand).filterMap Errand.task).symm

/-- The errand hands its wake to the worker it starts, so a task moves and none is added. -/
theorem tasks_spawned {peer : Key} {wake : Nat} (errand : system.errands[i]? = some (.spawn peer wake)) : ({ system with
      workers := system.workers ++ [{ peer, wake }]
      errands := system.errands.set i (.notify wake) } : System).tasks.Perm system.tasks := by
  have before := (perm_cons_eraseIdx errand).filterMap Errand.task
  have after := (set_perm_of_some errand (.notify wake)).filterMap Errand.task
  simp only [System.tasks, map_append, map_cons, map_nil, append_assoc, singleton_append]
  exact ((after.cons (peer, wake)).trans before.symm).append_left _

theorem tasks_exited (mem : system.workers[i]? = some worker) :
    system.tasks.Perm ((worker.peer, worker.wake) :: ({ system with
      workers := system.workers.eraseIdx i } : System).tasks) := by
  have left := (perm_cons_eraseIdx mem).map fun worker => (worker.peer, worker.wake)
  exact left.append_right _

section

variable (staffed : Staffed system)
include staffed

/-- Only who works for which wake counts, in any order. -/
theorem Staffed.congr (shapes : ∀ peer, after.queues.shape peer = system.queues.shape peer)
    (wakes : after.queues.nextWake = system.queues.nextWake) (tasks : after.tasks.Perm system.tasks) :
    Staffed after where
  keyed := staffed.keyed.perm tasks
  fresh := by
    intro peer wake spawned shape
    rw [wakes]
    exact staffed.fresh ((shapes peer).symm.trans shape)
  apart := by
    intro peer other wake spawned otherSpawned shape otherShape
    exact staffed.apart ((shapes peer).symm.trans shape) ((shapes other).symm.trans otherShape)
  owned := by
    intro peer wake
    rw [tasks.mem_iff, shapes peer]
    exact staffed.owned

/-- A new queue takes a wake that nobody has, and has no worker yet. -/
theorem Staffed.ensureEntry (peer : Key) : Staffed { system with
      queues := system.queues.ensureEntry peer } := by
  obtain ⟨queue, found, same⟩ | ⟨missing, found, wakes⟩ := ensureEntry_self system.queues peer
  · rw [same]
    exact staffed
  have noShape : system.queues.shape peer = none := by rw [OutboundQueuesState.shape, missing, map_none]
  have isNew : (system.queues.ensureEntry peer).shape peer = some (system.queues.nextWake, false) := by
    rw [OutboundQueuesState.shape, found]
    rfl
  have isOld : ∀ {other}, other ≠ peer →
      (system.queues.ensureEntry peer).shape other = system.queues.shape other := by
    intro other apart
    rw [OutboundQueuesState.shape, ensureEntry_other apart, OutboundQueuesState.shape]
  refine ⟨staffed.keyed, ?_, ?_, ?_⟩
  · intro other wake spawned shape
    simp only [wakes]
    by_cases same : other = peer
    · rw [same, isNew] at shape
      cases shape
      omega
    · rw [isOld same] at shape
      have := staffed.fresh shape
      omega
  · intro left right wake leftSpawned rightSpawned leftShape rightShape
    by_cases isLeft : left = peer <;> by_cases isRight : right = peer
    · rw [isLeft, isRight]
    · rw [isLeft, isNew] at leftShape
      rw [isOld isRight] at rightShape
      cases leftShape
      exact absurd (staffed.fresh rightShape) (Nat.lt_irrefl _)
    · rw [isRight, isNew] at rightShape
      rw [isOld isLeft] at leftShape
      cases rightShape
      exact absurd (staffed.fresh leftShape) (Nat.lt_irrefl _)
    · rw [isOld isLeft] at leftShape
      rw [isOld isRight] at rightShape
      exact staffed.apart leftShape rightShape
  · intro other wake
    refine staffed.owned.trans ?_
    by_cases same : other = peer
    · rw [same, isNew, noShape]
      simp
    · rw [isOld same]

theorem Staffed.push {peer : Key} {queue : PeerQueue} (object : QueuedObject)
    (found : system.queues.peers.get? peer = some queue) :
    Staffed { system with
      queues := system.queues.push peer object
      errands := system.errands ++
        [if !queue.workerSpawned then .spawn peer queue.wake else .notify queue.wake] } := by
  have isShape : system.queues.shape peer = some (queue.wake, queue.workerSpawned) := by
    rw [OutboundQueuesState.shape, found, map_some]
  have isNew : (system.queues.push peer object).shape peer = some (queue.wake, true) := by
    rw [OutboundQueuesState.shape, push_self found object, map_some]
  have isOld : ∀ {other}, other ≠ peer → (system.queues.push peer object).shape other = system.queues.shape other := by
    intro other apart
    rw [OutboundQueuesState.shape, push_other apart object, OutboundQueuesState.shape]
  cases spawned : queue.workerSpawned with
  | true =>
    rw [spawned] at isShape
    refine staffed.congr ?_ rfl ?_
    · intro other
      by_cases same : other = peer
      · rw [same, isShape]
        exact isNew
      · exact isOld same
    · exact .of_eq ((tasks_errand system (.notify queue.wake)).trans (append_nil _))
  | false =>
    rw [spawned] at isShape
    have idle : ∀ wake, (peer, wake) ∉ system.tasks := by
      intro wake mem
      have shape := staffed.owned.mp mem
      rw [isShape] at shape
      cases shape
    have keeps : ∀ {other wake spawned}, (system.queues.push peer object).shape other = some (wake, spawned) →
        ∃ before, system.queues.shape other = some (wake, before) := by
      intro other wake spawned shape
      by_cases same : other = peer
      · rw [same, isNew] at shape
        cases shape
        exact ⟨false, same ▸ isShape⟩
      · exact ⟨spawned, (isOld same).symm.trans shape⟩
    have tasks : ({ system with
        queues := system.queues.push peer object
        errands := system.errands ++ [.spawn peer queue.wake] } : System).tasks =
        system.tasks ++ [(peer, queue.wake)] := tasks_errand system (.spawn peer queue.wake)
    simp only [Bool.not_false, if_true]
    refine ⟨?_, ?_, ?_, ?_⟩
    · rw [tasks, Table.Keyed, map_append, nodup_append]
      refine ⟨staffed.keyed, by simp, ?_⟩
      rintro key inTasks other isPeer rfl
      obtain ⟨task, mem, rfl⟩ := List.mem_map.mp inTasks
      obtain rfl : task.1 = peer := by simpa using isPeer
      exact idle task.2 mem
    · intro other wake spawned shape
      obtain ⟨before, shape⟩ := keeps shape
      exact staffed.fresh shape
    · intro left right wake leftSpawned rightSpawned leftShape rightShape
      obtain ⟨leftBefore, leftShape⟩ := keeps leftShape
      obtain ⟨rightBefore, rightShape⟩ := keeps rightShape
      exact staffed.apart leftShape rightShape
    · intro other wake
      rw [tasks, mem_append, mem_singleton]
      by_cases same : other = peer
      · subst same
        simp only [isNew, idle wake, false_or, Prod.mk.injEq, true_and, some.injEq, and_true]
        exact eq_comm
      · simp only [isOld same, Prod.mk.injEq, same, false_and, or_false]
        exact staffed.owned

/-- A worker leaves together with its queue, so no other queue loses its worker. -/
theorem Staffed.exit (mem : system.workers[i]? = some worker)
    {queues : OutboundQueuesState} (peers : queues.peers = system.queues.peers.remove worker.peer)
    (wakes : queues.nextWake = system.queues.nextWake) :
    Staffed { system with
      queues := queues
      workers := system.workers.eraseIdx i } := by
  have tasks := tasks_exited mem
  have keyed := staffed.keyed.perm tasks.symm
  obtain ⟨gone, keyedRest⟩ := nodup_cons.mp keyed
  have isGone : queues.shape worker.peer = none := by
    rw [OutboundQueuesState.shape, peers, Table.get?_remove_self, map_none]
  have isOld : ∀ {other}, other ≠ worker.peer → queues.shape other = system.queues.shape other := by
    intro other apart
    rw [OutboundQueuesState.shape, peers, Table.get?_remove_other apart, OutboundQueuesState.shape]
  have keeps : ∀ {other shape}, queues.shape other = some shape →
      other ≠ worker.peer ∧ system.queues.shape other = some shape := by
    intro other shape isShape
    have apart : other ≠ worker.peer := by
      rintro rfl
      rw [isGone] at isShape
      cases isShape
    exact ⟨apart, (isOld apart).symm.trans isShape⟩
  refine ⟨keyedRest, ?_, ?_, ?_⟩
  · intro other wake spawned shape
    simp only [wakes]
    exact staffed.fresh (keeps shape).2
  · intro left right wake leftSpawned rightSpawned leftShape rightShape
    exact staffed.apart (keeps leftShape).2 (keeps rightShape).2
  · intro other wake
    constructor
    · intro inTasks
      have apart : other ≠ worker.peer := by
        rintro rfl
        exact gone (List.mem_map.mpr ⟨_, inTasks, rfl⟩)
      exact (isOld apart).trans (staffed.owned.mp (tasks.mem_iff.mpr (mem_cons_of_mem _ inTasks)))
    · intro shape
      obtain ⟨apart, shape⟩ := keeps shape
      rcases mem_cons.mp (tasks.mem_iff.mp (staffed.owned.mpr shape)) with isOwn | inTasks
      · exact absurd (congrArg Prod.fst isOwn) apart
      · exact inTasks

end

theorem Accounted.change (acc : Accounted system.queues)
    (change : Change config system event after) : Accounted after.queues := by
  cases change with
  | stayed event => exact acc
  | @rehashed order perm =>
    have same := acc.rehash order
    rw [OutboundQueuesState.rehash, if_pos perm] at same
    exact same
  | refused shed => exact shed.accounted
  | accepted shed found ticket count bytes total => exact shed.accounted.push found _
  | dropped found => exact acc.flags _ fun _ => ⟨rfl, rfl⟩
  | spawned errand => exact acc
  | notified errand => exact acc
  | fired timer => exact acc
  | woke mem parked => exact acc
  | checked mem allowed => exact acc
  | exited mem quiet found stopped => exact acc.remove found
  | took mem taking found taken accounted wakes total peers => exact accounted
  | idled mem allowed => exact acc.markInFlightFalse _
  | answered mem dispatching outcome => exact acc
  | requeued mem failed found => exact acc.requeueFront _ _
  | backedOff mem backing => exact acc

/-- No step of the system leaves two workers on one queue, or a spawned queue with none. -/
theorem Staffed.change (staffed : Staffed system) (acc : Accounted system.queues)
    (change : Change config system event after) : Staffed after := by
  cases change with
  | stayed event => exact staffed
  | rehashed perm =>
    refine staffed.congr ?_ rfl (.refl _)
    intro peer
    rw [OutboundQueuesState.shape, acc.keyed.get?_perm perm, OutboundQueuesState.shape]
  | refused shed => exact (staffed.ensureEntry _).congr shed.shape shed.wakes (.refl _)
  | @accepted peer mid dropped queue object path bodyKey wireBytes clock shed found ticket count bytes total =>
    have thinned : Staffed { system with
        queues := mid } := (staffed.ensureEntry peer).congr shed.shape shed.wakes (.refl _)
    exact (thinned.push object found).congr (fun _ => rfl) rfl (.refl _)
  | dropped found =>
    refine staffed.congr (shape_modify (fun queue => { queue with
      stopped := true
      droppedAt := system.tickets }) rfl fun _ => ⟨rfl, rfl⟩) rfl ?_
    exact .of_eq ((tasks_errand system _).trans (append_nil _))
  | spawned errand => exact staffed.congr (fun _ => rfl) rfl (tasks_spawned errand)
  | notified errand => exact staffed.congr (fun _ => rfl) rfl ((tasks_notified errand).append_left _)
  | fired timer => exact staffed.congr (fun _ => rfl) rfl (.refl _)
  | woke mem parked => exact staffed.congr (fun _ => rfl) rfl (.of_eq (tasks_goTo mem _))
  | checked mem allowed => exact staffed.congr (fun _ => rfl) rfl (.of_eq (tasks_goTo mem _))
  | @exited i clock outcome worker queue mem quiet found stopped =>
    have left : Staffed { system with
        queues := { system.queues with
          peers := system.queues.peers.remove worker.peer
          totalBytes := system.queues.totalBytes.sub queue.bytes.value }
        workers := system.workers.eraseIdx i } := staffed.exit mem rfl rfl
    exact left.congr (fun _ => rfl) rfl (.refl _)
  | took mem taking found taken accounted wakes total peers =>
    exact staffed.congr (shape_modify _ peers fun _ => ⟨rfl, rfl⟩) wakes (.of_eq (tasks_goTo mem _))
  | idled mem allowed =>
    exact staffed.congr (shape_modify (fun queue => { queue with
      inFlight := false }) rfl fun _ => ⟨rfl, rfl⟩) rfl (.of_eq (tasks_goTo mem _))
  | answered mem dispatching outcome => exact staffed.congr (fun _ => rfl) rfl (.of_eq (tasks_goTo mem _))
  | @requeued i clock outcome worker queue batch mem failed found =>
    refine staffed.congr ?_ ?_ (.of_eq (tasks_goTo mem _))
    · simp only [System.goTo, OutboundQueuesState.requeueFront, found]
      exact shape_modify (fun queue => { queue with
        items := batch ++ queue.items
        bytes := queue.bytes.add (sizes batch) }) rfl fun _ => ⟨rfl, rfl⟩
    · simp only [System.goTo, OutboundQueuesState.requeueFront, found]
  | backedOff mem backing => exact staffed.congr (fun _ => rfl) rfl (.of_eq (tasks_goTo mem _))

end Prismoire
