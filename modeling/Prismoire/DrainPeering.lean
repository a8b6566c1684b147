import Prismoire.DrainDelivery

namespace Prismoire

open Lib List Option Table

/-- Whether a peer's entry was dropped, and how many calls of `enqueue` had been made then. -/
def OutboundQueuesState.mark (state : OutboundQueuesState) (peer : Key) : Option (Bool × Nat) :=
  (state.peers.get? peer).map fun queue => (queue.stopped, queue.droppedAt)

/-- No `enqueue` finds the entry of its peer dropped and not yet removed. -/
def EntryOpen (system : System) : Event → Prop
  | .enqueue peer .. => ∀ queue ∈ system.queues.peers.get? peer, queue.stopped = false
  | _ => True

instance (system : System) : (event : Event) → Decidable (EntryOpen system event)
  | .enqueue .. => inferInstanceAs (Decidable (∀ _ ∈ _, _))
  | .dropPeer _ => .isTrue trivial
  | .proceed _ => .isTrue trivial
  | .timer _ => .isTrue trivial
  | .work .. => .isTrue trivial
  | .rehash _ => .isTrue trivial

variable {dropped : List (Key × QueuedObject)}

section Marks

variable {state after : OutboundQueuesState} {peer other : Key} {queue : PeerQueue}

theorem mark_congr (same : after.peers.get? peer = state.peers.get? peer) : after.mark peer = state.mark peer := by
  rw [OutboundQueuesState.mark, same, OutboundQueuesState.mark]

theorem mark_flags (set : PeerQueue → PeerQueue) (peers : after.peers = state.peers.modify peer set)
    (same : ∀ queue, (set queue).stopped = queue.stopped ∧ (set queue).droppedAt = queue.droppedAt) (other : Key) :
    after.mark other = state.mark other := by
  by_cases hit : other = peer
  · subst hit
    rw [OutboundQueuesState.mark, OutboundQueuesState.mark, peers, Table.get?_modify_self, Option.map_map]
    congr 1
    funext queue
    exact Prod.ext (same queue).1 (same queue).2
  · exact mark_congr (by rw [peers, Table.get?_modify_other hit])

theorem Shed.mark (shed : Shed state after dropped) (peer : Key) :
    after.mark peer = state.mark peer := by
  cases found : state.peers.get? peer with
  | none => exact mark_congr ((shed.missing peer found).1.trans found.symm)
  | some queue =>
    obtain ⟨kept, -, foundAfter⟩ := shed.queue peer queue found
    rw [OutboundQueuesState.mark, OutboundQueuesState.mark, found, foundAfter]
    rfl

theorem mark_ensureEntry {count : Nat} (dropped : (state.ensureEntry peer).mark other = some (true, count)) :
    state.mark other = some (true, count) := by
  by_cases same : other = peer
  · subst same
    obtain ⟨queue, found, eq⟩ | ⟨missing, found, -⟩ := ensureEntry_self state other
    · rw [eq] at dropped
      exact dropped
    · rw [OutboundQueuesState.mark, found] at dropped
      cases dropped
  · rw [mark_congr (ensureEntry_other same)] at dropped
    exact dropped

theorem mark_push (found : state.peers.get? peer = some queue) (object : QueuedObject) (other : Key) :
    (state.push peer object).mark other = state.mark other := by
  by_cases same : other = peer
  · subst same
    rw [OutboundQueuesState.mark, OutboundQueuesState.mark, push_self found object, found]
    rfl
  · exact mark_congr (push_other same object)

end Marks

/-- What was discarded, or will be with a dropped entry, was put in before the entry was dropped. -/
structure Peered (system : System) : Prop where
  discarded : ∀ entry ∈ system.discarded, entry.2.1.ticket < entry.2.2
  marked : ∀ {peer count}, system.queues.mark peer = some (true, count) →
    ∀ object ∈ system.held peer ++ system.queues.queued peer, object.ticket < count

variable {system after : System} {event : Event} {config : OutboundQueueConfig} {object : QueuedObject}

theorem carried_of_change (consistent : Consistent system) (change : Change config system event after) {peer : Key}
    (accepted : (valuesAt after.accepted peer).length = (valuesAt system.accepted peer).length) :
    after.held peer ++ after.queues.queued peer ⊆ system.held peer ++ system.queues.queued peer :=
  (moves_of_change consistent.staffed consistent.accounted change peer).carried.2 accepted

theorem Peered.frame (peered : Peered system) (consistent : Consistent system)
    (change : Change config system event after) (accepted : after.accepted = system.accepted)
    (discarded : after.discarded = system.discarded)
    (marks : ∀ {peer count}, after.queues.mark peer = some (true, count) →
      system.queues.mark peer = some (true, count)) : Peered after where
  discarded := by
    rw [discarded]
    exact peered.discarded
  marked := by
    intro peer count isMark object carried
    exact peered.marked (marks isMark) object (carried_of_change consistent change (by rw [accepted]) carried)

theorem Ticketed.carried (ticketed : Ticketed system) (booked : Booked system) {peer : Key}
    (carried : object ∈ system.held peer ++ system.queues.queued peer) : object.ticket < system.tickets := by
  have taken : object ∈ valuesAt system.accepted peer := by
    refine (booked.inOrder peer).subset (mem_append_right _ ?_)
    exact carried
  obtain ⟨entry, mem, isObject⟩ := mem_filterMap.mp taken
  split at isObject
  · cases isObject
    exact ticketed.issued entry mem
  · cases isObject

section

variable (peered : Peered system) (consistent : Consistent system)
include peered consistent

variable {peer : Key} {queue : PeerQueue}

theorem Peered.accept {mid : OutboundQueuesState}
    (change : Change config system event after) (shed : Shed (system.queues.ensureEntry peer) mid dropped)
    (found : mid.peers.get? peer = some queue) (queues : after.queues = mid.push peer object)
    (accepted : after.accepted = system.accepted ++ [(peer, object)]) (discarded : after.discarded = system.discarded)
    (isOpen : ∀ queue ∈ system.queues.peers.get? peer, queue.stopped = false) : Peered after where
  discarded := by
    rw [discarded]
    exact peered.discarded
  marked := by
    intro other count isMark object carried
    rw [queues, mark_push found, shed.mark] at isMark
    have wasMarked := mark_ensureEntry isMark
    by_cases same : other = peer
    · subst same
      obtain ⟨old, foundOld, isMarked⟩ := map_eq_some_iff.mp wasMarked
      rw [isOpen old foundOld] at isMarked
      cases isMarked
    · refine peered.marked wasMarked object (carried_of_change consistent change ?_ carried)
      rw [accepted, valuesAt_append]
      simp [valuesAt, Ne.symm same]

theorem Peered.drop (ticketed : Ticketed system) (booked : Booked system) (change : Change config system event after)
    (found : system.queues.peers.get? peer = some queue)
    (peers : after.queues.peers = system.queues.peers.modify peer fun queue => { queue with
      stopped := true
      droppedAt := system.tickets }) (accepted : after.accepted = system.accepted)
    (discarded : after.discarded = system.discarded) : Peered after where
  discarded := by
    rw [discarded]
    exact peered.discarded
  marked := by
    intro other count isMark object carried
    have before := carried_of_change consistent change (by rw [accepted]) carried
    by_cases same : other = peer
    · subst same
      rw [OutboundQueuesState.mark, peers, Table.get?_modify_self, found] at isMark
      obtain rfl : system.tickets = count := by simpa using isMark
      exact ticketed.carried booked before
    · have frame : after.queues.peers.get? other = system.queues.peers.get? other := by
        rw [peers, Table.get?_modify_other same]
      exact peered.marked ((mark_congr frame).symm.trans isMark) object before

theorem Peered.exit {worker : Worker}
    (change : Change config system event after) (found : system.queues.peers.get? worker.peer = some queue)
    (stopped : queue.stopped = true) (peers : after.queues.peers = system.queues.peers.remove worker.peer)
    (accepted : after.accepted = system.accepted)
    (discarded : after.discarded = system.discarded ++
      queue.items.map fun object => (worker.peer, object, queue.droppedAt)) : Peered after where
  discarded := by
    rw [discarded]
    intro entry mem
    rcases mem_append.mp mem with old | new
    · exact peered.discarded entry old
    · obtain ⟨object, inQueue, rfl⟩ := List.mem_map.mp new
      have isMark : system.queues.mark worker.peer = some (true, queue.droppedAt) := by
        rw [OutboundQueuesState.mark, found, map_some, stopped]
      refine peered.marked isMark object (mem_append_right _ ?_)
      rw [queued_of_found found]
      exact inQueue
  marked := by
    intro other count isMark object carried
    have before := carried_of_change consistent change (by rw [accepted]) carried
    by_cases same : other = worker.peer
    · rw [same, OutboundQueuesState.mark, peers, Table.get?_remove_self] at isMark
      cases isMark
    · have frame : after.queues.peers.get? other = system.queues.peers.get? other := by
        rw [peers, Table.get?_remove_other same]
      exact peered.marked ((mark_congr frame).symm.trans isMark) object before

theorem Peered.change (ticketed : Ticketed system)
    (booked : Booked system) (change : Change config system event after) (isOpen : EntryOpen system event) :
    Peered after := by
  have frame := fun accepted discarded marks => peered.frame consistent change accepted discarded marks
  have whole := change
  cases change with
  | @rehashed order perm =>
    refine frame rfl rfl ?_
    intro peer count isMark
    exact (mark_congr (consistent.accounted.keyed.get?_perm perm)).symm.trans isMark
  | refused shed =>
    refine frame rfl rfl ?_
    intro peer count isMark
    exact mark_ensureEntry ((shed.mark peer).symm.trans isMark)
  | accepted shed found ticket count bytes total =>
    exact peered.accept consistent whole shed found rfl rfl rfl isOpen
  | dropped found => exact peered.drop consistent ticketed booked whole found rfl rfl rfl
  | exited mem quiet found stopped => exact peered.exit consistent whole found stopped rfl rfl rfl
  | took mem taking found taken accounted wakes total peers =>
    refine frame rfl rfl ?_
    intro peer count isMark
    exact (mark_flags _ peers (fun _ => ⟨rfl, rfl⟩) peer).symm.trans isMark
  | idled mem allowed =>
    refine frame rfl rfl ?_
    intro peer count isMark
    exact (mark_flags (fun queue => { queue with
      inFlight := false }) rfl (fun _ => ⟨rfl, rfl⟩) peer).symm.trans isMark
  | @requeued i clock outcome worker queue batch mem failed found =>
    refine frame rfl rfl ?_
    intro peer count isMark
    simp only [System.goTo, OutboundQueuesState.requeueFront, found] at isMark
    exact (mark_flags (fun queue => { queue with
      items := batch ++ queue.items
      bytes := queue.bytes.add (sizes batch) }) rfl (fun _ => ⟨rfl, rfl⟩) peer).symm.trans isMark
  | _ => exact frame rfl rfl id

end

/-- In a run whose calls of `enqueue` find their entry open or none, in every state reached an object
that was put into a queue is in exactly one place, and one that went with a dropped peer was put in
before the peer was dropped. -/
theorem depeering_loses_nothing {events : List Event} (isOpen : StepsMeet config EntryOpen {} events)
    {reached : List Event} (isPrefix : reached <+: events) (peer : Key) :
    let system := System.run config {} reached
    (valuesAt system.accepted peer).Nodup ∧
      (valuesAt system.accepted peer).Perm (system.queues.queued peer ++ system.held peer ++
        system.sent .success peer ++ system.sent .terminal4xx peer ++ valuesAt system.stale peer ++
        valuesAt system.evicted peer ++ (valuesAt system.discarded peer).map Prod.fst) ∧
      ∀ discard ∈ valuesAt system.discarded peer, discard.1.ticket < discard.2 := by
  intro system
  have holds : (Peered system ∧ Ticketed system ∧ Booked system) ∧ Consistent system := by
    refine @run_invariant_of config EntryOpen _ (fun system => Peered system ∧ Ticketed system ∧ Booked system)
      ⟨⟨by simp, ?_⟩, ⟨.nil, by simp⟩, ⟨fun _ => .slnil, fun _ => .nil⟩⟩ ?_ (isOpen.of_shorter config isPrefix)
    · intro peer count isMark
      cases isMark
    · rintro system after event consistent ⟨peered, ticketed, booked⟩ isOpen change
      exact ⟨peered.change consistent ticketed booked change isOpen, ticketed.change change,
        booked.change consistent change⟩
  obtain ⟨⟨peered, ticketed, booked⟩, -⟩ := holds
  refine ⟨ticketed.nodup_at peer, booked.conserved peer, ?_⟩
  intro discard mem
  obtain ⟨entry, inLog, isDiscard⟩ := mem_filterMap.mp mem
  split at isDiscard
  · cases isDiscard
    exact peered.discarded entry inLog
  · cases isDiscard

theorem depeering_loses_nothing_here :
    let config : OutboundQueueConfig :=
      { totalBytes := 10, bytesPerPeer := 10, objectsPerPeer := 10, objectMaxAge := 10 }
    let events : List Event := [.enqueue 7 "/federation/v1/content" "objects" [1] 0,
      .proceed 0, .proceed 0, .dropPeer 7, .work 0 (fun _ => 0) .success, .work 0 (fun _ => 0) .success,
      .enqueue 7 "/federation/v1/content" "objects" [2] 0]
    StepsMeet config EntryOpen {} events ∧
      ∀ discard ∈ valuesAt (System.run config {} events).discarded 7, discard.1.ticket < discard.2 := by
  intro config events
  have isOpen : StepsMeet config EntryOpen {} events := by decide
  exact ⟨isOpen, (depeering_loses_nothing isOpen (prefix_refl events) 7).2.2⟩

theorem depeering_discards_later_object :
    let config : OutboundQueueConfig :=
      { totalBytes := 10, bytesPerPeer := 10, objectsPerPeer := 10, objectMaxAge := 10 }
    let system := System.run config {} [.enqueue 7 "/federation/v1/content" "objects" [1] 0,
      .proceed 0, .proceed 0, .dropPeer 7, .enqueue 7 "/federation/v1/content" "objects" [2] 0,
      .work 0 (fun _ => 0) .success, .work 0 (fun _ => 0) .success]
    ¬ ∀ discard ∈ valuesAt system.discarded 7, discard.1.ticket < discard.2 := by
  decide

end Prismoire
