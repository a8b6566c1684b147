import Prismoire.OutboundQueue

namespace Prismoire

open Lib List Option OutboundQueuesState Table

/-- Every counter shows what its queue holds, and no subtraction ever saturated. -/
structure Accounted (state : OutboundQueuesState) : Prop where
  keyed : Table.Keyed state.peers
  queues : ∀ entry ∈ state.peers, entry.2.bytes = ⟨sizes entry.2.items, true⟩
  total : state.totalBytes = ⟨(state.peers.map fun entry => sizes entry.2.items).sum, true⟩

section Sizes

@[simp] theorem sizes_nil : sizes [] = 0 := rfl

@[simp] theorem sizes_cons (object : QueuedObject) (objects : List QueuedObject) :
    sizes (object :: objects) = object.size + sizes objects := rfl

@[simp] theorem sizes_append (objects others : List QueuedObject) :
    sizes (objects ++ others) = sizes objects + sizes others := by
  simp [sizes]

theorem Counter.sub_exact {held n : Nat} (covered : n ≤ held) : Counter.sub ⟨held, true⟩ n = ⟨held - n, true⟩ := by
  simp [Counter.sub, covered]

theorem evictFront_spec (config : OutboundQueueConfig) (size : Nat) (items : List QueuedObject) (more : Nat) :
    ∃ dropped kept, items = dropped ++ kept ∧
      evictFront config size items ⟨sizes items + more, true⟩ = (kept, ⟨sizes kept + more, true⟩, dropped) ∧
      (kept ≠ [] → kept.length + 1 ≤ config.objectsPerPeer ∧ sizes kept + more + size ≤ config.bytesPerPeer) := by
  induction items with
  | nil => exact ⟨[], [], rfl, rfl, by simp⟩
  | cons front rest ih =>
    by_cases beyond : config.objectsPerPeer < rest.length + 2 ∨
        config.bytesPerPeer < sizes (front :: rest) + more + size
    · obtain ⟨dropped, kept, split, run, fits⟩ := ih
      have freed : Counter.sub ⟨sizes (front :: rest) + more, true⟩ front.size = ⟨sizes rest + more, true⟩ := by
        rw [Counter.sub_exact (by simp only [sizes_cons]; omega)]
        simp only [sizes_cons, Counter.mk.injEq, and_true]
        omega
      refine ⟨front :: dropped, kept, by rw [split, cons_append], ?_, fits⟩
      simp only [evictFront, beyond, if_true, freed, run]
    · refine ⟨[], front :: rest, rfl, ?_, ?_⟩
      · simp only [evictFront, beyond, if_false]
      · intro _
        simp only [length_cons]
        omega

/-- What one run of `take_batch`'s loop takes: the batch keeps the order of the queue and one route,
and the queue is used up when nothing was taken and no route was fixed before. -/
structure Taken (room : Nat) (route : Option (Text × Text)) (items batch stale kept : List QueuedObject) :
    Prop where
  order : (batch ++ kept).Sublist items
  all : items.Perm (batch ++ stale ++ kept)
  fits : batch.length ≤ room
  oneRoute : ∃ shared, (∀ given, route = some given → shared = given) ∧ ∀ object ∈ batch, object.route = shared
  exhausted : 0 < room → route = none → batch = [] → kept = []

variable {room : Nat} {route : Option (Text × Text)} {items : List QueuedObject}

theorem Taken.nothing (exhausted : 0 < room → route = none → items = []) : Taken room route items [] [] items where
  order := .refl _
  all := .refl _
  fits := Nat.zero_le _
  oneRoute := by
    refine ⟨route.getD ("", ""), ?_, by simp⟩
    intro given isGiven
    rw [isGiven, getD_some]
  exhausted := fun roomy unrouted _ => exhausted roomy unrouted

theorem Taken.sizes {batch stale kept : List QueuedObject} (taken : Taken room route items batch stale kept) :
    sizes items = sizes batch + sizes stale + sizes kept := by
  have perm := (taken.all.map QueuedObject.size).sum_eq
  simp only [map_append, sum_append] at perm
  exact perm

theorem takeItems_taken (config : OutboundQueueConfig) (clock : Nat → Nat) (room : Nat) (route : Option (Text × Text))
    (items : List QueuedObject) :
    ∃ batch stale kept, Taken room route items batch stale kept ∧
      takeItems config clock room route items ⟨sizes items, true⟩ = (batch, stale, kept, ⟨sizes kept, true⟩) := by
  induction items generalizing clock room route with
  | nil =>
    refine ⟨[], [], [], .nothing fun _ _ => rfl, ?_⟩
    cases room <;> rfl
  | cons front rest ih =>
    have freed : Counter.sub ⟨sizes (front :: rest), true⟩ front.size = ⟨sizes rest, true⟩ := by
      rw [Counter.sub_exact (by simp only [sizes_cons]; omega)]
      simp only [sizes_cons, Counter.mk.injEq, and_true]
      omega
    cases room with
    | zero =>
      exact ⟨[], [], front :: rest, .nothing fun roomy => absurd roomy (Nat.lt_irrefl 0), rfl⟩
    | succ room =>
      by_cases old : config.objectMaxAge < clock 0 - front.enqueuedAt
      · obtain ⟨batch, stale, kept, taken, run⟩ := ih (clock <| · + 1) (room + 1) route
        refine ⟨batch, front :: stale, kept, ⟨taken.order.cons front, ?_, taken.fits, taken.oneRoute,
          taken.exhausted⟩, ?_⟩
        · have moved : (batch ++ front :: (stale ++ kept)).Perm (front :: (batch ++ (stale ++ kept))) :=
            perm_middle
          rw [← append_assoc batch stale kept] at moved
          rw [append_assoc, cons_append]
          exact (taken.all.cons front).trans moved.symm
        · simp only [takeItems, old, if_true, freed, run]
      · by_cases foreign : route.any (· ≠ front.route) = true
        · refine ⟨[], [], front :: rest, .nothing ?_, ?_⟩
          · intro _ unrouted
            rw [unrouted] at foreign
            simp at foreign
          · simp only [takeItems, old, if_false, foreign, if_true]
        · obtain ⟨batch, stale, kept, taken, run⟩ := ih (clock <| · + 1) room (some front.route)
          obtain ⟨shared, same, all⟩ := taken.oneRoute
          obtain rfl := same _ rfl
          refine ⟨front :: batch, stale, kept, ⟨taken.order.cons_cons front, taken.all.cons front,
            by simpa using taken.fits, ⟨front.route, ?_, ?_⟩, by simp⟩, ?_⟩
          · rintro given rfl
            by_contra apart
            exact foreign (by simpa using Ne.symm apart)
          · intro object mem
            rcases mem_cons.mp mem with rfl | mem
            · rfl
            · exact all object mem
          · simp only [takeItems, old, foreign, if_false, freed, run]
            rfl

end Sizes

variable {peer : Key} {queue : PeerQueue} {state : OutboundQueuesState}

section State

def PeerQueue.holding (queue : PeerQueue) (items : List QueuedObject) : PeerQueue :=
  { queue with
    items := items
    bytes := ⟨sizes items, true⟩ }

theorem Accounted.empty : Accounted {} :=
  ⟨nodup_nil, by simp, rfl⟩

variable (acc : Accounted state)
include acc

theorem Accounted.found (found : state.peers.get? peer = some queue) : queue.bytes = ⟨sizes queue.items, true⟩ :=
  acc.queues _ (mem_of_get? found)

section

variable (found : state.peers.get? peer = some queue)

include found

theorem Accounted.holding : queue.holding queue.items = queue := by
  rw [PeerQueue.holding, ← acc.found found]

theorem Accounted.covers : sizes queue.items ≤ state.totalBytes.value := by
  have split := ((acc.keyed.split found).map fun entry => sizes entry.2.items).sum_eq
  rw [acc.total, split]
  simp

theorem Accounted.update (set : PeerQueue → PeerQueue) (bytes : (set queue).bytes = ⟨sizes (set queue).items, true⟩)
    {held : Nat} (total : held + sizes queue.items = state.totalBytes.value + sizes (set queue).items) :
    Accounted { state with
      peers := state.peers.modify peer set
      totalBytes := ⟨held, true⟩ } := by
  refine ⟨acc.keyed.modify set, ?_, ?_⟩
  · intro entry mem
    rcases mem_modify.mp mem with ⟨old, inPeers, rfl⟩ | ⟨inPeers, -⟩
    · obtain rfl := some.inj ((acc.keyed.get? inPeers).symm.trans found)
      exact bytes
    · exact acc.queues entry inPeers
  · have before := ((acc.keyed.split found).map fun entry => sizes entry.2.items).sum_eq
    have after := ((acc.keyed.split_modify found set).map fun entry => sizes entry.2.items).sum_eq
    have isTotal := congrArg Counter.value acc.total
    simp only [map_cons, sum_cons] at before after
    simp only [Counter.mk.injEq, and_true]
    simp only at isTotal
    omega

end

theorem Accounted.flags (set : PeerQueue → PeerQueue)
    (same : ∀ queue, (set queue).items = queue.items ∧ (set queue).bytes = queue.bytes) :
    Accounted { state with
      peers := state.peers.modify peer set } := by
  refine ⟨acc.keyed.modify set, ?_, ?_⟩
  · intro entry mem
    rcases mem_modify.mp mem with ⟨old, inPeers, rfl⟩ | ⟨inPeers, -⟩
    · simp only [(same old).1, (same old).2]
      exact acc.queues _ inPeers
    · exact acc.queues entry inPeers
  · have frame : (state.peers.modify peer set).map (fun entry => sizes entry.2.items) =
        state.peers.map fun entry => sizes entry.2.items := by
      rw [Table.modify, List.map_map]
      apply map_congr_left
      intro entry _
      by_cases hit : entry.1 = peer <;> simp [hit, (same _).1]
    simp only [frame]
    exact acc.total

theorem Accounted.total_exact : state.totalBytes = ⟨state.totalBytes.value, true⟩ := by
  rw [acc.total]

theorem Accounted.ensureEntry : Accounted (state.ensureEntry peer) := by
  rw [OutboundQueuesState.ensureEntry]
  split
  · exact acc
  · rename_i missing
    refine ⟨?_, ?_, ?_⟩
    · rw [Table.Keyed, map_append, nodup_append]
      refine ⟨acc.keyed, by simp, ?_⟩
      rintro key inPeers other isPeer rfl
      obtain ⟨entry, mem, rfl⟩ := List.mem_map.mp inPeers
      exact Table.get?_eq_none.mp missing entry mem (by simpa using isPeer)
    · intro entry mem
      rcases mem_append.mp mem with inPeers | isNew
      · exact acc.queues entry inPeers
      · rw [mem_singleton.mp isNew]
        rfl
    · rw [acc.total]
      simp

end State

section Shedding

variable {before mid after : OutboundQueuesState} (config : OutboundQueueConfig)
variable {dropped evicted : List (Key × QueuedObject)}

/-- The queues lost the dropped objects from their heads and nothing else changed. -/
structure Shed (before after : OutboundQueuesState) (dropped : List (Key × QueuedObject)) : Prop where
  accounted : Accounted after
  wakes : after.nextWake = before.nextWake
  total : after.totalBytes.value ≤ before.totalBytes.value
  missing : ∀ peer, before.peers.get? peer = none → after.peers.get? peer = none ∧ valuesAt dropped peer = []
  queue : ∀ peer queue, before.peers.get? peer = some queue →
    ∃ kept, queue.items = valuesAt dropped peer ++ kept ∧ after.peers.get? peer = some (queue.holding kept)

theorem Shed.refl (acc : Accounted before) : Shed before before [] where
  accounted := acc
  wakes := rfl
  total := Nat.le_refl _
  missing := fun _ gone => ⟨gone, rfl⟩
  queue := by
    intro peer queue found
    refine ⟨queue.items, rfl, ?_⟩
    rw [found, acc.holding found]

theorem Shed.trans (first : Shed before mid dropped) (second : Shed mid after evicted) :
    Shed before after (dropped ++ evicted) where
  accounted := second.accounted
  wakes := second.wakes.trans first.wakes
  total := Nat.le_trans second.total first.total
  missing := by
    intro peer gone
    obtain ⟨goneMid, noneFirst⟩ := first.missing peer gone
    obtain ⟨goneAfter, noneSecond⟩ := second.missing peer goneMid
    exact ⟨goneAfter, by rw [valuesAt_append, noneFirst, noneSecond, append_nil]⟩
  queue := by
    intro peer queue found
    obtain ⟨keptMid, splitFirst, foundMid⟩ := first.queue peer queue found
    obtain ⟨kept, splitSecond, foundAfter⟩ := second.queue peer _ foundMid
    refine ⟨kept, ?_, foundAfter⟩
    rw [valuesAt_append, append_assoc, ← splitSecond, splitFirst]
    rfl

theorem Shed.one (acc : Accounted before) {peer : Key} {queue : PeerQueue} {head kept : List QueuedObject}
    (found : before.peers.get? peer = some queue) (split : queue.items = head ++ kept)
    {set : PeerQueue → PeerQueue} (isSet : set queue = queue.holding kept) {held : Nat}
    (total : held + sizes head = before.totalBytes.value) :
    Shed before { before with
      peers := before.peers.modify peer set
      totalBytes := ⟨held, true⟩ } (head.map fun object => (peer, object)) where
  accounted := by
    apply acc.update found
    · rw [isSet]
      rfl
    · rw [isSet, split, sizes_append]
      simp only [PeerQueue.holding]
      omega
  wakes := rfl
  total := by
    simp only
    omega
  missing := by
    intro other gone
    have apart : peer ≠ other := by
      rintro rfl
      rw [found] at gone
      cases gone
    exact ⟨(Table.get?_modify_other apart.symm).trans gone, valuesAt_other apart head⟩
  queue := by
    intro other otherQueue otherFound
    by_cases same : other = peer
    · subst same
      obtain rfl := some.inj (found.symm.trans otherFound)
      refine ⟨kept, by rw [valuesAt_tagged, split], ?_⟩
      rw [Table.get?_modify_self, found, map_some, isSet]
    · refine ⟨otherQueue.items, ?_, ?_⟩
      · rw [valuesAt_other (Ne.symm same), nil_append]
      · rw [Table.get?_modify_other same, otherFound, acc.holding otherFound]

theorem evictPeer_shed (acc : Accounted before) {peer : Key} {queue : PeerQueue} (size : Nat)
    (found : before.peers.get? peer = some queue) :
    ∃ after dropped kept, before.evictPeer config peer size = (after, dropped) ∧
      Shed before after (dropped.map fun object => (peer, object)) ∧
      after.peers.get? peer = some (queue.holding kept) ∧
      (kept ≠ [] → kept.length + 1 ≤ config.objectsPerPeer ∧ sizes kept + size ≤ config.bytesPerPeer) := by
  obtain ⟨dropped, kept, split, run, fits⟩ := evictFront_spec config size queue.items 0
  simp only [Nat.add_zero] at run fits
  have covers := acc.covers found
  have freed : before.totalBytes.sub (sizes dropped) = ⟨before.totalBytes.value - sizes dropped, true⟩ := by
    rw [acc.total_exact]
    apply Counter.sub_exact
    rw [split, sizes_append] at covers
    omega
  rw [← acc.found found] at run
  have eq : before.evictPeer config peer size = ({ before with
      peers := before.peers.modify peer fun queue => { queue with
        items := kept
        bytes := ⟨sizes kept, true⟩ }
      totalBytes := ⟨before.totalBytes.value - sizes dropped, true⟩ }, dropped) := by
    simp only [evictPeer, found, run, freed]
  refine ⟨_, dropped, kept, eq, ?_, ?_, fits⟩
  · apply Shed.one acc found split rfl
    rw [split, sizes_append] at covers
    omega
  · simp only [Table.get?_modify_self, found, map_some]
    rfl

theorem largest_mem {entry : Key × PeerQueue} (found : before.largest = some entry) :
    entry ∈ before.peers ∧ entry.2.items ≠ [] := by
  have picks : ∀ {pick : Option (Key × PeerQueue) → Key × PeerQueue → Option (Key × PeerQueue)},
      (∀ best entry, pick best entry = best ∨ pick best entry = some entry) →
      ∀ (entries : List (Key × PeerQueue)) best, entries.foldl pick best = some entry → best = some entry ∨ entry ∈ entries := by
    intro pick either entries
    induction entries with
    | nil => intro best same; exact .inl same
    | cons first rest ih =>
      intro best same
      rcases ih _ same with chosen | later
      · rcases either best first with kept | taken
        · exact .inl (kept ▸ chosen)
        · exact .inr (mem_cons.mpr (.inl (some.inj (taken.symm.trans chosen)).symm))
      · exact .inr (mem_cons_of_mem _ later)
  have picked := picks (fun best entry => by
    cases best with
    | none => exact .inr rfl
    | some held =>
      dsimp only
      split
      · exact .inr rfl
      · exact .inl rfl) _ none found
  rcases picked with absent | mem
  · cases absent
  · obtain ⟨inPeers, filled⟩ := mem_filter.mp mem
    exact ⟨inPeers, by simpa using filled⟩

theorem evictLargest_shed (acc : Accounted before) (size rounds : Nat) :
    ∃ after evicted fits, evictLargest config size rounds before = (after, evicted, fits) ∧
      Shed before after evicted ∧ (fits = true → after.totalBytes.value + size ≤ config.totalBytes) := by
  induction rounds generalizing before with
  | zero => exact ⟨before, [], _, rfl, .refl acc, of_decide_eq_true⟩
  | succ rounds ih =>
    rw [evictLargest]
    by_cases beyond : config.totalBytes < before.totalBytes.value + size
    · simp only [beyond, if_true]
      cases largest : before.largest with
      | none => exact ⟨before, [], false, rfl, .refl acc, by simp⟩
      | some entry =>
        obtain ⟨peer, queue⟩ := entry
        obtain ⟨mem, filled⟩ := largest_mem largest
        have found := acc.keyed.get? mem
        cases isItems : queue.items with
        | nil => exact absurd isItems filled
        | cons front rest =>
          have covers := acc.covers found
          rw [isItems, sizes_cons] at covers
          have freed : before.totalBytes.sub front.size = ⟨before.totalBytes.value - front.size, true⟩ := by
            rw [acc.total_exact]
            exact Counter.sub_exact (by omega)
          have isSet : ({ queue with
              items := rest
              bytes := queue.bytes.sub front.size } : PeerQueue) = queue.holding rest := by
            rw [PeerQueue.holding, acc.found found, isItems, Counter.sub_exact (by simp)]
            simp
          have one : Shed before { before with
              peers := before.peers.modify peer fun queue => { queue with
                items := rest
                bytes := queue.bytes.sub front.size }
              totalBytes := before.totalBytes.sub front.size } ([front].map fun object => (peer, object)) := by
            rw [freed]
            exact Shed.one acc found isItems isSet (by simp only [sizes_cons, sizes_nil]; omega)
          obtain ⟨after, evicted, fits, run, shed, sound⟩ := ih one.accounted
          simp only [isItems, run]
          exact ⟨after, _, fits, rfl, one.trans shed, sound⟩
    · simp only [beyond, if_false]
      exact ⟨before, [], true, rfl, .refl acc, fun _ => by omega⟩

theorem ensureEntry_found (state : OutboundQueuesState) (peer : Key) :
    ∃ queue, (state.ensureEntry peer).peers.get? peer = some queue := by
  cases found : state.peers.get? peer with
  | some queue => exact ⟨queue, by simp only [OutboundQueuesState.ensureEntry, found]⟩
  | none =>
    refine ⟨{ wake := state.nextWake }, ?_⟩
    simp only [OutboundQueuesState.ensureEntry, found, Table.get?_append, none_or]
    simp [Table.get?]

theorem enqueue_cases (acc : Accounted before) (peer : Key) (object : QueuedObject) :
    ∃ mid dropped queue, Shed (before.ensureEntry peer) mid dropped ∧ mid.peers.get? peer = some queue ∧
      (before.enqueue config peer object = (mid, dropped, none) ∨ before.enqueue config peer object =
          (mid.push peer object, dropped, some (!queue.workerSpawned, queue.wake)) ∧
        (0 < config.objectsPerPeer → queue.items.length + 1 ≤ config.objectsPerPeer) ∧
        sizes queue.items + object.size ≤ config.bytesPerPeer ∧
        mid.totalBytes.value + object.size ≤ config.totalBytes) := by
  obtain ⟨own, foundOwn⟩ := ensureEntry_found before peer
  obtain ⟨thin, dropped, kept, runPeer, shedPeer, foundThin, fitsPeer⟩ :=
    evictPeer_shed config acc.ensureEntry object.size foundOwn
  by_cases tooBig : (own.holding kept).items.isEmpty ∧ config.bytesPerPeer < object.size
  · refine ⟨thin, _, _, shedPeer, foundThin, .inl ?_⟩
    simp only [OutboundQueuesState.enqueue, runPeer, foundThin, tooBig, and_self, if_true]
  · obtain ⟨after, evicted, fits, run, shed, sound⟩ :=
      evictLargest_shed config shedPeer.accounted object.size thin.queuedCount
    obtain ⟨left, split, foundAfter⟩ := shed.queue peer _ foundThin
    refine ⟨after, _, _, shedPeer.trans shed, foundAfter, ?_⟩
    cases fits with
    | false =>
      refine .inl ?_
      simp only [OutboundQueuesState.enqueue, runPeer, foundThin, tooBig, if_false, run, Bool.false_eq_true]
    | true =>
      refine .inr ⟨?_, ?_, ?_, sound rfl⟩
      · simp only [OutboundQueuesState.enqueue, runPeer, foundThin, tooBig, if_false, run, if_true]
        rfl
      · intro positive
        have isKept : kept = valuesAt evicted peer ++ left := split
        rcases eq_or_ne kept [] with rfl | filled
        · have none : left = [] := (append_eq_nil_iff.mp isKept.symm).2
          simp only [PeerQueue.holding, none, length_nil]
          omega
        · have room := (fitsPeer filled).1
          rw [isKept, length_append] at room
          simp only [PeerQueue.holding]
          omega
      · have isKept : kept = valuesAt evicted peer ++ left := split
        simp only [PeerQueue.holding, List.isEmpty_iff, not_and, Nat.not_lt] at tooBig ⊢
        rcases eq_or_ne kept [] with rfl | filled
        · have none : left = [] := (append_eq_nil_iff.mp isKept.symm).2
          simpa [none] using tooBig rfl
        · have room := (fitsPeer filled).2
          rw [isKept, sizes_append] at room
          omega

end Shedding

variable (config : OutboundQueueConfig)

section

variable (acc : Accounted state)
include acc

theorem Accounted.push (found : state.peers.get? peer = some queue) (object : QueuedObject) :
    Accounted (state.push peer object) := by
  rw [OutboundQueuesState.push, acc.total_exact, Counter.add]
  apply acc.update found
  · simp only [acc.found found, Counter.add, sizes_append, sizes_cons, sizes_nil, Nat.add_zero]
  · simp only [sizes_append, sizes_cons, sizes_nil]
    omega

theorem Accounted.enqueue (peer : Key) (object : QueuedObject) : Accounted (state.enqueue config peer object).1 := by
  obtain ⟨mid, dropped, queue, shed, found, refused | ⟨taken, -⟩⟩ :=
    enqueue_cases config acc peer object
  · rw [refused]
    exact shed.accounted
  · rw [taken]
    exact shed.accounted.push found object

theorem takeBatch_cases (clock : Nat → Nat) (found : state.peers.get? peer = some queue) :
    ∃ batch stale kept after, Taken config.maxBatch none queue.items batch stale kept ∧
      state.takeBatch config clock peer = (batch, stale, after) ∧ Accounted after ∧
      after.nextWake = state.nextWake ∧ after.totalBytes.value ≤ state.totalBytes.value ∧
      after.peers = state.peers.modify peer fun queue => { queue.holding kept with
        inFlight := queue.inFlight || !batch.isEmpty } := by
  obtain ⟨batch, stale, kept, taken, run⟩ := takeItems_taken config clock config.maxBatch none queue.items
  rw [← acc.found found] at run
  have covers := acc.covers found
  rw [taken.sizes] at covers
  have freed : (state.totalBytes.sub (sizes stale)).sub (sizes batch) =
      ⟨state.totalBytes.value - sizes stale - sizes batch, true⟩ := by
    rw [acc.total_exact, Counter.sub_exact (by omega), Counter.sub_exact (by omega)]
  refine ⟨batch, stale, kept, { state with
    peers := state.peers.modify peer fun queue => { queue.holding kept with
      inFlight := queue.inFlight || !batch.isEmpty }
    totalBytes := ⟨state.totalBytes.value - sizes stale - sizes batch, true⟩ }, taken, ?_, ?_, rfl, ?_, rfl⟩
  · simp only [OutboundQueuesState.takeBatch, found, run, freed]
    rfl
  · apply acc.update found
    · rfl
    · simp only [PeerQueue.holding]
      rw [taken.sizes]
      omega
  · simp only
    omega

theorem Accounted.takeBatch (clock : Nat → Nat) (peer : Key) : Accounted (state.takeBatch config clock peer).2.2 := by
  cases found : state.peers.get? peer with
  | none => simpa only [OutboundQueuesState.takeBatch, found] using acc
  | some queue =>
    obtain ⟨batch, stale, kept, after, -, run, accAfter, -⟩ := takeBatch_cases config acc clock found
    rw [run]
    exact accAfter

theorem Accounted.requeueFront (peer : Key) (batch : List QueuedObject) :
    Accounted (state.requeueFront peer batch) := by
  cases found : state.peers.get? peer with
  | none => simpa only [OutboundQueuesState.requeueFront, found] using acc
  | some queue =>
    simp only [OutboundQueuesState.requeueFront, found]
    rw [acc.total_exact, Counter.add]
    apply acc.update found
    · simp only [acc.found found, Counter.add, sizes_append, Nat.add_comm]
    · simp only [sizes_append]
      omega

theorem Accounted.markInFlightFalse (peer : Key) : Accounted (state.markInFlightFalse peer) :=
  acc.flags _ fun _ => ⟨rfl, rfl⟩

theorem Accounted.dropPeer (tickets : Nat) (peer : Key) : Accounted (state.dropPeer tickets peer).1 := by
  rw [OutboundQueuesState.dropPeer]
  split
  · exact acc
  · exact acc.flags _ fun _ => ⟨rfl, rfl⟩

theorem Accounted.remove (found : state.peers.get? peer = some queue) : Accounted { state with
      peers := state.peers.remove peer
      totalBytes := state.totalBytes.sub queue.bytes.value } := by
  have covers := acc.covers found
  have split := ((acc.keyed.split found).map fun entry => sizes entry.2.items).sum_eq
  have isTotal := congrArg Counter.value acc.total
  refine ⟨acc.keyed.remove, fun entry mem => acc.queues entry (mem_remove.mp mem).1, ?_⟩
  simp only [acc.found found]
  rw [acc.total_exact, Counter.sub_exact covers]
  simp only [map_cons, sum_cons] at split
  simp only [Counter.mk.injEq, and_true]
  simp only at isTotal
  omega

theorem Accounted.checkAndRemoveIfStopped (peer : Key) : Accounted (state.checkAndRemoveIfStopped peer).2.2 := by
  rw [OutboundQueuesState.checkAndRemoveIfStopped]
  cases found : state.peers.get? peer with
  | none => exact acc
  | some queue =>
    simp only
    split
    · exact acc.remove found
    · exact acc

theorem Accounted.rehash (order : Table Key PeerQueue) : Accounted (state.rehash order) := by
  rw [OutboundQueuesState.rehash]
  split
  · rename_i perm
    refine ⟨acc.keyed.perm perm, fun entry mem => acc.queues entry (perm.mem_iff.mp mem), ?_⟩
    rw [acc.total, ((perm.map fun entry => sizes entry.2.items).sum_eq)]
  · exact acc

theorem Accounted.apply (op : QueueOp) : Accounted (op.apply config state) := by
  cases op with
  | enqueue peer object => exact acc.enqueue config peer object
  | takeBatch clock peer => exact acc.takeBatch config clock peer
  | requeueFront peer batch => exact acc.requeueFront peer batch
  | markIdle peer => exact acc.markInFlightFalse peer
  | markInFlightFalse peer => exact acc.markInFlightFalse peer
  | dropPeer tickets peer => exact acc.dropPeer tickets peer
  | checkAndRemoveIfStopped peer => exact acc.checkAndRemoveIfStopped peer
  | rehash order => exact acc.rehash order

theorem Accounted.run (ops : List QueueOp) : Accounted (ops.foldl (QueueOp.apply config) state) := by
  induction ops generalizing state with
  | nil => exact acc
  | cons op ops ih => exact ih (acc.apply config op)

end

/-- Whatever lock sections run in whatever order, the counters show the lengths of the queued objects,
and no saturating subtraction ever saturates. -/
theorem outbound_bytes_exact (ops : List QueueOp) :
    let state := ops.foldl (QueueOp.apply config) {}
    (∀ entry ∈ state.peers, entry.2.bytes.value = sizes entry.2.items ∧ entry.2.bytes.exact = true) ∧
      state.totalBytes.value = (state.peers.map fun entry => entry.2.bytes.value).sum ∧
      state.totalBytes.exact = true ∧
      ((∀ entry ∈ state.peers, entry.2.items = []) → state.totalBytes.value = 0) := by
  intro state
  have acc : Accounted state := Accounted.empty.run config ops
  have isBytes : (state.peers.map fun entry => entry.2.bytes.value) =
      state.peers.map fun entry => sizes entry.2.items := by
    apply map_congr_left
    intro entry mem
    rw [acc.queues entry mem]
  refine ⟨?_, ?_, ?_, ?_⟩
  · intro entry mem
    rw [acc.queues entry mem]
    exact ⟨rfl, rfl⟩
  · rw [acc.total, isBytes]
  · rw [acc.total]
  · intro empty
    rw [acc.total]
    apply sum_eq_zero
    intro size mem
    obtain ⟨entry, inPeers, rfl⟩ := List.mem_map.mp mem
    rw [empty entry inPeers]
    rfl

end Prismoire
