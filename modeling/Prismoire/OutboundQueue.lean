import Mathlib.Algebra.GroupWithZero.Nat
import Prismoire.Signed
import Prismoire.Lib.Table

namespace Prismoire

open Lib

def maxContentBatchOutbound : Nat := 64

/-- The one conversion from the file format sets `maxBatch` to the constant, which is positive. -/
structure OutboundQueueConfig where
  totalBytes : Nat
  bytesPerPeer : Nat
  objectsPerPeer : Nat
  objectMaxAge : Nat
  maxBatch : Nat := maxContentBatchOutbound
  batches : 0 < maxBatch := by decide

/-- A counter that is lowered by `saturating_sub`; `exact` is cleared once a subtraction saturates. -/
structure Counter where
  value : Nat := 0
  exact : Bool := true
  deriving DecidableEq

namespace Counter

def add (counter : Counter) (n : Nat) : Counter :=
  { counter with
    value := counter.value + n }

def sub (counter : Counter) (n : Nat) : Counter where
  value := counter.value - n
  exact := counter.exact && n ≤ counter.value

end Counter

/-- `ticket` numbers the calls of `enqueue` and stands for the identity of the object. -/
structure QueuedObject where
  path : Text
  bodyKey : Text
  wireBytes : Bytes
  enqueuedAt : Nat
  ticket : Nat
  deriving DecidableEq

def QueuedObject.size (object : QueuedObject) : Nat :=
  object.wireBytes.length

def QueuedObject.route (object : QueuedObject) : Text × Text :=
  (object.path, object.bodyKey)

def sizes (objects : List QueuedObject) : Nat :=
  (objects.map QueuedObject.size).sum

/-- A peer's queue; `wake` names its `Notify`, and `droppedAt` records how many calls of `enqueue`
had been made at the last `drop_peer` of this entry. -/
structure PeerQueue where
  wake : Nat
  items : List QueuedObject := []
  bytes : Counter := {}
  workerSpawned : Bool := false
  inFlight : Bool := false
  stopped : Bool := false
  droppedAt : Nat := 0
  deriving DecidableEq

/-- The state behind the mutex; `nextWake` names the next `Notify`. -/
structure OutboundQueuesState where
  peers : Table Key PeerQueue := []
  totalBytes : Counter := {}
  nextWake : Nat := 0

/-- Step 1 of `enqueue`: drops from the head until one more object of the size fits both caps of
the peer. The result is the queue, its bytes and what was dropped. -/
def evictFront (config : OutboundQueueConfig) (size : Nat) :
    List QueuedObject → Counter → List QueuedObject × Counter × List QueuedObject
  | [], bytes => ([], bytes, [])
  | front :: rest, bytes =>
    if config.objectsPerPeer < rest.length + 2 ∨ config.bytesPerPeer < bytes.value + size then
      let (items, bytes, dropped) := evictFront config size rest (bytes.sub front.size)
      (items, bytes, front :: dropped)
    else
      (front :: rest, bytes, [])

/-- `take_batch`'s loop, with the room left in the batch and the route of its first object; the clock is read
at every object. The result is the batch, the stale objects, the queue and its bytes. -/
def takeItems (config : OutboundQueueConfig) (clock : Nat → Nat) : Nat → Option (Text × Text) → List QueuedObject → Counter →
      List QueuedObject × List QueuedObject × List QueuedObject × Counter
  | _, _, [], bytes => ([], [], [], bytes)
  | 0, _, items, bytes => ([], [], items, bytes)
  | room + 1, route, front :: rest, bytes =>
    if config.objectMaxAge < clock 0 - front.enqueuedAt then
      let (batch, stale, items, bytes) := takeItems config (clock <| · + 1) (room + 1) route rest (bytes.sub front.size)
      (batch, front :: stale, items, bytes)
    else if route.any (· ≠ front.route) then
      ([], [], front :: rest, bytes)
    else
      let (batch, stale, items, bytes) :=
        takeItems config (clock <| · + 1) room (some front.route) rest (bytes.sub front.size)
      (front :: batch, stale, items, bytes)

namespace OutboundQueuesState

variable (state : OutboundQueuesState)

def largest : Option (Key × PeerQueue) :=
  (state.peers.filter fun entry => !entry.2.items.isEmpty).foldl (fun best entry =>
      match best with
      | none => some entry
      | some found => if found.2.bytes.value ≤ entry.2.bytes.value then some entry else some found)
    none

/-- Step 2 of `enqueue`: drops from the head of the largest queue while one more object of the size
does not fit the global cap. The flag
tells whether the object fits in the end. -/
def evictLargest (config : OutboundQueueConfig) (size : Nat) :
    Nat → OutboundQueuesState → OutboundQueuesState × List (Key × QueuedObject) × Bool
  | 0, state => (state, [], state.totalBytes.value + size ≤ config.totalBytes)
  | rounds + 1, state =>
    if config.totalBytes < state.totalBytes.value + size then
      match state.largest with
      | none => (state, [], false)
      | some (peer, queue) =>
        match queue.items with
        | [] => (state, [], false)
        | front :: rest =>
          let state : OutboundQueuesState :=
            { state with
              peers := state.peers.modify peer fun queue => { queue with
                items := rest
                bytes := queue.bytes.sub front.size }
              totalBytes := state.totalBytes.sub front.size }
          let (state, evicted, fits) := evictLargest config size rounds state
          (state, (peer, front) :: evicted, fits)
    else
      (state, [], true)

def queuedCount : Nat :=
  (state.peers.map fun entry => entry.2.items.length).sum

def ensureEntry (peer : Key) : OutboundQueuesState :=
  match state.peers.get? peer with
  | some _ => state
  | none => { state with
      peers := state.peers ++ [(peer, { wake := state.nextWake })]
      nextWake := state.nextWake + 1 }

def evictPeer (config : OutboundQueueConfig) (peer : Key) (size : Nat) : OutboundQueuesState × List QueuedObject :=
  match state.peers.get? peer with
  | none => (state, [])
  | some queue =>
    let (items, bytes, dropped) := evictFront config size queue.items queue.bytes
    ({ state with
      peers := state.peers.modify peer fun queue => { queue with
        items := items
        bytes := bytes }
      totalBytes := state.totalBytes.sub (sizes dropped) }, dropped)

/-- Step 3 of `enqueue`; a worker is to be spawned for the first object of an entry. -/
def push (peer : Key) (object : QueuedObject) : OutboundQueuesState :=
  { state with
    peers := state.peers.modify peer fun queue => { queue with
      items := queue.items ++ [object]
      bytes := queue.bytes.add object.size
      workerSpawned := true }
    totalBytes := state.totalBytes.add object.size }

/-- What `enqueue` does under the lock: the objects it evicted and, when the object was accepted,
whether a worker has to be spawned and which `Notify` to signal. -/
def enqueue (config : OutboundQueueConfig) (peer : Key) (object : QueuedObject) :
    OutboundQueuesState × List (Key × QueuedObject) × Option (Bool × Nat) :=
  let (state, dropped) := (state.ensureEntry peer).evictPeer config peer object.size
  let dropped := dropped.map fun object => (peer, object)
  match state.peers.get? peer with
  | none => (state, dropped, none)
  | some queue =>
    if queue.items.isEmpty ∧ config.bytesPerPeer < object.size then
      (state, dropped, none)
    else
      let (state, evicted, fits) := state.evictLargest config object.size state.queuedCount
      if fits then
        (state.push peer object, dropped ++ evicted, some (!queue.workerSpawned, queue.wake))
      else
        (state, dropped ++ evicted, none)

def takeBatch (config : OutboundQueueConfig) (clock : Nat → Nat) (peer : Key) :
    List QueuedObject × List QueuedObject × OutboundQueuesState :=
  match state.peers.get? peer with
  | none => ([], [], state)
  | some queue =>
    let (batch, stale, items, bytes) := takeItems config clock config.maxBatch none queue.items queue.bytes
    (batch, stale, { state with
        peers := state.peers.modify peer fun queue => { queue with
          items := items
          bytes := bytes
          inFlight := queue.inFlight || !batch.isEmpty }
        totalBytes := (state.totalBytes.sub (sizes stale)).sub (sizes batch) })

/-- A peer whose entry is gone is left alone. -/
def requeueFront (peer : Key) (batch : List QueuedObject) : OutboundQueuesState :=
  match state.peers.get? peer with
  | none => state
  | some _ => { state with
      peers := state.peers.modify peer fun queue => { queue with
        items := batch ++ queue.items
        bytes := queue.bytes.add (sizes batch) }
      totalBytes := state.totalBytes.add (sizes batch) }

def markInFlightFalse (peer : Key) : OutboundQueuesState :=
  { state with
    peers := state.peers.modify peer fun queue => { queue with
      inFlight := false } }

/-- Like `mark_in_flight_false`; the waiters on `idle_notify` that it also wakes are not part of the state. -/
def markIdle (peer : Key) : OutboundQueuesState :=
  state.markInFlightFalse peer

def isIdleNow : Bool :=
  state.peers.all fun entry => entry.2.items.isEmpty && !entry.2.inFlight

/-- Raises the flag and names the `Notify` to signal; `tickets` are the enqueues made so far. -/
def dropPeer (tickets : Nat) (peer : Key) : OutboundQueuesState × Option Nat :=
  match state.peers.get? peer with
  | none => (state, none)
  | some queue =>
    ({ state with
      peers := state.peers.modify peer fun queue => { queue with
        stopped := true
        droppedAt := tickets } }, some queue.wake)

def checkAndRemoveIfStopped (peer : Key) : Bool × Option PeerQueue × OutboundQueuesState :=
  match state.peers.get? peer with
  | none => (true, none, state)
  | some queue =>
    if queue.stopped then
      (true, some queue, { state with
        peers := state.peers.remove peer
        totalBytes := state.totalBytes.sub queue.bytes.value })
    else
      (false, none, state)

/-- A hash map may visit its entries in any order. -/
def rehash (order : Table Key PeerQueue) : OutboundQueuesState :=
  if order.Perm state.peers then
    { state with
      peers := order }
  else
    state

end OutboundQueuesState

/-- The lock sections, with any arguments. -/
inductive QueueOp
  | enqueue (peer : Key) (object : QueuedObject)
  | takeBatch (clock : Nat → Nat) (peer : Key)
  | requeueFront (peer : Key) (batch : List QueuedObject)
  | markIdle (peer : Key)
  | markInFlightFalse (peer : Key)
  | dropPeer (tickets : Nat) (peer : Key)
  | checkAndRemoveIfStopped (peer : Key)
  | rehash (order : Table Key PeerQueue)

def QueueOp.apply (config : OutboundQueueConfig) (state : OutboundQueuesState) : QueueOp → OutboundQueuesState
  | .enqueue peer object => (state.enqueue config peer object).1
  | .takeBatch clock peer => (state.takeBatch config clock peer).2.2
  | .requeueFront peer batch => state.requeueFront peer batch
  | .markIdle peer => state.markIdle peer
  | .markInFlightFalse peer => state.markInFlightFalse peer
  | .dropPeer tickets peer => (state.dropPeer tickets peer).1
  | .checkAndRemoveIfStopped peer => (state.checkAndRemoveIfStopped peer).2.2
  | .rehash order => state.rehash order

end Prismoire
