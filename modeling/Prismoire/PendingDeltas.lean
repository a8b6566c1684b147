import Prismoire.Lib.Rows
import Prismoire.Lib.Run
import Prismoire.TrustOverlay

namespace Prismoire

open Lib List Function

/-- The arguments of `PendingDeltas::apply`. -/
structure Click where
  viewer : Uuid
  target : Uuid
  cachedWasTrust : Bool
  cachedWasDistrust : Bool
  newStance : TrustStance

def place (set : Finset Uuid) (target : Uuid) (belongs : Bool) : Finset Uuid :=
  if belongs then insert target (set.erase target) else set.erase target

/-- The membership of the click's target, recomputed from what its handler saw. -/
def ViewerDelta.recompute (delta : ViewerDelta) (click : Click) : ViewerDelta :=
  let nowTrust := click.newStance = .trust
  let nowDistrust := click.newStance = .distrust
  { delta with
    trustAdded := place delta.trustAdded click.target (nowTrust && !click.cachedWasTrust)
    trustRemoved := place delta.trustRemoved click.target (!nowTrust && click.cachedWasTrust)
    distrustAdded := place delta.distrustAdded click.target (nowDistrust && !click.cachedWasDistrust)
    distrustRemoved := place delta.distrustRemoved click.target (!nowDistrust && click.cachedWasDistrust) }

structure PendingDeltas where
  inner : Uuid → Option ViewerDelta := fun _ => none
  seqCounter : Nat := 1

namespace PendingDeltas

variable (pending : PendingDeltas)

def currentSeq : Nat :=
  pending.seqCounter

def get (viewer : Uuid) : ViewerDelta :=
  (pending.inner viewer).getD {}

/-- `seq_counter.fetch_add(1)`, before the lock is taken. -/
def fetchSeq : Nat × PendingDeltas :=
  (pending.seqCounter, { pending with seqCounter := pending.seqCounter + 1 })

/-- The part of `apply` under the write lock. -/
def record (click : Click) (seq : Nat) : PendingDeltas :=
  let entry := ((pending.inner click.viewer).getD {}).recompute click
  let entry := { entry with seq := max entry.seq seq }
  { pending with inner := update pending.inner click.viewer (if entry.isEmpty then none else some entry) }

def purgeBelow (highWater : Nat) : PendingDeltas :=
  { pending with inner := fun viewer => (pending.inner viewer).filter fun delta => highWater ≤ delta.seq }

def apply (click : Click) : PendingDeltas :=
  let (seq, pending) := pending.fetchSeq
  pending.record click seq

end PendingDeltas

/-- The requests and the rebuilds at work on the pending deltas and on the graphs, with what they have read. -/
structure DeltaServer where
  pending : PendingDeltas := {}
  fetched : List (Click × Nat) := []
  reads : List (Uuid × ViewerDelta) := []
  graphs : List CachedGraph := []
  answers : List (TrustGraph × Uuid × ViewerDelta × DistanceMap) := []

inductive DeltaEvent where
  | fetch (click : Click)
  | lock (i : Nat)
  | get (viewer : Uuid)
  | purge (highWater : Nat)
  | swap (graph : TrustGraph)
  | query (graph read : Nat)
  | evict (graph : Nat) (keepForward : Uuid → Bool) (keepDelta : Uuid × Nat → Bool)

/-- One step of some request or rebuild. A request may still hold an earlier graph than the current one. -/
def DeltaServer.step (precision : Precision) (server : DeltaServer) : DeltaEvent → DeltaServer
  | .fetch click =>
    let (seq, pending) := server.pending.fetchSeq
    { server with pending, fetched := server.fetched ++ [(click, seq)] }
  | .lock i =>
    match server.fetched[i]? with
    | none => server
    | some (click, seq) =>
      { server with pending := server.pending.record click seq, fetched := server.fetched.eraseIdx i }
  | .get viewer => { server with reads := server.reads ++ [(viewer, server.pending.get viewer)] }
  | .purge highWater => { server with pending := server.pending.purgeBelow highWater }
  | .swap graph => { server with graphs := server.graphs ++ [{ graph }] }
  | .query i j =>
    match server.graphs[i]?, server.reads[j]? with
    | some cached, some (viewer, delta) =>
      let (map, after) := cached.distanceMapWithDelta precision viewer delta
      { server with
        graphs := server.graphs.set i after
        answers := server.answers ++ [(cached.graph, viewer, delta, map)] }
    | _, _ => server
  | .evict i keepForward keepDelta =>
    match server.graphs[i]? with
    | none => server
    | some cached =>
      { server with graphs := server.graphs.set i { cached with
          forwardCache := cached.forwardCache.filter fun entry => keepForward entry.1
          deltaForwardCache := cached.deltaForwardCache.filter fun entry => keepDelta entry.1 } }

/-- A request takes the lock before later ones of its viewer, or changes nothing. -/
def InSeqOrder (server : DeltaServer) : DeltaEvent → Prop
  | .lock i => ∀ click seq entry, server.fetched[i]? = some (click, seq) →
      server.pending.inner click.viewer = some entry → entry.seq < seq ∨ entry.recompute click = entry
  | _ => True

def deltaMap (precision : Precision) (graph : TrustGraph) (reader : Uuid) (delta : ViewerDelta) : DistanceMap :=
  collectDistances precision (graph.forwardScoresWithDelta precision reader delta)

variable {precision : Precision} {reads : List (Uuid × ViewerDelta)}

def SeqIdentifies (reads : List (Uuid × ViewerDelta)) : Prop :=
  ∀ viewer first second, (viewer, first) ∈ reads → (viewer, second) ∈ reads → first.seq = second.seq → first = second

structure CachedGraph.Sound (precision : Precision) (reads : List (Uuid × ViewerDelta)) (cached : CachedGraph) : Prop where
  forward : ∀ entry ∈ cached.forwardCache,
    entry.2 = collectDistances precision (cached.graph.forwardScores precision entry.1)
  delta : ∀ entry ∈ cached.deltaForwardCache, ∃ delta, (entry.1.1, delta) ∈ reads ∧ delta.seq = entry.1.2 ∧
    entry.2 = deltaMap precision cached.graph entry.1.1 delta

variable {cached : CachedGraph}

theorem CachedGraph.Sound.mono {more : List (Uuid × ViewerDelta)}
    (sound : cached.Sound precision reads) : cached.Sound precision (reads ++ more) := by
  refine ⟨sound.forward, fun entry mem => ?_⟩
  obtain ⟨delta, read, rest⟩ := sound.delta entry mem
  exact ⟨delta, mem_append_left _ read, rest⟩

theorem CachedGraph.Sound.distanceMap (sound : cached.Sound precision reads) (reader : Uuid) :
    (cached.distanceMap precision reader).1 = collectDistances precision (cached.graph.forwardScores precision reader) ∧
    (cached.distanceMap precision reader).2.Sound precision reads := by
  unfold CachedGraph.distanceMap
  cases hit : cached.forwardCache.get? reader with
  | some map => exact ⟨sound.forward _ (Table.mem_of_get? hit), sound⟩
  | none =>
    refine ⟨rfl, fun entry mem => ?_, sound.delta⟩
    rcases mem_concat.mp mem with old | isNew
    · exact sound.forward entry old
    · rw [isNew]

theorem CachedGraph.Sound.distanceMapWithDelta (sound : cached.Sound precision reads)
    (identifies : SeqIdentifies reads) {reader : Uuid} {delta : ViewerDelta} (read : (reader, delta) ∈ reads) :
    (cached.distanceMapWithDelta precision reader delta).1 = deltaMap precision cached.graph reader delta ∧
    (cached.distanceMapWithDelta precision reader delta).2.Sound precision reads := by
  unfold CachedGraph.distanceMapWithDelta
  by_cases empty : delta.isEmpty = true
  · rw [if_pos empty, deltaMap, TrustGraph.forwardScoresWithDelta, if_pos empty]
    exact sound.distanceMap reader
  · rw [if_neg empty]
    dsimp only
    cases hit : cached.deltaForwardCache.get? (reader, delta.seq) with
    | some map =>
      obtain ⟨other, otherRead, same, isMap⟩ := sound.delta _ (Table.mem_of_get? hit)
      rw [identifies reader other delta otherRead read same] at isMap
      exact ⟨isMap, sound⟩
    | none =>
      refine ⟨rfl, sound.forward, fun entry mem => ?_⟩
      rcases mem_concat.mp mem with old | isNew
      · exact sound.delta entry old
      · rw [isNew]
        exact ⟨delta, read, rfl, rfl⟩

/-- The invariant of the server: a number that is still to be recorded is on no delta yet. -/
structure DeltaServer.Sound (precision : Precision) (server : DeltaServer) : Prop where
  identifies : SeqIdentifies server.reads
  current : ∀ viewer entry delta, server.pending.inner viewer = some entry → (viewer, delta) ∈ server.reads →
    delta.seq = entry.seq → delta = entry
  entrySeq : ∀ viewer entry, server.pending.inner viewer = some entry →
    0 < entry.seq ∧ entry.seq < server.pending.seqCounter
  readSeq : ∀ read ∈ server.reads, read.2 = {} ∨ 0 < read.2.seq ∧ read.2.seq < server.pending.seqCounter
  waitingSeq : ∀ waiting ∈ server.fetched, 0 < waiting.2 ∧ waiting.2 < server.pending.seqCounter
  unread : ∀ waiting ∈ server.fetched, ∀ read ∈ server.reads, read.2.seq ≠ waiting.2
  unrecorded : ∀ waiting ∈ server.fetched, ∀ viewer entry, server.pending.inner viewer = some entry →
    entry.seq ≠ waiting.2
  distinct : (server.fetched.map Prod.snd).Nodup
  started : 0 < server.pending.seqCounter
  graphs : ∀ cached ∈ server.graphs, cached.Sound precision server.reads
  answers : ∀ answer ∈ server.answers, answer.2.2.2 = deltaMap precision answer.1 answer.2.1 answer.2.2.1

theorem record_inner {pending : PendingDeltas} {click : Click} {seq : Nat} {viewer : Uuid} {entry : ViewerDelta}
    (order : ∀ entry, pending.inner click.viewer = some entry → entry.seq < seq ∨ entry.recompute click = entry)
    (found : (pending.record click seq).inner viewer = some entry) :
    pending.inner viewer = some entry ∨ entry.seq = seq := by
  dsimp only [PendingDeltas.record] at found
  by_cases own : viewer = click.viewer
  · subst own
    rw [update_self] at found
    split at found
    · cases found
    rw [Option.some.injEq] at found
    subst found
    cases old : pending.inner click.viewer with
    | none => exact .inr (Nat.zero_max seq)
    | some before =>
      rcases order before old with less | same
      · exact .inr (max_eq_right less.le)
      · rw [Option.getD_some, same]
        rcases le_total before.seq seq with le | ge
        · exact .inr (max_eq_right le)
        · left
          rw [max_eq_left ge]
  · rw [update_of_ne own] at found
    exact .inl found

namespace DeltaServer.Sound

variable {server : DeltaServer}

variable (sound : server.Sound precision)
include sound

theorem fetch (click : Click) : (server.step precision (.fetch click)).Sound precision where
  identifies := sound.identifies
  current := sound.current
  entrySeq viewer entry found := by
    obtain ⟨positive, less⟩ := sound.entrySeq viewer entry found
    exact ⟨positive, Nat.lt_succ_of_lt less⟩
  readSeq read mem := by
    rcases sound.readSeq read mem with none_ | ⟨positive, less⟩
    · exact .inl none_
    · exact .inr ⟨positive, Nat.lt_succ_of_lt less⟩
  waitingSeq waiting mem := by
    rcases mem_concat.mp mem with old | isNew
    · obtain ⟨positive, less⟩ := sound.waitingSeq waiting old
      exact ⟨positive, Nat.lt_succ_of_lt less⟩
    · rw [isNew]
      exact ⟨sound.started, Nat.lt_succ_self _⟩
  unread waiting mem read isRead := by
    rcases mem_concat.mp mem with old | isNew
    · exact sound.unread waiting old read isRead
    · rw [isNew]
      rcases sound.readSeq read isRead with none_ | ⟨-, less⟩
      · rw [none_]
        exact sound.started.ne
      · exact less.ne
  unrecorded waiting mem viewer entry found := by
    rcases mem_concat.mp mem with old | isNew
    · exact sound.unrecorded waiting old viewer entry found
    · rw [isNew]
      exact (sound.entrySeq viewer entry found).2.ne
  distinct := by
    show ((server.fetched ++ [(click, server.pending.seqCounter)]).map Prod.snd).Nodup
    rw [map_append, nodup_append]
    refine ⟨sound.distinct, nodup_singleton _, fun seq mem new isNew => ?_⟩
    obtain ⟨waiting, isWaiting, rfl⟩ := mem_map.mp mem
    rw [show new = server.pending.seqCounter by simpa using isNew]
    exact (sound.waitingSeq waiting isWaiting).2.ne
  started := Nat.succ_pos _
  graphs := sound.graphs
  answers := sound.answers

theorem lock {i : Nat} (order : InSeqOrder server (.lock i)) : (server.step precision (.lock i)).Sound precision := by
  dsimp only [DeltaServer.step]
  cases at_ : server.fetched[i]? with
  | none => exact sound
  | some waiting =>
    obtain ⟨click, seq⟩ := waiting
    have isWaiting : (click, seq) ∈ server.fetched := mem_of_getElem? at_
    have fromOld : ∀ {viewer entry}, (server.pending.record click seq).inner viewer = some entry →
        server.pending.inner viewer = some entry ∨ entry.seq = seq :=
      record_inner fun entry old => order click seq entry at_ old
    have rest : ∀ other ∈ server.fetched.eraseIdx i, other ∈ server.fetched :=
      fun other mem => mem_of_mem_eraseIdx mem
    have apart : ∀ other ∈ server.fetched.eraseIdx i, other.2 ≠ seq := by
      have perm := (perm_cons_eraseIdx at_).map Prod.snd
      have distinct := perm.nodup_iff.mp sound.distinct
      intro other mem same
      exact (nodup_cons.mp distinct).1 (mem_map.mpr ⟨other, mem, same⟩)
    constructor
    case identifies => exact sound.identifies
    case current =>
      intro viewer entry delta found read same
      rcases fromOld found with old | isSeq
      · exact sound.current viewer entry delta old read same
      · exact absurd (same.trans isSeq) (sound.unread _ isWaiting _ read)
    case entrySeq =>
      intro viewer entry found
      rcases fromOld found with old | isSeq
      · exact sound.entrySeq viewer entry old
      · rw [isSeq]
        exact sound.waitingSeq _ isWaiting
    case readSeq => exact sound.readSeq
    case waitingSeq => exact fun other mem => sound.waitingSeq other (rest other mem)
    case unread => exact fun other mem => sound.unread other (rest other mem)
    case unrecorded =>
      intro other mem viewer entry found
      rcases fromOld found with old | isSeq
      · exact sound.unrecorded other (rest other mem) viewer entry old
      · rw [isSeq]
        exact (apart other mem).symm
    case distinct => exact sound.distinct.sublist ((eraseIdx_sublist _ _).map Prod.snd)
    case started => exact sound.started
    case graphs => exact sound.graphs
    case answers => exact sound.answers

theorem get (viewer : Uuid) : (server.step precision (.get viewer)).Sound precision := by
  have isRead : ∀ {other delta}, (other, delta) ∈ server.reads ++ [(viewer, server.pending.get viewer)] →
      (other, delta) ∈ server.reads ∨ other = viewer ∧ delta = server.pending.get viewer := by
    intro other delta mem
    simpa using mem
  have agree : ∀ delta, (viewer, delta) ∈ server.reads → delta.seq = (server.pending.get viewer).seq →
      delta = server.pending.get viewer := by
    intro delta read same
    unfold PendingDeltas.get at same ⊢
    cases found : server.pending.inner viewer with
    | some entry =>
      rw [found] at same
      exact sound.current viewer entry delta found read same
    | none =>
      rw [found] at same
      rcases sound.readSeq _ read with none_ | ⟨positive, -⟩
      · exact none_
      · exact absurd same positive.ne'
  constructor
  case identifies =>
    intro other first second isFirst isSecond same
    rcases isRead isFirst with first' | ⟨rfl, rfl⟩
    · rcases isRead isSecond with second' | ⟨rfl, rfl⟩
      · exact sound.identifies other first second first' second' same
      · exact agree first first' same
    · rcases isRead isSecond with second' | ⟨-, rfl⟩
      · exact (agree second second' same.symm).symm
      · rfl
  case current =>
    intro other entry delta found read same
    rcases isRead read with old | ⟨rfl, rfl⟩
    · exact sound.current other entry delta found old same
    · rw [PendingDeltas.get, show server.pending.inner other = some entry from found]
      rfl
  case entrySeq => exact sound.entrySeq
  case readSeq =>
    rintro ⟨other, delta⟩ mem
    rcases isRead mem with old | ⟨-, rfl⟩
    · exact sound.readSeq _ old
    · unfold PendingDeltas.get
      cases found : server.pending.inner viewer with
      | some entry => exact .inr (sound.entrySeq viewer entry found)
      | none => exact .inl rfl
  case waitingSeq => exact sound.waitingSeq
  case unread =>
    rintro waiting isWaiting ⟨other, delta⟩ mem
    rcases isRead mem with old | ⟨-, rfl⟩
    · exact sound.unread waiting isWaiting _ old
    · unfold PendingDeltas.get
      cases found : server.pending.inner viewer with
      | some entry => exact sound.unrecorded waiting isWaiting viewer entry found
      | none => exact (sound.waitingSeq waiting isWaiting).1.ne
  case unrecorded => exact sound.unrecorded
  case distinct => exact sound.distinct
  case started => exact sound.started
  case graphs => exact fun cached mem => (sound.graphs cached mem).mono
  case answers => exact sound.answers

theorem purge (highWater : Nat) : (server.step precision (.purge highWater)).Sound precision := by
  have fromOld : ∀ {viewer entry}, (server.pending.purgeBelow highWater).inner viewer = some entry →
      server.pending.inner viewer = some entry := by
    intro viewer entry found
    exact (Option.filter_eq_some_iff.mp found).1
  exact { sound with
    current := fun viewer entry delta found => sound.current viewer entry delta (fromOld found)
    entrySeq := fun viewer entry found => sound.entrySeq viewer entry (fromOld found)
    unrecorded := fun waiting mem viewer entry found => sound.unrecorded waiting mem viewer entry (fromOld found) }

theorem query (i j : Nat) : (server.step precision (.query i j)).Sound precision := by
  dsimp only [DeltaServer.step]
  cases graphAt : server.graphs[i]? with
  | none => exact sound
  | some cached =>
    cases readAt : server.reads[j]? with
    | none => exact sound
    | some read =>
      obtain ⟨viewer, delta⟩ := read
      have spec := (sound.graphs cached (mem_of_getElem? graphAt)).distanceMapWithDelta sound.identifies
        (mem_of_getElem? readAt)
      refine { sound with graphs := fun other mem => ?_, answers := fun answer mem => ?_ }
      · rcases mem_or_eq_of_mem_set mem with old | rfl
        · exact sound.graphs other old
        · exact spec.2
      · rcases mem_concat.mp mem with old | isNew
        · exact sound.answers answer old
        · rw [isNew]
          exact spec.1

theorem evict (i : Nat) (keepForward : Uuid → Bool) (keepDelta : Uuid × Nat → Bool) :
    (server.step precision (.evict i keepForward keepDelta)).Sound precision := by
  dsimp only [DeltaServer.step]
  cases graphAt : server.graphs[i]? with
  | none => exact sound
  | some cached =>
    have before := sound.graphs cached (mem_of_getElem? graphAt)
    refine { sound with graphs := fun other mem => ?_ }
    rcases mem_or_eq_of_mem_set mem with old | rfl
    · exact sound.graphs other old
    · exact ⟨fun entry kept => before.forward entry (mem_of_mem_filter kept),
        fun entry kept => before.delta entry (mem_of_mem_filter kept)⟩

theorem step {event : DeltaEvent} (order : InSeqOrder server event) :
    (server.step precision event).Sound precision := by
  cases event with
  | fetch click => exact sound.fetch click
  | lock i => exact sound.lock order
  | get viewer => exact sound.get viewer
  | purge highWater => exact sound.purge highWater
  | swap graph =>
    refine { sound with graphs := fun cached mem => ?_ }
    rcases mem_concat.mp mem with old | isNew
    · exact sound.graphs cached old
    · rw [isNew]
      exact ⟨nofun, nofun⟩
  | query i j => exact sound.query i j
  | evict i keepForward keepDelta => exact sound.evict i keepForward keepDelta

end DeltaServer.Sound

/--
Over any interleaving of requests and rebuilds in which the locks of a viewer's requests follow their numbers:
a number identifies the delta of its viewer, and every map that is answered is the one of the delta given.
-/
theorem seq_identifies_delta (precision : Precision) (events : List DeltaEvent)
    (ordered : MeetAlong (DeltaServer.step precision) InSeqOrder {} events) :
    let server := events.foldl (DeltaServer.step precision) {}
    (∀ viewer first second, (viewer, first) ∈ server.reads → (viewer, second) ∈ server.reads →
      first.seq = second.seq → first = second) ∧
    ∀ graph reader delta map, (graph, reader, delta, map) ∈ server.answers →
      map = collectDistances precision (graph.forwardScoresWithDelta precision reader delta) := by
  have start : DeltaServer.Sound precision {} :=
    ⟨nofun, nofun, nofun, nofun, nofun, nofun, nofun, nodup_nil, Nat.one_pos, nofun, nofun⟩
  have sound := ordered.invariant (fun _ _ sound order => DeltaServer.Sound.step sound order) start
  exact ⟨sound.identifies, fun graph reader delta map answered => sound.answers _ answered⟩

def plainPrecision : Precision :=
  ⟨id, id⟩

/-- A viewer who trusts a user that the graph knows nothing about yet. -/
def trustClick (target : Uuid) : Click :=
  ⟨7, target, false, false, .trust⟩

def oneAfterOther : List DeltaEvent :=
  [.fetch (trustClick 1), .lock 0, .get 7, .swap (.build [(7, 3)] []), .query 0 0]

theorem one_after_other : MeetAlong (DeltaServer.step plainPrecision) InSeqOrder {} oneAfterOther ∧
    (let server := oneAfterOther.foldl (DeltaServer.step plainPrecision) ({} : DeltaServer)
     server.answers.length = 1 ∧ ∀ graph reader delta map, (graph, reader, delta, map) ∈ server.answers →
        map = collectDistances plainPrecision (graph.forwardScoresWithDelta plainPrecision reader delta)) := by
  have ordered : MeetAlong (DeltaServer.step plainPrecision) InSeqOrder {} oneAfterOther := by
    refine ⟨trivial, ?_, trivial, trivial, trivial, trivial⟩
    intro click seq entry _ found
    cases found
  exact ⟨ordered, rfl, (seq_identifies_delta plainPrecision oneAfterOther ordered).2⟩

/-- The request with the earlier number takes the lock second. -/
def overtaken : List DeltaEvent :=
  [.fetch (trustClick 1), .fetch (trustClick 2), .lock 1, .get 7, .lock 0, .get 7]

/-- The two reads have one number, and only the second has the first click in it. -/
theorem overtaken_shares_seq : (overtaken.foldl (DeltaServer.step plainPrecision) {}).reads =
      [(7, { trustAdded := {2}, seq := 2 }), (7, { trustAdded := {1, 2}, seq := 2 })] := by
  decide +kernel

end Prismoire
