import Prismoire.PushRoutes

namespace Prismoire

open Lib List
open Lib.Cbor (Value Plain)

/-- The hourly budget of the moves route covers a push of the sender. -/
def MovesAdmitted {σ : Type} (receiver : Receiver σ) (sender : Key) (batch : List QueuedObject) (nowSecs : Nat) : Prop :=
  (receiver.moves.checkAndCountAt sender batch.length nowSecs).1 = true

section Batches

variable (config : OutboundQueueConfig) (clock : Nat → Nat)

theorem takeItems_batch (room : Nat) (route : Option (Text × Text)) (items : List QueuedObject) (bytes other : Counter) :
    (takeItems config clock room route items bytes).1 = (takeItems config clock room route items other).1 := by
  induction items generalizing clock room route bytes other with
  | nil => cases room <;> rfl
  | cons front rest ih =>
    cases room with
    | zero => rfl
    | succ room =>
      simp only [takeItems]
      split
      · exact ih _ _ _ _ _
      · split
        · rfl
        · exact congrArg (front :: ·) (ih _ _ _ _ _)

theorem takeBatch_batch {state after : OutboundQueuesState} {peer : Key} {batch stale : List QueuedObject}
    (took : state.takeBatch config clock peer = (batch, stale, after)) :
    batch.length ≤ config.maxBatch ∧ ∃ shared, ∀ object ∈ batch, object.route = shared := by
  unfold OutboundQueuesState.takeBatch at took
  split at took
  · cases took
    exact ⟨Nat.zero_le _, ("", ""), nofun⟩
  · rename_i queue found
    have isBatch : batch = (takeItems config clock config.maxBatch none queue.items queue.bytes).1 := by
      have := congrArg Prod.fst took
      exact this.symm
    obtain ⟨taken, _, _, run, value⟩ := takeItems_taken config clock config.maxBatch none queue.items
    rw [takeItems_batch config clock _ _ _ _ ⟨sizes queue.items, true⟩, value] at isBatch
    subst isBatch
    obtain ⟨shared, -, same⟩ := run.oneRoute
    exact ⟨run.fits, shared, same⟩

theorem takeItems_replicate {object : QueuedObject} (fresh : ∀ i, clock i - object.enqueuedAt ≤ config.objectMaxAge)
    {count room : Nat}
    (fits : count ≤ room) {route : Option (Text × Text)} (given : ∀ known, route = some known → known = object.route)
    (bytes : Counter) :
    (takeItems config clock room route (replicate count object) bytes).1 = replicate count object := by
  induction count generalizing clock room route bytes with
  | zero => cases room <;> rfl
  | succ count ih =>
    obtain ⟨less, rfl⟩ : ∃ less, room = less + 1 := ⟨room - 1, by omega⟩
    have young : ¬ config.objectMaxAge < clock 0 - object.enqueuedAt := Nat.not_lt.mpr (fresh 0)
    have onRoute : ¬ route.any (· ≠ object.route) = true := by
      cases known : route with
      | none => simp
      | some shared => simp [given shared known]
    rw [replicate_succ, takeItems, if_neg young, if_neg onRoute]
    exact congrArg (object :: ·) (ih _ (fun i => fresh (i + 1)) (by omega) (fun known same => (Option.some.inj same).symm) _)

end Batches

section Handling

variable {cbor : Ciborium}

theorem decodeBatchBody_encode (faithful : cbor.Faithful) {key : Text} {wires : List Bytes}
    {readField : Option (List Value) → Value × Value → Option (Option (List Value))} (named : key.utf8ByteSize < 2 ^ 64)
    (count : wires.length < 2 ^ 64) (sized : ∀ wire ∈ wires, wire.length < 2 ^ 64)
    (reads : ∀ items, readField none (.text key, .array items) = some (some items)) :
    decodeBatchBody cbor readField (encodeBatchBody cbor key wires) = some wires := by
  have plain : Plain 256 (.map [(.text key, .array (wires.map .bytes))]) := by
    refine ⟨by simp, fun entry mem => ?_⟩
    rw [mem_singleton.mp mem]
    refine ⟨named, by simpa using count, fun item inItems => ?_⟩
    obtain ⟨wire, inWires, rfl⟩ := mem_map.mp inItems
    exact sized wire inWires
  rw [decodeBatchBody, encodeBatchBody, faithful _ plain]
  have found : [(Value.text key, Value.array (wires.map .bytes))].foldlM readField none = some (some (wires.map .bytes)) := by
    simp [reads]
  dsimp only
  rw [found]
  exact mapM_readObject wires

variable {σ ρ : Type}

variable {objects : List Bytes} {maxBatch : Nat}

theorem applyAll_length {apply : Bytes → σ → Option (ρ × σ)} {store : σ} {results : List ρ}
    (run : (applyAll apply objects store).1 = some results) : results.length = objects.length := by
  induction objects generalizing store results with
  | nil =>
    cases run
    rfl
  | cons object objects ih =>
    rw [applyAll] at run
    cases applied : apply object store with
    | none =>
      rw [applied] at run
      cases run
    | some next =>
      rw [applied] at run
      obtain ⟨later, isLater, rfl⟩ := Option.map_eq_some_iff.mp run
      rw [length_cons, length_cons, ih isLater]

theorem checkBatch_fits (nonempty : objects ≠ []) (fits : objects.length ≤ maxBatch) :
    checkBatch (some objects) maxBatch = .ok objects := by
  simp [checkBatch, nonempty, Nat.not_lt.mpr fits]

variable {server : PushServer σ ρ} {receiver : Receiver σ} {sender : Key} {nowSecs : Nat} {batch : List QueuedObject}

theorem tooManyRequests_kept : BatchKept batch (.tooManyRequests : PushResponse ρ) :=
  .inr rfl

theorem badRequest_dropped (code : Text) : ¬ BatchKept batch (.badRequest code : PushResponse ρ) := by
  rintro (⟨results, same, -⟩ | transient)
  · cases same
  · cases transient

theorem unauthorized_dropped : ¬ BatchKept batch (.unauthorized : PushResponse ρ) := by
  rintro (⟨results, same, -⟩ | transient)
  · cases same
  · cases transient

theorem answerObjects_kept (route : PushRoute) (same : objects.length = batch.length) :
    BatchKept batch (answerObjects server receiver sender route objects).1 := by
  unfold answerObjects
  dsimp only
  cases run : (applyAll (server.applyOne route sender) objects receiver.store).1 with
  | none => exact .inr rfl
  | some results => exact .inl ⟨results, rfl, (applyAll_length run).trans same⟩

theorem handleGatedPush_kept (route : PushRoute) {admitted : Bool} {body : Bytes}
    (decoded : decodeObjectsBody server.cbor body = some objects) (nonempty : objects ≠ [])
    (fits : objects.length ≤ maxBatch) (same : objects.length = batch.length) :
    BatchKept batch (handleGatedPush server receiver sender body route maxBatch admitted).1 := by
  unfold handleGatedPush
  rw [decoded, checkBatch_fits nonempty fits]
  cases admitted with
  | true => exact answerObjects_kept route same
  | false => exact tooManyRequests_kept

theorem handlePush_kept_iff (faithful : server.cbor.Faithful) (route : PushRoute) (nonempty : batch ≠ [])
    (fits : batch.length ≤ maxContentBatchOutbound) (sized : ∀ object ∈ batch, object.size < 2 ^ 64) :
    BatchKept batch (handlePush server receiver sender nowSecs
          (encodeBatchBody server.cbor route.bodyKey (batch.map (·.wireBytes))) route).1 ↔
      (route = .moves → MovesAdmitted receiver sender batch nowSecs) := by
  have count : (batch.map (·.wireBytes)).length = batch.length := length_map _
  have small : batch.length ≤ 64 := fits
  have some_ : batch.map (·.wireBytes) ≠ [] := by simpa using nonempty
  have each : ∀ wire ∈ batch.map (·.wireBytes), wire.length < 2 ^ 64 := by
    intro wire mem
    obtain ⟨object, inBatch, rfl⟩ := mem_map.mp mem
    exact sized object inBatch
  have objects : decodeObjectsBody server.cbor (encodeBatchBody server.cbor "objects" (batch.map (·.wireBytes))) =
      some (batch.map (·.wireBytes)) :=
    decodeBatchBody_encode faithful (by decide) (by omega) each fun _ => rfl
  have edges : decodeEdgesBody server.cbor (encodeBatchBody server.cbor "edges" (batch.map (·.wireBytes))) =
      some (batch.map (·.wireBytes)) :=
    decodeBatchBody_encode faithful (by decide) (by omega) each fun _ => rfl
  have moves : decodeMovesBody server.cbor (encodeBatchBody server.cbor "moves" (batch.map (·.wireBytes))) =
      some (batch.map (·.wireBytes)) :=
    decodeBatchBody_encode faithful (by decide) (by omega) each fun _ => rfl
  have always : ∀ {P : Prop}, route ≠ .moves → P → (P ↔ (route = .moves → MovesAdmitted receiver sender batch nowSecs)) :=
    fun other holds => ⟨fun _ isMoves => absurd isMoves other, fun _ => holds⟩
  cases route with
  | content =>
    refine always nofun ?_
    unfold handlePush handleContentPush PushRoute.bodyKey
    rw [objects, checkBatch_fits some_ (by simpa [maxContentBatch] using small)]
    dsimp only
    split
    · exact answerObjects_kept .content count
    · exact tooManyRequests_kept
  | edges =>
    refine always nofun ?_
    unfold handlePush handleEdgesPush PushRoute.bodyKey
    rw [edges, checkBatch_fits some_ (by simp only [maxEdgeBatch]; omega)]
    exact answerObjects_kept .edges count
  | moves =>
    unfold handlePush handleMovesPush PushRoute.bodyKey MovesAdmitted
    rw [moves, checkBatch_fits some_ (by simpa [maxMoveBatch] using small)]
    dsimp only
    rw [count]
    cases (receiver.moves.checkAndCountAt sender batch.length nowSecs).1 with
    | true => exact ⟨fun _ _ => rfl, fun _ => answerObjects_kept .moves count⟩
    | false => exact ⟨fun kept => absurd kept (badRequest_dropped _), fun admitted => nomatch admitted rfl⟩
  | userStatus =>
    exact always nofun (handleGatedPush_kept .userStatus objects some_ (by simp only [maxUserStatusBatch]; omega) count)
  | threadStatus =>
    exact always nofun (handleGatedPush_kept .threadStatus objects some_ (by simp only [maxThreadStatusBatch]; omega) count)
  | reports =>
    exact always nofun (handleGatedPush_kept .reports objects some_ (by simp only [maxReportBatch]; omega) count)

theorem receivePush_over {server : PushServer σ ρ} {check : EnvelopeCheck} {req : PushRequest}
    (isCbor : req.contentType = some cborContentType) (tooLong : routeBodyCap req.path < req.body.length) :
    receivePush server receiver sender check nowSecs req = (.unauthorized, receiver) := by
  unfold receivePush
  rw [if_neg (not_not.mpr isCbor), if_pos tooLong]

theorem sizes_le_body (key : Text) (wires : List Bytes) :
    (wires.map length).sum ≤ (encodeBatchBody shortestCbor key wires).length := by
  have inItems : (wires.map length).sum ≤ ((wires.map Value.bytes).flatMap (Cbor.encode 254)).length := by
    induction wires with
    | nil => exact le_rfl
    | cons wire wires ih =>
      have item : wire.length ≤ (Cbor.encode 254 (.bytes wire)).length := by
        change wire.length ≤ (Cbor.head 2 wire.length ++ wire).length
        simp
      simp only [map_cons, sum_cons, flatMap_cons, length_append]
      omega
  have inArray : (wires.map length).sum ≤ (Cbor.encode 255 (.array (wires.map .bytes))).length := by
    change _ ≤ (Cbor.head 4 (wires.map Value.bytes).length ++ (wires.map Value.bytes).flatMap (Cbor.encode 254)).length
    rw [length_append]
    omega
  change _ ≤ (Cbor.encode (255 + 1) (.map [(.text key, .array (wires.map .bytes))])).length
  rw [Cbor.encode, flatMap_singleton]
  simp only [length_append]
  omega

end Handling

theorem ofPath?_path (route : PushRoute) : PushRoute.ofPath? route.path = some route := by
  cases route <;> decide

/-- A batch of one of the routes is kept exactly if its body is within the cap of the path and, for moves, within the
hourly budget of the sender. -/
theorem pushed_batch_kept_iff {σ ρ : Type} {config : OutboundQueueConfig}
    (coalesced : config.maxBatch = maxContentBatchOutbound)
    {state after : OutboundQueuesState} {clock : Nat → Nat} {peer : Key} {batch stale : List QueuedObject}
    (took : state.takeBatch config clock peer = (batch, stale, after)) (sized : ∀ object ∈ batch, object.size < 2 ^ 64)
    {route : PushRoute} (routed : ∃ object ∈ batch, object.route = (route.path, route.bodyKey))
    {server : PushServer σ ρ} (faithful : server.cbor.Faithful) {check : EnvelopeCheck} (conforming : check ≠ .refused)
    (receiver : Receiver σ) (sender : Key) (nowSecs : Nat) :
    ∃ req, batchRequest server.cbor batch = some req ∧ req.path = route.path ∧
      (BatchKept batch (receivePush server receiver sender check nowSecs req).1 ↔
        (encodeBatchBody server.cbor route.bodyKey (batch.map (·.wireBytes))).length ≤ routeBodyCap route.path ∧
          (check = .accepted → route = .moves → MovesAdmitted receiver sender batch nowSecs)) := by
  obtain ⟨fits, shared, same⟩ := takeBatch_batch config clock took
  obtain ⟨object, inBatch, isRoute⟩ := routed
  have shares : shared = (route.path, route.bodyKey) := (same object inBatch).symm.trans isRoute
  obtain ⟨first, rest, rfl⟩ : ∃ first rest, batch = first :: rest := exists_cons_of_ne_nil (ne_nil_of_mem inBatch)
  have ofFirst : (first.path, first.bodyKey) = (route.path, route.bodyKey) :=
    (same first mem_cons_self).trans shares
  obtain ⟨isPath, isKey⟩ := Prod.mk.inj ofFirst
  refine ⟨_, rfl, isPath, ?_⟩
  unfold receivePush
  rw [if_neg (not_not.mpr rfl)]
  dsimp only
  rw [isPath, isKey]
  by_cases tooLong : routeBodyCap route.path <
      (encodeBatchBody server.cbor route.bodyKey ((first :: rest).map (·.wireBytes))).length
  · rw [if_pos tooLong]
    exact ⟨fun kept => absurd kept unauthorized_dropped, fun within => absurd within.1 (Nat.not_le.mpr tooLong)⟩
  · rw [if_neg tooLong, and_iff_right (Nat.not_lt.mp tooLong)]
    cases check with
    | refused => exact absurd rfl conforming
    | dbFault => exact ⟨fun _ => nofun, fun _ => .inr rfl⟩
    | accepted =>
      dsimp only
      rw [ofPath?_path]
      dsimp only
      rw [handlePush_kept_iff faithful route (by simp) (coalesced ▸ fits) sized]
      exact ⟨fun admitted _ => admitted, fun admitted => admitted rfl⟩

def backlogConfig : OutboundQueueConfig where
  totalBytes := 2 ^ 28
  bytesPerPeer := 2 ^ 26
  objectsPerPeer := 1000
  objectMaxAge := 86400
  maxBatch := maxContentBatchOutbound

def backlog (items : List QueuedObject) : OutboundQueuesState where
  peers := [(7, { wake := 0, items })]

def backlogMove : QueuedObject :=
  ⟨"/federation/v1/moves", "moves", [1], 0, 0⟩

/-- A post of the greatest size that is accepted. -/
def backlogPost : QueuedObject :=
  ⟨"/federation/v1/content", "objects", replicate (512 * 1024) 0, 0, 0⟩

/-- Takes whatever comes, and counts it. -/
def countingServer : PushServer Nat Nat where
  cbor := shortestCbor
  applyOne _ _ _ store := some (store, store + 1)

def usedReceiver (used : Nat) : Receiver Nat where
  content := ⟨fun _ => some ⟨0, used⟩, 10000⟩
  moves := ⟨fun _ => some ⟨0, used⟩, 1000⟩
  userStatus := ⟨fun _ => some ⟨0, used⟩, 60⟩
  threadStatus := ⟨fun _ => some ⟨0, used⟩, 60⟩
  reports := ⟨fun _ => some ⟨0, used⟩, 30⟩
  store := 0

theorem backlog_moves_kept : ∃ req,
    batchRequest shortestCbor [backlogMove, backlogMove] = some req ∧ req.path = "/federation/v1/moves" ∧
    BatchKept [backlogMove, backlogMove] (receivePush countingServer (usedReceiver 998) 7 .accepted 30 req).1 := by
  obtain ⟨req, isRequest, path, agrees⟩ := @pushed_batch_kept_iff Nat Nat backlogConfig rfl
    (backlog [backlogMove, backlogMove]) _ 10 7 [backlogMove, backlogMove] [] rfl
    (by intro object mem; rcases mem_pair.mp mem with rfl | rfl <;> decide)
    .moves ⟨backlogMove, mem_cons_self, rfl⟩ countingServer shortestCbor_faithful .accepted nofun (usedReceiver 998) 7 30
  exact ⟨req, isRequest, path, agrees.mpr ⟨by decide +kernel, fun _ _ => rfl⟩⟩

/-- A peer over its hourly budget of moves is told so by a terminal status, and a batch of large posts is answered as if
it were not signed. -/
theorem backlog_dropped :
    (∃ req after, (backlog [backlogMove]).takeBatch backlogConfig (fun _ => 10) 7 = ([backlogMove], [], after) ∧
      batchRequest shortestCbor [backlogMove] = some req ∧
      (receivePush countingServer (usedReceiver 1000) 7 .accepted 30 req).1 = .badRequest "rate_limited" ∧
      ¬ BatchKept [backlogMove] (receivePush countingServer (usedReceiver 1000) 7 .accepted 30 req).1) ∧
    ∃ req stale after,
      (backlog (replicate 33 backlogPost)).takeBatch backlogConfig (fun _ => 10) 7 =
        (replicate 33 backlogPost, stale, after) ∧
      batchRequest shortestCbor (replicate 33 backlogPost) = some req ∧
      (receivePush countingServer (usedReceiver 0) 7 .accepted 30 req).1 = .unauthorized ∧
      ¬ BatchKept (replicate 33 backlogPost) (receivePush countingServer (usedReceiver 0) 7 .accepted 30 req).1 := by
  constructor
  · have limited : (receivePush countingServer (usedReceiver 1000) 7 .accepted 30
        ⟨"/federation/v1/moves", some cborContentType, encodeBatchBody shortestCbor "moves" [[1]]⟩).1 =
          .badRequest "rate_limited" := rfl
    exact ⟨_, _, rfl, rfl, limited, limited ▸ badRequest_dropped _⟩
  · have taken := @takeItems_replicate backlogConfig (fun _ => 10) backlogPost (fun _ => by decide) 33 64 (by decide) none nofun {}
    have took : ((backlog (replicate 33 backlogPost)).takeBatch backlogConfig (fun _ => 10) 7).1 = replicate 33 backlogPost :=
      taken
    have long : routeBodyCap "/federation/v1/content" <
        (encodeBatchBody shortestCbor "objects" (replicate 33 backlogPost.wireBytes)).length := by
      have cap : routeBodyCap "/federation/v1/content" = 16777216 := by decide
      have size : backlogPost.wireBytes.length = 524288 := length_replicate
      have total := sizes_le_body "objects" (replicate 33 backlogPost.wireBytes)
      rw [map_replicate, sum_replicate_nat, size] at total
      rw [cap]
      omega
    let req : PushRequest :=
      ⟨"/federation/v1/content", some cborContentType,
        encodeBatchBody shortestCbor "objects" (replicate 33 backlogPost.wireBytes)⟩
    have unread : (receivePush countingServer (usedReceiver 0) 7 .accepted 30 req).1 = .unauthorized :=
      congrArg Prod.fst (receivePush_over rfl long)
    refine ⟨req, _, _, Prod.ext took rfl, ?_, unread, ?_⟩
    · rw [replicate_succ, batchRequest, ← replicate_succ, map_replicate]
      rfl
    · rw [unread]
      exact unauthorized_dropped

end Prismoire
