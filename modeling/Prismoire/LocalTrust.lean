import Prismoire.TrustEdges
import Prismoire.Lib.Chain

namespace Prismoire

open Lib List Option Db

def pickMaxCanonicalHash (hashes : List Hash) : Option Hash :=
  firstBy (fun a b => b < a) hashes

def computePriorEdgeHash (db : Db) (source target : Key) : Option Hash :=
  let rows := db.pairEdges source target
  match firstBy (fun a b => b < a) (rows.map (·.createdAt)) with
  | none => none
  | some latest => pickMaxCanonicalHash ((rows.filter (·.createdAt = latest)).map (·.canonicalHash))

inductive TrustError where
  | userNotFound
  | selfTrustEdge
  | noTrustEdge
  | internal
  | noActiveKey
  | targetDeleted
  | database (error : SqlError)

structure SignedMutation where
  edge : TrustEdge
  payload : Bytes
  signature : Bytes
  canonicalHash : Hash
  deriving DecidableEq

/-- What a call is given besides the pair: the new stance, the wall clock in seconds and a row id. -/
structure TrustCall where
  stance : TrustStance
  now : Nat
  id : Uuid
  deriving DecidableEq

section Calls

variable (state : AppState) (sign : TrustEdge → Bytes × Bytes)

def signTrustEdge (db : Db) (source target : Key) (stance : TrustStance) (createdAtMs : Nat)
    (prior : Option Hash) : Except TrustError SignedMutation :=
  if !db.signingKeys.any (fun key => key.user = source ∧ key.active) then
    .error .noActiveKey
  else
    match db.user? target with
    | none => .error .userNotFound
    | some row =>
      if row.deleted then
        .error .targetDeleted
      else
        let edge : TrustEdge :=
          { fromKey := source, toKey := target, stance, createdAt := createdAtMs, priorEdgeHash := prior }
        let (payload, signature) := sign edge
        .ok { edge, payload, signature, canonicalHash := state.platform.sha256 payload }

def localEdgeRow (signed : SignedMutation) (id : Uuid) (nowIso : Text) : TrustEdgeRow where
  id := id
  sourceUser := signed.edge.fromKey
  targetUser := signed.edge.toKey
  trustType := signed.edge.stance
  createdAt := nowIso
  signature := signed.signature
  priorEdgeHash := signed.edge.priorEdgeHash
  canonicalHash := signed.canonicalHash

/-- The insert that both handlers share, followed by the store of the signed bytes. -/
def writeTrustEdge (db : Db) (signed : SignedMutation) (id : Uuid) (nowIso : Text) : Sql Db := do
  require (!db.trustEdges.any (·.id = id)) .primaryKey
  require (db.hasUser signed.edge.fromKey && db.hasUser signed.edge.toKey) .foreignKey
  let db := { db with trustEdges := db.trustEdges ++ [localEdgeRow signed id nowIso] }
  return db.storeSignedObject .trustEdge signed.payload signed.signature signed.canonicalHash

def liftSql {α : Type} : Sql α → Except TrustError α
  | .ok result => .ok result
  | .error error => .error (.database error)

variable (db : Db) (user target : Key) (call : TrustCall)

def setTrustEdge : Except TrustError (SignedMutation × Db) :=
  match db.user? target with
  | none => .error .userNotFound
  | some row =>
    if row.deleted then
      .error .userNotFound
    else if user = target then
      .error .selfTrustEdge
    else
      match state.platform.formatTimestamp call.now with
      | none => .error .internal
      | some nowIso => do
        let prior := computePriorEdgeHash db user target
        let signed ← signTrustEdge state sign db user target call.stance (call.now * 1000) prior
        let db ← liftSql (writeTrustEdge db signed call.id nowIso)
        return (signed, db)

/-- A neutral edge is written only over an edge that the view shows, and erases the chain before it. -/
def deleteTrustEdge : Except TrustError (SignedMutation × Db) :=
  match db.user? target with
  | none => .error .userNotFound
  | some row =>
    if row.deleted then
      .error .userNotFound
    else
      match state.platform.formatTimestamp call.now with
      | none => .error .internal
      | some nowIso =>
        if (db.currentTrustEdge user target).isNone then
          .error .noTrustEdge
        else do
          let prior := computePriorEdgeHash db user target
          let signed ← signTrustEdge state sign db user target .neutral (call.now * 1000) prior
          let db ← liftSql (writeTrustEdge db signed call.id nowIso)
          let db ← liftSql (db.eraseTrustEdgeChain user target signed.canonicalHash)
          return (signed, db)

def mutateTrustEdge : Except TrustError (SignedMutation × Db) :=
  if call.stance = .neutral then deleteTrustEdge state sign db user target call
  else setTrustEdge state sign db user target call

end Calls

theorem liftSql_ok {α : Type} {step : Sql α} {result : α} : liftSql step = .ok result ↔ step = .ok result := by
  cases step <;> simp [liftSql]

section Calls

variable {state : AppState} {sign : TrustEdge → Bytes × Bytes} {db after : Db} {user target : Key}
  {call : TrustCall} {signed : SignedMutation} {nowIso : Text}

/-- The edge that a call signs: its stance and second, chained to the hash the lookup found. -/
def callEdge (db : Db) (user target : Key) (call : TrustCall) : TrustEdge where
  fromKey := user
  toKey := target
  stance := call.stance
  createdAt := call.now * 1000
  priorEdgeHash := computePriorEdgeHash db user target

theorem signTrustEdge_ok {stance : TrustStance} {ms : Nat} {prior : Option Hash}
    (run : signTrustEdge state sign db user target stance ms prior = .ok signed) :
    signed.edge = ⟨user, target, stance, ms, prior⟩ ∧ signed.payload = (sign signed.edge).1 ∧
      signed.signature = (sign signed.edge).2 ∧ signed.canonicalHash = state.platform.sha256 signed.payload := by
  unfold signTrustEdge at run
  split at run
  · cases run
  · split at run
    · cases run
    · split at run
      · cases run
      · cases run
        exact ⟨rfl, rfl, rfl, rfl⟩

theorem writeTrustEdge_ok {id : Uuid} (run : writeTrustEdge db signed id nowIso = .ok after) :
    after = ({ db with trustEdges := db.trustEdges ++ [localEdgeRow signed id nowIso] } : Db).storeSignedObject
      .trustEdge signed.payload signed.signature signed.canonicalHash := by
  simp only [writeTrustEdge, require_bind_ok] at run
  obtain ⟨-, -, run⟩ := run
  cases run
  rfl

theorem writeTrustEdge_writes {id : Uuid} (run : writeTrustEdge db signed id nowIso = .ok after) :
    db.hasUser signed.edge.fromKey = true ∧ db.hasUser signed.edge.toKey = true ∧ after.users = db.users ∧
      (db.hasObject signed.canonicalHash = false → after.signedObjects = db.signedObjects ++
        [{ canonicalHash := signed.canonicalHash, innerClass := .trustEdge, payload := some signed.payload,
           signature := signed.signature }]) := by
  simp only [writeTrustEdge, require_bind_ok, Bool.and_eq_true] at run
  obtain ⟨-, ⟨knowsSource, knowsTarget⟩, run⟩ := run
  cases run
  refine ⟨knowsSource, knowsTarget, rfl, ?_⟩
  intro absent
  exact congrArg signedObjects (storeSignedObject_of_absent (show hasObject _ _ = false from absent))

section

variable (run : mutateTrustEdge state sign db user target call = .ok (signed, after))
include run

theorem mutateTrustEdge_writes : signed.edge = callEdge db user target call ∧ signed.payload = (sign signed.edge).1 ∧
      signed.canonicalHash = state.platform.sha256 signed.payload ∧
      ∃ nowIso written, state.platform.formatTimestamp call.now = some nowIso ∧
        writeTrustEdge db signed call.id nowIso = .ok written ∧
        (after = written ∨ call.stance = .neutral ∧
          written.eraseTrustEdgeChain user target signed.canonicalHash = .ok after) := by
  unfold mutateTrustEdge at run
  split at run
  · rename_i isDelete
    unfold deleteTrustEdge at run
    split at run
    · cases run
    · split at run
      · cases run
      · split at run
        · cases run
        · rename_i nowIso formatted
          split at run
          · cases run
          · obtain ⟨mutation, signs, run⟩ := bind_ok.mp run
            obtain ⟨written, writes, run⟩ := bind_ok.mp run
            obtain ⟨erased, erases, run⟩ := bind_ok.mp run
            cases run
            obtain ⟨edge, payload, -, hashed⟩ := signTrustEdge_ok signs
            exact ⟨by rw [edge, callEdge, isDelete], payload, hashed, nowIso, written, formatted,
              liftSql_ok.mp writes, .inr ⟨isDelete, liftSql_ok.mp erases⟩⟩
  · unfold setTrustEdge at run
    split at run
    · cases run
    · split at run
      · cases run
      · split at run
        · cases run
        · split at run
          · cases run
          · rename_i nowIso formatted
            obtain ⟨mutation, signs, run⟩ := bind_ok.mp run
            obtain ⟨written, writes, run⟩ := bind_ok.mp run
            cases run
            obtain ⟨edge, payload, -, hashed⟩ := signTrustEdge_ok signs
            exact ⟨edge, payload, hashed, nowIso, after, formatted, liftSql_ok.mp writes, .inl rfl⟩

theorem mutateTrustEdge_ok : signed.edge = callEdge db user target call ∧ signed.payload = (sign signed.edge).1 ∧
      signed.canonicalHash = state.platform.sha256 signed.payload ∧
      ∃ nowIso, state.platform.formatTimestamp call.now = some nowIso ∧
        after.trustEdges = db.trustEdges ++ [localEdgeRow signed call.id nowIso] := by
  obtain ⟨edge, payload, hashed, nowIso, written, formatted, writes, erases⟩ := mutateTrustEdge_writes run
  refine ⟨edge, payload, hashed, nowIso, formatted, ?_⟩
  rcases erases with rfl | ⟨-, erases⟩
  · exact congrArg Db.trustEdges (writeTrustEdge_ok writes)
  · rw [erasePayloads_frame erases]
    exact congrArg Db.trustEdges (writeTrustEdge_ok writes)

theorem mutateTrustEdge_users : db.hasUser user = true ∧ db.hasUser target = true ∧ after.users = db.users := by
  obtain ⟨edge, -, -, nowIso, written, -, writes, erases⟩ := mutateTrustEdge_writes run
  obtain ⟨knowsSource, knowsTarget, users, -⟩ := writeTrustEdge_writes writes
  rw [edge] at knowsSource knowsTarget
  refine ⟨knowsSource, knowsTarget, ?_⟩
  rcases erases with rfl | ⟨-, erases⟩
  · exact users
  · rw [erasePayloads_frame erases]
    exact users

end

theorem pairEdges_written (edge : signed.edge = callEdge db user target call)
    (written : after.trustEdges = db.trustEdges ++ [localEdgeRow signed call.id nowIso]) :
    after.pairEdges user target = db.pairEdges user target ++ [localEdgeRow signed call.id nowIso] := by
  simp [pairEdges, written, filter_append, localEdgeRow, edge, callEdge]

/-- No earlier row of the pair beats the new one in the view. -/
def NewestCall (state : AppState) (db : Db) (user target : Key) (call : TrustCall) : Prop :=
  ∀ nowIso, state.platform.formatTimestamp call.now = some nowIso →
    ∀ row ∈ db.pairEdges user target, row.createdAt < nowIso ∨ (row.createdAt = nowIso ∧ row.id < call.id)

/--
Both tie-breaks of the code follow the order of the calls: no earlier row of the pair beats the new
one in the view, and among the rows of the latest second the last written has the greatest hash.
-/
structure Ordered (state : AppState) (db : Db) (user target : Key) (call : TrustCall) : Prop where
  newest : ∀ nowIso, state.platform.formatTimestamp call.now = some nowIso →
    ∀ row ∈ db.pairEdges user target, row.createdAt < nowIso ∨ (row.createdAt = nowIso ∧ row.id < call.id)
  greatest : ∀ last, (db.pairEdges user target).getLast? = some last →
    ∀ row ∈ db.pairEdges user target, row.createdAt < last.createdAt ∨
      (row.createdAt = last.createdAt ∧ row.canonicalHash ≤ last.canonicalHash)

/-- The edges signed so far and the database after them, in a run of successful calls on one pair. -/
inductive TrustRun (state : AppState) (sign : TrustEdge → Bytes × Bytes) (user target : Key)
    (start : Db) : List SignedMutation → Db → Prop
  | start : TrustRun state sign user target start [] start
  | call {trail db call signed after} : TrustRun state sign user target start trail db →
      Ordered state db user target call →
      mutateTrustEdge state sign db user target call = .ok (signed, after) →
      TrustRun state sign user target start (trail ++ [signed]) after

theorem computePriorEdgeHash_last (ordered : Ordered state db user target call) :
    computePriorEdgeHash db user target = tip (·.canonicalHash) (db.pairEdges user target) := by
  rw [tip]
  cases final : (db.pairEdges user target).getLast? with
  | none =>
    have empty : db.pairEdges user target = [] := by simpa using final
    simp [computePriorEdgeHash, empty, firstBy]
  | some last =>
    have mem : last ∈ db.pairEdges user target := mem_of_getLast? final
    have greatest := ordered.greatest last final
    have latest : firstBy (fun a b => decide (b < a)) ((db.pairEdges user target).map (·.createdAt)) =
        some last.createdAt := by
      refine firstBy_eq_some ?_ (by simp) (mem_map.mpr ⟨last, mem, rfl⟩) ?_
      · simpa using fun (a b c : Text) (ba : b < a) (cb : c < b) => lt_trans cb ba
      · intro other inTimes different
        obtain ⟨row, inRows, rfl⟩ := mem_map.mp inTimes
        rcases greatest row inRows with earlier | ⟨same, -⟩
        · exact decide_eq_true earlier
        · exact absurd same different
    have picked : pickMaxCanonicalHash (((db.pairEdges user target).filter
        (·.createdAt = last.createdAt)).map (·.canonicalHash)) = some last.canonicalHash := by
      refine firstBy_eq_some ?_ (by simp) (mem_map.mpr ⟨last, by simp [mem], rfl⟩) ?_
      · simpa using fun (a b c : Hash) (ba : b < a) (cb : c < b) => BitVec.lt_trans cb ba
      · intro other inHashes different
        obtain ⟨row, inTied, rfl⟩ := mem_map.mp inHashes
        obtain ⟨inRows, sameTime⟩ := mem_filter.mp inTied
        rw [decide_eq_true_eq] at sameTime
        rcases greatest row inRows with earlier | ⟨-, atMost⟩
        · exact absurd earlier (sameTime ▸ lt_irrefl _)
        · exact decide_eq_true (BitVec.lt_of_le_ne atMost different)
    simp only [computePriorEdgeHash, latest, picked]
    rfl

theorem currentTrustEdge_newest (newest : NewestCall state db user target call)
    (formatted : state.platform.formatTimestamp call.now = some nowIso)
    (edge : signed.edge = callEdge db user target call)
    (written : after.trustEdges = db.trustEdges ++ [localEdgeRow signed call.id nowIso]) :
    (after.currentTrustEdge user target).map (·.trustType) =
      if call.stance = .neutral then none else some call.stance := by
  have rows := pairEdges_written edge written
  have first : firstBy edgeNewer (after.pairEdges user target) = some (localEdgeRow signed call.id nowIso) := by
    refine firstBy_eq_some edgeNewer_trans edgeNewer_irrefl (by simp [rows]) ?_
    intro other mem different
    rw [rows] at mem
    rcases mem_concat.mp mem with old | new
    · rcases newest nowIso formatted other old with earlier | ⟨same, smaller⟩
      · simp [edgeNewer, localEdgeRow, earlier]
      · simp [edgeNewer, localEdgeRow, same, smaller]
    · exact absurd new different
  simp only [currentTrustEdge, first]
  by_cases neutral : call.stance = .neutral <;> simp [Option.filter, localEdgeRow, edge, callEdge, neutral]

/-- In every state of a run the pair's rows are the signed edges, and these form one chain. -/
structure Chained (user target : Key) (trail : List SignedMutation) (db : Db) : Prop where
  rows : (db.pairEdges user target).map (·.canonicalHash) = trail.map (·.canonicalHash)
  linked : Linked SignedMutation.canonicalHash (·.edge.priorEdgeHash) none trail
  pair : ∀ m ∈ trail, m.edge.fromKey = user ∧ m.edge.toKey = target

theorem Chained.extend {trail : List SignedMutation} (chained : Chained user target trail db)
    (ordered : Ordered state db user target call)
    (step : mutateTrustEdge state sign db user target call = .ok (signed, after)) :
    signed.edge.priorEdgeHash = tip (·.canonicalHash) trail ∧ Chained user target (trail ++ [signed]) after := by
  obtain ⟨edge, -, -, nowIso, -, written⟩ := mutateTrustEdge_ok step
  have prior : signed.edge.priorEdgeHash = tip (·.canonicalHash) trail := by
    rw [edge, callEdge, computePriorEdgeHash_last ordered]
    rw [tip, tip, ← getLast?_map, ← getLast?_map, chained.rows]
  refine ⟨prior, ?_, chained.linked.append (by rw [prior, or_none]), ?_⟩
  · rw [pairEdges_written edge written, map_append, map_append, chained.rows]
    rfl
  · exact forall_mem_concat.mpr ⟨chained.pair, by rw [edge]; exact ⟨rfl, rfl⟩⟩

theorem TrustRun.chained {start : Db} {trail : List SignedMutation}
    (blank : start.pairEdges user target = []) (run : TrustRun state sign user target start trail db) :
    Chained user target trail db := by
  induction run with
  | start => exact ⟨by simp [blank], trivial, by simp⟩
  | call _ ordered step ih => exact (ih.extend ordered step).2

/-- What a peer's projection answers when it applies the edges one after the other; a failed statement
rolls back and leaves no answer. -/
def peerOutcomes (peer : AppState) : Db → List SignedMutation → List TrustEdgeProjection
  | _, [] => []
  | db, m :: rest =>
    match tryProjectTrustEdge peer db m.edge m.canonicalHash m.signature m.payload with
    | .ok (outcome, db) => outcome :: peerOutcomes peer db rest
    | .error _ => peerOutcomes peer db rest

def Received (user target : Key) (given : List SignedMutation) (db : Db) : Prop :=
  ∀ row ∈ db.pairEdges user target, ∃ m ∈ given,
    row.canonicalHash = m.canonicalHash ∧ row.priorEdgeHash = m.edge.priorEdgeHash

variable {peer : AppState} {given : List SignedMutation}

theorem insertTrustEdge_edges {edge : TrustEdge} {hash : Hash} {signature payload : Bytes}
    (run : insertTrustEdge peer db edge hash signature payload = .ok after) :
    after.trustEdges = db.trustEdges ++ [edgeRow peer edge hash signature] := by
  simp only [insertTrustEdge] at run
  split at run
  · rw [erasePayloads_frame run]
    rfl
  · cases run
    rfl

section

variable (received : Received user target given db)
include received

theorem Received.project {m : SignedMutation} {outcome : TrustEdgeProjection}
    (run : tryProjectTrustEdge peer db m.edge m.canonicalHash m.signature m.payload = .ok (outcome, after)) :
    Received user target (given ++ [m]) after := by
  have wider : Received user target (given ++ [m]) db := by
    intro row mem
    obtain ⟨m', inGiven, same⟩ := received row mem
    exact ⟨m', mem_append_left _ inGiven, same⟩
  unfold tryProjectTrustEdge at run
  split at run
  · cases run; exact wider
  · split at run
    · cases run; exact wider
    · split at run
      · cases run; exact wider
      · split at run
        · cases run; exact wider
        · obtain ⟨mid, inserted, returned⟩ := bind_ok.mp run
          cases returned
          intro row mem
          rw [pairEdges, insertTrustEdge_edges inserted, filter_append] at mem
          rcases mem_append.mp mem with old | new
          · exact wider row old
          · rw [mem_singleton.mp (mem_of_mem_filter new)]
            exact ⟨m, by simp, rfl, rfl⟩

theorem Received.no_fork {m : SignedMutation}
    (linked : Linked SignedMutation.canonicalHash (·.edge.priorEdgeHash) none (given ++ [m]))
    (distinct : ((given ++ [m]).map (·.canonicalHash)).Nodup)
    (pair : m.edge.fromKey = user ∧ m.edge.toKey = target) :
    db.edgeForked m.edge m.canonicalHash = false := by
  rw [Bool.eq_false_iff]
  intro forked
  simp only [edgeForked, List.any_eq_true, decide_eq_true_eq] at forked
  obtain ⟨row, mem, fromUser, toTarget, samePrior, -⟩ := forked
  have inPair : row ∈ db.pairEdges user target :=
    mem_filter.mpr ⟨mem, decide_eq_true ⟨fromUser.trans pair.1, toTarget.trans pair.2⟩⟩
  obtain ⟨m', inGiven, -, prior'⟩ := received row inPair
  obtain ⟨front, back, rfl⟩ := append_of_mem inGiven
  have priorM : m.edge.priorEdgeHash = tip SignedMutation.canonicalHash (front ++ m' :: back) := by
    rw [linked.prior_eq, or_none]
  have priorM' : m'.edge.priorEdgeHash = tip SignedMutation.canonicalHash front := by
    have inner : Linked SignedMutation.canonicalHash (·.edge.priorEdgeHash) none
        (front ++ m' :: (back ++ [m])) := by simpa using linked
    rw [inner.prior_eq, or_none]
  -- The last edge given would stand both at the end and before `m'`.
  have equal : tip SignedMutation.canonicalHash (front ++ m' :: back) = tip SignedMutation.canonicalHash front := by
    rw [← priorM, ← samePrior, prior', priorM']
  obtain ⟨final, atEnd⟩ : ∃ final, (m' :: back).getLast? = some final :=
    isSome_iff_exists.mp (by simp)
  have isFinal : tip SignedMutation.canonicalHash (front ++ m' :: back) = some final.canonicalHash := by
    simp [tip, getLast?_append, atEnd]
  rw [isFinal, tip, eq_comm, map_eq_some_iff] at equal
  obtain ⟨before, inFront, sameHash⟩ := equal
  rw [map_append, map_append] at distinct
  have disjoint := (nodup_append.mp (nodup_append.mp distinct).1).2.2
  exact disjoint _ (mem_map.mpr ⟨before, mem_of_getLast? inFront, rfl⟩) _
    (mem_map.mpr ⟨final, mem_of_getLast? atEnd, rfl⟩) sameHash

theorem peerOutcomes_no_fork {rest : List SignedMutation}
    (linked : Linked SignedMutation.canonicalHash (·.edge.priorEdgeHash) none (given ++ rest))
    (distinct : ((given ++ rest).map (·.canonicalHash)).Nodup)
    (pair : ∀ m ∈ rest, m.edge.fromKey = user ∧ m.edge.toKey = target) :
    .chainFork ∉ peerOutcomes peer db rest := by
  induction rest generalizing given db with
  | nil => simp [peerOutcomes]
  | cons m rest ih =>
    have regroup : given ++ m :: rest = (given ++ [m]) ++ rest := by simp
    have unforked : db.edgeForked m.edge m.canonicalHash = false := by
      refine received.no_fork (Linked.of_append (regroup ▸ linked)) ?_ (pair m (by simp))
      rw [regroup, map_append] at distinct
      exact (nodup_append.mp distinct).1
    have later : ∀ mid, Received user target (given ++ [m]) mid → .chainFork ∉ peerOutcomes peer mid rest :=
      fun mid kept => ih kept (regroup ▸ linked) (regroup ▸ distinct) fun m' inRest => pair m' (by simp [inRest])
    simp only [peerOutcomes]
    cases run : tryProjectTrustEdge peer db m.edge m.canonicalHash m.signature m.payload with
    | error failure =>
      refine later db ?_
      intro row mem
      obtain ⟨m', inGiven, same⟩ := received row mem
      exact ⟨m', mem_append_left _ inGiven, same⟩
    | ok result =>
      obtain ⟨outcome, mid⟩ := result
      have answered : outcome ≠ .chainFork := by
        rintro rfl
        unfold tryProjectTrustEdge at run
        simp only [unforked, Bool.false_eq_true, if_false] at run
        split at run
        · cases run
        · split at run
          · cases run
          · split at run
            · cases run
            · obtain ⟨inserted, -, returned⟩ := bind_ok.mp run
              cases returned
      simp only [mem_cons, not_or]
      exact ⟨answered.symm, later mid (received.project run)⟩

end

/--
A run of calls on one pair in which the tie-breaks follow the calls: after each call the view shows
the stance just written, its edge is chained to the edge of the call before, and no peer that applies
the edges in order sees a fork.
-/
theorem last_write_wins (start : Db) (trail : List SignedMutation)
    (blank : start.pairEdges user target = []) (run : TrustRun state sign user target start trail db)
    (ordered : Ordered state db user target call)
    (step : mutateTrustEdge state sign db user target call = .ok (signed, after))
    (collisionFree : ∀ a ∈ trail ++ [signed], ∀ b ∈ trail ++ [signed],
      a.canonicalHash = b.canonicalHash → a.edge = b.edge) :
    (after.currentTrustEdge user target).map (·.trustType) =
        (if call.stance = .neutral then none else some call.stance) ∧
      signed.edge.priorEdgeHash = trail.getLast?.map (·.canonicalHash) ∧
      ∀ (peer : AppState) (peerDb : Db), peerDb.pairEdges user target = [] →
        .chainFork ∉ peerOutcomes peer peerDb (trail ++ [signed]) := by
  obtain ⟨edge, -, -, nowIso, formatted, written⟩ := mutateTrustEdge_ok step
  obtain ⟨prior, chained⟩ := (run.chained blank).extend ordered step
  refine ⟨currentTrustEdge_newest ordered.newest formatted edge written, prior, ?_⟩
  intro peer peerDb empty
  have received : Received user target [] peerDb := by simp [Received, empty]
  refine peerOutcomes_no_fork received chained.linked ?_ chained.pair
  refine chained.linked.nodup_hash ?_
  intro a inA b inB same
  rw [collisionFree a inA b inB same]

end Calls

def tieTable : List SignedPayload :=
  [.trustEdge ⟨1, 2, .trust, 5000, none⟩, .trustEdge ⟨1, 2, .neutral, 5000, some 1⟩,
    .trustEdge ⟨1, 2, .neutral, 6000, some 1⟩]

def tieSign (edge : TrustEdge) : Bytes × Bytes :=
  ([UInt8.ofNat (tieTable.findIdx (· = .trustEdge edge))], replicate 64 0)

def tieState : AppState where
  platform := Platform.ofTable tieTable
  instanceKey := 9
  edgeRowId _ := 0
  edgeClock _ := ""

def tieDb : Db where
  users := [⟨1, "a", "a", .invite, none, false⟩, ⟨2, "b", "b", .invite, none, false⟩]
  signingKeys := [⟨1, true⟩]

def afterCalls (db : Db) : List TrustCall → Option Db
  | [] => some db
  | call :: calls =>
    match mutateTrustEdge tieState tieSign db 1 2 call with
    | .ok (_, db) => afterCalls db calls
    | .error _ => none

/-- A grant and its revocation in one second: with the smaller row id the revocation stays hidden. -/
theorem revocation_hidden : (afterCalls tieDb [⟨.trust, 5, 2⟩, ⟨.neutral, 5, 1⟩]).map
      (fun db => (db.currentTrustEdge 1 2).map (·.trustType)) = some (some .trust) := by
  decide

def granted : SignedMutation × Db :=
  match mutateTrustEdge tieState tieSign tieDb 1 2 ⟨.trust, 5, 2⟩ with
  | .ok result => result
  | .error _ => (⟨⟨1, 2, .trust, 5000, none⟩, [], [], 0⟩, tieDb)

def revoked : SignedMutation × Db :=
  match mutateTrustEdge tieState tieSign granted.2 1 2 ⟨.neutral, 6, 1⟩ with
  | .ok result => result
  | .error _ => granted

theorem revocation_shown : (revoked.2.currentTrustEdge 1 2).map (·.trustType) = none ∧
    revoked.1.edge.priorEdgeHash = some granted.1.canonicalHash := by
  have first : Ordered tieState tieDb 1 2 ⟨.trust, 5, 2⟩ :=
    ⟨fun _ _ row mem => absurd mem (by simp [tieDb, pairEdges]),
      fun last mem => absurd mem (by simp [tieDb, pairEdges])⟩
  have run : TrustRun tieState tieSign 1 2 tieDb [granted.1] granted.2 := .call .start first rfl
  have rows : granted.2.pairEdges 1 2 = [localEdgeRow granted.1 2 "00005"] := by decide
  have later : Ordered tieState granted.2 1 2 ⟨.neutral, 6, 1⟩ := by
    refine ⟨?_, ?_⟩
    · intro nowIso formatted row mem
      obtain rfl : "00006" = nowIso := some.inj formatted
      rw [rows] at mem
      rw [mem_singleton.mp mem]
      exact .inl (by decide)
    · intro last atEnd row mem
      rw [rows] at atEnd mem
      rw [mem_singleton.mp mem, ← some.inj atEnd]
      exact .inr ⟨rfl, BitVec.le_refl _⟩
  obtain ⟨shown, prior, -⟩ := last_write_wins tieDb [granted.1] rfl run later
    (show mutateTrustEdge tieState tieSign granted.2 1 2 ⟨.neutral, 6, 1⟩ = .ok (revoked.1, revoked.2) from rfl)
    (by decide)
  exact ⟨shown, prior⟩

end Prismoire
