import Prismoire.EdgeEffects
import Prismoire.OwnStance
import Prismoire.ReverseScore

namespace Prismoire

open Lib List Db

/--
A write path of the trust tables, or a change of the users. The received payloads belong to `corpus`; what
`set_trust_edge` and `delete_trust_edge` sign parses to the edge, and its signature checks.
-/
inductive TrustStep (state : AppState) (corpus : Corpus) : Db → Db → Prop
  | mutate {db signed after} (sign : TrustEdge → Bytes × Bytes) (user target : Key) (call : TrustCall) :
      Filed state.platform (fun _ => True) signed.payload signed.signature (.trustEdge signed.edge) →
      mutateTrustEdge state sign db user target call = .ok (signed, after) →
      TrustStep state corpus db after
  | deliver {db} (wire : Bytes) (peer : Key) :
      (∀ payload signature, state.platform.decodeSignedObject wire = some (payload, signature) → corpus payload) →
      TrustStep state corpus db (deliverEdge state db wire peer)
  | sweep {db after found} (user : Key) : sweepPendingProjections state db user = .ok (after, found) →
      TrustStep state corpus db after
  | drain {db after} (hash : Hash) : drainPendingOrphansAfter state db hash = .ok after →
      TrustStep state corpus db after
  | users {db} (rows : List UserRow) : TrustStep state corpus db { db with users := rows }

inductive TrustReached (state : AppState) (corpus : Corpus) : Db → Prop
  | start {db : Db} : db.trustEdges = [] → db.pendingTrustEdges = [] → db.signedObjects = [] →
      TrustReached state corpus db
  | step {db after} : TrustReached state corpus db → TrustStep state corpus db after → TrustReached state corpus after

def BetweenTwo (platform : Platform) (payload : Bytes) : Prop :=
  ∀ edge signature, platform.parse payload = some (.trustEdge edge) →
    signatureOk platform payload signature edge.fromKey = true → edge.fromKey ≠ edge.toKey

section Rows

variable {state : AppState} {db after : Db} {corpus : Corpus} {sign : TrustEdge → Bytes × Bytes} {call : TrustCall}

theorem EdgeSound.apart (sound : EdgeSound state (BetweenTwo state.platform) db) :
    ∀ row ∈ db.trustEdges, row.sourceUser ≠ row.targetUser := by
  intro row mem
  obtain ⟨payload, signature, edge, filed, -, isSource, isTarget, -⟩ := sound.edges row mem
  rw [isSource, isTarget]
  exact filed.occurs edge signature filed.parses (filed.signer rfl)

theorem mutateTrustEdge_apart {user target : Key}
    {result : SignedMutation × Db} (apart : ∀ row ∈ db.trustEdges, row.sourceUser ≠ row.targetUser)
    (run : mutateTrustEdge state sign db user target call = .ok result) : user ≠ target := by
  rintro rfl
  have hidden : (db.currentTrustEdge user user).isNone = true := by
    cases found : db.currentTrustEdge user user with
    | none => rfl
    | some row =>
      obtain ⟨mem, isSource, isTarget⟩ := mem_of_currentTrustEdge found
      exact absurd (isSource.trans isTarget.symm) (apart row mem)
  simp only [mutateTrustEdge, setTrustEdge, deleteTrustEdge, hidden, if_true] at run
  repeat' split at run
  all_goals cases run

theorem mutateTrustEdge_sound {user target : Key}
    {signed : SignedMutation} (sound : EdgeSound state corpus db)
    (filed : Filed state.platform corpus signed.payload signed.signature (.trustEdge signed.edge))
    (run : mutateTrustEdge state sign db user target call = .ok (signed, after)) : EdgeSound state corpus after := by
  obtain ⟨-, -, hashed, nowIso, written, -, writes, erases⟩ := mutateTrustEdge_writes run
  obtain rfl := writeTrustEdge_ok writes
  have inserted : EdgeSound state corpus { db with trustEdges := db.trustEdges ++ [localEdgeRow signed call.id nowIso] } :=
    ⟨sound.objects, sound.buffered, forall_mem_append.mpr
      ⟨sound.edges, forall_mem_singleton.mpr ⟨_, _, _, filed, hashed, rfl, rfl, rfl⟩⟩⟩
  have written := (EdgeEffect.store filed).sound inserted
  rw [← hashed] at written
  rcases erases with rfl | ⟨-, erases⟩
  · exact written
  · refine ⟨storedFrom_erasePayloads written.objects erases, ?_, ?_⟩ <;> rw [erasePayloads_frame erases]
    · exact written.buffered
    · exact written.edges

theorem TrustStep.sound (step : TrustStep state (BetweenTwo state.platform) db after)
    (sound : EdgeSound state (BetweenTwo state.platform) db) : EdgeSound state (BetweenTwo state.platform) after := by
  cases step with
  | mutate sign user target call filed run =>
    refine mutateTrustEdge_sound sound ⟨?_, filed.parses, filed.signed⟩ run
    rintro edge signature parses -
    obtain ⟨isEdge, -⟩ := mutateTrustEdge_ok run
    obtain rfl : _ = edge := by simpa [filed.parses] using parses
    rw [isEdge]
    exact mutateTrustEdge_apart sound.apart run
  | deliver wire peer occurs => exact (deliverEdge_effects sound occurs).sound sound
  | sweep user run => exact (sweepPendingProjections_effects sound run).sound sound
  | drain hash run => exact (drainLoop_effects sound run).sound sound
  | users rows => exact ⟨sound.objects, sound.buffered, sound.edges⟩

theorem TrustReached.sound (reached : TrustReached state (BetweenTwo state.platform) db) :
    EdgeSound state (BetweenTwo state.platform) db := by
  induction reached with
  | start noEdges noPending noObjects => constructor <;> simp [noEdges, noPending, noObjects]
  | step _ step ih => exact step.sound ih

end Rows

variable {trustRows : List (Uuid × Uuid)}

theorem GraphBuilder.holds_edges (apart : ∀ row ∈ trustRows, row.1 ≠ row.2) :
    let builder := trustRows.foldl GraphBuilder.addEdge {}
    (∀ edge ∈ builder.denseEdges, edge.1 < builder.index.length ∧ edge.2 < builder.index.length) ∧
      ∀ node, (node, node) ∉ builder.denseEdges := by
  intro builder
  have holds : builder.Holds trustRows := GraphBuilder.holds_foldl trustRows
  constructor
  · intro edge mem
    obtain ⟨_, -, isSource, isTarget⟩ := (holds.edges edge.1 edge.2).mp mem
    exact ⟨NodeIndex.getId_lt isSource, NodeIndex.getId_lt isTarget⟩
  · intro node mem
    obtain ⟨row, isRow, isSource, isTarget⟩ := (holds.edges node node).mp mem
    exact apart row isRow (NodeIndex.getId_inj isSource isTarget)

theorem trustQuery_apart {db : Db} {view : Viewpoint} {banned : List Key}
    (distinct : (db.users.map fun user => view.userId user.publicKey).Nodup)
    (apart : ∀ row ∈ db.trustEdges, row.sourceUser ≠ row.targetUser) :
    ∀ pair ∈ view.trustQuery db banned, pair.1 ≠ pair.2 := by
  intro pair mem same
  simp only [Viewpoint.trustQuery, mem_map, mem_filter, decide_eq_true_eq, hasUser, any_eq_true] at mem
  obtain ⟨row, ⟨current, -, ⟨source, isSource, sourceKey⟩, ⟨target, isTarget, targetKey⟩, -⟩, rfl⟩ := mem
  refine apart row (mem_of_mem_filter current) ?_
  rw [← sourceKey, ← targetKey] at same ⊢
  rw [inj_on_of_nodup_map distinct isSource isTarget same]

/-- While nobody delivers a signed edge from a user to itself, there is no such row, and the two searches agree. -/
theorem no_self_edge_unless_delivered (state : AppState) (db : Db)
    (reached : TrustReached state (BetweenTwo state.platform) db) :
    (∀ row ∈ db.trustEdges, row.sourceUser ≠ row.targetUser) ∧
    ∀ (view : Viewpoint) (banned : List Key), (db.users.map fun user => view.userId user.publicKey).Nodup →
      let graph := TrustGraph.build (view.trustQuery db banned) (view.distrustQuery db)
      let n := graph.index.length
      (∀ node < n, node ∉ graph.forward.neighbors node) ∧
      ∀ a < n, ∀ r < n, a ≠ r → ∀ fuel, n * n ≤ fuel →
        ((∃ score, (a, score) ∈ reverseBfs r graph.forward.transpose fuel) ↔
          ∃ score, (r, score) ∈ forwardBfs a graph.forward fuel []) ∧
        ∀ score other, (a, score) ∈ reverseBfs r graph.forward.transpose fuel →
          (r, other) ∈ forwardBfs a graph.forward fuel [] → score = other := by
  have apart := reached.sound.apart
  refine ⟨apart, ?_⟩
  intro view banned distinct graph n
  obtain ⟨bounded, noLoops⟩ := GraphBuilder.holds_edges (trustQuery_apart distinct apart)
  constructor
  · intro node isNode looped
    exact noLoops node ((CsrGraph.mem_neighbors (fun edge mem => (bounded edge mem).1) isNode).mp looped)
  · intro a isNode r isReader distinctNodes fuel enough
    obtain ⟨-, -, agree⟩ := bfs_agree bounded noLoops isNode isReader distinctNodes enough
    exact agree

/-- An edge of user `1` to user `2`, and one of user `1` to itself. -/
def loopState : AppState where
  platform := Platform.ofTable [.trustEdge ⟨1, 2, .trust, 1000, none⟩, .trustEdge ⟨1, 1, .trust, 1000, none⟩]
  instanceKey := 9
  edgeRowId hash := hash.setWidth 128
  edgeClock _ := ""

theorem edge_delivered_no_loop :
    (deliverEdge loopState tieDb [0] 7).trustEdges.map (fun row => (row.sourceUser, row.targetUser)) = [(1, 2)] ∧
      ∀ row ∈ (deliverEdge loopState tieDb [0] 7).trustEdges, row.sourceUser ≠ row.targetUser := by
  have start : TrustReached loopState (BetweenTwo loopState.platform) tieDb := .start rfl rfl rfl
  have step : TrustStep loopState (BetweenTwo loopState.platform) tieDb (deliverEdge loopState tieDb [0] 7) := by
    refine .deliver [0] 7 ?_
    rintro payload signature decodes edge other parses -
    cases decodes
    cases parses
    decide
  exact ⟨by decide +kernel, (no_self_edge_unless_delivered loopState _ (start.step step)).1⟩

/-- Ingest compares no endpoints. -/
theorem self_edge_projected :
    ∃ db, TrustReached loopState (fun _ => True) db ∧ ∃ row ∈ db.trustEdges, row.sourceUser = row.targetUser := by
  refine ⟨deliverEdge loopState tieDb [1] 7, ?_, by decide +kernel⟩
  exact .step (.start rfl rfl rfl) (.deliver [1] 7 fun _ _ _ => trivial)

end Prismoire
