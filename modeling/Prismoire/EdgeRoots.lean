import Prismoire.SelfEdges

namespace Prismoire

open Lib List

/-- From predecessor to predecessor, all projected for the same pair, back to a genesis edge. -/
inductive Anchored (rows : List TrustEdgeRow) : TrustEdgeRow → Prop
  | genesis {row} : row ∈ rows → row.priorEdgeHash = none → Anchored rows row
  | next {row prior} : row ∈ rows → row.priorEdgeHash = some prior.canonicalHash → prior.sourceUser = row.sourceUser →
      prior.targetUser = row.targetUser → Anchored rows prior → Anchored rows row

/-- Every edge has its chain, and the edges that were there are still there. -/
structure ChainsGrow (start db : Db) : Prop where
  rooted : ∀ row ∈ db.trustEdges, Anchored db.trustEdges row
  grown : ∀ row ∈ start.trustEdges, row ∈ db.trustEdges

section

variable {state : AppState} {corpus : Corpus} {start db after : Db} {rows : List TrustEdgeRow}
  {row : TrustEdgeRow}

theorem Anchored.append (rooted : Anchored rows row) (new : TrustEdgeRow) : Anchored (rows ++ [new]) row := by
  induction rooted with
  | genesis mem first => exact .genesis (mem_append_left _ mem) first
  | next mem links source target _ ih => exact .next (mem_append_left _ mem) links source target ih

theorem ChainsGrow.insert (grow : ChainsGrow start db) (edges : after.trustEdges = db.trustEdges ++ [row])
    (linked : ∀ prior ∈ row.priorEdgeHash, db.hasPairEdge row.sourceUser row.targetUser prior = true) :
    ChainsGrow start after := by
  refine ⟨?_, fun old mem => edges ▸ mem_append_left _ (grow.grown old mem)⟩
  rw [edges]
  refine forall_mem_concat.mpr ⟨fun old mem => (grow.rooted old mem).append row, ?_⟩
  have mem : row ∈ db.trustEdges ++ [row] := mem_append_right _ (mem_singleton_self row)
  cases isPrior : row.priorEdgeHash with
  | none => exact .genesis mem isPrior
  | some hash =>
    obtain ⟨prior, inRows, named⟩ := any_eq_true.mp (linked hash isPrior)
    obtain ⟨source, target, rfl⟩ := of_decide_eq_true named
    exact .next mem isPrior source target ((grow.rooted prior inRows).append row)

theorem ChainsGrow.congr (grow : ChainsGrow start db) (edges : after.trustEdges = db.trustEdges) :
    ChainsGrow start after := by
  constructor <;> rw [edges]
  · exact grow.rooted
  · exact grow.grown

theorem ChainsGrow.walk (start : Db) : EdgeArrival state (fun _ _ _ _ => True) (ChainsGrow start) where
  buffered _ _ _ := trivial
  project grow _ _ _ _ linked := grow.insert rfl linked
  erase grow _ run := grow.congr (by rw [Db.erasePayloads_frame run])
  store grow _ := grow.congr rfl
  enqueue grow _ _ := grow.congr rfl
  dequeue _ _ grow := grow.congr rfl
  frontier _ grow := grow.congr rfl

theorem computePriorEdgeHash_linked {source target : Key} :
    ∀ prior ∈ computePriorEdgeHash db source target, db.hasPairEdge source target prior = true := by
  intro prior isPrior
  unfold computePriorEdgeHash at isPrior
  dsimp only at isPrior
  split at isPrior
  · cases isPrior
  · obtain ⟨row, mem, rfl⟩ := mem_map.mp (mem_of_firstBy isPrior)
    obtain ⟨inRows, named⟩ := mem_filter.mp (mem_of_mem_filter mem)
    obtain ⟨source, target⟩ := of_decide_eq_true named
    exact any_eq_true.mpr ⟨row, inRows, decide_eq_true ⟨source, target, rfl⟩⟩

theorem TrustStep.chains (step : TrustStep state corpus db after)
    (rooted : ∀ row ∈ db.trustEdges, Anchored db.trustEdges row) :
    ChainsGrow db after := by
  have here : ChainsGrow db db := ⟨rooted, fun _ => id⟩
  cases step with
  | mutate sign user target call filed run =>
    obtain ⟨isEdge, -, -, _, -, edges⟩ := mutateTrustEdge_ok run
    exact here.insert edges (by rw [localEdgeRow, isEdge]; exact computePriorEdgeHash_linked)
  | deliver wire peer _ => exact (ChainsGrow.walk db).deliver here fun _ _ _ _ _ => trivial
  | sweep user run => exact (ChainsGrow.walk db).toEdgeWalk.sweep here (fun _ _ => trivial) run
  | drain hash run => exact (ChainsGrow.walk db).toEdgeWalk.drainLoop here run
  | users rows => exact here.congr rfl

end

/-- Whatever arrives in whatever order, no edge is projected before its chain, and none is taken back. -/
theorem projected_chains_rooted (state : AppState) (corpus : Corpus) (db : Db) (reached : TrustReached state corpus db) :
    (∀ row ∈ db.trustEdges, Anchored db.trustEdges row) ∧
      ∀ after, TrustStep state corpus db after → ∀ row ∈ db.trustEdges, row ∈ after.trustEdges := by
  have rooted : ∀ row ∈ db.trustEdges, Anchored db.trustEdges row := by
    induction reached with
    | start noEdges => simp [noEdges]
    | step _ step ih => exact (step.chains ih).rooted
  exact ⟨rooted, fun after step => (step.chains rooted).grown⟩

def chainState : AppState where
  platform := Platform.ofTable [.trustEdge ⟨1, 2, .trust, 5000, none⟩, .trustEdge ⟨1, 2, .distrust, 6000, some 1⟩]
  instanceKey := 9
  edgeRowId hash := hash.setWidth 128
  edgeClock _ := ""

/-- The distrust comes first and waits for the grant that it follows. -/
theorem delivered_edge_rooted :
    let early := deliverEdge chainState tieDb [1] 7
    let db := deliverEdge chainState early [0] 7
    early.trustEdges = [] ∧ db.trustEdges.map (·.priorEdgeHash) = [none, some 1] ∧
      ∀ row ∈ db.trustEdges, Anchored db.trustEdges row := by
  intro early db
  have start : TrustReached chainState (fun _ => True) tieDb := .start rfl rfl rfl
  have reached := (start.step (.deliver [1] 7 fun _ _ _ => trivial)).step (.deliver [0] 7 fun _ _ _ => trivial)
  exact ⟨by decide +kernel, by decide +kernel, (projected_chains_rooted chainState _ db reached).1⟩

end Prismoire
