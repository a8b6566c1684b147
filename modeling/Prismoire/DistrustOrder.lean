import Prismoire.ForwardScore

namespace Prismoire

open Lib List

namespace ForwardView

variable {view : ForwardView} {more : List Node} {hop target : Node}

/-- The same search by a viewer who distrusts others. -/
def distrusting (view : ForwardView) (distrusts : List Node) : ForwardView :=
  { view with distrusts }

theorem factor_distrusting_le (subset : view.distrusts ⊆ more) (node : Node) :
    (view.distrusting more).factor node ≤ view.factor node := by
  rw [factor_eq, factor_eq]
  refine pow_le_pow_of_le_one (by norm_num) (by norm_num) ?_
  rw [distrusted, distrusted, ← countP_eq_length_filter, ← countP_eq_length_filter]
  refine countP_mono_left fun other _ known => ?_
  exact decide_eq_true (subset (of_decide_eq_true known))

theorem groupScore_distrusting (subset : view.distrusts ⊆ more) (hop target : Node) :
    0 ≤ (view.distrusting more).groupScore hop target ∧
      (view.distrusting more).groupScore hop target ≤ view.groupScore hop target := by
  have lower := factor_distrusting_le subset
  have positive := (view.distrusting more).factor_pos
  have decays : (0 : ℚ) ≤ decay := by norm_num [decay]
  have step : ∀ {score score' : ℚ} (node : Node), 0 ≤ score' ∧ score' ≤ score →
      0 ≤ score' * decay * (view.distrusting more).factor node ∧
        score' * decay * (view.distrusting more).factor node ≤ score * decay * view.factor node := by
    rintro score score' node ⟨nonneg, order⟩
    have scaled := mul_le_mul_of_nonneg_right order decays
    have nonneg := mul_nonneg nonneg decays
    exact ⟨mul_nonneg nonneg (positive node).le, mul_le_mul scaled (lower node) (positive node).le (nonneg.trans scaled)⟩
  have start := And.intro (positive hop).le (lower hop)
  have same : (view.distrusting more).graph = view.graph := rfl
  have onward : (view.distrusting more).onward hop = view.onward hop := rfl
  rw [groupScore, groupScore, same, onward]
  split
  · exact start
  · split
    · exact step target start
    · split
      · exact step target (step _ start)
      · exact ⟨le_refl 0, le_refl 0⟩

theorem addPath_apart {groups : Table Node PathGroups} {source target group : Node} {score : ℚ}
    (apart : ∀ entry ∈ groups, entry.1 ≠ source) (other : target ≠ source) :
    ∀ entry ∈ addPath groups target group score, entry.1 ≠ source := by
  unfold addPath
  split
  · intro entry mem
    obtain ⟨old, inOld, rfl⟩ := mem_map.mp mem
    dsimp only
    split <;> exact apart old inOld
  · exact forall_mem_append.mpr ⟨apart, by simpa using other⟩

/-- No step of the search takes the viewer for a target. -/
theorem source_not_found (view : ForwardView) (fuel : Nat) (score : ℚ) : (view.source, score) ∉ view.results fuel := by
  let Apart (bfs : ForwardBfs) : Prop := ∀ entry ∈ bfs.targetGroups, entry.1 ≠ view.source
  have seeded : Apart (view.sourceNeighbors.foldl (ForwardBfs.seed view.source view.graph view.distrusts) {}) := by
    refine foldlRecOn _ _ (by simp [Apart]) fun bfs apart hop _ => ?_
    unfold ForwardBfs.seed
    split
    · exact apart
    · rename_i other
      exact addPath_apart apart (not_or.mp other).1
  have visited : ∀ step bfs next, Apart bfs → Apart (ForwardBfs.visit view.source view.graph view.distrusts step bfs next) := by
    intro step bfs next apart
    unfold ForwardBfs.visit
    split
    · exact apart
    · rename_i other
      split
      · exact apart
      · exact addPath_apart apart other
  have looped : ∀ fuel bfs, Apart bfs →
      Apart (ForwardBfs.loop view.source view.graph view.distrusts maxTrustDepth fuel bfs) := by
    intro fuel
    induction fuel with
    | zero => exact fun _ apart => apart
    | succ fuel ih =>
      intro bfs apart
      unfold ForwardBfs.loop
      split
      · exact apart
      · dsimp only
        split
        · exact ih _ apart
        · exact ih _ (foldlRecOn _ _ apart fun bfs apart next _ => visited _ bfs next apart)
  intro mem
  unfold results forwardBfsInner at mem
  dsimp only at mem
  obtain ⟨entry, inGroups, named⟩ : ∃ entry ∈ (forwardBfsLoop view.source view.graph view.distrusts fuel
      view.sourceNeighbors maxTrustDepth).targetGroups, entry.1 = view.source := by
    split at mem
    · obtain ⟨entry, inGroups, isEntry⟩ := mem_map.mp mem
      exact ⟨entry, inGroups, congrArg Prod.fst isEntry⟩
    · obtain ⟨scored, inScored, isEntry⟩ := mem_map.mp mem
      obtain ⟨entry, inGroups, rfl⟩ := mem_map.mp inScored
      refine ⟨entry, inGroups, ?_⟩
      split at isEntry <;> exact congrArg Prod.fst isEntry
  exact looped fuel _ seeded entry inGroups named

/-- Who distrusts more reaches the same users, none with a higher score, and never itself. -/
theorem distrust_lowers_scores (n : Nat) (edges : List (Node × Node)) (bounded : ∀ edge ∈ edges, edge.1 < n ∧ edge.2 < n)
    (view : ForwardView) (isGraph : view.graph = CsrGraph.fromEdges n edges)
    (first : ∀ hop ∈ view.sourceNeighbors, hop < n) (more : List Node) (subset : view.distrusts ⊆ more)
    (fuel : Nat) (enough : n * n ≤ fuel) (target : Node) (notSource : target ≠ view.source) :
    (∀ score, (view.source, score) ∉ view.results fuel ∧ (view.source, score) ∉ (view.distrusting more).results fuel) ∧
    ((∃ score, (target, score) ∈ view.results fuel) ↔ ∃ score, (target, score) ∈ (view.distrusting more).results fuel) ∧
    ∀ score lower, (target, score) ∈ view.results fuel → (target, lower) ∈ (view.distrusting more).results fuel →
      0 ≤ lower ∧ lower ≤ score ∧ score ≤ 1 := by
  obtain ⟨-, before⟩ := results_iff bounded isGraph first enough notSource
  obtain ⟨-, after⟩ := @results_iff (view.distrusting more) target n edges bounded isGraph first fuel enough notSource
  refine ⟨fun score => ⟨view.source_not_found fuel score, (view.distrusting more).source_not_found fuel score⟩, ?_⟩
  constructor
  · constructor
    · rintro ⟨score, mem⟩
      exact ⟨_, (after _).mpr ⟨((before score).mp mem).1, rfl⟩⟩
    · rintro ⟨score, mem⟩
      exact ⟨_, (before _).mpr ⟨((after score).mp mem).1, rfl⟩⟩
  · intro score lower mem mem'
    obtain ⟨-, rfl⟩ := (before score).mp mem
    obtain ⟨-, rfl⟩ := (after lower).mp mem'
    have atMostOne : ∀ key, view.groupScore key target ≤ 1 := fun key =>
      (groupScore_eq_iff notSource).1.trans (bestScore_le_one notSource)
    have hops : (view.distrusting more).hops = view.hops := rfl
    have order : ∏ key ∈ view.hops.toFinset, (1 - view.groupScore key target) ≤
        ∏ key ∈ view.hops.toFinset, (1 - (view.distrusting more).groupScore key target) :=
      Finset.prod_le_prod (fun key _ => sub_nonneg.mpr (atMostOne key))
        fun key _ => sub_le_sub_left (groupScore_distrusting subset key target).2 1
    have bottom : 0 ≤ ∏ key ∈ view.hops.toFinset, (1 - view.groupScore key target) :=
      Finset.prod_nonneg fun key _ => sub_nonneg.mpr (atMostOne key)
    have top : ∏ key ∈ view.hops.toFinset, (1 - (view.distrusting more).groupScore key target) ≤ 1 :=
      Finset.prod_le_one
        (fun key _ => sub_nonneg.mpr ((groupScore_distrusting subset key target).2.trans (atMostOne key)))
        fun key _ => sub_le_self 1 (groupScore_distrusting subset key target).1
    rw [hops]
    by_cases distrusts : target ∈ view.distrusts
    · have also : target ∈ (view.distrusting more).distrusts := subset distrusts
      rw [if_pos distrusts, if_pos also]
      norm_num
    · rw [if_neg distrusts]
      split
      · exact ⟨le_refl 0, by linarith, by linarith⟩
      · exact ⟨by linarith, by linarith, by linarith⟩

theorem two_ways_distrusted : ((∃ score, (4, score) ∈ (twoWaysView []).results 36) ↔
      ∃ score, (4, score) ∈ ((twoWaysView []).distrusting [5]).results 36) ∧
    ∀ score lower, (4, score) ∈ (twoWaysView []).results 36 → (4, lower) ∈ ((twoWaysView []).distrusting [5]).results 36 →
      0 ≤ lower ∧ lower ≤ score ∧ score ≤ 1 :=
  (distrust_lowers_scores 6 twoWays (by decide) (twoWaysView []) rfl (by decide) [5] (nil_subset _) 36 (by decide) 4
    (by decide)).2

end ForwardView

end Prismoire
