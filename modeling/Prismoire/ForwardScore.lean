import Mathlib.Algebra.Order.BigOperators.GroupWithZero.Finset
import Mathlib.Tactic.Linarith
import Mathlib.Tactic.Positivity
import Prismoire.TrustGraph

namespace Prismoire

open Lib List

/-- What a forward search is about: the viewer, its first hops and those that it distrusts. -/
structure ForwardView where
  source : Node
  graph : CsrGraph
  distrusts : List Node
  sourceNeighbors : List Node

namespace ForwardView

variable (view : ForwardView)

def hops : List Node :=
  view.sourceNeighbors.filter (· ≠ view.source)

/-- Where a path may go on to. -/
def onward (node : Node) : List Node :=
  (view.graph.neighbors node).filter (· ≠ view.source)

def factor (node : Node) : ℚ :=
  reliability (view.graph.neighbors node) view.distrusts

/-- The paths of so many edges from a node on that do not come to the viewer. -/
def walksFrom : Nat → Node → List (List Node)
  | 0, node => [[node]]
  | n + 1, node => (view.onward node).flatMap fun next => (walksFrom n next).map (node :: ·)

def pathsThrough (hop target : Node) : List (List Node) :=
  ((List.range maxTrustDepth).flatMap fun n => view.walksFrom n hop).filter (·.getLast? = some target)

def pathScore (path : List Node) : ℚ :=
  (path.map view.factor).prod * decay ^ (path.length - 1)

def bestScore (hop target : Node) : ℚ :=
  ((view.pathsThrough hop target).map view.pathScore).foldr max 0

def documentedScore (target : Node) : ℚ :=
  if target ∈ view.distrusts then 0 else 1 - ∏ hop ∈ view.hops.toFinset, (1 - view.bestScore hop target)

def results (fuel : Nat) : List (Node × ℚ) :=
  forwardBfsInner view.source view.graph view.distrusts fuel view.sourceNeighbors maxTrustDepth

end ForwardView

namespace ForwardStep

def key (step : ForwardStep) : Node × Node :=
  (step.firstHop, step.current)

def path (step : ForwardStep) : Node × Node × ℚ :=
  (step.current, step.firstHop, step.pathScore)

end ForwardStep

namespace ForwardView

variable (view : ForwardView)

def seedStep (hop : Node) : ForwardStep :=
  ⟨hop, 1, hop, view.factor hop⟩

def nextStep (step : ForwardStep) (next : Node) : ForwardStep :=
  ⟨next, step.depth + 1, step.firstHop, step.pathScore * decay * view.factor next⟩

def seeds : List ForwardStep :=
  view.hops.map view.seedStep

def children (step : ForwardStep) : List ForwardStep :=
  if step.depth < maxTrustDepth then (view.onward step.current).map (view.nextStep step) else []

/-- The variables of the search are those of a search of the pairs of a first hop and a node. -/
structure Mirrors (search : Search ForwardStep) (bfs : ForwardBfs) : Prop where
  within : search.done ≤ search.seen.length
  visited : bfs.visitedPerGroup = search.seen.map ForwardStep.key
  queue : bfs.queue = search.seen.drop search.done
  groups : bfs.targetGroups = addPaths (search.seen.map ForwardStep.path)

variable {view} {search : Search ForwardStep} {bfs : ForwardBfs} {step : ForwardStep} {path : List Node}

theorem mirrors_seeds (view : ForwardView) : Mirrors { seen := firsts ForwardStep.key view.seeds }
    (view.sourceNeighbors.foldl (ForwardBfs.seed view.source view.graph view.distrusts) {}) := by
  have runs : ∀ (neighbors : List Node) (seen : List ForwardStep) (bfs : ForwardBfs), Mirrors { seen } bfs →
      (∀ hop, hop ∈ bfs.seededFirstHops ↔ (hop, hop) ∈ seen.map ForwardStep.key) →
      Mirrors { seen := ((neighbors.filter (· ≠ view.source)).map view.seedStep).foldl (offer ForwardStep.key) seen }
        (neighbors.foldl (ForwardBfs.seed view.source view.graph view.distrusts) bfs) := by
    intro neighbors
    induction neighbors with
    | nil => exact fun _ _ mirrors _ => mirrors
    | cons hop neighbors ih =>
      intro seen bfs mirrors seeded
      rw [foldl_cons, ForwardBfs.seed]
      by_cases own : hop = view.source
      · rw [if_pos (.inl own), filter_cons_of_neg (by simpa using own)]
        exact ih seen bfs mirrors seeded
      · rw [filter_cons_of_pos (by simpa using own), map_cons, foldl_cons, offer]
        by_cases old : hop ∈ bfs.seededFirstHops
        · have isOld : (view.seedStep hop).key ∈ seen.map ForwardStep.key := (seeded hop).mp old
          rw [if_pos isOld, if_pos (Or.inr old)]
          exact ih seen bfs mirrors seeded
        · have isNew : (view.seedStep hop).key ∉ seen.map ForwardStep.key := mt (seeded hop).mpr old
          rw [if_neg isNew, if_neg (not_or.mpr ⟨own, old⟩)]
          refine ih _ _ ⟨Nat.zero_le _, ?_, ?_, ?_⟩ ?_
          · simp [mirrors.visited, seedStep, ForwardStep.key]
          · have queue : bfs.queue = seen := mirrors.queue
            simp [queue, seedStep, factor]
          · have groups : bfs.targetGroups = addPaths (seen.map ForwardStep.path) := mirrors.groups
            rw [map_append, map_singleton, addPaths_concat, groups]
            rfl
          · intro other
            simp [seeded, seedStep, ForwardStep.key, or_comm, eq_comm]
  exact runs view.sourceNeighbors [] {} ⟨Nat.le_refl 0, rfl, rfl, rfl⟩ (by simp)

theorem Mirrors.visit (mirrors : Mirrors search bfs) (step : ForwardStep) (next : Node) :
    Mirrors { search with seen :=
        if next = view.source then search.seen else offer ForwardStep.key search.seen (view.nextStep step next) }
      (ForwardBfs.visit view.source view.graph view.distrusts step bfs next) := by
  rw [ForwardBfs.visit]
  by_cases own : next = view.source
  · rw [if_pos own, if_pos own]
    exact mirrors
  · rw [if_neg own, if_neg own, mirrors.visited, offer, show (view.nextStep step next).key = (step.firstHop, next) from rfl]
    by_cases old : (step.firstHop, next) ∈ search.seen.map ForwardStep.key
    · rw [if_pos old, if_pos old]
      exact mirrors
    · rw [if_neg old, if_neg old]
      constructor
      case within => exact Nat.le_trans mirrors.within (by simp)
      case visited => simp [nextStep, ForwardStep.key]
      case queue => simp [drop_append_of_le_length mirrors.within, mirrors.queue, nextStep, factor]
      case groups =>
        rw [map_append, map_singleton, addPaths_concat, ← mirrors.groups]
        rfl

theorem Mirrors.visits (mirrors : Mirrors search bfs) (step : ForwardStep) (neighbors : List Node) : Mirrors
      { search with
        seen := ((neighbors.filter (· ≠ view.source)).map (view.nextStep step)).foldl (offer ForwardStep.key) search.seen }
      (neighbors.foldl (ForwardBfs.visit view.source view.graph view.distrusts step) bfs) := by
  induction neighbors generalizing search bfs with
  | nil => exact mirrors
  | cons next neighbors ih =>
    have visited := @Mirrors.visit view _ _ mirrors step next
    rw [foldl_cons]
    by_cases own : next = view.source
    · rw [if_pos own] at visited
      rw [filter_cons_of_neg (by simpa using own)]
      exact ih visited
    · rw [if_neg own] at visited
      rw [filter_cons_of_pos (by simpa using own), map_cons, foldl_cons]
      exact ih visited

theorem Mirrors.loop (fuel : Nat) (mirrors : Mirrors search bfs) :
    Mirrors (Search.run ForwardStep.key view.children fuel search)
      (ForwardBfs.loop view.source view.graph view.distrusts maxTrustDepth fuel bfs) := by
  induction fuel generalizing search bfs with
  | zero => exact mirrors
  | succ fuel ih =>
    rw [Search.run, Search.step, ForwardBfs.loop]
    cases isNext : search.seen[search.done]? with
    | none =>
      have beyond := List.getElem?_eq_none_iff.mp isNext
      have empty : bfs.queue = [] := by rw [mirrors.queue, drop_eq_nil_of_le beyond]
      have idle : search.done = search.seen.length := Nat.le_antisymm mirrors.within beyond
      rw [empty]
      have stays : Search.run ForwardStep.key view.children fuel search = search := Search.run_of_idle idle fuel
      exact stays.symm ▸ mirrors
    | some step =>
      obtain ⟨inside, isStep⟩ := List.getElem?_eq_some_iff.mp isNext
      have queue : bfs.queue = step :: search.seen.drop (search.done + 1) := by
        rw [mirrors.queue, drop_eq_getElem_cons inside, isStep]
      have popped : Mirrors { search with done := search.done + 1 }
          { bfs with queue := search.seen.drop (search.done + 1) } :=
        ⟨inside, mirrors.visited, rfl, mirrors.groups⟩
      rw [queue]
      dsimp only
      by_cases deep : maxTrustDepth ≤ step.depth
      · rw [if_pos deep, children, if_neg (by omega)]
        exact ih popped
      · rw [if_neg deep, children, if_pos (by omega)]
        exact ih (popped.visits step (view.graph.neighbors step.current))

theorem mem_onward {node next : Node} : next ∈ view.onward node ↔ next ∈ view.graph.neighbors node ∧ next ≠ view.source := by
  simp [onward]

theorem mem_pathsThrough {hop target : Node} (notSource : target ≠ view.source) : path ∈ view.pathsThrough hop target ↔
    (path = [hop] ∧ target = hop) ∨ (path = [hop, target] ∧ target ∈ view.graph.neighbors hop) ∨
      ∃ next ∈ view.onward hop, path = [hop, next, target] ∧ target ∈ view.graph.neighbors next := by
  have walks : (List.range maxTrustDepth).flatMap (fun n => view.walksFrom n hop) =
      [hop] :: ((view.onward hop).map fun next => [hop, next]) ++
        (view.onward hop).flatMap fun next => (view.onward next).map fun last => [hop, next, last] := by
    simp [maxTrustDepth, range_succ, walksFrom, ← map_eq_flatMap, Function.comp_def]
  rw [pathsThrough, walks, mem_filter]
  simp only [mem_cons, mem_append, mem_map, mem_flatMap, decide_eq_true_eq]
  constructor
  · rintro ⟨(rfl | ⟨next, isNext, rfl⟩) | ⟨next, isNext, last, isLast, rfl⟩, isTarget⟩
    · exact .inl ⟨rfl, by simpa using isTarget.symm⟩
    · obtain rfl : next = target := by simpa using isTarget
      exact .inr (.inl ⟨rfl, (mem_onward.mp isNext).1⟩)
    · obtain rfl : last = target := by simpa using isTarget
      exact .inr (.inr ⟨next, isNext, rfl, (mem_onward.mp isLast).1⟩)
  · rintro (⟨rfl, rfl⟩ | ⟨rfl, direct⟩ | ⟨next, isNext, rfl, trusts⟩)
    · exact ⟨.inl (.inl rfl), rfl⟩
    · exact ⟨.inl (.inr ⟨target, mem_onward.mpr ⟨direct, notSource⟩, rfl⟩), rfl⟩
    · exact ⟨.inr ⟨next, isNext, target, mem_onward.mpr ⟨trusts, notSource⟩, rfl⟩, rfl⟩

variable {hop target : Node} {seen : List ForwardStep}

section Explored

theorem explores (view : ForwardView) : Search.Explores ForwardStep.key ForwardStep.depth view.children view.seeds
    (fun key => (view.onward key.2).map fun next => (key.1, next)) 1 maxTrustDepth where
  shallow := by decide
  level step mem := by
    obtain ⟨hop, -, rfl⟩ := mem_map.mp mem
    rfl
  deeper step child mem := by
    rw [children] at mem
    split at mem
    · obtain ⟨next, -, rfl⟩ := mem_map.mp mem
      rfl
    · cases mem
  children step := by
    rw [children]
    split
    · rw [map_map]
      rfl
    · rfl

theorem closed {n : Nat} (first : ∀ hop ∈ view.hops, hop < n) (onward : ∀ node < n, ∀ next ∈ view.onward node, next < n) :
    Search.Closed ForwardStep.key view.children view.seeds (List.range n ×ˢ List.range n) where
  seeds step mem := by
    obtain ⟨hop, isHop, rfl⟩ := mem_map.mp mem
    have inside := first hop isHop
    exact pair_mem_product.mpr ⟨mem_range.mpr inside, mem_range.mpr inside⟩
  children step inside child mem := by
    rw [children] at mem
    split at mem
    · obtain ⟨next, isNext, rfl⟩ := mem_map.mp mem
      obtain ⟨isHop, isNode⟩ := pair_mem_product.mp inside
      exact pair_mem_product.mpr ⟨isHop, mem_range.mpr (onward _ (mem_range.mp isNode) next isNext)⟩
    · cases mem

theorem children_seedStep (hop : Node) :
    view.children (view.seedStep hop) = (view.onward hop).map (view.nextStep (view.seedStep hop)) :=
  rfl

variable (explored : Search.Explored ForwardStep.key ForwardStep.depth view.children view.seeds seen)
include explored

theorem mem_seeds (mem : step ∈ seen) (first : step.depth ≤ 1) : ∃ hop ∈ view.hops, step = view.seedStep hop := by
  rcases explored.offered mem with seed | ⟨parent, isParent, isChild⟩
  · obtain ⟨hop, isHop, same⟩ := mem_map.mp seed
    exact ⟨hop, isHop, same.symm⟩
  · obtain ⟨n, isDepth, -, -⟩ := explored.walk view.explores isParent
    have deeper := view.explores.deeper parent step isChild
    omega

theorem seedStep_mem (isHop : hop ∈ view.hops) : view.seedStep hop ∈ seen := by
  have isSeed : view.seedStep hop ∈ view.seeds := mem_map_of_mem isHop
  have isOffered : view.seedStep hop ∈ view.seeds ++ seen.flatMap view.children := mem_append_left _ isSeed
  obtain ⟨found, isFound, same⟩ := mem_map.mp (explored.mem_keys.mpr (mem_map_of_mem isOffered))
  have shallow : found.depth ≤ 1 := explored.depth_le view.explores isFound isOffered same.symm
  obtain ⟨other, -, rfl⟩ := mem_seeds explored isFound shallow
  have isOther : other = hop := congrArg Prod.fst same
  rwa [isOther] at isFound

theorem second_step (mem : step ∈ seen) (second : step.depth = 2) : ∃ hop ∈ view.hops, ∃ next ∈ view.onward hop,
    next ≠ hop ∧ step = view.nextStep (view.seedStep hop) next := by
  rcases explored.offered mem with seed | ⟨parent, isParent, isChild⟩
  · have level := view.explores.level step seed
    omega
  · have deeper := view.explores.deeper parent step isChild
    obtain ⟨hop, isHop, rfl⟩ := mem_seeds explored isParent (by omega)
    rw [children_seedStep] at isChild
    obtain ⟨next, isNext, rfl⟩ := mem_map.mp isChild
    refine ⟨hop, isHop, next, isNext, ?_, rfl⟩
    rintro rfl
    have same := explored.unique isParent mem rfl
    have depths := congrArg ForwardStep.depth same
    omega

theorem nextStep_mem (isHop : hop ∈ view.hops) {next : Node} (isNext : next ∈ view.onward hop) (apart : next ≠ hop) :
    view.nextStep (view.seedStep hop) next ∈ seen := by
  have isChild : view.nextStep (view.seedStep hop) next ∈ view.children (view.seedStep hop) := by
    rw [children_seedStep]
    exact mem_map_of_mem isNext
  have isOffered : view.nextStep (view.seedStep hop) next ∈ view.seeds ++ seen.flatMap view.children :=
    mem_append_right _ (mem_flatMap.mpr ⟨_, seedStep_mem explored isHop, isChild⟩)
  obtain ⟨found, isFound, same⟩ := mem_map.mp (explored.mem_keys.mpr (mem_map_of_mem isOffered))
  have shallow : found.depth ≤ 2 := explored.depth_le view.explores isFound isOffered same.symm
  obtain ⟨sameHop, sameNode⟩ := Prod.mk.inj same
  by_cases first : found.depth ≤ 1
  · obtain ⟨other, -, rfl⟩ := mem_seeds explored isFound first
    exact absurd (sameNode.symm.trans sameHop) apart
  · obtain ⟨other, -, onward, -, -, rfl⟩ := second_step explored isFound (by omega)
    have isOther : other = hop := sameHop
    have isOnward : onward = next := sameNode
    rwa [isOther, isOnward] at isFound

theorem find?_second (isHop : hop ∈ view.hops) {next : Node}
    (isFirst : (view.onward hop).find? (fun next => next ≠ hop ∧ target ∈ view.graph.neighbors next) = some next) :
    seen.find? (fun step => decide (step.key.1 = hop ∧ step.key.2 ≠ hop ∧ target ∈ view.graph.neighbors step.key.2)) =
      some (view.nextStep (view.seedStep hop) next) := by
  let asked : Node × Node → Bool := fun key =>
    decide (key.1 = hop ∧ key.2 ≠ hop ∧ target ∈ view.graph.neighbors key.2)
  show seen.find? (fun step => asked step.key) = _
  have unseeded : view.seeds.find? (fun step => asked step.key) = none := by
    rw [find?_eq_none]
    intro seed isSeed
    obtain ⟨other, -, rfl⟩ := mem_map.mp isSeed
    simp only [asked, seedStep, ForwardStep.key, decide_eq_true_eq, not_and]
    exact fun same apart => absurd same apart
  have isSeed := seedStep_mem explored isHop
  obtain ⟨front, back, split⟩ := append_of_mem isSeed
  have sorted := explored.sorted
  have distinct := explored.nodup
  rw [split] at sorted distinct
  have unasked : ∀ step ∈ front, (view.children step).find? (fun step => asked step.key) = none := by
    intro step mem
    have shallow : step.depth ≤ 1 := (pairwise_append.mp sorted).2.2 step mem _ mem_cons_self
    obtain ⟨other, -, rfl⟩ := mem_seeds explored (split ▸ mem_append_left _ mem) shallow
    rw [find?_eq_none]
    intro child isChild
    rw [children_seedStep] at isChild
    obtain ⟨onward, -, rfl⟩ := mem_map.mp isChild
    simp only [asked, nextStep, seedStep, ForwardStep.key, decide_eq_true_eq, not_and]
    rintro rfl
    rw [map_append, map_cons] at distinct
    exact absurd (mem_map_of_mem mem) (disjoint_right.mp (disjoint_of_nodup_append distinct)
      mem_cons_self)
  have found : (view.children (view.seedStep hop)).find? (fun step => asked step.key) =
      some (view.nextStep (view.seedStep hop) next) := by
    rw [children_seedStep, find?_map]
    have same : ((fun step => asked step.key) ∘ view.nextStep (view.seedStep hop)) =
        fun next => decide (next ≠ hop ∧ target ∈ view.graph.neighbors next) := by
      funext next
      exact decide_eq_decide.mpr (by simp [nextStep, seedStep, ForwardStep.key])
    rw [same, isFirst]
    rfl
  rw [explored.fixed, find?_firsts, find?_append, unseeded, Option.none_or, find?_flatMap]
  conv_lhs => rw [split]
  rw [findSome?_append, findSome?_eq_none_iff.mpr unasked, Option.none_or, findSome?_cons, found]

omit explored in
theorem mem_children {child : ForwardStep} : child ∈ view.children step ↔
    step.depth < maxTrustDepth ∧ ∃ next ∈ view.onward step.current, child = view.nextStep step next := by
  rw [children]
  split
  · rename_i shallow
    simp [shallow, eq_comm]
  · rename_i deep
    simp [deep]

theorem third_step (mem : step ∈ seen) (third : step.depth = 3) : ∃ hop ∈ view.hops, ∃ next,
    (view.onward hop).find? (fun next => next ≠ hop ∧ step.current ∈ view.graph.neighbors next) = some next ∧
      step.current ≠ hop ∧ step.current ∉ view.graph.neighbors hop ∧
      step = view.nextStep (view.nextStep (view.seedStep hop) next) step.current := by
  -- The step was offered first by the first parent that has it as a child.
  have first := explored.first mem
  have unseeded : view.seeds.find? (fun seed => seed.key = step.key) = none := by
    rw [find?_eq_none]
    intro seed isSeed
    obtain ⟨hop, isHop, rfl⟩ := mem_map.mp isSeed
    rw [decide_eq_true_eq]
    intro same
    have isStep := explored.unique (seedStep_mem explored isHop) mem same
    rw [← isStep] at third
    cases third
  rw [find?_append, unseeded, Option.none_or, find?_flatMap, findSome?_eq_some_iff] at first
  obtain ⟨front, parent, back, split, isChild, earlier⟩ := first
  have isParent : parent ∈ seen := by rw [split]; simp
  obtain ⟨-, target, isTarget, isStep⟩ := mem_children.mp (mem_of_find?_eq_some isChild)
  have second : parent.depth = 2 := by
    have depths : step.depth = parent.depth + 1 := congrArg ForwardStep.depth isStep
    omega
  obtain ⟨hop, isHop, next, isNext, apart, isSecond⟩ := second_step explored isParent second
  subst isSecond
  subst isStep
  obtain ⟨trusts, notSource⟩ := mem_onward.mp isTarget
  have onward : target ≠ hop := by
    rintro rfl
    have same := explored.unique (seedStep_mem explored isHop) mem rfl
    have depths := congrArg ForwardStep.depth same
    rw [third] at depths
    cases depths
  have indirect : target ∉ view.graph.neighbors hop := by
    intro direct
    have same := explored.unique (nextStep_mem explored isHop (mem_onward.mpr ⟨direct, notSource⟩) onward) mem rfl
    have depths := congrArg ForwardStep.depth same
    rw [third] at depths
    cases depths
  -- So the parent is the first step behind the hop that leads on to the target.
  let asked : Node → Bool := fun next => decide (next ≠ hop ∧ target ∈ view.graph.neighbors next)
  have someFirst : ((view.onward hop).find? asked).isSome := by
    rw [find?_isSome]
    exact ⟨next, isNext, decide_eq_true ⟨apart, trusts⟩⟩
  obtain ⟨leader, isLeader⟩ := Option.isSome_iff_exists.mp someFirst
  have leads := find?_second explored isHop isLeader
  have isFirst : seen.find? (fun step => decide
      (step.key.1 = hop ∧ step.key.2 ≠ hop ∧ target ∈ view.graph.neighbors step.key.2)) =
        some (view.nextStep (view.seedStep hop) next) := by
    rw [find?_eq_some_iff_append]
    refine ⟨decide_eq_true ⟨rfl, apart, trusts⟩, front, back, split, ?_⟩
    intro step isBefore
    rw [Bool.not_eq_true', decide_eq_false_iff_not]
    rintro ⟨sameHop, -, trusts⟩
    have sorted := explored.sorted
    rw [split] at sorted
    have shallow : step.depth ≤ 2 := (pairwise_append.mp sorted).2.2 step isBefore _ mem_cons_self
    have isNone := earlier step isBefore
    rw [find?_eq_none] at isNone
    refine absurd ?_ (isNone (view.nextStep step target) (mem_children.mpr ⟨Nat.lt_succ_of_le shallow, target,
      mem_onward.mpr ⟨trusts, notSource⟩, rfl⟩))
    exact decide_eq_true (congrArg (·, target) sameHop)
  have isNext := Option.some.inj (leads.symm.trans isFirst)
  have isSame : leader = next := congrArg ForwardStep.current isNext
  exact ⟨hop, isHop, next, isSame ▸ isLeader, onward, indirect, rfl⟩

end Explored

def groupScore (view : ForwardView) (hop target : Node) : ℚ :=
  if target = hop then view.factor hop
  else if target ∈ view.graph.neighbors hop then view.factor hop * decay * view.factor target
  else match (view.onward hop).find? fun next => next ≠ hop ∧ target ∈ view.graph.neighbors next with
    | some next => view.factor hop * decay * view.factor next * decay * view.factor target
    | none => 0

section Scores

variable (explored : Search.Explored ForwardStep.key ForwardStep.depth view.children view.seeds seen)
include explored

theorem pathScore_eq (mem : step ∈ seen) :
    step.firstHop ∈ view.hops ∧ step.pathScore = view.groupScore step.firstHop step.current := by
  obtain ⟨n, isDepth, short, -⟩ := explored.walk view.explores mem
  rw [maxTrustDepth] at short
  obtain first | second | third : step.depth ≤ 1 ∨ step.depth = 2 ∨ step.depth = 3 := by omega
  · obtain ⟨hop, isHop, rfl⟩ := mem_seeds explored mem first
    exact ⟨isHop, (if_pos rfl).symm⟩
  · obtain ⟨hop, isHop, next, isNext, apart, rfl⟩ := second_step explored mem second
    refine ⟨isHop, ?_⟩
    show _ = view.groupScore hop next
    rw [groupScore, if_neg apart, if_pos (mem_onward.mp isNext).1]
    rfl
  · obtain ⟨hop, isHop, next, isFirst, apart, indirect, isStep⟩ := third_step explored mem third
    have isHop' : step.firstHop = hop := congrArg ForwardStep.firstHop isStep
    have isScore := congrArg ForwardStep.pathScore isStep
    refine ⟨isHop' ▸ isHop, ?_⟩
    rw [isHop', groupScore, if_neg apart, if_neg indirect, isFirst]
    exact isScore

theorem key_mem_iff (notSource : target ≠ view.source) :
    (hop, target) ∈ seen.map ForwardStep.key ↔ hop ∈ view.hops ∧ view.pathsThrough hop target ≠ [] := by
  constructor
  · intro mem
    obtain ⟨step, isStep, same⟩ := mem_map.mp mem
    obtain ⟨rfl, rfl⟩ := Prod.mk.inj same
    obtain ⟨isHop, -⟩ := pathScore_eq explored isStep
    refine ⟨isHop, ?_⟩
    obtain ⟨n, isDepth, short, -⟩ := explored.walk view.explores isStep
    rw [maxTrustDepth] at short
    obtain first | second | third : step.depth ≤ 1 ∨ step.depth = 2 ∨ step.depth = 3 := by omega
    · obtain ⟨hop, -, rfl⟩ := mem_seeds explored isStep first
      exact ne_nil_of_mem ((mem_pathsThrough notSource).mpr (.inl ⟨rfl, rfl⟩))
    · obtain ⟨hop, -, next, isNext, -, rfl⟩ := second_step explored isStep second
      exact ne_nil_of_mem ((mem_pathsThrough notSource).mpr (.inr (.inl ⟨rfl, (mem_onward.mp isNext).1⟩)))
    · obtain ⟨hop, -, next, isFirst, -, -, isStep⟩ := third_step explored isStep third
      have asked := find?_some isFirst
      rw [decide_eq_true_eq] at asked
      have isHop : step.firstHop = hop := congrArg ForwardStep.firstHop isStep
      rw [isHop]
      exact ne_nil_of_mem ((mem_pathsThrough notSource).mpr
        (.inr (.inr ⟨next, mem_of_find?_eq_some isFirst, rfl, asked.2⟩)))
  · rintro ⟨isHop, some_⟩
    obtain ⟨path, isPath⟩ := exists_mem_of_ne_nil _ some_
    have second : ∀ next ∈ view.onward hop, (hop, next) ∈ seen.map ForwardStep.key := by
      intro next isNext
      by_cases apart : next = hop
      · exact mem_map.mpr ⟨_, seedStep_mem explored isHop, by rw [apart]; rfl⟩
      · exact mem_map.mpr ⟨_, nextStep_mem explored isHop isNext apart, rfl⟩
    rcases (mem_pathsThrough notSource).mp isPath with ⟨-, rfl⟩ | ⟨-, direct⟩ | ⟨next, isNext, -, trusts⟩
    · exact mem_map.mpr ⟨_, seedStep_mem explored isHop, rfl⟩
    · exact second target (mem_onward.mpr ⟨direct, notSource⟩)
    · by_cases apart : next = hop
      · exact second target (mem_onward.mpr ⟨apart ▸ trusts, notSource⟩)
      · have isChild : view.nextStep (view.nextStep (view.seedStep hop) next) target ∈
            view.children (view.nextStep (view.seedStep hop) next) :=
          mem_children.mpr ⟨Nat.lt_succ_self 2, target, mem_onward.mpr ⟨trusts, notSource⟩, rfl⟩
        have isOffered : view.nextStep (view.nextStep (view.seedStep hop) next) target ∈
            view.seeds ++ seen.flatMap view.children :=
          mem_append_right _ (mem_flatMap.mpr ⟨_, nextStep_mem explored isHop isNext apart, isChild⟩)
        exact explored.mem_keys.mpr (mem_map_of_mem isOffered)

omit explored in
theorem groupScore_none (notSource : target ≠ view.source) (none_ : view.pathsThrough hop target = []) :
    view.groupScore hop target = 0 := by
  have no : ∀ path, path ∉ view.pathsThrough hop target := by simp [none_]
  have apart : target ≠ hop := fun same => no _ ((mem_pathsThrough notSource).mpr (.inl ⟨rfl, same⟩))
  have indirect : target ∉ view.graph.neighbors hop := fun direct =>
    no _ ((mem_pathsThrough notSource).mpr (.inr (.inl ⟨rfl, direct⟩)))
  rw [groupScore, if_neg apart, if_neg indirect]
  cases found : (view.onward hop).find? fun next => decide (next ≠ hop ∧ target ∈ view.graph.neighbors next) with
  | none => rfl
  | some next =>
    have asked := find?_some found
    rw [decide_eq_true_eq] at asked
    exact absurd ((mem_pathsThrough notSource).mpr
      (.inr (.inr ⟨next, mem_of_find?_eq_some found, rfl, asked.2⟩))) (no _)

omit explored in
theorem mem_groupKeys : hop ∈ ((pathsTo (seen.map ForwardStep.path) target).map Prod.fst).toFinset ↔
    (hop, target) ∈ seen.map ForwardStep.key := by
  simp only [mem_toFinset, pathsTo, mem_map, mem_filter, decide_eq_true_eq]
  constructor
  · rintro ⟨_, ⟨_, ⟨⟨step, mem, rfl⟩, rfl⟩, rfl⟩, rfl⟩
    exact ⟨step, mem, rfl⟩
  · rintro ⟨step, mem, same⟩
    obtain ⟨rfl, rfl⟩ := Prod.mk.inj same
    exact ⟨_, ⟨_, ⟨⟨step, mem, rfl⟩, rfl⟩, rfl⟩, rfl⟩

theorem prod_groups (notSource : target ≠ view.source) :
    ∏ hop ∈ ((pathsTo (seen.map ForwardStep.path) target).map Prod.fst).toFinset, (1 - view.groupScore hop target) =
      ∏ hop ∈ view.hops.toFinset, (1 - view.groupScore hop target) := by
  apply Finset.prod_subset
  · intro hop mem
    obtain ⟨step, isStep, same⟩ := mem_map.mp (mem_groupKeys.mp mem)
    obtain ⟨rfl, rfl⟩ := Prod.mk.inj same
    exact mem_toFinset.mpr (pathScore_eq explored isStep).1
  · intro hop isHop unseen
    rw [mem_groupKeys, key_mem_iff explored notSource] at unseen
    have none_ : view.pathsThrough hop target = [] := by
      by_contra some_
      exact unseen ⟨mem_toFinset.mp isHop, some_⟩
    rw [groupScore_none notSource none_, sub_zero]

end Scores

section Best

def distrusted (view : ForwardView) (node : Node) : Nat :=
  ((view.graph.neighbors node).filter (· ∈ view.distrusts)).length

variable {node other : Node} {scores : List ℚ}

section

variable (view : ForwardView) (node : Node)

theorem factor_eq : view.factor node = (3 / 4 : ℚ) ^ view.distrusted node := by
  rw [factor, reliability, distrusted, distrustPenalty]
  norm_num

theorem factor_pos : 0 < view.factor node := by
  rw [factor_eq]
  positivity

theorem factor_le_one : view.factor node ≤ 1 := by
  rw [factor_eq]
  exact pow_le_one₀ (by norm_num) (by norm_num)

end

theorem factor_le_iff : view.factor node ≤ view.factor other ↔ view.distrusted other ≤ view.distrusted node := by
  rw [factor_eq, factor_eq]
  exact pow_le_pow_iff_right_of_lt_one₀ (by norm_num) (by norm_num)

theorem factor_eq_one : view.factor node = 1 ↔ view.distrusted node = 0 := by
  rw [factor_eq]
  constructor
  · intro isOne
    by_contra some_
    rw [pow_eq_one_iff_of_nonneg (by norm_num) some_] at isOne
    norm_num at isOne
  · intro none_
    rw [none_, pow_zero]

theorem foldr_max_le {bound : ℚ} (positive : 0 ≤ bound) (all : ∀ score ∈ scores, score ≤ bound) :
    scores.foldr max 0 ≤ bound := by
  induction scores with
  | nil => exact positive
  | cons score scores ih =>
    exact max_le (all score mem_cons_self) (ih fun other later => all other (mem_cons_of_mem _ later))

theorem le_foldr_max {score : ℚ} (mem : score ∈ scores) : score ≤ scores.foldr max 0 := by
  induction scores with
  | nil => cases mem
  | cons first scores ih =>
    rcases mem_cons.mp mem with rfl | later
    · exact le_max_left _ _
    · exact (ih later).trans (le_max_right _ _)

theorem foldr_max_nonneg (scores : List ℚ) : 0 ≤ scores.foldr max 0 := by
  induction scores with
  | nil => exact le_refl 0
  | cons score scores ih => exact ih.trans (le_max_right _ _)

theorem pathScore_one : view.pathScore [hop] = view.factor hop := by
  simp [pathScore]

theorem pathScore_two : view.pathScore [hop, target] = view.factor hop * decay * view.factor target := by
  simp [pathScore]
  ring

theorem pathScore_three : view.pathScore [hop, node, target] =
    view.factor hop * decay * view.factor node * decay * view.factor target := by
  simp [pathScore]
  ring

theorem bestScore_le {bound : ℚ} (positive : 0 ≤ bound)
    (all : ∀ path ∈ view.pathsThrough hop target, view.pathScore path ≤ bound) : view.bestScore hop target ≤ bound := by
  refine foldr_max_le positive ?_
  intro score mem
  obtain ⟨path, isPath, rfl⟩ := mem_map.mp mem
  exact all path isPath

theorem le_bestScore (mem : path ∈ view.pathsThrough hop target) :
    view.pathScore path ≤ view.bestScore hop target :=
  le_foldr_max (mem_map_of_mem mem)

theorem step_le (view : ForwardView) (hop target : Node) : view.factor hop * decay * view.factor target ≤ view.factor hop * decay := by
  have positive := view.factor_pos hop
  have bound := view.factor_le_one target
  rw [decay]
  nlinarith

theorem onward_le (view : ForwardView) (hop node target : Node) : view.factor hop * decay * view.factor node * decay * view.factor target ≤
    view.factor hop * decay * view.factor target := by
  have hops := view.factor_pos hop
  have nodes := view.factor_pos node
  have targets := view.factor_pos target
  have bound := view.factor_le_one node
  have weight : view.factor node * decay ≤ 1 := by
    rw [decay]
    linarith
  have scale : 0 ≤ view.factor hop * decay * view.factor target := by
    rw [decay]
    positivity
  calc view.factor hop * decay * view.factor node * decay * view.factor target
      = view.factor hop * decay * view.factor target * (view.factor node * decay) := by ring
    _ ≤ view.factor hop * decay * view.factor target * 1 := mul_le_mul_of_nonneg_left weight scale
    _ = view.factor hop * decay * view.factor target := mul_one _

theorem step_le_hop (view : ForwardView) (hop target : Node) : view.factor hop * decay * view.factor target ≤ view.factor hop := by
  refine (view.step_le hop target).trans ?_
  have positive := view.factor_pos hop
  rw [decay]
  linarith

theorem bestScore_lt_one (notSource : target ≠ view.source) (apart : target ≠ hop) : view.bestScore hop target < 1 := by
  have bounded : view.bestScore hop target ≤ decay := by
    have steps : ∀ other, view.factor hop * decay * view.factor other ≤ decay := by
      intro other
      refine (view.step_le hop other).trans ?_
      have bound := view.factor_le_one hop
      rw [decay]
      linarith
    refine bestScore_le (by rw [decay]; norm_num) ?_
    intro path mem
    rcases (mem_pathsThrough notSource).mp mem with ⟨-, same⟩ | ⟨rfl, -⟩ | ⟨next, -, rfl, -⟩
    · exact absurd same apart
    · rw [pathScore_two]
      exact steps target
    · rw [pathScore_three]
      exact (view.onward_le hop next target).trans (steps target)
  refine lt_of_le_of_lt bounded ?_
  rw [decay]
  norm_num

theorem bestScore_le_one (notSource : target ≠ view.source) : view.bestScore hop target ≤ 1 := by
  refine bestScore_le zero_le_one ?_
  intro path mem
  have bound := view.factor_le_one hop
  rcases (mem_pathsThrough notSource).mp mem with ⟨rfl, -⟩ | ⟨rfl, -⟩ | ⟨next, -, rfl, -⟩
  · rwa [pathScore_one]
  · rw [pathScore_two]
    exact (view.step_le_hop hop target).trans bound
  · rw [pathScore_three]
    exact ((view.onward_le hop next target).trans (view.step_le_hop hop target)).trans bound

/-- Behind a first hop, the first neighbour that trusts the target has the fewest distrusted targets of those that do;
or the target is the first hop itself or its neighbour. -/
def FirstIsBest (view : ForwardView) (hop target : Node) : Prop :=
  target = hop ∨ target ∈ view.graph.neighbors hop ∨
    ∀ leader, (view.onward hop).find? (fun next => next ≠ hop ∧ target ∈ view.graph.neighbors next) = some leader →
      ∀ next ∈ view.onward hop, target ∈ view.graph.neighbors next → view.distrusted leader ≤ view.distrusted next

theorem bestScore_hop (notSource : hop ≠ view.source) : view.bestScore hop hop = view.factor hop := by
  apply le_antisymm
  · refine bestScore_le (view.factor_pos hop).le ?_
    intro path mem
    rcases (mem_pathsThrough notSource).mp mem with ⟨rfl, -⟩ | ⟨rfl, -⟩ | ⟨next, -, rfl, -⟩
    · rw [pathScore_one]
    · rw [pathScore_two]
      exact view.step_le_hop hop hop
    · rw [pathScore_three]
      exact (view.onward_le hop next hop).trans (view.step_le_hop hop hop)
  · rw [← pathScore_one]
    exact le_bestScore ((mem_pathsThrough notSource).mpr (.inl ⟨rfl, rfl⟩))

theorem bestScore_neighbor (notSource : target ≠ view.source) (apart : target ≠ hop)
    (direct : target ∈ view.graph.neighbors hop) :
    view.bestScore hop target = view.factor hop * decay * view.factor target := by
  apply le_antisymm
  · refine bestScore_le ?_ ?_
    · have hops := view.factor_pos hop
      have targets := view.factor_pos target
      rw [decay]
      positivity
    · intro path mem
      rcases (mem_pathsThrough notSource).mp mem with ⟨-, isHop⟩ | ⟨rfl, -⟩ | ⟨next, -, rfl, -⟩
      · exact absurd isHop apart
      · rw [pathScore_two]
      · rw [pathScore_three]
        exact view.onward_le hop next target
  · rw [← pathScore_two]
    exact le_bestScore ((mem_pathsThrough notSource).mpr (.inr (.inl ⟨rfl, direct⟩)))

theorem mem_pathsThrough_far (notSource : target ≠ view.source) (apart : target ≠ hop)
    (indirect : target ∉ view.graph.neighbors hop) : path ∈ view.pathsThrough hop target ↔
      ∃ next ∈ view.onward hop, path = [hop, next, target] ∧ next ≠ hop ∧ target ∈ view.graph.neighbors next := by
  rw [mem_pathsThrough notSource]
  constructor
  · rintro (⟨-, isHop⟩ | ⟨-, direct⟩ | ⟨next, isNext, isPath, trusts⟩)
    · exact absurd isHop apart
    · exact absurd direct indirect
    · refine ⟨next, isNext, isPath, ?_, trusts⟩
      rintro rfl
      exact indirect trusts
  · rintro ⟨next, isNext, isPath, -, trusts⟩
    exact .inr (.inr ⟨next, isNext, isPath, trusts⟩)

theorem pathScore_le_iff : view.pathScore [hop, node, target] ≤ view.pathScore [hop, other, target] ↔
    view.distrusted other ≤ view.distrusted node := by
  have scale : 0 < view.factor hop * decay * decay * view.factor target := by
    have hops := view.factor_pos hop
    have targets := view.factor_pos target
    rw [decay]
    positivity
  have shape : ∀ x, view.pathScore [hop, x, target] = view.factor hop * decay * decay * view.factor target * view.factor x := by
    intro x
    rw [pathScore_three]
    ring
  rw [shape, shape, mul_le_mul_iff_right₀ scale, factor_le_iff]

theorem pathScore_pos : 0 < view.pathScore [hop, node, target] := by
  have hops := view.factor_pos hop
  have nodes := view.factor_pos node
  have targets := view.factor_pos target
  rw [pathScore_three, decay]
  positivity

theorem groupScore_eq_iff (notSource : target ≠ view.source) :
    view.groupScore hop target ≤ view.bestScore hop target ∧
      (view.groupScore hop target = view.bestScore hop target ↔ view.FirstIsBest hop target) := by
  rw [groupScore, FirstIsBest]
  by_cases same : target = hop
  · subst same
    rw [if_pos rfl, bestScore_hop notSource]
    exact ⟨le_refl _, fun _ => .inl rfl, fun _ => rfl⟩
  by_cases direct : target ∈ view.graph.neighbors hop
  · rw [if_neg same, if_pos direct, bestScore_neighbor notSource same direct]
    exact ⟨le_refl _, fun _ => .inr (.inl direct), fun _ => rfl⟩
  rw [if_neg same, if_neg direct]
  cases found : (view.onward hop).find? fun next => decide (next ≠ hop ∧ target ∈ view.graph.neighbors next) with
  | none =>
    have none_ : view.bestScore hop target = 0 := by
      refine le_antisymm (bestScore_le (le_refl 0) ?_) (foldr_max_nonneg _)
      intro path mem
      obtain ⟨next, isNext, -, asked⟩ := (mem_pathsThrough_far notSource same direct).mp mem
      exact absurd (decide_eq_true asked) (find?_eq_none.mp found next isNext)
    rw [none_]
    refine ⟨le_refl 0, fun _ => .inr (.inr ?_), fun _ => rfl⟩
    intro leader isLeader
    cases isLeader
  | some leader =>
    have asked := find?_some found
    rw [decide_eq_true_eq] at asked
    have below : ∀ next ∈ view.onward hop, target ∈ view.graph.neighbors next →
        view.pathScore [hop, next, target] ≤ view.bestScore hop target := by
      intro next isNext trusts
      exact le_bestScore ((mem_pathsThrough notSource).mpr (.inr (.inr ⟨next, isNext, rfl, trusts⟩)))
    have reached := below leader (mem_of_find?_eq_some found) asked.2
    show view.factor hop * decay * view.factor leader * decay * view.factor target ≤ _ ∧
      (view.factor hop * decay * view.factor leader * decay * view.factor target = _ ↔ _)
    rw [← pathScore_three]
    refine ⟨reached, ?_, ?_⟩
    · intro best
      refine .inr (.inr ?_)
      rintro _ ⟨⟩ next isNext trusts
      exact pathScore_le_iff.mp ((below next isNext trusts).trans_eq best.symm)
    · rintro (isHop | isDirect | fewest)
      · exact absurd isHop same
      · exact absurd isDirect direct
      · refine le_antisymm reached (bestScore_le pathScore_pos.le ?_)
        intro path mem
        obtain ⟨next, isNext, rfl, -, trusts⟩ := (mem_pathsThrough_far notSource same direct).mp mem
        exact pathScore_le_iff.mpr (fewest leader rfl next isNext trusts)

end Best

section Whole

theorem combined_eq_iff {keys : Finset Node} {found best : Node → ℚ} (le : ∀ key ∈ keys, found key ≤ best key)
    (bound : ∀ key ∈ keys, best key ≤ 1) (full : ∀ key ∈ keys, best key = 1 → found key = 1) :
    1 - ∏ key ∈ keys, (1 - found key) = 1 - ∏ key ∈ keys, (1 - best key) ↔
      (∃ key ∈ keys, found key = 1) ∨ ∀ key ∈ keys, found key = best key := by
  constructor
  · intro same
    by_contra neither
    push Not at neither
    obtain ⟨partial_, key, isKey, differs⟩ := neither
    have less : ∏ key ∈ keys, (1 - best key) < ∏ key ∈ keys, (1 - found key) := by
      refine Finset.prod_lt_prod ?_ ?_ ⟨key, isKey, ?_⟩
      · intro key isKey
        have notFull : best key ≠ 1 := fun isFull => partial_ key isKey (full key isKey isFull)
        have below := lt_of_le_of_ne (bound key isKey) notFull
        linarith
      · intro key isKey
        have order := le key isKey
        linarith
      · have order := lt_of_le_of_ne (le key isKey) differs
        linarith
    linarith
  · rintro (⟨key, isKey, isFull⟩ | same)
    · have bestFull : best key = 1 := le_antisymm (bound key isKey) (isFull ▸ le key isKey)
      rw [Finset.prod_eq_zero isKey (by rw [isFull, sub_self]), Finset.prod_eq_zero isKey (by rw [bestFull, sub_self])]
    · rw [Finset.prod_congr rfl fun key isKey => by rw [same key isKey]]

theorem groupScore_eq_one (notSource : target ≠ view.source) :
    view.groupScore hop target = 1 ↔ target = hop ∧ view.distrusted target = 0 := by
  by_cases same : target = hop
  · subst same
    rw [groupScore, if_pos rfl, factor_eq_one]
    simp
  · constructor
    · intro isFull
      have order := (@groupScore_eq_iff view hop target notSource).1
      have below := bestScore_lt_one notSource same
      linarith
    · exact fun isHop => absurd isHop.1 same

theorem mem_results {fuel : Nat} {score : ℚ} (groups : (forwardBfsLoop view.source view.graph view.distrusts fuel
      view.sourceNeighbors maxTrustDepth).targetGroups = addPaths (seen.map ForwardStep.path))
    (explored : Search.Explored ForwardStep.key ForwardStep.depth view.children view.seeds seen)
    (notSource : target ≠ view.source) : (target, score) ∈ view.results fuel ↔
      (∃ hop ∈ view.hops, view.pathsThrough hop target ≠ []) ∧ score =
        if target ∈ view.distrusts then 0 else 1 - ∏ hop ∈ view.hops.toFinset, (1 - view.groupScore hop target) := by
  have scored : ∀ path ∈ pathsTo (seen.map ForwardStep.path) target, path.2 = view.groupScore path.1 target := by
    intro path mem
    obtain ⟨_, isPath, rfl⟩ := mem_map.mp mem
    obtain ⟨isPath, isTarget⟩ := mem_filter.mp isPath
    obtain ⟨step, isStep, rfl⟩ := mem_map.mp isPath
    rw [decide_eq_true_eq] at isTarget
    rw [← isTarget]
    exact (pathScore_eq explored isStep).2
  have reached : pathsTo (seen.map ForwardStep.path) target ≠ [] ↔ ∃ hop ∈ view.hops, view.pathsThrough hop target ≠ [] := by
    constructor
    · intro some_
      obtain ⟨path, mem⟩ := exists_mem_of_ne_nil _ some_
      have isKey := mem_groupKeys.mp (mem_toFinset.mpr (mem_map_of_mem (f := Prod.fst) mem))
      exact ⟨path.1, (key_mem_iff explored notSource).mp isKey⟩
    · rintro ⟨hop, isHop, some_⟩ none_
      have isKey := mem_groupKeys.mpr ((key_mem_iff explored notSource).mpr ⟨isHop, some_⟩)
      rw [none_] at isKey
      simp at isKey
  have plain : ∀ total, (target, total) ∈ (forwardBfsLoop view.source view.graph view.distrusts fuel view.sourceNeighbors
      maxTrustDepth).targetGroups.map (fun entry => (entry.1, entry.2.combinedScore)) ↔
        (∃ hop ∈ view.hops, view.pathsThrough hop target ≠ []) ∧
          total = 1 - ∏ hop ∈ view.hops.toFinset, (1 - view.groupScore hop target) := by
    intro total
    rw [groups, @mem_scores _ target (fun hop => view.groupScore hop target) total scored, reached,
      prod_groups explored notSource]
  rw [results, forwardBfsInner]
  by_cases none_ : view.distrusts.isEmpty = true
  · have trusted : target ∉ view.distrusts := by simp [List.isEmpty_iff.mp none_]
    rw [if_pos none_, if_neg trusted]
    exact plain score
  · rw [if_neg none_, mem_map]
    constructor
    · rintro ⟨⟨node, total⟩, mem, same⟩
      by_cases distrusts : node ∈ view.distrusts
      · rw [if_pos distrusts] at same
        obtain ⟨rfl, rfl⟩ := Prod.mk.inj same
        exact ⟨((plain total).mp mem).1, (if_pos distrusts).symm⟩
      · rw [if_neg distrusts] at same
        obtain ⟨rfl, rfl⟩ := Prod.mk.inj same
        rw [if_neg distrusts]
        exact (plain total).mp mem
    · rintro ⟨some_, rfl⟩
      refine ⟨_, (plain _).mpr ⟨some_, rfl⟩, ?_⟩
      by_cases distrusts : target ∈ view.distrusts
      · rw [if_pos distrusts, if_pos distrusts]
      · rw [if_neg distrusts, if_neg distrusts]

theorem results_iff {n : Nat} {edges : List (Node × Node)} (bounded : ∀ edge ∈ edges, edge.1 < n ∧ edge.2 < n)
    (isGraph : view.graph = CsrGraph.fromEdges n edges) (first : ∀ hop ∈ view.sourceNeighbors, hop < n)
    {fuel : Nat} (enough : n * n ≤ fuel) (notSource : target ≠ view.source) :
    (forwardBfsLoop view.source view.graph view.distrusts fuel view.sourceNeighbors maxTrustDepth).queue = [] ∧
    ∀ score, (target, score) ∈ view.results fuel ↔ (∃ hop ∈ view.hops, view.pathsThrough hop target ≠ []) ∧ score =
      if target ∈ view.distrusts then 0 else 1 - ∏ hop ∈ view.hops.toFinset, (1 - view.groupScore hop target) := by
  have sources : ∀ edge ∈ edges, edge.1 < n := fun edge mem => (bounded edge mem).1
  have onward : ∀ node < n, ∀ next ∈ view.onward node, next < n := by
    intro node inside next isNext
    have isNeighbor := (mem_onward.mp isNext).1
    rw [isGraph, CsrGraph.mem_neighbors sources inside] at isNeighbor
    exact (bounded _ isNeighbor).2
  have closed := closed (fun hop isHop => first hop (mem_filter.mp isHop).1) onward
  obtain ⟨idle, explored⟩ := view.explores.explored closed (n := fuel)
    (by rw [length_product, length_range]; exact enough)
  have mirrors := @Mirrors.loop view _ _ fuel (mirrors_seeds view)
  refine ⟨?_, fun score => mem_results mirrors.groups explored notSource⟩
  show (ForwardBfs.loop _ _ _ _ _ _).queue = []
  rw [mirrors.queue, idle, drop_length]

/-- The search returns the targets that a path leads to, and their documented scores exactly when the target is
distrusted, is a first hop that trusts nobody distrusted, or is found over the best neighbour behind every first hop. -/
theorem forward_score_iff (n : Nat) (edges : List (Node × Node)) (bounded : ∀ edge ∈ edges, edge.1 < n ∧ edge.2 < n)
    (source : Node) (sourceNeighbors : List Node) (first : ∀ hop ∈ sourceNeighbors, hop < n) (distrusts : List Node)
    (fuel : Nat) (enough : n * n ≤ fuel) (target : Node) (notSource : target ≠ source) :
    let view : ForwardView := { source, graph := CsrGraph.fromEdges n edges, distrusts, sourceNeighbors }
    (forwardBfsLoop source view.graph distrusts fuel sourceNeighbors maxTrustDepth).queue = [] ∧
    ((∃ score, (target, score) ∈ view.results fuel) ↔ ∃ hop ∈ view.hops, view.pathsThrough hop target ≠ []) ∧
    ∀ score, (target, score) ∈ view.results fuel → (score = view.documentedScore target ↔
      target ∈ distrusts ∨ (target ∈ view.hops ∧ view.distrusted target = 0) ∨
        ∀ hop ∈ view.hops, view.FirstIsBest hop target) := by
  intro view
  obtain ⟨ended, scores⟩ := @results_iff view target n edges bounded rfl first fuel enough notSource
  refine ⟨ended, ?_, ?_⟩
  · constructor
    · rintro ⟨score, mem⟩
      exact ((scores score).mp mem).1
    · intro some_
      exact ⟨_, (scores _).mpr ⟨some_, rfl⟩⟩
  · intro score mem
    obtain ⟨-, rfl⟩ := (scores score).mp mem
    rw [documentedScore]
    by_cases distrusted : target ∈ distrusts
    · rw [if_pos distrusted, if_pos distrusted]
      exact ⟨fun _ => .inl distrusted, fun _ => rfl⟩
    · rw [if_neg distrusted, if_neg distrusted, combined_eq_iff]
      · constructor
        · rintro (⟨hop, isHop, isFull⟩ | same)
          · obtain ⟨rfl, none_⟩ := (groupScore_eq_one notSource).mp isFull
            exact .inr (.inl ⟨mem_toFinset.mp isHop, none_⟩)
          · refine .inr (.inr fun hop isHop => ?_)
            exact (groupScore_eq_iff notSource).2.mp (same hop (mem_toFinset.mpr isHop))
        · rintro (isDistrusted | ⟨isHop, none_⟩ | best)
          · exact absurd isDistrusted distrusted
          · exact .inl ⟨target, mem_toFinset.mpr isHop, (groupScore_eq_one notSource).mpr ⟨rfl, none_⟩⟩
          · refine .inr fun hop isHop => ?_
            exact (groupScore_eq_iff notSource).2.mpr (best hop (mem_toFinset.mp isHop))
      · exact fun hop _ => (groupScore_eq_iff notSource).1
      · exact fun hop _ => bestScore_le_one notSource
      · intro hop _ isFull
        by_cases same : target = hop
        · subst same
          rw [groupScore, if_pos rfl, ← bestScore_hop notSource]
          exact isFull
        · have below : view.bestScore hop target < 1 := bestScore_lt_one notSource same
          linarith

end Whole

/-- The viewer `0` trusts `1`, who trusts `2` and `3` in this order, and both trust `4`; `2` also trusts `5`. -/
def twoWays : List (Node × Node) :=
  [(0, 1), (1, 2), (1, 3), (2, 4), (3, 4), (2, 5)]

def twoWaysView (distrusts : List Node) : ForwardView where
  source := 0
  graph := CsrGraph.fromEdges 6 twoWays
  distrusts := distrusts
  sourceNeighbors := [1]

theorem two_ways_without_distrust :
    (forwardBfsLoop 0 (CsrGraph.fromEdges 6 twoWays) [] 36 [1] maxTrustDepth).queue = [] ∧
    ((∃ score, (4, score) ∈ (twoWaysView []).results 36) ↔
      ∃ hop ∈ (twoWaysView []).hops, (twoWaysView []).pathsThrough hop 4 ≠ []) ∧
    ∀ score, (4, score) ∈ (twoWaysView []).results 36 → (score = (twoWaysView []).documentedScore 4 ↔
      4 ∈ ([] : List Node) ∨ (4 ∈ (twoWaysView []).hops ∧ (twoWaysView []).distrusted 4 = 0) ∨
        ∀ hop ∈ (twoWaysView []).hops, (twoWaysView []).FirstIsBest hop 4) :=
  forward_score_iff 6 twoWays (by decide) 0 [1] (by decide) [] 36 (by decide) 4 (by decide)

/-- The viewer distrusts `5`: the path over `3` is the better one, the path over `2` is found first. -/
theorem worse_way_found_first : ¬ ∀ (n : Nat) (edges : List (Node × Node)) (source : Node) (sourceNeighbors : List Node)
    (distrusts : List Node) (fuel : Nat) (target : Node), (∀ edge ∈ edges, edge.1 < n ∧ edge.2 < n) →
    (∀ hop ∈ sourceNeighbors, hop < n) → n * n ≤ fuel → target ≠ source →
    let view : ForwardView := { source, graph := CsrGraph.fromEdges n edges, distrusts, sourceNeighbors }
    ∀ score, (target, score) ∈ view.results fuel → score = view.documentedScore target := by
  intro all
  have documented := all 6 twoWays 0 [1] [5] 36 4 (by decide) (by decide) (by decide) (by decide)
    (147 / 400) (by decide +kernel)
  have other : (twoWaysView [5]).documentedScore 4 = 49 / 100 := by decide +kernel
  exact absurd (documented.trans other) (by norm_num)

end ForwardView

end Prismoire
