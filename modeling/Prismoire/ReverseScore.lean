import Prismoire.ForwardScore

namespace Prismoire

open Lib List

structure ReverseView where
  reader : Node
  reverseGraph : CsrGraph

namespace ReverseView

variable (view : ReverseView)

def onward (node : Node) : List Node :=
  (view.reverseGraph.neighbors node).filter (· ≠ view.reader)

def seeds : List ReverseStep :=
  (view.onward view.reader).map fun node => ⟨node, 1, 1⟩

def children (step : ReverseStep) : List ReverseStep :=
  if step.depth < maxTrustDepth then
    (view.onward step.current).map fun next => ⟨next, step.depth + 1, step.pathScore * decay⟩
  else []

/-- What the seeds add to the scores. -/
def seedPaths : List (Node × Node × ℚ) :=
  (view.onward view.reader).map fun node => (node, view.reader, 1)

/-- What a step adds to the scores when it is expanded: also for nodes that were seen before. -/
def paths (step : ReverseStep) : List (Node × Node × ℚ) :=
  if step.depth < maxTrustDepth then
    (view.onward step.current).map fun next => (next, step.current, step.pathScore * decay)
  else []

def pathsOf (search : Search ReverseStep) : List (Node × Node × ℚ) :=
  view.seedPaths ++ (search.seen.take search.done).flatMap view.paths

/-- The variables of the search are those of a search of the nodes; the scores are still to be added up. -/
structure Mirrors (search : Search ReverseStep) (added : List (Node × Node × ℚ)) (bfs : ReverseBfs) : Prop where
  within : search.done ≤ search.seen.length
  visited : bfs.visited = search.seen.map ReverseStep.current
  queue : bfs.queue = search.seen.drop search.done
  groups : bfs.targetGroups = addPaths added

variable {view} {search : Search ReverseStep} {added : List (Node × Node × ℚ)} {bfs : ReverseBfs} {step : ReverseStep}

theorem Mirrors.arrive (mirrors : Mirrors search added bfs) (step : ReverseStep) (group : Node) (score : ℚ) :
    Mirrors { search with seen := offer ReverseStep.current search.seen step }
      (added ++ [(step.current, group, score)])
      (if step.current ∈ bfs.visited then
        { bfs with targetGroups := addPath bfs.targetGroups step.current group score }
      else { bfs with
        targetGroups := addPath bfs.targetGroups step.current group score
        visited := bfs.visited ++ [step.current]
        queue := bfs.queue ++ [step] }) := by
  have groups : addPath bfs.targetGroups step.current group score = addPaths (added ++ [(step.current, group, score)]) := by
    rw [mirrors.groups, addPaths_concat]
  rw [offer, mirrors.visited]
  by_cases old : step.current ∈ search.seen.map ReverseStep.current
  · rw [if_pos old, if_pos old]
    exact ⟨mirrors.within, rfl, mirrors.queue, groups⟩
  · rw [if_neg old, if_neg old]
    refine ⟨Nat.le_trans mirrors.within (by simp), ?_, ?_, groups⟩
    · simp
    · simp [drop_append_of_le_length mirrors.within, mirrors.queue]

theorem mirrors_seeds (view : ReverseView) : Mirrors { seen := firsts ReverseStep.current view.seeds }
    (view.pathsOf { seen := firsts ReverseStep.current view.seeds })
    ((view.reverseGraph.neighbors view.reader).foldl (ReverseBfs.seed view.reader) {}) := by
  have runs : ∀ (neighbors : List Node) (seen : List ReverseStep) (added : List (Node × Node × ℚ)) (bfs : ReverseBfs),
      Mirrors { seen } added bfs →
      Mirrors
        { seen := ((neighbors.filter (· ≠ view.reader)).map fun node => (⟨node, 1, 1⟩ : ReverseStep)).foldl
            (offer ReverseStep.current) seen }
        (added ++ (neighbors.filter (· ≠ view.reader)).map fun node => (node, view.reader, 1))
        (neighbors.foldl (ReverseBfs.seed view.reader) bfs) := by
    intro neighbors
    induction neighbors with
    | nil =>
      intro seen added bfs mirrors
      simpa using mirrors
    | cons node neighbors ih =>
      intro seen added bfs mirrors
      rw [foldl_cons, ReverseBfs.seed]
      by_cases own : node = view.reader
      · rw [if_pos own, filter_cons_of_neg (by simpa using own)]
        exact ih seen added bfs mirrors
      · rw [if_neg own, filter_cons_of_pos (by simpa using own), map_cons, map_cons, foldl_cons,
          append_cons]
        exact ih _ _ _ (mirrors.arrive ⟨node, 1, 1⟩ view.reader 1)
  rw [pathsOf, take_zero, flatMap_nil, append_nil]
  exact runs (view.reverseGraph.neighbors view.reader) [] [] {} ⟨Nat.le_refl 0, rfl, rfl, rfl⟩

theorem Mirrors.visits (mirrors : Mirrors search added bfs) (step : ReverseStep) (neighbors : List Node) : Mirrors
      { search with
        seen := ((neighbors.filter (· ≠ view.reader)).map fun next =>
          (⟨next, step.depth + 1, step.pathScore * decay⟩ : ReverseStep)).foldl (offer ReverseStep.current) search.seen }
      (added ++ (neighbors.filter (· ≠ view.reader)).map fun next => (next, step.current, step.pathScore * decay))
      (neighbors.foldl (ReverseBfs.visit view.reader step) bfs) := by
  induction neighbors generalizing search added bfs with
  | nil => simpa using mirrors
  | cons next neighbors ih =>
    rw [foldl_cons, ReverseBfs.visit]
    by_cases own : next = view.reader
    · rw [if_pos own, filter_cons_of_neg (by simpa using own)]
      exact ih mirrors
    · rw [if_neg own, filter_cons_of_pos (by simpa using own), map_cons, map_cons, foldl_cons,
        append_cons]
      exact ih (mirrors.arrive ⟨next, step.depth + 1, step.pathScore * decay⟩ step.current (step.pathScore * decay))

theorem Mirrors.loop (fuel : Nat) (mirrors : Mirrors search (view.pathsOf search) bfs) :
    Mirrors (Search.run ReverseStep.current view.children fuel search)
      (view.pathsOf (Search.run ReverseStep.current view.children fuel search))
      (ReverseBfs.loop view.reader view.reverseGraph fuel bfs) := by
  induction fuel generalizing search bfs with
  | zero => exact mirrors
  | succ fuel ih =>
    rw [Search.run, ReverseBfs.loop]
    cases isNext : search.seen[search.done]? with
    | none =>
      have beyond := List.getElem?_eq_none_iff.mp isNext
      have empty : bfs.queue = [] := by rw [mirrors.queue, drop_eq_nil_of_le beyond]
      have idle : search.done = search.seen.length := Nat.le_antisymm mirrors.within beyond
      have stays : Search.run ReverseStep.current view.children fuel search = search := Search.run_of_idle idle fuel
      rw [empty, Search.step_of_idle idle, stays]
      exact mirrors
    | some step =>
      obtain ⟨inside, isStep⟩ := List.getElem?_eq_some_iff.mp isNext
      have queue : bfs.queue = step :: search.seen.drop (search.done + 1) := by
        rw [mirrors.queue, drop_eq_getElem_cons inside, isStep]
      have popped : Mirrors { search with done := search.done + 1 } (view.pathsOf search)
          { bfs with queue := search.seen.drop (search.done + 1) } :=
        ⟨inside, mirrors.visited, rfl, mirrors.groups⟩
      have stepped : Search.step ReverseStep.current view.children search =
          { done := search.done + 1, seen := (view.children step).foldl (offer ReverseStep.current) search.seen } := by
        rw [Search.step, isNext]
      have grown : view.pathsOf (Search.step ReverseStep.current view.children search) =
          view.pathsOf search ++ view.paths step := by
        rw [stepped, pathsOf, pathsOf, Search.take_offered isNext, flatMap_append, append_assoc]
        simp
      rw [queue]
      dsimp only
      by_cases deep : maxTrustDepth ≤ step.depth
      · rw [if_pos deep]
        refine ih ?_
        rw [grown, stepped, children, paths, if_neg (by omega), if_neg (by omega), append_nil]
        exact popped
      · rw [if_neg deep]
        refine ih ?_
        rw [grown, stepped, children, paths, if_pos (by omega), if_pos (by omega)]
        exact popped.visits step (view.reverseGraph.neighbors step.current)

section Explored

variable {seen : List ReverseStep} {node : Node}

theorem explores (view : ReverseView) : Search.Explores ReverseStep.current ReverseStep.depth view.children view.seeds
    view.onward 1 maxTrustDepth where
  shallow := by decide
  level step mem := by
    obtain ⟨node, -, rfl⟩ := mem_map.mp mem
    rfl
  deeper step child mem := by
    rw [children] at mem
    split at mem
    · obtain ⟨next, -, rfl⟩ := mem_map.mp mem
      rfl
    · cases mem
  children step := by
    rw [children]
    split
    · rw [map_map]
      exact map_id _
    · rfl

theorem closed {n : Nat} (inside : view.reader < n) (bounded : ∀ node < n, ∀ next ∈ view.onward node, next < n) :
    Search.Closed ReverseStep.current view.children view.seeds (List.range n) where
  seeds step mem := by
    obtain ⟨node, isNode, rfl⟩ := mem_map.mp mem
    exact mem_range.mpr (bounded _ inside node isNode)
  children step isNode child mem := by
    rw [children] at mem
    split at mem
    · obtain ⟨next, isNext, rfl⟩ := mem_map.mp mem
      exact mem_range.mpr (bounded _ (mem_range.mp isNode) next isNext)
    · cases mem

variable (explored : Search.Explored ReverseStep.current ReverseStep.depth view.children view.seeds seen)
include explored

theorem first_step (mem : step ∈ seen) (first : step.depth ≤ 1) :
    step.current ∈ view.onward view.reader ∧ step.pathScore = 1 := by
  rcases explored.offered mem with seed | ⟨parent, isParent, isChild⟩
  · obtain ⟨node, isNode, rfl⟩ := mem_map.mp seed
    exact ⟨isNode, rfl⟩
  · obtain ⟨n, isDepth, -, -⟩ := explored.walk view.explores isParent
    have deeper := view.explores.deeper parent step isChild
    omega

theorem exists_first (isNode : node ∈ view.onward view.reader) : ∃ step ∈ seen, step.current = node ∧ step.depth ≤ 1 := by
  have isOffered : (⟨node, 1, 1⟩ : ReverseStep) ∈ view.seeds ++ seen.flatMap view.children :=
    mem_append_left _ (mem_map_of_mem isNode)
  obtain ⟨found, isFound, same⟩ := mem_map.mp (explored.mem_keys.mpr (mem_map_of_mem isOffered))
  exact ⟨found, isFound, same, explored.depth_le view.explores isFound isOffered same.symm⟩

theorem second_step (mem : step ∈ seen) (second : step.depth = 2) : step.current ∉ view.onward view.reader ∧
    (∃ between ∈ view.onward view.reader, step.current ∈ view.onward between) ∧ step.pathScore = decay := by
  rcases explored.offered mem with seed | ⟨parent, isParent, isChild⟩
  · have level := view.explores.level step seed
    omega
  · have deeper := view.explores.deeper parent step isChild
    obtain ⟨isFirst, full⟩ := first_step explored isParent (by omega)
    rw [children, if_pos (show parent.depth < maxTrustDepth by rw [maxTrustDepth]; omega)] at isChild
    obtain ⟨next, isNext, rfl⟩ := mem_map.mp isChild
    refine ⟨?_, ⟨parent.current, isFirst, isNext⟩, ?_⟩
    · intro near
      obtain ⟨other, isOther, same, shallow⟩ := exists_first explored near
      obtain rfl := explored.unique isOther mem same
      omega
    · rw [full, one_mul]

theorem exists_second {between : Node} (isBetween : between ∈ view.onward view.reader)
    (isNode : node ∈ view.onward between) : ∃ step ∈ seen, step.current = node ∧ step.depth ≤ 2 := by
  obtain ⟨parent, isParent, rfl, shallow⟩ := exists_first explored isBetween
  have isChild : (⟨node, parent.depth + 1, parent.pathScore * decay⟩ : ReverseStep) ∈ view.children parent := by
    rw [children, if_pos (show parent.depth < maxTrustDepth by rw [maxTrustDepth]; omega)]
    exact mem_map_of_mem isNode
  have isOffered := mem_append_right view.seeds (mem_flatMap.mpr ⟨parent, isParent, isChild⟩)
  obtain ⟨found, isFound, same⟩ := mem_map.mp (explored.mem_keys.mpr (mem_map_of_mem isOffered))
  have depths := explored.depth_le view.explores isFound isOffered same.symm
  exact ⟨found, isFound, same, depths.trans (Nat.succ_le_succ shallow)⟩

omit explored in
theorem notReader {origin : Node} (isNode : node ∈ view.onward origin) : node ≠ view.reader := by
  simpa using (mem_filter.mp isNode).2

end Explored

def groupScore (view : ReverseView) (group : Node) : ℚ :=
  if group = view.reader then 1
  else if group ∈ view.onward view.reader then decay
  else if ∃ between ∈ view.onward view.reader, group ∈ view.onward between then decay * decay
  else 0

variable {seen : List ReverseStep} {node group : Node}
  (explored : Search.Explored ReverseStep.current ReverseStep.depth view.children view.seeds seen)
include explored

theorem groupScore_eq (mem : step ∈ seen) (expanded : step.depth < maxTrustDepth) :
    step.pathScore * decay = view.groupScore step.current := by
  obtain ⟨n, isDepth, -, -⟩ := explored.walk view.explores mem
  rw [maxTrustDepth] at expanded
  obtain first | second : step.depth ≤ 1 ∨ step.depth = 2 := by omega
  · obtain ⟨isFirst, full⟩ := first_step explored mem first
    rw [groupScore, if_neg (notReader isFirst), if_pos isFirst, full, one_mul]
  · obtain ⟨notFirst, behind, score⟩ := second_step explored mem second
    obtain ⟨between, -, isBehind⟩ := id behind
    rw [groupScore, if_neg (notReader isBehind), if_neg notFirst, if_pos behind, score]

theorem expanded_iff (notReader : group ≠ view.reader) :
    (∃ step ∈ seen, step.current = group ∧ step.depth < maxTrustDepth) ↔ view.groupScore group ≠ 0 := by
  have positive : decay ≠ 0 := by
    rw [decay]
    norm_num
  constructor
  · rintro ⟨step, isStep, rfl, expanded⟩
    obtain ⟨n, isDepth, -, -⟩ := explored.walk view.explores isStep
    rw [maxTrustDepth] at expanded
    obtain first | second : step.depth ≤ 1 ∨ step.depth = 2 := by omega
    · obtain ⟨isFirst, -⟩ := first_step explored isStep first
      rw [groupScore, if_neg notReader, if_pos isFirst]
      exact positive
    · obtain ⟨notFirst, behind, -⟩ := second_step explored isStep second
      rw [groupScore, if_neg notReader, if_neg notFirst, if_pos behind]
      exact mul_ne_zero positive positive
  · intro some_
    by_cases isFirst : group ∈ view.onward view.reader
    · obtain ⟨step, isStep, same, shallow⟩ := exists_first explored isFirst
      exact ⟨step, isStep, same, by rw [maxTrustDepth]; omega⟩
    · by_cases behind : ∃ between ∈ view.onward view.reader, group ∈ view.onward between
      · obtain ⟨between, isBetween, isBehind⟩ := behind
        obtain ⟨step, isStep, same, shallow⟩ := exists_second explored isBetween isBehind
        exact ⟨step, isStep, same, by rw [maxTrustDepth]; omega⟩
      · rw [groupScore, if_neg notReader, if_neg isFirst, if_neg behind] at some_
        exact absurd rfl some_

theorem mem_pathsTo {path : Node × ℚ} : path ∈ pathsTo (view.seedPaths ++ seen.flatMap view.paths) node ↔
    node ∈ view.onward path.1 ∧ view.groupScore path.1 ≠ 0 ∧ path.2 = view.groupScore path.1 := by
  have inPaths : ∀ {step : ReverseStep} {entry : Node × Node × ℚ}, entry ∈ view.paths step ↔
      step.depth < maxTrustDepth ∧ entry.1 ∈ view.onward step.current ∧ entry.2 = (step.current, step.pathScore * decay) := by
    intro step entry
    rw [paths]
    split
    · rename_i expanded
      simp only [mem_map, expanded, true_and]
      constructor
      · rintro ⟨next, isNext, rfl⟩
        exact ⟨isNext, rfl⟩
      · rintro ⟨isNext, same⟩
        exact ⟨entry.1, isNext, by rw [← same]⟩
    · rename_i deep
      simp [deep]
  have atReader : view.groupScore view.reader = 1 := if_pos rfl
  constructor
  · intro mem
    obtain ⟨entry, isEntry, rfl⟩ := mem_map.mp mem
    obtain ⟨isEntry, isNode⟩ := mem_filter.mp isEntry
    rw [decide_eq_true_eq] at isNode
    rcases mem_append.mp isEntry with seed | later
    · obtain ⟨other, isOther, rfl⟩ := mem_map.mp seed
      exact ⟨isNode ▸ isOther, by simp [atReader], atReader.symm⟩
    · obtain ⟨step, isStep, isPath⟩ := mem_flatMap.mp later
      obtain ⟨expanded, isNext, same⟩ := inPaths.mp isPath
      rw [same]
      have apart : step.current ≠ view.reader := by
        obtain ⟨origin, isFrom⟩ : ∃ origin, step.current ∈ view.onward origin := by
          rcases explored.offered isStep with seed | ⟨parent, -, isChild⟩
          · obtain ⟨other, isOther, rfl⟩ := mem_map.mp seed
            exact ⟨_, isOther⟩
          · rw [children] at isChild
            split at isChild
            · obtain ⟨other, isOther, rfl⟩ := mem_map.mp isChild
              exact ⟨_, isOther⟩
            · cases isChild
        exact notReader isFrom
      exact ⟨isNode ▸ isNext, (expanded_iff explored apart).mp ⟨step, isStep, rfl, expanded⟩,
        groupScore_eq explored isStep expanded⟩
  · rintro ⟨isNext, some_, score⟩
    refine mem_map.mpr ⟨(node, path), mem_filter.mpr ⟨?_, decide_eq_true rfl⟩, rfl⟩
    by_cases isReader : path.1 = view.reader
    · rw [isReader, atReader] at score
      rw [isReader] at isNext
      refine mem_append_left _ (mem_map.mpr ⟨node, isNext, ?_⟩)
      rw [← isReader, ← score]
    · obtain ⟨step, isStep, same, expanded⟩ := (expanded_iff explored isReader).mpr some_
      refine mem_append_right _ (mem_flatMap.mpr ⟨step, isStep, inPaths.mpr ⟨expanded, same ▸ isNext, ?_⟩⟩)
      rw [groupScore_eq explored isStep expanded, same, ← score]

theorem mem_results {fuel : Nat} {hops : Finset Node} {score : ℚ}
    (groups : (reverseBfsLoop view.reader view.reverseGraph fuel).targetGroups =
      addPaths (view.seedPaths ++ seen.flatMap view.paths))
    (isHop : ∀ hop, view.groupScore hop ≠ 0 → (hop ∈ hops ↔ node ∈ view.onward hop)) :
    (node, score) ∈ reverseBfs view.reader view.reverseGraph fuel ↔
      (∃ hop ∈ hops, view.groupScore hop ≠ 0) ∧ score = 1 - ∏ hop ∈ hops, (1 - view.groupScore hop) := by
  have scored : ∀ path ∈ pathsTo (view.seedPaths ++ seen.flatMap view.paths) node, path.2 = view.groupScore path.1 :=
    fun path mem => ((mem_pathsTo explored).mp mem).2.2
  have isKey : ∀ hop, hop ∈ ((pathsTo (view.seedPaths ++ seen.flatMap view.paths) node).map Prod.fst).toFinset ↔
      hop ∈ hops ∧ view.groupScore hop ≠ 0 := by
    intro hop
    rw [mem_toFinset, mem_map]
    constructor
    · rintro ⟨path, mem, rfl⟩
      obtain ⟨isNext, some_, -⟩ := (mem_pathsTo explored).mp mem
      exact ⟨(isHop _ some_).mpr isNext, some_⟩
    · rintro ⟨inHops, some_⟩
      exact ⟨(hop, view.groupScore hop), (mem_pathsTo explored).mpr ⟨(isHop hop some_).mp inHops, some_, rfl⟩, rfl⟩
  have product : ∏ hop ∈ ((pathsTo (view.seedPaths ++ seen.flatMap view.paths) node).map Prod.fst).toFinset,
      (1 - view.groupScore hop) = ∏ hop ∈ hops, (1 - view.groupScore hop) := by
    refine Finset.prod_subset (fun hop mem => ((isKey hop).mp mem).1) ?_
    intro hop inHops unlisted
    have none_ : view.groupScore hop = 0 := by
      by_contra some_
      exact unlisted ((isKey hop).mpr ⟨inHops, some_⟩)
    rw [none_, sub_zero]
  have reached : pathsTo (view.seedPaths ++ seen.flatMap view.paths) node ≠ [] ↔
      ∃ hop ∈ hops, view.groupScore hop ≠ 0 := by
    constructor
    · intro some_
      obtain ⟨path, mem⟩ := exists_mem_of_ne_nil _ some_
      exact ⟨path.1, (isKey path.1).mp (mem_toFinset.mpr (mem_map_of_mem mem))⟩
    · rintro ⟨hop, inHops, some_⟩ none_
      have listed := (isKey hop).mpr ⟨inHops, some_⟩
      rw [none_] at listed
      simp at listed
  rw [reverseBfs, groups, mem_scores scored, product, reached]

end ReverseView

section Agree

variable {n : Nat} {edges : List (Node × Node)} {a r hop : Node}

def readerView (n : Nat) (edges : List (Node × Node)) (r : Node) : ReverseView where
  reader := r
  reverseGraph := (CsrGraph.fromEdges n edges).transpose

def viewerView (n : Nat) (edges : List (Node × Node)) (a : Node) : ForwardView where
  source := a
  graph := CsrGraph.fromEdges n edges
  distrusts := []
  sourceNeighbors := (CsrGraph.fromEdges n edges).neighbors a

variable (bounded : ∀ edge ∈ edges, edge.1 < n ∧ edge.2 < n)
include bounded

theorem mem_onward_reader {origin node : Node} (inside : origin < n) :
    node ∈ (readerView n edges r).onward origin ↔ (node, origin) ∈ edges ∧ node ≠ r := by
  rw [ReverseView.onward, mem_filter]
  exact and_congr (CsrGraph.mem_neighbors_transpose bounded inside) decide_eq_true_iff

theorem mem_neighbors_viewer {origin node : Node} (inside : origin < n) :
    node ∈ (viewerView n edges a).graph.neighbors origin ↔ (origin, node) ∈ edges :=
  CsrGraph.mem_neighbors (fun edge mem => (bounded edge mem).1) inside

theorem mem_hops_viewer (inside : a < n) : hop ∈ (viewerView n edges a).hops ↔ (a, hop) ∈ edges ∧ hop ≠ a := by
  rw [ForwardView.hops, mem_filter]
  exact and_congr (CsrGraph.mem_neighbors (fun edge mem => (bounded edge mem).1) inside) decide_eq_true_iff

omit bounded in
theorem factor_viewer (node : Node) : (viewerView n edges a).factor node = 1 := by
  rw [ForwardView.factor_eq_one, ForwardView.distrusted, viewerView]
  simp

def TwoSteps (edges : List (Node × Node)) (hop r : Node) : Prop :=
  ∃ edge ∈ edges, edge.1 = hop ∧ (edge.2, r) ∈ edges

instance (hop r : Node) : Decidable (TwoSteps edges hop r) :=
  inferInstanceAs (Decidable (∃ edge ∈ edges, _))

/-- The score of a path over a first hop, by the number of edges that follow it. -/
def stepScore (edges : List (Node × Node)) (hop r : Node) : ℚ :=
  if hop = r then 1 else if (hop, r) ∈ edges then decay else if TwoSteps edges hop r then decay * decay else 0

omit bounded in
theorem stepScore_ne_zero : stepScore edges hop r ≠ 0 ↔ hop = r ∨ (hop, r) ∈ edges ∨ TwoSteps edges hop r := by
  have positive : decay ≠ 0 := by
    rw [decay]
    norm_num
  rw [stepScore]
  by_cases same : hop = r
  · simp [same]
  · by_cases direct : (hop, r) ∈ edges
    · simp [same, direct, positive]
    · by_cases behind : TwoSteps edges hop r <;> simp [same, direct, behind, positive]

variable (noLoops : ∀ node, (node, node) ∉ edges)
include noLoops

theorem reader_groupScore (isReader : r < n) : (readerView n edges r).groupScore hop = stepScore edges hop r := by
  have apart : ∀ {node other : Node}, (node, other) ∈ edges → node ≠ other := by
    rintro node _ mem rfl
    exact noLoops node mem
  have first : ∀ {node}, node ∈ (readerView n edges r).onward r ↔ (node, r) ∈ edges :=
    (mem_onward_reader bounded isReader).trans ⟨And.left, fun mem => ⟨mem, apart mem⟩⟩
  show (if hop = r then 1 else if hop ∈ (readerView n edges r).onward r then decay else _) = _
  rw [stepScore]
  by_cases same : hop = r
  · rw [if_pos same, if_pos same]
  · have behind : (∃ between ∈ (readerView n edges r).onward r, hop ∈ (readerView n edges r).onward between) ↔
        TwoSteps edges hop r := by
      constructor
      · rintro ⟨between, isBetween, isHop⟩
        have toReader := first.mp isBetween
        exact ⟨(hop, between), ((mem_onward_reader bounded (bounded _ toReader).1).mp isHop).1, rfl, toReader⟩
      · rintro ⟨edge, isEdge, rfl, toReader⟩
        exact ⟨edge.2, first.mpr toReader, (mem_onward_reader bounded (bounded _ toReader).1).mpr ⟨isEdge, same⟩⟩
    simp only [if_neg same, first]
    by_cases direct : (hop, r) ∈ edges
    · rw [if_pos direct, if_pos direct]
    · rw [if_neg direct, if_neg direct]
      exact if_congr behind rfl rfl

omit noLoops in
theorem viewer_paths (notSame : r ≠ a) (inside : hop < n) (far : (a, r) ∉ edges) :
    (viewerView n edges a).pathsThrough hop r ≠ [] ↔ stepScore edges hop r ≠ 0 := by
  have notSource : r ≠ (viewerView n edges a).source := notSame
  rw [stepScore_ne_zero]
  constructor
  · intro some_
    obtain ⟨path, isPath⟩ := exists_mem_of_ne_nil _ some_
    rcases (ForwardView.mem_pathsThrough notSource).mp isPath with ⟨-, rfl⟩ | ⟨-, direct⟩ | ⟨next, isNext, -, trusts⟩
    · exact .inl rfl
    · exact .inr (.inl ((mem_neighbors_viewer bounded inside).mp direct))
    · have isEdge := (mem_neighbors_viewer bounded inside).mp (ForwardView.mem_onward.mp isNext).1
      exact .inr (.inr ⟨(hop, next), isEdge, rfl, (mem_neighbors_viewer bounded (bounded _ isEdge).2).mp trusts⟩)
  · rintro (rfl | direct | ⟨edge, isEdge, rfl, toReader⟩)
    · exact ne_nil_of_mem ((ForwardView.mem_pathsThrough notSource).mpr (.inl ⟨rfl, rfl⟩))
    · exact ne_nil_of_mem ((ForwardView.mem_pathsThrough notSource).mpr
        (.inr (.inl ⟨rfl, (mem_neighbors_viewer bounded inside).mpr direct⟩)))
    · have apart : edge.2 ≠ a := fun same => far (same ▸ toReader)
      exact ne_nil_of_mem ((ForwardView.mem_pathsThrough notSource).mpr (.inr (.inr ⟨edge.2,
        ForwardView.mem_onward.mpr ⟨(mem_neighbors_viewer bounded inside).mpr isEdge, apart⟩, rfl,
        (mem_neighbors_viewer bounded (bounded _ toReader).1).mpr toReader⟩)))

omit noLoops in
theorem viewer_groupScore (notSame : r ≠ a) (inside : hop < n) (far : (a, r) ∉ edges) :
    (viewerView n edges a).groupScore hop r = stepScore edges hop r := by
  have notSource : r ≠ (viewerView n edges a).source := notSame
  by_cases some_ : stepScore edges hop r = 0
  · have none_ : (viewerView n edges a).pathsThrough hop r = [] := by
      by_contra found
      exact (viewer_paths bounded notSame inside far).mp found some_
    rw [ForwardView.groupScore_none notSource none_, some_]
  · rw [ForwardView.groupScore, stepScore]
    by_cases same : r = hop
    · rw [if_pos same, if_pos same.symm, factor_viewer]
    · rw [if_neg same, if_neg (Ne.symm same)]
      by_cases direct : (hop, r) ∈ edges
      · rw [if_pos ((mem_neighbors_viewer bounded inside).mpr direct), if_pos direct, factor_viewer, factor_viewer, one_mul,
          mul_one]
      · rw [if_neg (mt (mem_neighbors_viewer bounded inside).mp direct), if_neg direct]
        have behind : TwoSteps edges hop r :=
          ((stepScore_ne_zero.mp some_).resolve_left (Ne.symm same)).resolve_left direct
        rw [if_pos behind]
        obtain ⟨edge, isEdge, rfl, toReader⟩ := behind
        have apart : edge.2 ≠ a := fun same => far (same ▸ toReader)
        have onward : edge.2 ≠ edge.1 := fun same => direct (same ▸ toReader)
        have found : ((viewerView n edges a).onward edge.1 |>.find? fun next =>
            next ≠ edge.1 ∧ r ∈ (viewerView n edges a).graph.neighbors next).isSome := by
          rw [find?_isSome]
          exact ⟨edge.2, ForwardView.mem_onward.mpr ⟨(mem_neighbors_viewer bounded inside).mpr isEdge, apart⟩,
            decide_eq_true ⟨onward, (mem_neighbors_viewer bounded (bounded _ toReader).1).mpr toReader⟩⟩
        obtain ⟨leader, isLeader⟩ := Option.isSome_iff_exists.mp found
        rw [isLeader]
        simp only [factor_viewer, one_mul, mul_one]

omit noLoops in
theorem reader_results (isNode : a < n) (isReader : r < n) (apart : a ≠ r) (noLoop : (a, a) ∉ edges)
    {fuel : Nat} (enough : n ≤ fuel) :
    (reverseBfsLoop r (CsrGraph.fromEdges n edges).transpose fuel).queue = [] ∧
    ∀ score, (a, score) ∈ reverseBfs r (CsrGraph.fromEdges n edges).transpose fuel ↔
      (∃ hop ∈ (viewerView n edges a).hops.toFinset, (readerView n edges r).groupScore hop ≠ 0) ∧
        score = 1 - ∏ hop ∈ (viewerView n edges a).hops.toFinset, (1 - (readerView n edges r).groupScore hop) := by
  have onward : ∀ node < n, ∀ next ∈ (readerView n edges r).onward node, next < n := fun node inside next isNext =>
    (bounded _ ((mem_onward_reader bounded inside).mp isNext).1).1
  obtain ⟨idle, explored⟩ := (readerView n edges r).explores.explored (ReverseView.closed isReader onward) (n := fuel)
    (by rw [length_range]; exact enough)
  have mirrors := (ReverseView.mirrors_seeds (readerView n edges r)).loop fuel
  have groups := mirrors.groups
  rw [ReverseView.pathsOf, idle, take_length] at groups
  have near : ∀ hop, (readerView n edges r).groupScore hop ≠ 0 → hop < n := by
    intro hop some_
    rw [ReverseView.groupScore] at some_
    split at some_
    · rename_i same
      exact same ▸ isReader
    · split at some_
      · rename_i isFirst
        exact onward r isReader hop isFirst
      · split at some_
        · rename_i behind
          obtain ⟨between, isBetween, isHop⟩ := behind
          exact onward between (onward r isReader between isBetween) hop isHop
        · exact absurd rfl some_
  refine ⟨?_, fun score => ReverseView.mem_results explored groups ?_⟩
  · have queue := mirrors.queue
    rw [idle, drop_length] at queue
    exact queue
  · intro hop some_
    rw [mem_toFinset, mem_hops_viewer bounded isNode, mem_onward_reader bounded (near hop some_)]
    constructor
    · exact fun isHop => ⟨isHop.1, apart⟩
    · rintro ⟨isEdge, -⟩
      exact ⟨isEdge, fun same => noLoop (same ▸ isEdge)⟩

end Agree

theorem bfs_agree {n fuel : Nat} {edges : List (Node × Node)} (bounded : ∀ edge ∈ edges, edge.1 < n ∧ edge.2 < n)
    (noLoops : ∀ node, (node, node) ∉ edges) {a r : Node} (isNode : a < n) (isReader : r < n) (apart : a ≠ r)
    (enough : n * n ≤ fuel) :
    let graph := CsrGraph.fromEdges n edges
    (forwardBfsLoop a graph [] fuel (graph.neighbors a) maxTrustDepth).queue = [] ∧
    (reverseBfsLoop r graph.transpose fuel).queue = [] ∧
    ((∃ score, (a, score) ∈ reverseBfs r graph.transpose fuel) ↔ ∃ score, (r, score) ∈ forwardBfs a graph fuel []) ∧
    ∀ score other, (a, score) ∈ reverseBfs r graph.transpose fuel → (r, other) ∈ forwardBfs a graph fuel [] →
      score = other := by
  intro graph
  have sources : ∀ edge ∈ edges, edge.1 < n := fun edge mem => (bounded edge mem).1
  obtain ⟨ended, forward⟩ := @ForwardView.results_iff (viewerView n edges a) r n edges bounded rfl
    (fun hop isHop => (bounded _ ((CsrGraph.mem_neighbors sources isNode).mp isHop)).2) fuel enough (Ne.symm apart)
  obtain ⟨ended', backward⟩ := reader_results bounded isNode isReader apart (noLoops a)
    ((Nat.le_mul_self n).trans enough)
  have inside : ∀ hop ∈ (viewerView n edges a).hops, hop < n := fun hop isHop =>
    (bounded _ ((mem_hops_viewer bounded isNode).mp isHop).1).2
  -- Either the reader is a first hop, with the full score in both, or no path over another one needs the node itself.
  have agree : ((∃ hop ∈ (viewerView n edges a).hops.toFinset, (readerView n edges r).groupScore hop ≠ 0) ↔
        ∃ hop ∈ (viewerView n edges a).hops, (viewerView n edges a).pathsThrough hop r ≠ []) ∧
      ∏ hop ∈ (viewerView n edges a).hops.toFinset, (1 - (readerView n edges r).groupScore hop) =
        ∏ hop ∈ (viewerView n edges a).hops.toFinset, (1 - (viewerView n edges a).groupScore hop r) := by
    by_cases direct : (a, r) ∈ edges
    · have isHop : r ∈ (viewerView n edges a).hops := (mem_hops_viewer bounded isNode).mpr ⟨direct, Ne.symm apart⟩
      have backFull : (readerView n edges r).groupScore r = 1 := if_pos rfl
      have full : (viewerView n edges a).groupScore r r = 1 := by
        rw [ForwardView.groupScore, if_pos rfl, factor_viewer]
      have path : (viewerView n edges a).pathsThrough r r ≠ [] :=
        ne_nil_of_mem ((ForwardView.mem_pathsThrough (Ne.symm apart)).mpr (.inl ⟨rfl, rfl⟩))
      refine ⟨⟨fun _ => ⟨r, isHop, path⟩, fun _ => ⟨r, mem_toFinset.mpr isHop, by rw [backFull]; norm_num⟩⟩, ?_⟩
      rw [Finset.prod_eq_zero (mem_toFinset.mpr isHop) (by rw [backFull, sub_self]),
        Finset.prod_eq_zero (mem_toFinset.mpr isHop) (by rw [full, sub_self])]
    · constructor
      · constructor
        · rintro ⟨hop, isHop, some_⟩
          rw [mem_toFinset] at isHop
          rw [reader_groupScore bounded noLoops isReader] at some_
          exact ⟨hop, isHop, (viewer_paths bounded (Ne.symm apart) (inside hop isHop) direct).mpr some_⟩
        · rintro ⟨hop, isHop, some_⟩
          refine ⟨hop, mem_toFinset.mpr isHop, ?_⟩
          rw [reader_groupScore bounded noLoops isReader]
          exact (viewer_paths bounded (Ne.symm apart) (inside hop isHop) direct).mp some_
      · apply Finset.prod_congr rfl
        intro hop isHop
        rw [mem_toFinset] at isHop
        rw [reader_groupScore bounded noLoops isReader, viewer_groupScore bounded (Ne.symm apart) (inside hop isHop) direct]
  have trusted : r ∉ (viewerView n edges a).distrusts := not_mem_nil
  refine ⟨ended, ended', ?_, ?_⟩
  · constructor
    · rintro ⟨score, mem⟩
      exact ⟨_, (forward _).mpr ⟨agree.1.mp ((backward score).mp mem).1, rfl⟩⟩
    · rintro ⟨score, mem⟩
      exact ⟨_, (backward _).mpr ⟨agree.1.mpr ((forward score).mp mem).1, rfl⟩⟩
  · intro score other back front
    obtain ⟨-, isScore⟩ := (backward score).mp back
    obtain ⟨-, isOther⟩ := (forward other).mp front
    rw [if_neg trusted] at isOther
    rw [isScore, isOther, agree.2]

/-- Without distrust and loops, a reader finds a node exactly when the node finds the reader, and with the same score. -/
theorem visibility_agrees_with_relevance (n : Nat) (edges : List (Node × Node))
    (bounded : ∀ edge ∈ edges, edge.1 < n ∧ edge.2 < n) (noLoops : ∀ node, (node, node) ∉ edges) (a r : Node)
    (isNode : a < n) (isReader : r < n) (apart : a ≠ r) (fuel : Nat) (enough : n * n ≤ fuel) :
    let graph := CsrGraph.fromEdges n edges
    (forwardBfsLoop a graph [] fuel (graph.neighbors a) maxTrustDepth).queue = [] ∧
    (reverseBfsLoop r graph.transpose fuel).queue = [] ∧
    ((∃ score, (a, score) ∈ reverseBfs r graph.transpose fuel) ↔ ∃ score, (r, score) ∈ forwardBfs a graph fuel []) ∧
    ∀ score other, (a, score) ∈ reverseBfs r graph.transpose fuel → (r, other) ∈ forwardBfs a graph fuel [] →
      score = other :=
  bfs_agree bounded noLoops isNode isReader apart enough

/-- Two ways of different length from `0` to `3`, and a cycle. -/
def cyclicEdges : List (Node × Node) :=
  [(0, 1), (1, 3), (0, 2), (2, 1), (3, 0), (0, 1)]

theorem cyclic_edges_agree :
    (forwardBfsLoop 0 (CsrGraph.fromEdges 4 cyclicEdges) [] 16 ((CsrGraph.fromEdges 4 cyclicEdges).neighbors 0)
      maxTrustDepth).queue = [] ∧
    (reverseBfsLoop 3 (CsrGraph.fromEdges 4 cyclicEdges).transpose 16).queue = [] ∧
    ((∃ score, (0, score) ∈ reverseBfs 3 (CsrGraph.fromEdges 4 cyclicEdges).transpose 16) ↔
      ∃ score, (3, score) ∈ forwardBfs 0 (CsrGraph.fromEdges 4 cyclicEdges) 16 []) ∧
    ∀ score other, (0, score) ∈ reverseBfs 3 (CsrGraph.fromEdges 4 cyclicEdges).transpose 16 →
      (3, other) ∈ forwardBfs 0 (CsrGraph.fromEdges 4 cyclicEdges) 16 [] → score = other :=
  visibility_agrees_with_relevance 4 cyclicEdges (by decide)
    (fun node loop => (by decide : ∀ edge ∈ cyclicEdges, edge.1 ≠ edge.2) (node, node) loop rfl)
    0 3 (by decide) (by decide) (by decide) 16 (by decide)

end Prismoire
