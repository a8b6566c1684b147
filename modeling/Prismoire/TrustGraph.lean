import Mathlib.Algebra.BigOperators.Ring.Finset
import Mathlib.Algebra.Field.Rat
import Mathlib.Algebra.Order.Ring.Rat
import Prismoire.Lib.Buckets
import Prismoire.Lib.Search
import Prismoire.Lib.Table

namespace Prismoire

open Lib List Table

/-- A dense node index. -/
abbrev Node := Nat

instance : LawfulBEq (Node × Node) := inferInstance

/-- A graph in compressed rows. -/
structure CsrGraph where
  offsets : List Nat
  targets : List Node
  numNodes : Nat

namespace CsrGraph

def fromEdges (numNodes : Nat) (edges : List (Node × Node)) : CsrGraph where
  offsets := starts 0 (degrees numNodes edges)
  targets := layOut 0 numNodes edges
  numNodes := numNodes

def neighbors (graph : CsrGraph) (i : Node) : List Node :=
  let start := graph.offsets.getD i 0
  let stop := graph.offsets.getD (i + 1) 0
  (graph.targets.drop start).take (stop - start)

def transpose (graph : CsrGraph) : CsrGraph :=
  let reverseEdges := (range graph.numNodes).flatMap fun src =>
    (graph.neighbors src).map fun tgt => (tgt, src)
  fromEdges graph.numNodes reverseEdges

end CsrGraph

def decay : ℚ := 7 / 10

def distrustPenalty : ℚ := 1 / 4

def maxTrustDepth : Nat := 3

/-- The best score of each group of paths to one target. -/
structure PathGroups where
  groups : Table Node ℚ := []

namespace PathGroups

def add (paths : PathGroups) (group : Node) (score : ℚ) : PathGroups where
  groups :=
    match paths.groups.get? group with
    | some best => if best < score then paths.groups.modify group fun _ => score else paths.groups
    | none => paths.groups ++ [(group, score)]

def combinedScore (paths : PathGroups) : ℚ :=
  if paths.groups.isEmpty then 0
  else 1 - (paths.groups.map fun entry => 1 - entry.2).prod

end PathGroups

def addPath (targetGroups : Table Node PathGroups) (target group : Node) (score : ℚ) : Table Node PathGroups :=
  match targetGroups.get? target with
  | some _ => targetGroups.modify target (·.add group score)
  | none => targetGroups ++ [(target, PathGroups.add {} group score)]

def reliability (neighbors : List Node) (viewerDistrusts : List Node) : ℚ :=
  (1 - distrustPenalty) ^ (neighbors.filter (· ∈ viewerDistrusts)).length

/-- An entry of the queue of `forward_bfs_inner`. -/
structure ForwardStep where
  current : Node
  depth : Nat
  firstHop : Node
  pathScore : ℚ

/-- The variables of `forward_bfs_inner`; `visited_per_group` by its pairs of a first hop and a node. -/
structure ForwardBfs where
  queue : List ForwardStep := []
  targetGroups : Table Node PathGroups := []
  visitedPerGroup : List (Node × Node) := []
  seededFirstHops : List Node := []

variable (source : Node) (graph : CsrGraph) (viewerDistrusts : List Node)

def ForwardBfs.seed (bfs : ForwardBfs) (neighbor : Node) : ForwardBfs :=
  if neighbor = source ∨ neighbor ∈ bfs.seededFirstHops then bfs
  else
    let penalized := reliability (graph.neighbors neighbor) viewerDistrusts
    { queue := bfs.queue ++ [⟨neighbor, 1, neighbor, penalized⟩]
      targetGroups := addPath bfs.targetGroups neighbor neighbor penalized
      visitedPerGroup := bfs.visitedPerGroup ++ [(neighbor, neighbor)]
      seededFirstHops := bfs.seededFirstHops ++ [neighbor] }

/-- The body of the inner loop. -/
def ForwardBfs.visit (step : ForwardStep) (bfs : ForwardBfs) (next : Node) : ForwardBfs :=
  if next = source then bfs
  else if (step.firstHop, next) ∈ bfs.visitedPerGroup then bfs
  else
    let r := reliability (graph.neighbors next) viewerDistrusts
    let nextScore := step.pathScore * decay * r
    { bfs with
      visitedPerGroup := bfs.visitedPerGroup ++ [(step.firstHop, next)]
      targetGroups := addPath bfs.targetGroups next step.firstHop nextScore
      queue := bfs.queue ++ [⟨next, step.depth + 1, step.firstHop, nextScore⟩] }

def ForwardBfs.loop (maxDepth : Nat) : Nat → ForwardBfs → ForwardBfs
  | 0, bfs => bfs
  | fuel + 1, bfs =>
    match bfs.queue with
    | [] => bfs
    | step :: rest =>
      let popped := { bfs with queue := rest }
      if maxDepth ≤ step.depth then ForwardBfs.loop maxDepth fuel popped
      else ForwardBfs.loop maxDepth fuel
        ((graph.neighbors step.current).foldl (ForwardBfs.visit source graph viewerDistrusts step) popped)

def forwardBfsLoop (fuel : Nat) (sourceNeighbors : List Node) (maxDepth : Nat) : ForwardBfs :=
  ForwardBfs.loop source graph viewerDistrusts maxDepth fuel
    (sourceNeighbors.foldl (ForwardBfs.seed source graph viewerDistrusts) {})

def forwardBfsInner (fuel : Nat) (sourceNeighbors : List Node) (maxDepth : Nat) : List (Node × ℚ) :=
  let results := (forwardBfsLoop source graph viewerDistrusts fuel sourceNeighbors maxDepth).targetGroups.map
    fun entry => (entry.1, entry.2.combinedScore)
  if viewerDistrusts.isEmpty then results
  else results.map fun entry => if entry.1 ∈ viewerDistrusts then (entry.1, 0) else entry

abbrev DistrustSets := Table Node (List Node)

def forwardBfs (fuel : Nat) (distrustSets : DistrustSets) : List (Node × ℚ) :=
  forwardBfsInner source graph ((distrustSets.get? source).getD []) fuel (graph.neighbors source) maxTrustDepth

/-- An entry of the queue of `reverse_bfs`. -/
structure ReverseStep where
  current : Node
  depth : Nat
  pathScore : ℚ

structure ReverseBfs where
  queue : List ReverseStep := []
  targetGroups : Table Node PathGroups := []
  visited : List Node := []

variable (reader : Node) (reverseGraph : CsrGraph)

def ReverseBfs.seed (bfs : ReverseBfs) (neighbor : Node) : ReverseBfs :=
  if neighbor = reader then bfs
  else
    let added := { bfs with targetGroups := addPath bfs.targetGroups neighbor reader 1 }
    if neighbor ∈ added.visited then added
    else { added with
      visited := added.visited ++ [neighbor]
      queue := added.queue ++ [⟨neighbor, 1, 1⟩] }

/-- The body of the inner loop: every arrival counts for its group, the first one is followed. -/
def ReverseBfs.visit (step : ReverseStep) (bfs : ReverseBfs) (next : Node) : ReverseBfs :=
  if next = reader then bfs
  else
    let nextScore := step.pathScore * decay
    let added := { bfs with targetGroups := addPath bfs.targetGroups next step.current nextScore }
    if next ∈ added.visited then added
    else { added with
      visited := added.visited ++ [next]
      queue := added.queue ++ [⟨next, step.depth + 1, nextScore⟩] }

def ReverseBfs.loop : Nat → ReverseBfs → ReverseBfs
  | 0, bfs => bfs
  | fuel + 1, bfs =>
    match bfs.queue with
    | [] => bfs
    | step :: rest =>
      let popped := { bfs with queue := rest }
      if maxTrustDepth ≤ step.depth then ReverseBfs.loop fuel popped
      else ReverseBfs.loop fuel ((reverseGraph.neighbors step.current).foldl (ReverseBfs.visit reader step) popped)

def reverseBfsLoop (fuel : Nat) : ReverseBfs :=
  ReverseBfs.loop reader reverseGraph fuel ((reverseGraph.neighbors reader).foldl (ReverseBfs.seed reader) {})

def reverseBfs (fuel : Nat) : List (Node × ℚ) :=
  (reverseBfsLoop reader reverseGraph fuel).targetGroups.map fun entry => (entry.1, entry.2.combinedScore)

variable {n : Nat} {edges : List (Node × Node)} {i j : Node}

theorem CsrGraph.neighbors_fromEdges (bounded : ∀ edge ∈ edges, edge.1 < n) (inside : i < n) :
    (fromEdges n edges).neighbors i = bucket edges i := by
  have start : (starts 0 (degrees n edges)).getD i 0 = before edges i := by
    rw [getD, getElem?_starts (Nat.le_of_lt inside)]
    rfl
  have stop : (starts 0 (degrees n edges)).getD (i + 1) 0 = before edges i + (bucket edges i).length := by
    rw [getD, getElem?_starts inside, before_succ]
    rfl
  simp only [neighbors, fromEdges, start, stop, Nat.add_sub_cancel_left]
  exact take_drop_layOut 0 bounded inside

theorem mem_bucket {α : Type} {items : List (Nat × α)} {key : Nat} {value : α} :
    value ∈ bucket items key ↔ (key, value) ∈ items := by
  simp only [bucket, mem_map, mem_filter, decide_eq_true_eq]
  constructor
  · rintro ⟨⟨_, _⟩, ⟨mem, rfl⟩, rfl⟩
    exact mem
  · exact fun mem => ⟨_, ⟨mem, rfl⟩, rfl⟩

theorem CsrGraph.mem_neighbors (bounded : ∀ edge ∈ edges, edge.1 < n) (inside : i < n) :
    j ∈ (fromEdges n edges).neighbors i ↔ (i, j) ∈ edges := by
  rw [neighbors_fromEdges bounded inside, mem_bucket]

theorem CsrGraph.mem_neighbors_transpose (bounded : ∀ edge ∈ edges, edge.1 < n ∧ edge.2 < n) (inside : i < n) :
    j ∈ (fromEdges n edges).transpose.neighbors i ↔ (j, i) ∈ edges := by
  have sources : ∀ edge ∈ edges, edge.1 < n := fun edge mem => (bounded edge mem).1
  have reversed : ∀ src tgt, (tgt, src) ∈ ((range n).flatMap fun src =>
      ((fromEdges n edges).neighbors src).map fun tgt => (tgt, src)) ↔ (src, tgt) ∈ edges := by
    intro src tgt
    simp only [mem_flatMap, mem_range, mem_map, Prod.mk.injEq]
    constructor
    · rintro ⟨_, isSource, _, isTarget, rfl, rfl⟩
      exact (mem_neighbors sources isSource).mp isTarget
    · intro mem
      have isSource := sources _ mem
      exact ⟨src, isSource, tgt, (mem_neighbors sources isSource).mpr mem, rfl, rfl⟩
  have within : ∀ edge ∈ ((range n).flatMap fun src =>
      ((fromEdges n edges).neighbors src).map fun tgt => (tgt, src)), edge.1 < n := by
    rintro ⟨tgt, src⟩ mem
    exact (bounded _ ((reversed src tgt).mp mem)).2
  exact (mem_neighbors within inside).trans (reversed j i)

def PathGroups.ofPaths (paths : List (Node × ℚ)) : PathGroups :=
  paths.foldl (fun groups path => groups.add path.1 path.2) {}

/-- The targets' groups that come of adding paths, each with its target, group and score. -/
def addPaths (paths : List (Node × Node × ℚ)) : Table Node PathGroups :=
  paths.foldl (fun groups path => addPath groups path.1 path.2.1 path.2.2) []

theorem PathGroups.ofPaths_concat (paths : List (Node × ℚ)) (path : Node × ℚ) :
    ofPaths (paths ++ [path]) = (ofPaths paths).add path.1 path.2 := by
  rw [ofPaths, foldl_append]
  rfl

theorem addPaths_concat (paths : List (Node × Node × ℚ)) (path : Node × Node × ℚ) :
    addPaths (paths ++ [path]) = addPath (addPaths paths) path.1 path.2.1 path.2.2 := by
  rw [addPaths, foldl_append]
  rfl

structure PathGroups.Of (score : Node → ℚ) (keys : Finset Node) (paths : PathGroups) : Prop where
  keyed : paths.groups.Keyed
  scores : ∀ entry ∈ paths.groups, entry.2 = score entry.1
  keys : (paths.groups.map Prod.fst).toFinset = keys

namespace PathGroups.Of

variable {score : Node → ℚ} {keys : Finset Node} {paths : PathGroups}

theorem add (groups : Of score keys paths) (group : Node) : Of score (insert group keys)
    (paths.add group (score group)) := by
  rw [PathGroups.add]
  cases found : paths.groups.get? group with
  | some best =>
    have mem := mem_of_get? found
    have isBest : best = score group := groups.scores _ mem
    have isKey : group ∈ keys := by
      rw [← groups.keys, mem_toFinset]
      exact mem_map_of_mem mem
    rw [Finset.insert_eq_of_mem isKey]
    simp only [isBest, lt_irrefl, if_false]
    exact ⟨groups.keyed, groups.scores, groups.keys⟩
  | none =>
    have absent := Table.get?_eq_none.mp found
    constructor
    case keyed =>
      simp only [Keyed, map_append, map_singleton]
      refine List.Nodup.append groups.keyed (nodup_singleton _) ?_
      rw [disjoint_singleton]
      intro mem
      obtain ⟨entry, isEntry, same⟩ := mem_map.mp mem
      exact absent entry isEntry same
    case scores => exact forall_mem_append.mpr ⟨groups.scores, forall_mem_singleton.mpr rfl⟩
    case keys =>
      show ((paths.groups ++ [(group, score group)]).map Prod.fst).toFinset = _
      rw [map_append, toFinset_append, groups.keys, Finset.union_comm, Finset.insert_eq]
      rfl

theorem ofPaths {paths : List (Node × ℚ)} (scores : ∀ path ∈ paths, path.2 = score path.1) :
    Of score (paths.map Prod.fst).toFinset (ofPaths paths) := by
  induction paths using reverseRecOn with
  | nil => exact ⟨nodup_nil, by simp [PathGroups.ofPaths], rfl⟩
  | append_singleton paths path ih =>
    obtain ⟨before, own⟩ := forall_mem_append.mp scores
    rw [PathGroups.ofPaths_concat, own path (mem_singleton_self _), map_append, toFinset_append]
    have grown := (ih before).add path.1
    rw [Finset.insert_eq, Finset.union_comm] at grown
    simpa using grown

theorem combinedScore (groups : Of score keys paths) : paths.combinedScore = 1 - ∏ group ∈ keys, (1 - score group) := by
  have product : (paths.groups.map fun entry => 1 - entry.2).prod = ∏ group ∈ keys, (1 - score group) := by
    rw [← groups.keys, prod_toFinset _ groups.keyed, map_map]
    congr 1
    apply map_congr_left
    intro entry mem
    rw [groups.scores entry mem]
    rfl
  rw [PathGroups.combinedScore]
  by_cases none_ : paths.groups.isEmpty = true
  · rw [if_pos none_, ← product, isEmpty_iff.mp none_]
    simp
  · rw [if_neg none_, product]

end PathGroups.Of

section

variable (paths : List (Node × Node × ℚ))

theorem keyed_addPaths : (addPaths paths).Keyed := by
  induction paths using reverseRecOn with
  | nil => exact nodup_nil
  | append_singleton paths path ih =>
    rw [addPaths_concat, addPath]
    cases found : (addPaths paths).get? path.1 with
    | some groups => exact ih.modify _
    | none =>
      have absent := Table.get?_eq_none.mp found
      simp only [Keyed, map_append, map_singleton]
      refine List.Nodup.append ih (nodup_singleton _) ?_
      rw [disjoint_singleton]
      intro mem
      obtain ⟨entry, isEntry, same⟩ := mem_map.mp mem
      exact absent entry isEntry same

def pathsTo (target : Node) : List (Node × ℚ) :=
  (paths.filter (·.1 = target)).map Prod.snd

theorem get?_addPaths (target : Node) : (addPaths paths).get? target =
      if pathsTo paths target = [] then none else some (PathGroups.ofPaths (pathsTo paths target)) := by
  induction paths using reverseRecOn with
  | nil => simp [addPaths, pathsTo, Table.get?]
  | append_singleton paths path ih =>
    have grows : pathsTo (paths ++ [path]) target =
        pathsTo paths target ++ if path.1 = target then [path.2] else [] := by
      rw [pathsTo, filter_append, map_append]
      by_cases own : path.1 = target <;> simp [pathsTo, own]
    rw [addPaths_concat, addPath, grows]
    by_cases own : path.1 = target
    · subst own
      rw [if_pos rfl, if_neg (by simp), PathGroups.ofPaths_concat]
      cases found : (addPaths paths).get? path.1 with
      | some groups =>
        rw [found] at ih
        have some_ : pathsTo paths path.1 ≠ [] := by
          intro none_
          rw [if_pos none_] at ih
          cases ih
        rw [if_neg some_] at ih
        rw [Table.get?_modify_self, found, Option.some.inj ih]
        rfl
      | none =>
        rw [found] at ih
        have none_ : pathsTo paths path.1 = [] := by
          by_contra some_
          rw [if_neg some_] at ih
          cases ih
        rw [Table.get?_append, found, none_]
        simp [Table.get?, PathGroups.ofPaths]
    · rw [if_neg own, append_nil, ← ih]
      cases found : (addPaths paths).get? path.1 with
      | some groups => exact Table.get?_modify_other (Ne.symm own)
      | none =>
        rw [Table.get?_append]
        have unseen : Table.get? [(path.1, PathGroups.add {} path.2.1 path.2.2)] target = none := by
          rw [Table.get?_eq_none]
          simpa using own
        rw [unseen, Option.or_none]

end

theorem mem_scores {paths : List (Node × Node × ℚ)} {target : Node} {score : Node → ℚ} {total : ℚ}
    (scores : ∀ path ∈ pathsTo paths target, path.2 = score path.1) :
    (target, total) ∈ (addPaths paths).map (fun entry => (entry.1, entry.2.combinedScore)) ↔
      pathsTo paths target ≠ [] ∧
        total = 1 - ∏ group ∈ ((pathsTo paths target).map Prod.fst).toFinset, (1 - score group) := by
  have combined := (PathGroups.Of.ofPaths scores).combinedScore
  have lookup := get?_addPaths paths target
  constructor
  · intro mem
    obtain ⟨entry, isEntry, same⟩ := mem_map.mp mem
    obtain ⟨rfl, rfl⟩ := Prod.mk.inj same
    rw [(keyed_addPaths paths).get? isEntry] at lookup
    by_cases none_ : pathsTo paths entry.1 = []
    · rw [if_pos none_] at lookup
      cases lookup
    · rw [if_neg none_] at lookup
      rw [Option.some.inj lookup]
      exact ⟨none_, combined⟩
  · rintro ⟨some_, rfl⟩
    rw [if_neg some_] at lookup
    exact mem_map.mpr ⟨_, mem_of_get? lookup, by rw [combined]⟩

end Prismoire
