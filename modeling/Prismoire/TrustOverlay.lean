import Mathlib.Data.Finset.Sort
import Prismoire.Signed
import Prismoire.TrustGraph

namespace Prismoire

open Lib

/-- `NodeIndex`: the users of a graph in the order of their dense ids. -/
abbrev NodeIndex := List Uuid

namespace NodeIndex

def getId (index : NodeIndex) (user : Uuid) : Option Node :=
  index.idxOf? user

def getUuid (index : NodeIndex) (id : Node) : Uuid :=
  index.getD id 0

def intern (index : NodeIndex) (user : Uuid) : NodeIndex :=
  if user ∈ index then index else index ++ [user]

end NodeIndex

structure TrustGraph where
  forward : CsrGraph
  index : NodeIndex
  distrustSets : DistrustSets

/-- The variables of `TrustGraph::build`. -/
structure GraphBuilder where
  index : NodeIndex := []
  denseEdges : List (Node × Node) := []

def GraphBuilder.addEdge (builder : GraphBuilder) (edge : Uuid × Uuid) : GraphBuilder :=
  let index := (builder.index.intern edge.1).intern edge.2
  { index, denseEdges := builder.denseEdges ++ [((index.getId edge.1).getD 0, (index.getId edge.2).getD 0)] }

def insertDistrust (sets : DistrustSets) (source target : Node) : DistrustSets :=
  match sets.get? source with
  | some _ => sets.modify source fun targets => if target ∈ targets then targets else targets ++ [target]
  | none => sets ++ [(source, [target])]

def addDistrust (index : NodeIndex) (sets : DistrustSets) (edge : Uuid × Uuid) : DistrustSets :=
  match index.getId edge.1, index.getId edge.2 with
  | some source, some target => insertDistrust sets source target
  | _, _ => sets

def TrustGraph.build (trustRows distrustRows : List (Uuid × Uuid)) : TrustGraph :=
  let builder := trustRows.foldl GraphBuilder.addEdge {}
  { forward := CsrGraph.fromEdges builder.index.length builder.denseEdges
    index := builder.index
    distrustSets := distrustRows.foldl (addDistrust builder.index) [] }

/-- The edits of a viewer that no rebuild has absorbed yet. -/
structure ViewerDelta where
  trustAdded : Finset Uuid := ∅
  trustRemoved : Finset Uuid := ∅
  distrustAdded : Finset Uuid := ∅
  distrustRemoved : Finset Uuid := ∅
  seq : Nat := 0
  deriving DecidableEq

def ViewerDelta.isEmpty (delta : ViewerDelta) : Bool :=
  delta.trustAdded = ∅ ∧ delta.trustRemoved = ∅ ∧ delta.distrustAdded = ∅ ∧ delta.distrustRemoved = ∅

def iterate (set : Finset Uuid) : List Uuid :=
  ((set.image BitVec.toNat).sort (· ≤ ·)).map (BitVec.ofNat 128)

namespace TrustGraph

variable (graph : TrustGraph)

def distrustsOf (source : Node) : List Node :=
  (graph.distrustSets.get? source).getD []

def hasTrustEdge (viewer target : Uuid) : Bool :=
  match graph.index.getId viewer, graph.index.getId target with
  | some viewerId, some targetId => targetId ∈ graph.forward.neighbors viewerId
  | _, _ => false

def hasDistrustEdge (viewer target : Uuid) : Bool :=
  match graph.index.getId viewer, graph.index.getId target with
  | some viewerId, some targetId => targetId ∈ graph.distrustsOf viewerId
  | _, _ => false

def applyDeltaOverlay (source : Node) (delta : ViewerDelta) : List Node × List Node :=
  let removed := (iterate delta.trustRemoved).filterMap graph.index.getId
  let existing := (graph.forward.neighbors source).filter (· ∉ removed)
  let added := (iterate delta.trustAdded).filterMap graph.index.getId
  let noDistrusts := (iterate delta.distrustRemoved).filterMap graph.index.getId
  let kept := (graph.distrustsOf source).filter (· ∉ noDistrusts)
  let distrusted := (iterate delta.distrustAdded).filterMap graph.index.getId
  (existing ++ added.filter (· ∉ existing), kept ++ distrusted.filter (· ∉ kept))

end TrustGraph

def minimumTrustThreshold : ℚ := 9 / 20

/-- The conversions of scores, in whatever precision. -/
structure Precision where
  scoreToDistance : ℚ → ℚ
  asF32 : ℚ → ℚ

structure TrustScore where
  targetUser : Uuid
  score : ℚ
  distance : ℚ

variable (precision : Precision) (graph : TrustGraph)

def TrustGraph.sortScores (results : List (Node × ℚ)) : List TrustScore :=
  let scores := (results.filter fun entry => minimumTrustThreshold ≤ entry.2).map fun entry =>
    { targetUser := graph.index.getUuid entry.1, score := entry.2, distance := precision.scoreToDistance entry.2 }
  scores.mergeSort fun a b => a.distance ≤ b.distance

/-- A bound for the searches, which visit a pair of a first hop and a node once. -/
def TrustGraph.fuel : Nat :=
  graph.index.length * graph.index.length

def TrustGraph.forwardScores (reader : Uuid) : List TrustScore :=
  match graph.index.getId reader with
  | none => []
  | some source => graph.sortScores precision (forwardBfs source graph.forward graph.fuel graph.distrustSets)

def TrustGraph.forwardScoresWithDelta (reader : Uuid) (delta : ViewerDelta) : List TrustScore :=
  if delta.isEmpty then graph.forwardScores precision reader
  else
    match graph.index.getId reader with
    | none => []
    | some source =>
      let (sourceNeighbors, viewerDistrusts) := graph.applyDeltaOverlay source delta
      graph.sortScores precision
        (forwardBfsInner source graph.forward viewerDistrusts graph.fuel sourceNeighbors maxTrustDepth)

abbrev DistanceMap := Uuid → Option ℚ

/-- Collecting into a map: a later entry of a key replaces an earlier one. -/
def collectDistances (scores : List TrustScore) : DistanceMap :=
  scores.foldl (fun map score => Function.update map score.targetUser (some (precision.asF32 score.distance)))
    fun _ => none

structure CachedGraph where
  graph : TrustGraph
  forwardCache : Table Uuid DistanceMap := []
  deltaForwardCache : Table (Uuid × Nat) DistanceMap := []

def CachedGraph.distanceMap (cached : CachedGraph) (reader : Uuid) : DistanceMap × CachedGraph :=
  match cached.forwardCache.get? reader with
  | some map => (map, cached)
  | none =>
    let map := collectDistances precision (cached.graph.forwardScores precision reader)
    (map, { cached with forwardCache := cached.forwardCache ++ [(reader, map)] })

def CachedGraph.distanceMapWithDelta (cached : CachedGraph) (reader : Uuid) (delta : ViewerDelta) :
    DistanceMap × CachedGraph :=
  if delta.isEmpty then cached.distanceMap precision reader
  else
    let key := (reader, delta.seq)
    match cached.deltaForwardCache.get? key with
    | some map => (map, cached)
    | none =>
      let map := collectDistances precision (cached.graph.forwardScoresWithDelta precision reader delta)
      (map, { cached with deltaForwardCache := cached.deltaForwardCache ++ [(key, map)] })

end Prismoire
