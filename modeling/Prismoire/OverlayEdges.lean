import Prismoire.TrustOverlay

namespace Prismoire

open Lib List Table

def effectiveEdge (graph : TrustGraph) (delta : ViewerDelta) (viewer target : Uuid) : Bool × Bool :=
  match graph.index.getId viewer, graph.index.getId target with
  | some viewerId, some targetId =>
    let (neighbors, distrusts) := graph.applyDeltaOverlay viewerId delta
    (targetId ∈ neighbors, targetId ∈ distrusts)
  | _, _ => (false, false)

section Index

variable {index more : NodeIndex} {user other : Uuid} {id : Node}

theorem NodeIndex.getId_eq_none : index.getId user = none ↔ user ∉ index :=
  idxOf?_eq_none_iff

theorem NodeIndex.exists_getId (mem : user ∈ index) : ∃ id, index.getId user = some id := by
  have found : (index.idxOf? user).isSome = true := by simpa using mem
  exact Option.isSome_iff_exists.mp found

section

variable (found : index.getId user = some id)
include found

theorem NodeIndex.getElem?_of_getId : index[id]? = some user := by
  obtain ⟨inside, isUser, -⟩ := idxOf?_eq_some_iff.mp found
  rw [getElem?_eq_getElem inside, isUser]

theorem NodeIndex.getId_lt : id < index.length :=
  (idxOf?_eq_some_iff.mp found).1

theorem NodeIndex.mem_of_getId : user ∈ index :=
  mem_of_getElem? (getElem?_of_getId found)

theorem NodeIndex.getId_inj (found' : index.getId other = some id) : user = other :=
  Option.some.inj ((getElem?_of_getId found).symm.trans (getElem?_of_getId found'))

end

theorem NodeIndex.mem_intern : user ∈ NodeIndex.intern index other ↔ user ∈ index ∨ user = other := by
  unfold NodeIndex.intern
  split
  · rename_i known
    exact ⟨.inl, fun either => either.elim id fun same => same ▸ known⟩
  · simp

theorem NodeIndex.getId_append (found : index.getId user = some id) :
    NodeIndex.getId (index ++ more) user = some id := by
  obtain ⟨inside, isUser, first⟩ := idxOf?_eq_some_iff.mp found
  refine idxOf?_eq_some_iff.mpr ⟨by simp; omega, ?_, ?_⟩
  · rw [getElem_append_left inside, isUser]
  · intro j before
    rw [getElem_append_left (before.trans inside)]
    exact first j before

theorem NodeIndex.getId_intern (found : index.getId user = some id) :
    (NodeIndex.intern index other).getId user = some id := by
  unfold NodeIndex.intern
  split
  · exact found
  · exact getId_append found

end Index

def Named (rows : List (Uuid × Uuid)) (user : Uuid) : Prop :=
  ∃ row ∈ rows, user = row.1 ∨ user = row.2

/-- The builder after a list of rows: it knows their users, and its edges are theirs under the ids given. -/
structure GraphBuilder.Holds (builder : GraphBuilder) (rows : List (Uuid × Uuid)) : Prop where
  users : ∀ user, user ∈ builder.index ↔ Named rows user
  edges : ∀ source target, (source, target) ∈ builder.denseEdges ↔
    ∃ row ∈ rows, builder.index.getId row.1 = some source ∧ builder.index.getId row.2 = some target

variable {rows : List (Uuid × Uuid)} {sets : DistrustSets} {node other : Node}

theorem GraphBuilder.Holds.addEdge {builder : GraphBuilder}
    (holds : builder.Holds rows) (edge : Uuid × Uuid) : (builder.addEdge edge).Holds (rows ++ [edge]) := by
  have users : ∀ user, user ∈ (builder.addEdge edge).index ↔ Named (rows ++ [edge]) user := by
    intro user
    show user ∈ (builder.index.intern edge.1).intern edge.2 ↔ _
    rw [NodeIndex.mem_intern, NodeIndex.mem_intern, holds.users user]
    simp only [Named, mem_append, mem_singleton]
    constructor
    · rintro ((⟨row, mem, isEnd⟩ | first) | second)
      · exact ⟨row, .inl mem, isEnd⟩
      · exact ⟨edge, .inr rfl, .inl first⟩
      · exact ⟨edge, .inr rfl, .inr second⟩
    · rintro ⟨row, mem | rfl, isEnd⟩
      · exact .inl (.inl ⟨row, mem, isEnd⟩)
      · exact isEnd.elim (fun first => .inl (.inr first)) .inr
  have kept : ∀ {user id}, user ∈ builder.index →
      ((builder.addEdge edge).index.getId user = some id ↔ builder.index.getId user = some id) := by
    intro user id mem
    obtain ⟨old, found⟩ := NodeIndex.exists_getId mem
    have found' : (builder.addEdge edge).index.getId user = some old :=
      NodeIndex.getId_intern (NodeIndex.getId_intern found)
    rw [found, found']
  refine ⟨users, fun source target => ?_⟩
  obtain ⟨first, foundFirst⟩ := NodeIndex.exists_getId ((users edge.1).mpr ⟨edge, by simp, .inl rfl⟩)
  obtain ⟨second, foundSecond⟩ := NodeIndex.exists_getId ((users edge.2).mpr ⟨edge, by simp, .inr rfl⟩)
  have dense : (builder.addEdge edge).denseEdges = builder.denseEdges ++ [(first, second)] := by
    show builder.denseEdges ++ [(((builder.addEdge edge).index.getId edge.1).getD 0,
      ((builder.addEdge edge).index.getId edge.2).getD 0)] = _
    rw [foundFirst, foundSecond]
    rfl
  rw [dense, mem_append, mem_singleton, holds.edges]
  constructor
  · rintro (⟨row, mem, isSource, isTarget⟩ | isNew)
    · exact ⟨row, by simp [mem], (kept (NodeIndex.mem_of_getId isSource)).mpr isSource,
        (kept (NodeIndex.mem_of_getId isTarget)).mpr isTarget⟩
    · cases isNew
      exact ⟨edge, by simp, foundFirst, foundSecond⟩
  · rintro ⟨row, mem, isSource, isTarget⟩
    rcases mem_append.mp mem with old | isNew
    · have inIndex := (holds.users row.1).mpr ⟨row, old, .inl rfl⟩
      have inIndex' := (holds.users row.2).mpr ⟨row, old, .inr rfl⟩
      exact .inl ⟨row, old, (kept inIndex).mp isSource, (kept inIndex').mp isTarget⟩
    · rw [mem_singleton.mp isNew, foundFirst] at isSource
      rw [mem_singleton.mp isNew, foundSecond] at isTarget
      rw [Option.some.inj isSource, Option.some.inj isTarget]
      exact .inr rfl

theorem GraphBuilder.holds_foldl (rows : List (Uuid × Uuid)) : (rows.foldl GraphBuilder.addEdge {}).Holds rows := by
  induction rows using List.reverseRecOn with
  | nil => exact ⟨fun user => by simp [Named], fun source target => by simp⟩
  | append_singleton rows edge ih =>
    rw [foldl_append]
    exact ih.addEdge edge

theorem mem_insertDistrust {source target : Node} : other ∈ ((insertDistrust sets source target).get? node).getD [] ↔
      other ∈ (sets.get? node).getD [] ∨ node = source ∧ other = target := by
  unfold insertDistrust
  cases found : sets.get? source with
  | some targets =>
    dsimp only
    by_cases isSource : node = source
    · rw [isSource, Table.get?_modify_self, found]
      simp only [Option.map_some, Option.getD_some]
      split
      · rename_i already
        simp only [true_and]
        exact ⟨.inl, fun either => either.elim id fun same => same ▸ already⟩
      · simp
    · rw [Table.get?_modify_other isSource]
      simp [isSource]
  | none =>
    dsimp only
    rw [Table.get?_append]
    by_cases isSource : node = source
    · rw [isSource, found]
      simp [get?]
    · have other : ¬ source = node := fun same => isSource same.symm
      simp [get?, isSource, other]

theorem mem_distrusts {index : NodeIndex} : other ∈ ((rows.foldl (addDistrust index) sets).get? node).getD [] ↔
      other ∈ (sets.get? node).getD [] ∨
        ∃ row ∈ rows, index.getId row.1 = some node ∧ index.getId row.2 = some other := by
  induction rows generalizing sets with
  | nil => simp
  | cons row rows ih =>
    have head : other ∈ ((addDistrust index sets row).get? node).getD [] ↔
        other ∈ (sets.get? node).getD [] ∨ index.getId row.1 = some node ∧ index.getId row.2 = some other := by
      unfold addDistrust
      cases source : index.getId row.1 with
      | none => simp
      | some sourceId =>
        cases target : index.getId row.2 with
        | none => simp
        | some targetId =>
          rw [mem_insertDistrust]
          simp only [Option.some.injEq, eq_comm]
    rw [foldl_cons, ih, head]
    simp only [mem_cons, exists_eq_or_imp, or_assoc]

section Build

variable {trustRows distrustRows : List (Uuid × Uuid)} {viewer target : Uuid}

theorem TrustGraph.mem_index_build : target ∈ (TrustGraph.build trustRows distrustRows).index ↔ Named trustRows target :=
  (GraphBuilder.holds_foldl trustRows).users target

section

variable {viewerId targetId : Node}
  (viewerAt : (TrustGraph.build trustRows distrustRows).index.getId viewer = some viewerId)
  (targetAt : (TrustGraph.build trustRows distrustRows).index.getId target = some targetId)
include viewerAt targetAt

theorem mem_neighbors_build :
    targetId ∈ (TrustGraph.build trustRows distrustRows).forward.neighbors viewerId ↔ (viewer, target) ∈ trustRows := by
  have holds := GraphBuilder.holds_foldl trustRows
  have bounded : ∀ edge ∈ (trustRows.foldl GraphBuilder.addEdge {}).denseEdges,
      edge.1 < (trustRows.foldl GraphBuilder.addEdge {}).index.length := by
    intro edge mem
    obtain ⟨_, _, isSource, _⟩ := (holds.edges edge.1 edge.2).mp mem
    exact NodeIndex.getId_lt isSource
  show targetId ∈ (CsrGraph.fromEdges _ _).neighbors viewerId ↔ _
  rw [CsrGraph.mem_neighbors bounded (NodeIndex.getId_lt viewerAt), holds.edges]
  constructor
  · rintro ⟨row, mem, isSource, isTarget⟩
    rwa [NodeIndex.getId_inj viewerAt isSource, NodeIndex.getId_inj targetAt isTarget]
  · intro mem
    exact ⟨(viewer, target), mem, viewerAt, targetAt⟩

theorem mem_distrustsOf_build :
    targetId ∈ (TrustGraph.build trustRows distrustRows).distrustsOf viewerId ↔ (viewer, target) ∈ distrustRows := by
  show targetId ∈ ((distrustRows.foldl (addDistrust _) []).get? viewerId).getD [] ↔ _
  rw [mem_distrusts]
  constructor
  · rintro (none_ | ⟨row, mem, isSource, isTarget⟩)
    · simp [get?] at none_
    · rwa [NodeIndex.getId_inj viewerAt isSource, NodeIndex.getId_inj targetAt isTarget]
  · intro mem
    exact .inr ⟨(viewer, target), mem, viewerAt, targetAt⟩

end

theorem hasTrustEdge_build (viewerNamed : Named trustRows viewer) (targetNamed : Named trustRows target) :
    (TrustGraph.build trustRows distrustRows).hasTrustEdge viewer target = decide ((viewer, target) ∈ trustRows) := by
  obtain ⟨_, viewerAt⟩ := NodeIndex.exists_getId (TrustGraph.mem_index_build.mpr viewerNamed)
  obtain ⟨_, targetAt⟩ := NodeIndex.exists_getId (TrustGraph.mem_index_build.mpr targetNamed)
  rw [TrustGraph.hasTrustEdge, viewerAt, targetAt]
  exact decide_eq_decide.mpr (mem_neighbors_build viewerAt targetAt)

theorem hasDistrustEdge_build (viewerNamed : Named trustRows viewer) (targetNamed : Named trustRows target) :
    (TrustGraph.build trustRows distrustRows).hasDistrustEdge viewer target =
      decide ((viewer, target) ∈ distrustRows) := by
  obtain ⟨_, viewerAt⟩ := NodeIndex.exists_getId (TrustGraph.mem_index_build.mpr viewerNamed)
  obtain ⟨_, targetAt⟩ := NodeIndex.exists_getId (TrustGraph.mem_index_build.mpr targetNamed)
  rw [TrustGraph.hasDistrustEdge, viewerAt, targetAt]
  exact decide_eq_decide.mpr (mem_distrustsOf_build viewerAt targetAt)

end Build

variable {graph : TrustGraph} {delta : ViewerDelta} {viewer target : Uuid}

theorem mem_iterate {set : Finset Uuid} {user : Uuid} : user ∈ iterate set ↔ user ∈ set := by
  simp only [iterate, mem_map, Finset.mem_sort, Finset.mem_image]
  constructor
  · rintro ⟨_, ⟨other, mem, rfl⟩, rfl⟩
    rwa [BitVec.ofNat_toNat, BitVec.setWidth_eq]
  · intro mem
    exact ⟨user.toNat, ⟨user, mem, rfl⟩, by rw [BitVec.ofNat_toNat, BitVec.setWidth_eq]⟩

theorem mem_filterMap_getId (set : Finset Uuid) {targetId : Node} (targetAt : graph.index.getId target = some targetId) :
    targetId ∈ (iterate set).filterMap graph.index.getId ↔ target ∈ set := by
  rw [mem_filterMap]
  constructor
  · rintro ⟨user, mem, found⟩
    rw [← NodeIndex.getId_inj found targetAt]
    exact mem_iterate.mp mem
  · intro mem
    exact ⟨target, mem_iterate.mpr mem, targetAt⟩

/-- An edge of the graph that the delta does not remove, or one that the delta adds. -/
def overlaid (inGraph removed added : Bool) : Bool :=
  inGraph && !removed || added

theorem decide_overlaid {inGraph removed added : Prop} [Decidable inGraph] [Decidable removed] [Decidable added] :
    decide (inGraph ∧ ¬ removed ∨ added ∧ ¬ (inGraph ∧ ¬ removed)) = overlaid inGraph removed added := by
  by_cases inGraph <;> by_cases removed <;> by_cases added <;> simp_all [overlaid]

theorem effectiveEdge_eq (viewerIn : viewer ∈ graph.index) (targetIn : target ∈ graph.index) :
    effectiveEdge graph delta viewer target =
      (overlaid (graph.hasTrustEdge viewer target) (target ∈ delta.trustRemoved) (target ∈ delta.trustAdded),
        overlaid (graph.hasDistrustEdge viewer target) (target ∈ delta.distrustRemoved)
          (target ∈ delta.distrustAdded)) := by
  obtain ⟨viewerId, viewerAt⟩ := NodeIndex.exists_getId viewerIn
  obtain ⟨targetId, targetAt⟩ := NodeIndex.exists_getId targetIn
  have removed := mem_filterMap_getId delta.trustRemoved targetAt
  have added := mem_filterMap_getId delta.trustAdded targetAt
  have noDistrust := mem_filterMap_getId delta.distrustRemoved targetAt
  have distrusted := mem_filterMap_getId delta.distrustAdded targetAt
  simp only [effectiveEdge, TrustGraph.hasTrustEdge, TrustGraph.hasDistrustEdge, viewerAt, targetAt,
    TrustGraph.applyDeltaOverlay, mem_append, mem_filter, removed, added, noDistrust, distrusted,
    decide_eq_true_eq, decide_overlaid]

theorem effectiveEdge_of_absent (absent : viewer ∉ graph.index) :
    effectiveEdge graph delta viewer target = (false, false) := by
  rw [effectiveEdge, NodeIndex.getId_eq_none.mpr absent]

end Prismoire
