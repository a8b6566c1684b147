import Prismoire.Lib.BinarySearch
import Prismoire.TrustOverlay

namespace Prismoire

open Lib List Table

def u32 (n : Nat) : Nat :=
  n % 2 ^ 32

section Graph

/-- One more at a place; `none` where the place is outside, as in all of this section. -/
def bump (counts : List Nat) (i : Node) : Option (List Nat) := do
  let count ← counts[i]?
  return counts.set i (u32 (count + 1))

def advanceOffset (degree offsets : List Nat) (i : Nat) : Option (List Nat) := do
  let offset ← offsets[i]?
  let count ← degree[i]?
  let _ ← offsets[i + 1]?
  return offsets.set (i + 1) (u32 (offset + count))

def fill (acc : List Node × List Nat) (edge : Node × Node) : Option (List Node × List Nat) := do
  let pos ← acc.2[edge.1]?
  let _ ← acc.1[pos]?
  let cursor ← bump acc.2 edge.1
  return (acc.1.set pos edge.2, cursor)

namespace CsrGraph

def tryFromEdges (numNodes : Nat) (edges : List (Node × Node)) : Option CsrGraph := do
  let degree ← edges.foldlM (fun degree edge => bump degree edge.1) (replicate numNodes 0)
  let offsets ← (range numNodes).foldlM (advanceOffset degree) (replicate (numNodes + 1) 0)
  let (targets, _) ← edges.foldlM fill (replicate edges.length 0, offsets.take numNodes)
  return { offsets, targets, numNodes }

def tryNeighbors (graph : CsrGraph) (i : Node) : Option (List Node) := do
  let start ← graph.offsets[i]?
  let stop ← graph.offsets[i + 1]?
  if start ≤ stop ∧ stop ≤ graph.targets.length then
    return (graph.targets.drop start).take (stop - start)
  else
    none

def tryTranspose (graph : CsrGraph) : Option CsrGraph := do
  let reverseEdges ← (range graph.numNodes).foldlM (fun reverseEdges src => do
    let row ← graph.tryNeighbors src
    return reverseEdges ++ row.map fun tgt => (tgt, src)) []
  tryFromEdges graph.numNodes reverseEdges

end CsrGraph

variable {n : Nat} {edges : List (Node × Node)} {i : Node} {counts : List Nat} {count : Nat}

theorem bump_eq (found : counts[i]? = some count) (small : count + 1 < 2 ^ 32) :
    bump counts i = some (counts.modify i (· + 1)) := by
  obtain ⟨inside, isCount⟩ := List.getElem?_eq_some_iff.mp found
  rw [bump, found]
  simp only [Option.bind_eq_bind, Option.bind_some, u32, Nat.mod_eq_of_lt small]
  rw [modify_eq_set_getElem? , found]
  rfl

theorem degree_eq (sources : ∀ edge ∈ edges, edge.1 < n) (few : edges.length < 2 ^ 32) :
    edges.foldlM (fun degree edge => bump degree edge.1) (replicate n 0) = some (degrees n edges) := by
  refine foldlM_eq_some (degrees n) ?_
  intro front edge back split
  have inside : edge.1 < n := sources edge (by simp [split])
  have short : (bucket front edge.1).length ≤ front.length := by
    rw [bucket, length_map]
    exact length_filter_le _ _
  have longer : edges.length = front.length + (back.length + 1) := by rw [split, length_append, length_cons]
  rw [bump_eq (getElem?_degrees inside) (by omega), degrees, degrees, foldl_append]
  rfl

/-- The offsets after so many rounds: those of the nodes before, then zeros. -/
def offsetsUpTo (n : Nat) (edges : List (Node × Node)) (k : Nat) : List Nat :=
  (range (n + 1)).map fun j => if j ≤ k then before edges j else 0

section

variable (sources : ∀ edge ∈ edges, edge.1 < n)

include sources

theorem offsets_eq (few : edges.length < 2 ^ 32) :
    (range n).foldlM (advanceOffset (degrees n edges)) (replicate (n + 1) 0) =
      some (starts 0 (degrees n edges)) := by
  have rounds : ∀ k ≤ n, (range k).foldlM (advanceOffset (degrees n edges)) (replicate (n + 1) 0) =
      some (offsetsUpTo n edges k) := by
    intro k
    induction k with
    | zero =>
      intro _
      have blank : replicate (n + 1) 0 = offsetsUpTo n edges 0 := by
        apply ext_getElem (by simp [offsetsUpTo])
        intro j _ _
        cases j <;> simp [offsetsUpTo, before]
      rw [range_zero, foldlM_nil, blank]
      rfl
    | succ k ih =>
      intro inside
      have total := before_all sources
      have below := @before_mono _ edges _ _ inside
      rw [range_succ, foldlM_append, ih (by omega)]
      have at' : (offsetsUpTo n edges k)[k]? = some (before edges k) := by
        simp [offsetsUpTo, getElem?_range (by omega : k < n + 1)]
      have next : (offsetsUpTo n edges k)[k + 1]? = some 0 := by
        simp [offsetsUpTo, getElem?_range (by omega : k + 1 < n + 1)]
      have sum : u32 (before edges k + (bucket edges k).length) = before edges (k + 1) := by
        rw [← before_succ, u32, Nat.mod_eq_of_lt (by omega)]
      simp only [Option.bind_eq_bind, Option.bind_some, foldlM_cons, foldlM_nil, advanceOffset, at', next,
        getElem?_degrees (by omega : k < n), sum, pure]
      congr 1
      apply ext_getElem (by simp [offsetsUpTo])
      intro j _ _
      simp only [offsetsUpTo, getElem_set, getElem_map, getElem_range]
      split
      · simp [*]
      · split_ifs <;> first | rfl | omega
  rw [rounds n (Nat.le_refl n)]
  congr 1
  apply ext_getElem?
  intro j
  by_cases inside : j ≤ n
  · rw [getElem?_starts inside]
    simp [offsetsUpTo, inside]
  · rw [getElem?_eq_none (by simp [offsetsUpTo]; omega),
      getElem?_eq_none (by rw [length_starts, length_degrees]; omega)]

theorem CsrGraph.tryFromEdges_eq (few : edges.length < 2 ^ 32) : tryFromEdges n edges = some (fromEdges n edges) := by
  have filled : edges.foldlM fill (replicate edges.length 0, (starts 0 (degrees n edges)).take n) =
      some (edges.foldl place (replicate edges.length 0, (starts 0 (degrees n edges)).take n)) := by
    refine foldlM_eq_some (fun front => front.foldl place _) ?_
    intro front edge back split
    have placed := placed_foldl 0 sources split
    obtain ⟨pos, room, cursor⟩ := placed.room sources split
    have stored : (front.foldl place (replicate edges.length 0, (starts 0 (degrees n edges)).take n)).1[pos]? =
        some _ := getElem?_eq_getElem (by rw [placed.length]; exact room)
    rw [fill, cursor]
    simp only [Option.bind_eq_bind, Option.bind_some, stored, bump_eq cursor (by omega)]
    rw [foldl_append, foldl_cons, foldl_nil, place, getD, cursor]
    rfl
  rw [tryFromEdges, degree_eq sources few]
  simp only [Option.bind_eq_bind, Option.bind_some, offsets_eq sources few, filled]
  rfl

theorem CsrGraph.tryNeighbors_fromEdges (inside : i < n) :
    (fromEdges n edges).tryNeighbors i = some (bucket edges i) := by
  have start := @getElem?_starts _ n _ edges (Nat.le_of_lt inside)
  have stop := @getElem?_starts _ n _ edges (Nat.succ_le_of_lt inside)
  have length := (placed_foldl 0 sources (append_nil edges).symm).length
  have below : before edges (i + 1) ≤ edges.length := before_all sources ▸ before_mono inside
  have above := before_succ edges i
  have slices : before edges i ≤ before edges (i + 1) ∧ before edges (i + 1) ≤ (layOut 0 n edges).length := by
    exact ⟨by omega, length ▸ below⟩
  have sized : before edges (i + 1) - before edges i = (bucket edges i).length := by omega
  simp only [tryNeighbors, fromEdges, start, stop, Option.bind_eq_bind, Option.bind_some, if_pos slices, sized,
    take_drop_layOut 0 sources inside, pure]

end

theorem CsrGraph.tryTranspose_eq (bounded : ∀ edge ∈ edges, edge.1 < n ∧ edge.2 < n) (few : edges.length < 2 ^ 32) :
    ∃ reversed : List (Node × Node), reversed.Perm (edges.map Prod.swap) ∧
      (fromEdges n edges).tryTranspose = some (fromEdges n reversed) := by
  have sources : ∀ edge ∈ edges, edge.1 < n := fun edge mem => (bounded edge mem).1
  let reversed := (range n).flatMap fun src => (bucket edges src).map fun tgt => (tgt, src)
  have perm : reversed.Perm (edges.map Prod.swap) := by
    have swapped := (flatMap_bucket_perm sources).map Prod.swap
    simp only [map_flatMap, map_map] at swapped
    exact swapped
  have within : ∀ edge ∈ reversed, edge.1 < n := by
    intro edge mem
    obtain ⟨edge', inEdges, rfl⟩ := mem_map.mp (perm.mem_iff.mp mem)
    exact (bounded edge' inEdges).2
  have rows : (range n).foldlM (fun reverseEdges src => do
      let row ← (fromEdges n edges).tryNeighbors src
      return reverseEdges ++ row.map fun tgt => (tgt, src)) [] = some reversed := by
    refine foldlM_eq_some (fun front => front.flatMap fun src => (bucket edges src).map fun tgt => (tgt, src)) ?_
    intro front src back split
    have inside : src < n := mem_range.mp (by rw [split]; simp)
    rw [tryNeighbors_fromEdges sources inside, flatMap_append, flatMap_singleton]
    rfl
  have length := perm.length_eq
  rw [length_map] at length
  refine ⟨reversed, perm, ?_⟩
  rw [tryTranspose]
  simp only [fromEdges] at rows ⊢
  rw [rows]
  exact tryFromEdges_eq within (by omega)

end Graph

structure NodeIndexBuilder where
  uuidToId : Table Uuid Node := []
  idToUuid : List Uuid := []

/-- `NodeIndex` as it is stored: the entries in the order of their UUIDs, and the UUIDs in the order of their ids. -/
structure SortedIndex where
  byUuid : List (Uuid × Node)
  idToUuid : List Uuid

def NodeIndexBuilder.internId (builder : NodeIndexBuilder) (uuid : Uuid) : NodeIndexBuilder × Node :=
  match builder.uuidToId.get? uuid with
  | some id => (builder, id)
  | none =>
    let id := u32 builder.idToUuid.length
    ({ uuidToId := builder.uuidToId ++ [(uuid, id)], idToUuid := builder.idToUuid ++ [uuid] }, id)

/-- No two entries have one UUID, so that the order they are drained in does not matter. -/
def NodeIndexBuilder.freeze (builder : NodeIndexBuilder) : SortedIndex where
  byUuid := builder.uuidToId.insertionSort fun a b => a.1.toNat ≤ b.1.toNat
  idToUuid := builder.idToUuid

namespace SortedIndex

def numNodes (index : SortedIndex) : Nat :=
  u32 index.idToUuid.length

def getId (index : SortedIndex) (uuid : Uuid) : Option Node :=
  (binarySearchBy index.byUuid fun entry => compare entry.1.toNat uuid.toNat).map fun idx => index.byUuid[idx].2

def getUuid (index : SortedIndex) (id : Node) : Option Uuid :=
  index.idToUuid[id]?

end SortedIndex

def internEdge (acc : NodeIndexBuilder × List (Node × Node)) (edge : Uuid × Uuid) :
    NodeIndexBuilder × List (Node × Node) :=
  let (builder, source) := acc.1.internId edge.1
  let (builder, target) := builder.internId edge.2
  (builder, acc.2 ++ [(source, target)])

def internEdges (edges : List (Uuid × Uuid)) : NodeIndexBuilder × List (Node × Node) :=
  edges.foldl internEdge ({}, [])

def endpoints (edges : List (Uuid × Uuid)) : List Uuid :=
  edges.flatMap fun edge => [edge.1, edge.2]

/-- A builder whose two directions agree, on the UUIDs of a list. -/
structure NodeIndexBuilder.Interned (builder : NodeIndexBuilder) (seen : List Uuid) : Prop where
  entries : builder.uuidToId = builder.idToUuid.zipIdx
  nodup : builder.idToUuid.Nodup
  users : ∀ uuid, uuid ∈ builder.idToUuid ↔ uuid ∈ seen

variable {builder : NodeIndexBuilder} {seen : List Uuid} {uuid : Uuid} {id : Node}

section

variable (interned : builder.Interned seen)
include interned

theorem NodeIndexBuilder.Interned.keyed : builder.uuidToId.Keyed := by
  rw [Keyed, interned.entries, zipIdx_map_fst]
  exact interned.nodup

theorem NodeIndexBuilder.Interned.mem_iff : (uuid, id) ∈ builder.uuidToId ↔ builder.idToUuid[id]? = some uuid := by
  rw [interned.entries, mem_zipIdx_iff_getElem?]

theorem NodeIndexBuilder.Interned.card : builder.idToUuid.length = seen.toFinset.card := by
  rw [← toFinset_card_of_nodup interned.nodup]
  congr 1
  ext uuid
  simp [interned.users uuid]

theorem NodeIndexBuilder.Interned.internId (few : (seen ++ [uuid]).toFinset.card < 2 ^ 32) :
    (builder.internId uuid).1.Interned (seen ++ [uuid]) ∧
      (builder.internId uuid).1.idToUuid[(builder.internId uuid).2]? = some uuid ∧
      builder.idToUuid <+: (builder.internId uuid).1.idToUuid := by
  unfold NodeIndexBuilder.internId
  split
  · rename_i id known
    have stored := interned.mem_iff.mp (mem_of_get? known)
    have isSeen := (interned.users uuid).mp (mem_of_getElem? stored)
    refine ⟨{ interned with users := fun other => ?_ }, stored, prefix_refl _⟩
    rw [interned.users, mem_append, mem_singleton]
    exact ⟨.inl, fun either => either.elim (fun old => old) fun same => same ▸ isSeen⟩
  · rename_i unknown
    have new : uuid ∉ builder.idToUuid := by
      intro mem
      obtain ⟨id, stored⟩ := mem_iff_getElem?.mp mem
      exact Table.get?_eq_none.mp unknown _ (interned.mem_iff.mpr stored) rfl
    have fits : builder.idToUuid.length < 2 ^ 32 := by
      rw [interned.card]
      refine lt_of_le_of_lt (Finset.card_le_card fun other mem => ?_) few
      simp only [mem_toFinset] at mem ⊢
      exact mem_append_left _ mem
    rw [u32, Nat.mod_eq_of_lt fits]
    refine ⟨⟨?_, ?_, ?_⟩, by simp, prefix_append _ _⟩
    · rw [interned.entries, zipIdx_append]
      simp
    · rw [← concat_eq_append]
      exact interned.nodup.concat new
    · intro other
      simp [interned.users other]

theorem NodeIndexBuilder.Interned.getId_eq : builder.freeze.getId uuid = some id ↔ builder.idToUuid[id]? = some uuid := by
  let sortedEntries := builder.uuidToId.insertionSort fun a b => a.1.toNat ≤ b.1.toNat
  have perm : sortedEntries.Perm builder.uuidToId := perm_insertionSort _ _
  have ascending : sortedEntries.Pairwise fun a b => a.1.toNat < b.1.toNat := by
    have total : Std.Total fun a b : Uuid × Node => a.1.toNat ≤ b.1.toNat := ⟨fun a b => Nat.le_total _ _⟩
    have trans : IsTrans (Uuid × Node) fun a b => a.1.toNat ≤ b.1.toNat := ⟨fun _ _ _ => Nat.le_trans⟩
    have distinct := interned.keyed.perm perm
    rw [Keyed, List.Nodup, pairwise_map] at distinct
    have sorted : sortedEntries.Pairwise fun a b => a.1.toNat ≤ b.1.toNat := pairwise_insertionSort _ _
    exact (sorted.and distinct).imp fun both => lt_of_le_of_ne both.1 fun same => both.2 (BitVec.eq_of_toNat_eq same)
  rw [← interned.mem_iff, ← perm.mem_iff, SortedIndex.getId, Option.map_eq_some_iff]
  constructor
  · rintro ⟨place, found, rfl⟩
    have same := (binarySearchBy_eq_some ascending).mp found
    have isUuid : sortedEntries[place].1 = uuid := BitVec.eq_of_toNat_eq same
    rw [← isUuid]
    exact getElem_mem place.isLt
  · intro mem
    obtain ⟨place, inside, isEntry⟩ := mem_iff_getElem.mp mem
    refine ⟨⟨place, inside⟩, (binarySearchBy_eq_some ascending).mpr ?_, ?_⟩
    · exact congrArg (·.1.toNat) isEntry
    · exact congrArg Prod.snd isEntry

end

/-- The builder after some edges, with the dense edges that stand for them. -/
structure Dense (edges : List (Uuid × Uuid)) (acc : NodeIndexBuilder × List (Node × Node)) : Prop where
  interned : acc.1.Interned (endpoints edges)
  rows : List.Forall₂ (fun row edge => acc.1.idToUuid[edge.1]? = some row.1 ∧ acc.1.idToUuid[edge.2]? = some row.2)
    edges acc.2

theorem getElem?_grown {α : Type} {front whole : List α} {i : Nat} {value : α} (isPrefix : front <+: whole)
    (found : front[i]? = some value) : whole[i]? = some value := by
  obtain ⟨back, rfl⟩ := isPrefix
  rw [getElem?_append_left (List.getElem?_eq_some_iff.mp found).1, found]

theorem dense_internEdges (edges : List (Uuid × Uuid)) (few : (endpoints edges).toFinset.card < 2 ^ 32) :
    Dense edges (internEdges edges) := by
  induction edges using reverseRecOn with
  | nil => exact ⟨⟨rfl, .nil, by simp [internEdges, endpoints]⟩, .nil⟩
  | append_singleton front row ih =>
    have ends : endpoints (front ++ [row]) = endpoints front ++ [row.1] ++ [row.2] := by simp [endpoints]
    have fewer : ∀ {less : List Uuid}, less ⊆ endpoints (front ++ [row]) → less.toFinset.card < 2 ^ 32 :=
      fun sub => lt_of_le_of_lt (Finset.card_le_card fun _ mem => by simpa using sub (by simpa using mem)) few
    have dense := ih (fewer (by rw [ends]; simp))
    obtain ⟨first, source, grows⟩ := @NodeIndexBuilder.Interned.internId _ _ row.1 dense.interned (fewer (by rw [ends]; simp))
    obtain ⟨second, target, grows'⟩ := @NodeIndexBuilder.Interned.internId _ _ row.2 first (ends ▸ few)
    rw [internEdges, foldl_append, foldl_cons, foldl_nil, ← internEdges]
    refine ⟨ends ▸ second, ?_⟩
    refine rel_append ?_ (.cons ⟨getElem?_grown grows' source, target⟩ .nil)
    refine dense.rows.imp ?_
    intro old edge both
    exact ⟨getElem?_grown (grows.trans grows') both.1, getElem?_grown (grows.trans grows') both.2⟩

theorem bucket_users {users : List Uuid} {edges : List (Uuid × Uuid)} {dense : List (Node × Node)} (nodup : users.Nodup)
    (rows : List.Forall₂ (fun row edge => users[edge.1]? = some row.1 ∧ users[edge.2]? = some row.2) edges dense)
    (isUser : users[id]? = some uuid) :
    (bucket dense id).map (users[·]?) = (edges.filter (·.1 = uuid)).map fun edge => some edge.2 := by
  induction rows with
  | nil => rfl
  | @cons row edge edges dense ends _ ih =>
    have same : edge.1 = id ↔ row.1 = uuid := by
      constructor
      · intro same
        rw [same, isUser] at ends
        exact (Option.some.inj ends.1).symm
      · intro same
        rw [same, ← isUser] at ends
        exact ((getElem?_inj (List.getElem?_eq_some_iff.mp isUser).1 nodup).mp ends.1.symm).symm
    rw [bucket] at ih ⊢
    by_cases isNode : edge.1 = id
    · simp [isNode, same.mp isNode, ends.2, ih]
    · have other : ¬ row.1 = uuid := fun isUuid => isNode (same.mpr isUuid)
      simp [isNode, other, ih]

/--
No index of the build is outside. The ids are those of the UUIDs that occur, one each; a row holds the targets of its
node in the order of the list, the transposed row its sources, and a second transposition restores the rows.
-/
theorem dense_graph_exact (edges : List (Uuid × Uuid)) (fewUsers : (endpoints edges).toFinset.card < 2 ^ 32)
    (fewEdges : edges.length < 2 ^ 32) :
    let index := (internEdges edges).1.freeze
    ∃ graph reverse again, CsrGraph.tryFromEdges index.numNodes (internEdges edges).2 = some graph ∧
      graph.tryTranspose = some reverse ∧ reverse.tryTranspose = some again ∧
      (∀ uuid, uuid ∈ endpoints edges ↔ ∃ id, index.getId uuid = some id) ∧
      (∀ uuid id, index.getId uuid = some id ↔ index.getUuid id = some uuid) ∧
      ∀ uuid id, index.getId uuid = some id →
        ∃ row back row', graph.tryNeighbors id = some row ∧ reverse.tryNeighbors id = some back ∧
          again.tryNeighbors id = some row' ∧
          row.map index.getUuid = (edges.filter (·.1 = uuid)).map (fun edge => some edge.2) ∧
          (back.map index.getUuid).Perm ((edges.filter (·.2 = uuid)).map fun edge => some edge.1) ∧ row'.Perm row := by
  obtain ⟨interned, rows⟩ := dense_internEdges edges fewUsers
  generalize (internEdges edges).1 = builder at interned rows ⊢
  generalize (internEdges edges).2 = dense at rows ⊢
  have size : builder.freeze.numNodes = builder.idToUuid.length :=
    Nat.mod_eq_of_lt (interned.card ▸ fewUsers)
  have few : dense.length < 2 ^ 32 := rows.length_eq ▸ fewEdges
  have bounded : ∀ edge ∈ dense, edge.1 < builder.idToUuid.length ∧ edge.2 < builder.idToUuid.length := by
    intro edge mem
    obtain ⟨place, inside, rfl⟩ := mem_iff_getElem.mp mem
    obtain ⟨source, target⟩ := rows.get (rows.length_eq ▸ inside) inside
    exact ⟨(List.getElem?_eq_some_iff.mp source).1, (List.getElem?_eq_some_iff.mp target).1⟩
  obtain ⟨reversed, perm, transposed⟩ := CsrGraph.tryTranspose_eq bounded few
  have boundedBack : ∀ edge ∈ reversed, edge.1 < builder.idToUuid.length ∧ edge.2 < builder.idToUuid.length := by
    intro edge mem
    obtain ⟨edge', inDense, rfl⟩ := mem_map.mp (perm.mem_iff.mp mem)
    exact (bounded edge' inDense).symm
  have fewBack : reversed.length < 2 ^ 32 := by rwa [perm.length_eq, length_map]
  obtain ⟨restored, perm', transposed'⟩ := CsrGraph.tryTranspose_eq boundedBack fewBack
  have same : restored.Perm dense := by
    have twice := perm'.trans (perm.map Prod.swap)
    simpa using twice
  have sources {list : List (Node × Node)}
      (bounded : ∀ edge ∈ list, edge.1 < builder.idToUuid.length ∧ edge.2 < builder.idToUuid.length) :
      ∀ edge ∈ list, edge.1 < builder.idToUuid.length := fun edge mem => (bounded edge mem).1
  intro index
  rw [show index.numNodes = builder.idToUuid.length from size]
  refine ⟨_, _, _, CsrGraph.tryFromEdges_eq (sources bounded) few, transposed, transposed', ?_,
    fun uuid id => interned.getId_eq, ?_⟩
  · intro uuid
    rw [← interned.users, mem_iff_getElem?]
    exact exists_congr fun id => interned.getId_eq.symm
  · intro uuid id found
    have isUser := interned.getId_eq.mp found
    have inside := (List.getElem?_eq_some_iff.mp isUser).1
    refine ⟨_, _, _, CsrGraph.tryNeighbors_fromEdges (sources bounded) inside,
      CsrGraph.tryNeighbors_fromEdges (sources boundedBack) inside,
      CsrGraph.tryNeighbors_fromEdges (fun edge mem => (bounded edge (same.mem_iff.mp mem)).1) inside,
      bucket_users interned.nodup rows isUser, ?_, bucket_perm same id⟩
    have flipped : List.Forall₂ (fun row edge => builder.idToUuid[edge.1]? = some row.1 ∧
        builder.idToUuid[edge.2]? = some row.2) (edges.map Prod.swap) (dense.map Prod.swap) := by
      rw [forall₂_map_left_iff, forall₂_map_right_iff]
      exact rows.imp fun _ _ both => both.symm
    have back := bucket_users interned.nodup flipped isUser
    rw [filter_map, map_map] at back
    exact ((bucket_perm perm id).map _).trans (List.Perm.of_eq back)

/-- A pair of users with two edges, and one back. -/
def doubledEdges : List (Uuid × Uuid) :=
  [(3, 1), (1, 2), (3, 2), (3, 1), (1, 3)]

theorem dense_graph_doubled :
    ∃ graph, CsrGraph.tryFromEdges (internEdges doubledEdges).1.freeze.numNodes (internEdges doubledEdges).2 =
      some graph ∧
      ∀ uuid, uuid ∈ endpoints doubledEdges ↔ ∃ id, (internEdges doubledEdges).1.freeze.getId uuid = some id := by
  obtain ⟨graph, -, -, built, -, -, occurs, -⟩ := dense_graph_exact doubledEdges (by decide) (by decide)
  exact ⟨graph, built, occurs⟩

end Prismoire
