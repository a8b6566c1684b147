import Mathlib.Data.List.Dedup
import Prismoire.ReverseFrontier

namespace Prismoire

open Lib List Function Db Table

/-- The edge that decides a pair: the latest, ties by the larger hash. -/
def Db.activeEdge (db : Db) (source target : Key) : Option FrontierEdgeRef :=
  firstBy refNewer ((db.frontierEdgesByTarget target).filter (·.sourcePubkey = source))

def Db.Trusts (db : Db) (source target : Key) : Prop :=
  ∃ edge, db.activeEdge source target = some edge ∧ edge.stance = .trust

/-- So many active trust edges lead from one key to another. -/
inductive TrustPath (db : Db) : Nat → Key → Key → Prop
  | here (key : Key) : TrustPath db 0 key key
  | step {n : Nat} {source next target : Key} (trusts : db.Trusts source next) (path : TrustPath db n next target) :
      TrustPath db (n + 1) source target

/-- A path of so many edges to a reader, and none to any reader that is shorter. -/
structure ReverseHop (db : Db) (readers : List FrontierReader) (n : Nat) (key : Key) : Prop where
  path : ∃ reader ∈ readers, TrustPath db n key reader.key
  least : ∀ m, ∀ reader ∈ readers, TrustPath db m key reader.key → n ≤ m

variable {edge : FrontierEdgeRef} {db : Db} {key : Key}

section Graph

variable {edges : List FrontierEdgeRef} {f : FrontierEdgeRef → FrontierEdgeRef}

theorem sources_activeEdgesBySource (edges : List FrontierEdgeRef) :
    ((activeEdgesBySource edges).map (·.sourcePubkey)).Nodup := by
  have empty : BySource [] := ⟨nodup_nil, by simp⟩
  have table := empty.foldl edges
  have keys : ((edges.foldl keepActive []).map Prod.snd).map (·.sourcePubkey) =
      (edges.foldl keepActive []).map Prod.fst := by
    rw [map_map]
    exact map_congr_left table.own
  rw [activeEdgesBySource, ((perm_insertionSort _ _).map _).nodup_iff, keys]
  exact table.keyed

theorem mem_activeEdgesBySource : edge ∈ activeEdgesBySource edges ↔
    firstBy refNewer (edges.filter (·.sourcePubkey = edge.sourcePubkey)) = some edge := by
  rw [← find?_activeEdgesBySource]
  constructor
  · exact find?_of_nodup (sources_activeEdgesBySource edges)
  · exact mem_of_find?_eq_some

def Db.trusters (db : Db) (node : Key) : List Key :=
  ((activeEdgesBySource (db.frontierEdgesByTarget node)).filter (·.stance = .trust)).map (·.sourcePubkey)

variable {n : Nat}

theorem mem_trusters {source target : Key} : source ∈ db.trusters target ↔ db.Trusts source target := by
  rw [trusters, mem_map]
  constructor
  · rintro ⟨edge, mem, rfl⟩
    obtain ⟨active, trusts⟩ := mem_filter.mp mem
    exact ⟨edge, mem_activeEdgesBySource.mp active, by simpa using trusts⟩
  · rintro ⟨edge, isActive, trusts⟩
    have own : edge.sourcePubkey = source := by
      have found := find?_some ((find?_activeEdgesBySource _ source).trans isActive)
      simpa using found
    subst own
    exact ⟨edge, mem_filter.mpr ⟨mem_activeEdgesBySource.mpr isActive, by simpa using trusts⟩, rfl⟩

theorem reaches_iff {start : List Key} :
    Search.Reaches db.trusters start n key ↔ ∃ root ∈ start, TrustPath db n key root := by
  constructor
  · intro walk
    induction walk with
    | start mem => exact ⟨_, mem, .here _⟩
    | step walk mem ih =>
      obtain ⟨root, isRoot, path⟩ := ih
      exact ⟨root, isRoot, .step (mem_trusters.mp mem) path⟩
  · rintro ⟨root, isRoot, path⟩
    induction path with
    | here => exact .start isRoot
    | step trusts path ih => exact .step (ih isRoot) (mem_trusters.mpr trusts)

theorem shortest_iff {readers : List FrontierReader} :
    Search.Shortest db.trusters (readers.map (·.key)) n key ↔ ReverseHop db readers n key := by
  have walks : ∀ m, Search.Reaches db.trusters (readers.map (·.key)) m key ↔
      ∃ reader ∈ readers, TrustPath db m key reader.key := by
    intro m
    rw [reaches_iff]
    simp
  constructor
  · rintro ⟨reaches, least⟩
    exact ⟨(walks n).mp reaches, fun m reader mem path => least m ((walks m).mpr ⟨reader, mem, path⟩)⟩
  · rintro ⟨path, least⟩
    refine ⟨(walks n).mpr path, fun m reaches => ?_⟩
    obtain ⟨reader, mem, path⟩ := (walks m).mp reaches
    exact least m reader mem path

variable (sources : ∀ edge, (f edge).sourcePubkey = edge.sourcePubkey)
  (newer : ∀ a b, refNewer (f a) (f b) = refNewer a b)
include sources newer

theorem keepActive_map (bySource : Table Key FrontierEdgeRef) :
    (keepActive bySource edge).map (Prod.map id f) = keepActive (bySource.map (Prod.map id f)) (f edge) := by
  have lookup : ∀ key, get? (bySource.map (Prod.map id f)) key = (bySource.get? key).map f := by
    intro key
    rw [get?, get?, find?_map, Option.map_map, Option.map_map]
    rfl
  rw [keepActive, keepActive, lookup, sources]
  cases found : bySource.get? edge.sourcePubkey with
  | none => simp [Prod.map]
  | some existing =>
    simp only [Option.map_some, newer]
    split
    · rw [Table.modify, Table.modify, map_map, map_map]
      apply map_congr_left
      intro entry _
      by_cases hit : entry.1 = edge.sourcePubkey <;> simp [Prod.map, hit]
    · rfl

theorem activeEdgesBySource_map : activeEdgesBySource (edges.map f) = (activeEdgesBySource edges).map f := by
  have folds : ∀ bySource : Table Key FrontierEdgeRef, (edges.foldl keepActive bySource).map (Prod.map id f) =
      (edges.map f).foldl keepActive (bySource.map (Prod.map id f)) := by
    induction edges with
    | nil => intro bySource; rfl
    | cons edge edges ih =>
      intro bySource
      rw [foldl_cons, ih, keepActive_map sources newer, map_cons, foldl_cons]
  have values := congrArg (List.map Prod.snd) (folds [])
  rw [map_map, show Prod.snd ∘ Prod.map id f = f ∘ Prod.snd from rfl, ← map_map] at values
  rw [activeEdgesBySource, activeEdgesBySource, ← map_nil, ← values]
  exact (map_insertionSort _ _ f _ fun a _ b _ => by rw [sources, sources]).symm

end Graph

def Db.needsStub (db : Db) (key : Key) : Bool :=
  !db.isLocalUser key && (db.resolveFrontierHome key).isSome

def stampRow (marked : List Hash) (generation : Nat) (row : FrontierEdgeRow) : FrontierEdgeRow :=
  if row.canonicalHash ∈ marked then { row with generation } else row

def upsertStub (generation : Nat) (rows : List FrontierUserRow) (item : Key × Nat) : List FrontierUserRow :=
  if rows.any (·.userKey = item.1) then
    rows.map fun row => if row.userKey = item.1 then { row with generation, reverseHop := item.2 } else row
  else rows ++ [{ userKey := item.1, generation, reverseHop := item.2 }]

/-- The tables after the edges with these hashes were marked and these nodes materialized. -/
def Db.swept (db : Db) (generation : Nat) (marked : List Hash) (reached : List (Key × Nat)) : Db :=
  { db with
    frontierEdges := db.frontierEdges.map (stampRow marked generation)
    frontierUsers := (reached.filter fun item => db.needsStub item.1).foldl (upsertStub generation) db.frontierUsers }

variable {generation : Nat} {marked : List Hash}

section Sweep

variable {reached : List (Key × Nat)} {hop : Nat}

theorem mark_swept (hash : Hash) : (db.swept generation marked reached).markFrontierEdgeLive hash generation =
    db.swept generation (marked ++ [hash]) reached := by
  simp only [markFrontierEdgeLive, swept, map_map]
  congr 1
  apply map_congr_left
  intro row _
  rw [comp_apply, stampRow, stampRow]
  by_cases old : row.canonicalHash ∈ marked
  · rw [if_pos old, if_pos (mem_append_left _ old)]
    split <;> rfl
  · rw [if_neg old]
    by_cases same : row.canonicalHash = hash
    · rw [if_pos same, if_pos (by simp [same])]
    · rw [if_neg same, if_neg (by simp [old, same])]

/-- A hop that the `CHECK` on a stub lets through, or a key that gets none. -/
def Db.Fits (db : Db) (item : Key × Nat) : Prop :=
  item.2 ≤ 3 ∨ db.needsStub item.1 = false

instance (item : Key × Nat) : Decidable (db.Fits item) :=
  inferInstanceAs (Decidable (_ ∨ _))

theorem materialize_swept (positive : 1 ≤ hop) (fits : db.Fits (key, hop)) :
    ∃ how, (db.swept generation marked reached).materializeFrontierNode key generation hop =
      .ok (db.swept generation marked (reached ++ [(key, hop)]), how) := by
  have same : ∀ needs : db.needsStub key = false,
      db.swept generation marked (reached ++ [(key, hop)]) = db.swept generation marked reached := by
    intro needs
    simp [swept, filter_append, needs]
  rw [materializeFrontierNode, show (db.swept generation marked reached).isLocalUser key = db.isLocalUser key from rfl,
    show (db.swept generation marked reached).resolveFrontierHome key = db.resolveFrontierHome key from rfl]
  by_cases isLocal : db.isLocalUser key = true
  · rw [if_pos isLocal, same (by simp [needsStub, isLocal])]
    exact ⟨.isLocal, rfl⟩
  · rw [if_neg isLocal]
    cases home : db.resolveFrontierHome key with
    | none =>
      rw [same (by simp [needsStub, home])]
      exact ⟨.deferred, rfl⟩
    | some found =>
      have needs : db.needsStub key = true := by simp [needsStub, isLocal, home]
      have shallow : hop ≤ 3 := fits.resolve_right (by simp [needs])
      refine ⟨.stub, ?_⟩
      simp [upsertFrontierUserStub, require, positive, shallow, swept, filter_append, needs, upsertStub,
        bind, Except.bind, pure, Except.pure]

theorem materialize_refused (unfit : ¬ db.Fits (key, hop)) :
    (db.swept generation marked reached).materializeFrontierNode key generation hop = .error .check := by
  obtain ⟨deep, needs⟩ := not_or.mp unfit
  have shape := needs
  simp only [needsStub, Bool.not_eq_false, Bool.and_eq_true, Bool.not_eq_true', Option.isSome_iff_exists] at shape
  obtain ⟨isRemote, home, isHome⟩ := shape
  rw [materializeFrontierNode, show (db.swept generation marked reached).isLocalUser key = db.isLocalUser key from rfl,
    show (db.swept generation marked reached).resolveFrontierHome key = db.resolveFrontierHome key from rfl, isHome,
    if_neg (by simp [isRemote])]
  have tooDeep : (1 ≤ hop && hop ≤ 3 : Bool) = false := by
    simp only [Bool.and_eq_false_iff, decide_eq_false_iff_not]
    exact .inr deep
  simp [upsertFrontierUserStub, require, tooDeep, bind, Except.bind]

def stampRef (marked : List Hash) (generation : Nat) (edge : FrontierEdgeRef) : FrontierEdgeRef :=
  if edge.canonicalHash ∈ marked then { edge with generation } else edge

theorem stampRef_sourcePubkey (edge : FrontierEdgeRef) :
    (stampRef marked generation edge).sourcePubkey = edge.sourcePubkey := by
  rw [stampRef]
  split <;> rfl

theorem stampRef_stance (edge : FrontierEdgeRef) : (stampRef marked generation edge).stance = edge.stance := by
  rw [stampRef]
  split <;> rfl

theorem stampRef_canonicalHash (edge : FrontierEdgeRef) :
    (stampRef marked generation edge).canonicalHash = edge.canonicalHash := by
  rw [stampRef]
  split <;> rfl

theorem refNewer_stampRef (a b : FrontierEdgeRef) :
    refNewer (stampRef marked generation a) (stampRef marked generation b) = refNewer a b := by
  simp only [stampRef]
  split <;> split <;> rfl

theorem activeEdgesBySource_swept (node : Key) :
    activeEdgesBySource ((db.swept generation marked reached).frontierEdgesByTarget node) =
      (activeEdgesBySource (db.frontierEdgesByTarget node)).map (stampRef marked generation) := by
  rw [← activeEdgesBySource_map stampRef_sourcePubkey refNewer_stampRef]
  congr 1
  have target : ∀ row, (stampRow marked generation row).targetPubkey = row.targetPubkey := by
    intro row
    rw [stampRow]
    split <;> rfl
  have ref : ∀ row, (stampRow marked generation row).ref = stampRef marked generation row.ref := by
    intro row
    rw [stampRow, stampRef, show row.ref.canonicalHash = row.canonicalHash from rfl]
    split <;> rfl
  simp only [frontierEdgesByTarget, swept, filter_map, map_map]
  have same : (fun row : FrontierEdgeRow => decide (row.targetPubkey = node)) ∘ stampRow marked generation =
      fun row => decide (row.targetPubkey = node) := by
    funext row
    simp [target]
  rw [same]
  exact map_congr_left fun row _ => ref row

end Sweep

/-- The readers as the search starts with them. -/
def roots (readers : List FrontierReader) : List (Key × Nat) :=
  readers.map fun reader => (reader.key, 0)

/-- What a node adds to the queue. -/
def Db.hops (db : Db) (maxDepth : Nat) (item : Key × Nat) : List (Key × Nat) :=
  if item.2 < maxDepth then (db.trusters item.1).map fun source => (source, item.2 + 1) else []

/-- The edges that are marked when a node is expanded. -/
def Db.liveEdges (db : Db) (maxDepth : Nat) (item : Key × Nat) : List Hash :=
  if item.2 < maxDepth then (activeEdgesBySource (db.frontierEdgesByTarget item.1)).map (·.canonicalHash) else []

def Db.marks (db : Db) (maxDepth : Nat) (search : Search (Key × Nat)) : List Hash :=
  (search.seen.take search.done).flatMap (db.liveEdges maxDepth)

/-- The sweep is where a search of the trusters is, with room left in every cap. -/
structure Mirrors (db : Db) (readers : List FrontierReader) (capN generation : Nat) (search : Search (Key × Nat))
    (marked : List Hash) (fresh : List (Key × Nat)) (sweep : FrontierSweep) : Prop where
  within : search.done ≤ search.seen.length
  nodup : (search.seen.map Prod.fst).Nodup
  seen : search.seen = firsts Prod.fst (roots readers) ++ fresh
  visited : sweep.visited = search.seen.map Prod.fst
  queue : sweep.queue = search.seen.drop search.done
  reachable : sweep.frontier.reachable = fresh.map Prod.fst
  tables : sweep.db = db.swept generation marked fresh
  sources : ∀ item ∈ fresh, item.1 ∈ db.frontierEdges.map (·.sourcePubkey)
  fits : ∀ item ∈ fresh, db.Fits item
  caps : sweep.caps.length = readers.length
  room : ∀ cap ∈ sweep.caps, cap.cap = capN ∧ cap.heap.length = fresh.length

/-- A step that keeps up with the search, or that stops at a stub the `CHECK` refuses. -/
inductive KeepsUp (db : Db) (readers : List FrontierReader) (capN generation : Nat) (search : Search (Key × Nat))
    (marked : List Hash) (result : SweepResult FrontierSweep) : Prop
  | done (fresh : List (Key × Nat)) (sweep : FrontierSweep) (isOk : result = .ok sweep)
      (mirrors : Mirrors db readers capN generation search marked fresh sweep)
  | refused (item : Key × Nat) (failed : FrontierSweep) (mem : item ∈ search.seen) (unfit : ¬ db.Fits item)
      (isError : result = .error (.check, failed))

variable {capN maxDepth : Nat} {fresh : List (Key × Nat)} {readers : List FrontierReader}
    {search : Search (Key × Nat)} {sweep : FrontierSweep}

section Loop

variable {depth : Nat}

theorem admit_room {cap : AdmissionCap} (room : cap.heap.length < cap.cap) (adm : Admission) :
    cap.tryAdmit adm = ({ cap with heap := adm :: cap.heap }, true) := by
  rw [AdmissionCap.tryAdmit, if_neg (by omega), if_pos room]

theorem mem_offers {source : Key} {result : AdmissionCap × Bool} (mem : result ∈ sweep.offers readers source) :
    ∃ cap ∈ sweep.caps, ∃ adm, result = cap.tryAdmit adm := by
  obtain ⟨i, inside, isResult⟩ := getElem_of_mem mem
  simp only [FrontierSweep.offers, getElem_zipWith] at isResult
  exact ⟨_, getElem_mem _, _, isResult.symm⟩

section

variable (mirrors : Mirrors db readers capN generation search marked fresh sweep)
include mirrors

theorem Mirrors.admits (some_ : readers ≠ []) (spare : fresh.length < capN) (source : Key) :
    (sweep.offers readers source).any Prod.snd = true ∧
      ((sweep.offers readers source).map Prod.fst).length = readers.length ∧
      ∀ cap ∈ (sweep.offers readers source).map Prod.fst, cap.cap = capN ∧ cap.heap.length = fresh.length + 1 := by
  have count : (sweep.offers readers source).length = readers.length := by
    rw [FrontierSweep.offers, length_zipWith, mirrors.caps, Nat.min_self]
  have each : ∀ result ∈ sweep.offers readers source,
      result.2 = true ∧ result.1.cap = capN ∧ result.1.heap.length = fresh.length + 1 := by
    intro result mem
    obtain ⟨cap, isCap, adm, rfl⟩ := mem_offers mem
    obtain ⟨isCapN, isLength⟩ := mirrors.room cap isCap
    rw [admit_room (by omega)]
    exact ⟨rfl, isCapN, by simp [isLength]⟩
  refine ⟨?_, by rw [length_map, count], ?_⟩
  · have nonempty : sweep.offers readers source ≠ [] := by
      intro empty
      rw [empty] at count
      exact some_ (eq_nil_of_length_eq_zero count.symm)
    obtain ⟨result, mem⟩ := exists_mem_of_ne_nil _ nonempty
    exact any_eq_true.mpr ⟨result, mem, (each result mem).1⟩
  · intro cap mem
    obtain ⟨result, isResult, rfl⟩ := mem_map.mp mem
    exact (each result isResult).2

theorem Mirrors.spare (enough : (db.frontierEdges.map (·.sourcePubkey)).dedup.length ≤ capN) {source : Key}
    (isSource : source ∈ db.frontierEdges.map (·.sourcePubkey)) (new : source ∉ search.seen.map Prod.fst) :
    fresh.length < capN := by
  have nodup := mirrors.nodup
  rw [mirrors.seen, map_append] at nodup new
  have freshNodup : (fresh.map Prod.fst).Nodup := nodup.of_append_right
  have apart : source ∉ fresh.map Prod.fst := fun mem => new (mem_append_right _ mem)
  have subset : source :: fresh.map Prod.fst ⊆ (db.frontierEdges.map (·.sourcePubkey)).dedup := by
    intro key mem
    rw [mem_dedup]
    rcases mem_cons.mp mem with rfl | old
    · exact isSource
    · obtain ⟨item, isItem, rfl⟩ := mem_map.mp old
      exact mirrors.sources item isItem
  have few := (subperm_of_subset (nodup_cons.mpr ⟨apart, freshNodup⟩) subset).length_le
  rw [length_cons, length_map] at few
  omega

end

def offerEdge (depth : Nat) (seen : List (Key × Nat)) (edge : FrontierEdgeRef) : List (Key × Nat) :=
  if edge.stance = .trust then offer Prod.fst seen (edge.sourcePubkey, depth + 1) else seen

theorem prefix_offerEdge (seen : List (Key × Nat)) (edge : FrontierEdgeRef) : seen <+: offerEdge depth seen edge := by
  rw [offerEdge]
  split
  · exact prefix_foldl_offer seen [(edge.sourcePubkey, depth + 1)]
  · exact prefix_refl seen

section

variable (mirrors : Mirrors db readers capN generation search marked fresh sweep)
include mirrors

theorem Mirrors.mark (hash : Hash) :
    Mirrors db readers capN generation search (marked ++ [hash]) fresh (sweep.mark hash generation) := by
  refine { mirrors with tables := ?_ }
  rw [FrontierSweep.mark, mirrors.tables]
  exact mark_swept hash

theorem Mirrors.reach
    (enough : (db.frontierEdges.map (·.sourcePubkey)).dedup.length ≤ capN) (some_ : readers ≠ []) {source : Key}
    (isSource : source ∈ db.frontierEdges.map (·.sourcePubkey)) (new : source ∉ search.seen.map Prod.fst) :
    KeepsUp db readers capN generation { search with seen := search.seen ++ [(source, depth + 1)] } marked
      (FrontierSweep.reach readers generation (depth + 1) sweep source) := by
  obtain ⟨admitted, count, room⟩ := mirrors.admits some_ (mirrors.spare enough isSource new) source
  rw [FrontierSweep.reach, if_neg (not_not.mpr admitted)]
  by_cases fits : db.Fits (source, depth + 1)
  · obtain ⟨how, materialized⟩ := @materialize_swept db source generation marked fresh (depth + 1) (by omega) fits
    rw [mirrors.tables, materialized]
    have counted : ∀ frontier : ReverseFrontier, (frontier.count how).reachable = frontier.reachable := by
      intro frontier
      cases how <;> rfl
    refine .done (fresh ++ [(source, depth + 1)]) _ rfl ?_
    constructor
    case within =>
      have within := mirrors.within
      show search.done ≤ (search.seen ++ [(source, depth + 1)]).length
      rw [length_append]
      omega
    case nodup =>
      rw [map_append]
      exact mirrors.nodup.append (nodup_singleton _) (by simpa using new)
    case seen => rw [mirrors.seen, append_assoc]
    case visited => simp [mirrors.visited]
    case queue => simp [drop_append_of_le_length mirrors.within, mirrors.queue]
    case reachable => simp [counted, mirrors.reachable]
    case tables => rfl
    case sources => exact forall_mem_append.mpr ⟨mirrors.sources, forall_mem_singleton.mpr isSource⟩
    case fits => exact forall_mem_append.mpr ⟨mirrors.fits, forall_mem_singleton.mpr fits⟩
    case caps => exact count
    case room => simpa using room
  · rw [mirrors.tables, materialize_refused fits]
    exact .refused (source, depth + 1) _ (mem_append_right _ (mem_singleton_self _)) fits rfl

theorem Mirrors.visit (depth : Nat)
    (enough : (db.frontierEdges.map (·.sourcePubkey)).dedup.length ≤ capN) (some_ : readers ≠ [])
    (isSource : edge.sourcePubkey ∈ db.frontierEdges.map (·.sourcePubkey)) :
    KeepsUp db readers capN generation { search with seen := offerEdge depth search.seen edge }
      (marked ++ [edge.canonicalHash]) (FrontierSweep.visitEdge readers generation depth sweep edge) := by
  have marks := mirrors.mark edge.canonicalHash
  rw [FrontierSweep.visitEdge, offerEdge]
  by_cases trusts : edge.stance = .trust
  · rw [if_neg (not_not.mpr trusts), if_pos trusts, marks.visited, offer]
    by_cases old : edge.sourcePubkey ∈ search.seen.map Prod.fst
    · rw [if_pos old, if_pos old]
      exact .done fresh _ rfl marks
    · rw [if_neg old, if_neg old]
      exact marks.reach enough some_ isSource old
  · rw [if_pos trusts, if_neg trusts]
    exact .done fresh _ rfl marks

end

theorem prefix_foldl_offerEdge (edges : List FrontierEdgeRef) (seen : List (Key × Nat)) :
    seen <+: edges.foldl (offerEdge depth) seen := by
  induction edges generalizing seen with
  | nil => exact prefix_refl seen
  | cons edge edges ih => exact (prefix_offerEdge seen edge).trans (ih (offerEdge depth seen edge))

theorem Mirrors.visits (mirrors : Mirrors db readers capN generation search marked fresh sweep) (depth : Nat)
    (enough : (db.frontierEdges.map (·.sourcePubkey)).dedup.length ≤ capN) (some_ : readers ≠ [])
    (edges : List FrontierEdgeRef)
    (areSources : ∀ edge ∈ edges, edge.sourcePubkey ∈ db.frontierEdges.map (·.sourcePubkey)) :
    KeepsUp db readers capN generation { search with seen := edges.foldl (offerEdge depth) search.seen }
      (marked ++ edges.map (·.canonicalHash))
      (edges.foldlM (FrontierSweep.visitEdge readers generation depth) sweep) := by
  induction edges generalizing search marked fresh sweep with
  | nil =>
    rw [map_nil, append_nil]
    exact .done fresh sweep rfl mirrors
  | cons edge edges ih =>
    rw [foldlM_cons, foldl_cons, map_cons, append_cons]
    cases mirrors.visit depth enough some_ (areSources edge (mem_cons_self ..)) with
    | done fresh sweep isOk mirrors =>
      rw [isOk]
      exact ih mirrors fun edge later => areSources edge (mem_cons_of_mem _ later)
    | refused item failed mem unfit isError =>
      rw [isError]
      exact .refused item failed ((prefix_foldl_offerEdge edges _).subset mem) unfit rfl

theorem foldl_offerEdge (edges : List FrontierEdgeRef) (seen : List (Key × Nat)) : edges.foldl (offerEdge depth) seen =
      (((edges.filter (·.stance = .trust)).map (·.sourcePubkey)).map fun source => (source, depth + 1)).foldl
        (offer Prod.fst) seen := by
  induction edges generalizing seen with
  | nil => rfl
  | cons edge edges ih =>
    rw [foldl_cons, ih, offerEdge]
    by_cases trusts : edge.stance = .trust
    · simp [trusts]
    · simp [trusts]

theorem row_of_active {node : Key} (mem : edge ∈ activeEdgesBySource (db.frontierEdgesByTarget node)) :
    ∃ row ∈ db.frontierEdges, row.ref = edge ∧ row.targetPubkey = node ∧
      ∀ other ∈ db.frontierEdges, other.targetPubkey = node → other.sourcePubkey = edge.sourcePubkey →
        refNewer other.ref edge = false := by
  have isFirst := mem_activeEdgesBySource.mp mem
  have some_ : (db.frontierEdgesByTarget node).filter (·.sourcePubkey = edge.sourcePubkey) ≠ [] := by
    intro empty
    rw [empty] at isFirst
    cases isFirst
  obtain ⟨first, inRows, isSome, least⟩ := firstBy_spec refNewer_trans refNewer_irrefl some_
  obtain rfl : first = edge := Option.some.inj (isSome.symm.trans isFirst)
  obtain ⟨row, isRow, rfl⟩ := mem_map.mp (mem_filter.mp inRows).1
  obtain ⟨isRow, isTarget⟩ := mem_filter.mp isRow
  refine ⟨row, isRow, rfl, of_decide_eq_true isTarget, fun other isOther target source => ?_⟩
  exact least other.ref (mem_filter.mpr
    ⟨mem_map_of_mem (mem_filter.mpr ⟨isOther, decide_eq_true target⟩), decide_eq_true source⟩)

theorem sourcePubkey_mem {node : Key} (mem : edge ∈ activeEdgesBySource (db.frontierEdgesByTarget node)) :
    edge.sourcePubkey ∈ db.frontierEdges.map (·.sourcePubkey) := by
  obtain ⟨row, isRow, rfl, -⟩ := row_of_active mem
  exact mem_map.mpr ⟨row, isRow, rfl⟩

section

variable (mirrors : Mirrors db readers capN generation search marked fresh sweep)
include mirrors

theorem Mirrors.expand (maxDepth : Nat)
    (enough : (db.frontierEdges.map (·.sourcePubkey)).dedup.length ≤ capN) (some_ : readers ≠ []) (item : Key × Nat) :
    KeepsUp db readers capN generation
      { search with seen := (db.hops maxDepth item).foldl (offer Prod.fst) search.seen }
      (marked ++ db.liveEdges maxDepth item)
      (FrontierSweep.expand readers generation maxDepth sweep item.1 item.2) := by
  rw [FrontierSweep.expand, hops, liveEdges]
  by_cases shallow : item.2 < maxDepth
  · rw [if_pos shallow, if_pos shallow, if_neg (Nat.not_le.mpr shallow), mirrors.tables, activeEdgesBySource_swept]
    have visits := mirrors.visits item.2 enough some_
      ((activeEdgesBySource (db.frontierEdgesByTarget item.1)).map (stampRef marked generation)) (by
        intro edge mem
        obtain ⟨active, isActive, rfl⟩ := mem_map.mp mem
        rw [stampRef_sourcePubkey]
        exact sourcePubkey_mem isActive)
    have sources : (((activeEdgesBySource (db.frontierEdgesByTarget item.1)).map (stampRef marked generation)).filter
        (·.stance = .trust)).map (·.sourcePubkey) = db.trusters item.1 := by
      rw [filter_map, map_map, trusters]
      simp [comp_def, stampRef_stance, stampRef_sourcePubkey]
    rw [foldl_offerEdge, sources, map_map] at visits
    simpa [comp_def, stampRef_canonicalHash] using visits
  · rw [if_neg shallow, if_neg shallow, if_pos (Nat.not_lt.mp shallow), append_nil]
    exact .done fresh sweep rfl mirrors

theorem Mirrors.pop {item : Key × Nat} (isNext : search.seen[search.done]? = some item) :
    sweep.queue = item :: search.seen.drop (search.done + 1) ∧
      Mirrors db readers capN generation { search with done := search.done + 1 } marked fresh
        { sweep with queue := search.seen.drop (search.done + 1) } := by
  obtain ⟨inside, isItem⟩ := List.getElem?_eq_some_iff.mp isNext
  refine ⟨?_, { mirrors with within := inside, queue := rfl }⟩
  rw [mirrors.queue, drop_eq_getElem_cons inside, isItem]

end

theorem Mirrors.loop (enough : (db.frontierEdges.map (·.sourcePubkey)).dedup.length ≤ capN) (fuel : Nat)
    (mirrors : Mirrors db readers capN generation search (db.marks maxDepth search) fresh sweep)
    (some_ : readers = [] → search.seen = []) :
    KeepsUp db readers capN generation (Search.run Prod.fst (db.hops maxDepth) fuel search)
      (db.marks maxDepth (Search.run Prod.fst (db.hops maxDepth) fuel search))
      (FrontierSweep.loop readers generation maxDepth fuel sweep) := by
  induction fuel generalizing search fresh sweep with
  | zero => exact .done fresh sweep rfl mirrors
  | succ fuel ih =>
    cases isNext : search.seen[search.done]? with
    | none =>
      have within := mirrors.within
      have idle : search.done = search.seen.length := by
        have beyond := List.getElem?_eq_none_iff.mp isNext
        omega
      have empty : sweep.queue = [] := by rw [mirrors.queue, idle, drop_length]
      rw [Search.run_of_idle idle, FrontierSweep.loop, empty]
      exact .done fresh sweep rfl mirrors
    | some item =>
      obtain ⟨isQueue, popped⟩ := mirrors.pop isNext
      have nonempty : readers ≠ [] := by
        intro none_
        rw [some_ none_] at isNext
        cases isNext
      have stepped : Search.step Prod.fst (db.hops maxDepth) search =
          { done := search.done + 1, seen := (db.hops maxDepth item).foldl (offer Prod.fst) search.seen } := by
        rw [Search.step, isNext]
      have grown : db.marks maxDepth search ++ db.liveEdges maxDepth item =
          db.marks maxDepth (Search.step Prod.fst (db.hops maxDepth) search) := by
        rw [stepped, Db.marks, Db.marks, Search.take_offered isNext, flatMap_append]
        simp
      have expands := popped.expand maxDepth enough nonempty item
      rw [grown] at expands
      rw [FrontierSweep.loop, isQueue, Search.run]
      cases expands with
      | done fresh sweep isOk mirrors =>
        simp only [isOk]
        rw [← stepped] at mirrors
        exact ih mirrors fun none_ => absurd none_ nonempty
      | refused item failed mem unfit isError =>
        simp only [isError]
        rw [← stepped] at mem
        exact .refused item failed ((Search.prefix_seen_run fuel _).subset mem) unfit rfl

theorem foldl_seed (readers : List FrontierReader) (sweep : FrontierSweep)
    (same : sweep.visited = sweep.queue.map Prod.fst) :
    readers.foldl FrontierSweep.seed sweep = { sweep with
      visited := ((roots readers).foldl (offer Prod.fst) sweep.queue).map Prod.fst
      queue := (roots readers).foldl (offer Prod.fst) sweep.queue } := by
  induction readers generalizing sweep with
  | nil => rw [roots, map_nil, foldl_nil, foldl_nil, ← same]
  | cons reader readers ih =>
    have seeded : sweep.seed reader = { sweep with
        visited := (offer Prod.fst sweep.queue (reader.key, 0)).map Prod.fst
        queue := offer Prod.fst sweep.queue (reader.key, 0) } := by
      rw [FrontierSweep.seed, offer, same]
      by_cases old : reader.key ∈ sweep.queue.map Prod.fst
      · rw [if_pos old, if_pos old, ← same]
      · rw [if_neg old, if_neg old, map_append, map_singleton]
    rw [foldl_cons, seeded, ih _ rfl]
    rfl

theorem mirrors_start (db : Db) (readers : List FrontierReader) (capN generation maxDepth : Nat) :
    Mirrors db readers capN generation { seen := firsts Prod.fst (roots readers) }
      (db.marks maxDepth { seen := firsts Prod.fst (roots readers) }) []
      (readers.foldl FrontierSweep.seed { db, caps := readers.map fun _ => { cap := capN } }) := by
  rw [foldl_seed readers _ rfl]
  have unmarked : db.swept generation [] [] = db := by
    have stamp : stampRow [] generation = id := by
      funext row
      rw [stampRow, if_neg (by simp), id]
    rw [swept, stamp, map_id, filter_nil, foldl_nil]
  constructor
  case within => exact Nat.zero_le _
  case nodup => exact nodup_firsts _
  case seen => rw [append_nil]
  case tables => exact unmarked.symm
  case room =>
    intro cap mem
    obtain ⟨reader, -, rfl⟩ := mem_map.mp mem
    exact ⟨rfl, rfl⟩
  case caps => simp
  all_goals simp [firsts]

end Loop

section Stubs

variable {rows : List FrontierUserRow} {row : FrontierUserRow} {item : Key × Nat}

def stubRow (generation : Nat) (item : Key × Nat) : FrontierUserRow :=
  { userKey := item.1, generation, reverseHop := item.2 }

theorem mem_upsertStub : row ∈ upsertStub generation rows item ↔
    row = stubRow generation item ∨ row ∈ rows ∧ row.userKey ≠ item.1 := by
  have updated : ∀ old : FrontierUserRow, old.userKey = item.1 →
      { old with generation, reverseHop := item.2 } = stubRow generation item := by
    intro old same
    rw [stubRow, ← same]
  rw [upsertStub]
  by_cases present : rows.any (·.userKey = item.1) = true
  · rw [if_pos present, mem_map]
    obtain ⟨old, isOld, same⟩ := any_eq_true.mp present
    rw [decide_eq_true_eq] at same
    constructor
    · rintro ⟨before, mem, rfl⟩
      by_cases hit : before.userKey = item.1
      · rw [if_pos hit]
        exact .inl (updated before hit)
      · rw [if_neg hit]
        exact .inr ⟨mem, hit⟩
    · rintro (rfl | ⟨mem, other⟩)
      · exact ⟨old, isOld, by rw [if_pos same, updated old same]⟩
      · exact ⟨row, mem, by rw [if_neg other]⟩
  · rw [if_neg present, mem_append, mem_singleton, or_comm]
    have absent : ∀ old ∈ rows, old.userKey ≠ item.1 := by simpa using present
    constructor
    · rintro (new | old)
      · exact .inl new
      · exact .inr ⟨old, absent row old⟩
    · rintro (new | ⟨old, -⟩)
      · exact .inl new
      · exact .inr old

theorem mem_foldl_upsertStub {items : List (Key × Nat)} (nodup : (items.map Prod.fst).Nodup) :
    row ∈ items.foldl (upsertStub generation) rows ↔
      (∃ item ∈ items, row = stubRow generation item) ∨ row ∈ rows ∧ row.userKey ∉ items.map Prod.fst := by
  induction items generalizing rows with
  | nil => simp
  | cons item items ih =>
    obtain ⟨apart, nodup⟩ := nodup_cons.mp nodup
    rw [foldl_cons, ih nodup, mem_upsertStub, map_cons, mem_cons, not_or]
    constructor
    · rintro (⟨other, mem, isRow⟩ | ⟨rfl | ⟨mem, different⟩, unlisted⟩)
      · exact .inl ⟨other, mem_cons_of_mem _ mem, isRow⟩
      · exact .inl ⟨item, mem_cons_self, rfl⟩
      · exact .inr ⟨mem, different, unlisted⟩
    · rintro (⟨other, mem, rfl⟩ | ⟨mem, different, unlisted⟩)
      · rcases mem_cons.mp mem with rfl | later
        · exact .inr ⟨.inl rfl, apart⟩
        · exact .inl ⟨other, later, rfl⟩
      · exact .inr ⟨.inr ⟨mem, different⟩, unlisted⟩

end Stubs

def StubsFit (db : Db) (readers : List FrontierReader) (maxDepth : Nat) : Prop :=
  ∀ key n, ReverseHop db readers n key → n ≤ maxDepth → db.Fits (key, n)

/-- What the sweep leaves behind when it has gone through: the ball of trust around the readers. -/
structure Ball (db : Db) (readers : List FrontierReader) (generation maxDepth : Nat) (sweep : FrontierSweep) : Prop where
  ended : sweep.queue = []
  reachable : ∀ key, key ∈ sweep.frontier.reachable ↔
    (∀ reader ∈ readers, key ≠ reader.key) ∧ ∃ n ≤ maxDepth, ∃ reader ∈ readers, TrustPath db n key reader.key
  stubs : ∀ row, row ∈ sweep.db.frontierUsers ↔
    (row.userKey ∈ sweep.frontier.reachable ∧ db.needsStub row.userKey = true ∧ row.generation = generation ∧
      ReverseHop db readers row.reverseHop row.userKey) ∨
    (row ∈ db.frontierUsers ∧ ¬ (row.userKey ∈ sweep.frontier.reachable ∧ db.needsStub row.userKey = true))
  edges : ∃ live : List Hash, sweep.db.frontierEdges = db.frontierEdges.map (stampRow live generation) ∧
    ∀ hash, hash ∈ live ↔ ∃ source target edge, db.activeEdge source target = some edge ∧ edge.canonicalHash = hash ∧
      ∃ n < maxDepth, ∃ reader ∈ readers, TrustPath db n target reader.key

section Whole

variable {seen : List (Key × Nat)}

theorem roots_keys (readers : List FrontierReader) : (roots readers).map Prod.fst = readers.map (·.key) := by
  rw [roots, map_map]
  rfl

theorem explores_trusters (db : Db) (readers : List FrontierReader) (maxDepth : Nat) :
    Search.Explores Prod.fst Prod.snd (db.hops maxDepth) (roots readers) db.trusters 0 maxDepth where
  shallow := Nat.zero_le _
  level item mem := by
    obtain ⟨reader, -, rfl⟩ := mem_map.mp mem
    rfl
  deeper item child mem := by
    rw [hops] at mem
    split at mem
    · obtain ⟨source, -, rfl⟩ := mem_map.mp mem
      rfl
    · cases mem
  children item := by
    rw [hops]
    split
    · rw [map_map]
      exact map_id _
    · rfl

theorem closed_trusters (db : Db) (readers : List FrontierReader) (maxDepth : Nat) :
    Search.Closed Prod.fst (db.hops maxDepth) (roots readers)
      (readers.map (·.key) ++ db.frontierEdges.map (·.sourcePubkey)) where
  seeds item mem := by
    obtain ⟨reader, isReader, rfl⟩ := mem_map.mp mem
    exact mem_append_left _ (mem_map_of_mem isReader)
  children item _ child mem := by
    rw [hops] at mem
    split at mem
    · obtain ⟨source, isSource, rfl⟩ := mem_map.mp mem
      obtain ⟨edge, isEdge, rfl⟩ := mem_map.mp isSource
      exact mem_append_right _ (sourcePubkey_mem (mem_filter.mp isEdge).1)
    · cases mem

section

variable (explored : Search.Explored Prod.fst Prod.snd (db.hops maxDepth) (roots readers) seen)
include explored

theorem explored_hop
    {item : Key × Nat} (mem : item ∈ seen) : ReverseHop db readers item.2 item.1 ∧ item.2 ≤ maxDepth := by
  obtain ⟨n, isDepth, short, shortest⟩ := explored.shortest (explores_trusters db readers maxDepth) mem
  rw [Nat.zero_add] at isDepth short
  rw [roots_keys] at shortest
  rw [isDepth]
  exact ⟨shortest_iff.mp shortest, short⟩

theorem explored_keys
    {key : Key} : key ∈ seen.map Prod.fst ↔ ∃ n ≤ maxDepth, ∃ reader ∈ readers, TrustPath db n key reader.key := by
  rw [explored.mem_keys_iff (explores_trusters db readers maxDepth), roots_keys]
  simp only [Nat.zero_add, reaches_iff, mem_map, exists_exists_and_eq_and]

end

theorem ReverseHop.unique {m n : Nat} (hop : ReverseHop db readers m key)
    (other : ReverseHop db readers n key) : m = n := by
  obtain ⟨reader, mem, path⟩ := hop.path
  obtain ⟨reader', mem', path'⟩ := other.path
  exact Nat.le_antisymm (hop.least n reader' mem' path') (other.least m reader mem path)

theorem explored_fits (explored : Search.Explored Prod.fst Prod.snd (db.hops maxDepth) (roots readers) seen) :
    StubsFit db readers maxDepth ↔ ∀ item ∈ seen, db.Fits item := by
  constructor
  · intro fit item mem
    obtain ⟨hop, short⟩ := explored_hop explored mem
    exact fit item.1 item.2 hop short
  · intro fit key n hop short
    have found : key ∈ seen.map Prod.fst := (explored_keys explored).mpr ⟨n, short, hop.path⟩
    obtain ⟨item, mem, rfl⟩ := mem_map.mp found
    rw [hop.unique (explored_hop explored mem).1]
    exact fit item mem

theorem Mirrors.fresh_keys {marked : List Hash}
    (mirrors : Mirrors db readers capN generation search marked fresh sweep) :
    key ∈ fresh.map Prod.fst ↔ (∀ reader ∈ readers, key ≠ reader.key) ∧ key ∈ search.seen.map Prod.fst := by
  have nodup := mirrors.nodup
  rw [mirrors.seen, map_append] at nodup ⊢
  have isRoot : key ∈ (firsts Prod.fst (roots readers)).map Prod.fst ↔ ∃ reader ∈ readers, reader.key = key := by
    rw [firsts, mem_keys_foldl_offer, roots_keys]
    simp
  constructor
  · intro mem
    refine ⟨?_, mem_append_right _ mem⟩
    rintro reader isReader rfl
    exact disjoint_of_nodup_append nodup (isRoot.mpr ⟨reader, isReader, rfl⟩) mem
  · rintro ⟨notReader, mem⟩
    rcases mem_append.mp mem with root | isFresh
    · obtain ⟨reader, isReader, rfl⟩ := isRoot.mp root
      exact absurd rfl (notReader reader isReader)
    · exact isFresh

theorem mem_marks (explored : Search.Explored Prod.fst Prod.snd (db.hops maxDepth) (roots readers) seen) {hash : Hash} :
    hash ∈ seen.flatMap (db.liveEdges maxDepth) ↔
      ∃ source target edge, db.activeEdge source target = some edge ∧ edge.canonicalHash = hash ∧
        ∃ n < maxDepth, ∃ reader ∈ readers, TrustPath db n target reader.key := by
  rw [mem_flatMap]
  constructor
  · rintro ⟨item, mem, live⟩
    rw [liveEdges] at live
    split at live
    · rename_i shallow
      obtain ⟨edge, isEdge, rfl⟩ := mem_map.mp live
      obtain ⟨hop, -⟩ := explored_hop explored mem
      exact ⟨edge.sourcePubkey, item.1, edge, mem_activeEdgesBySource.mp isEdge, rfl, item.2, shallow, hop.path⟩
    · cases live
  · rintro ⟨source, target, edge, active, rfl, n, short, reader, isReader, path⟩
    have found : target ∈ seen.map Prod.fst := (explored_keys explored).mpr ⟨n, by omega, reader, isReader, path⟩
    obtain ⟨item, mem, rfl⟩ := mem_map.mp found
    have near := (explored_hop explored mem).1.least n reader isReader path
    have own : edge.sourcePubkey = source := by
      simpa using find?_some ((find?_activeEdgesBySource _ source).trans active)
    subst own
    refine ⟨item, mem, ?_⟩
    rw [liveEdges, if_pos (by omega)]
    exact mem_map_of_mem (mem_activeEdgesBySource.mpr active)

theorem Mirrors.ball (mirrors : Mirrors db readers capN generation search (db.marks maxDepth search) fresh sweep)
    (idle : search.done = search.seen.length)
    (explored : Search.Explored Prod.fst Prod.snd (db.hops maxDepth) (roots readers) search.seen) :
    Ball db readers generation maxDepth sweep := by
  have isReachable : ∀ key, key ∈ sweep.frontier.reachable ↔ key ∈ fresh.map Prod.fst := fun key => by
    rw [mirrors.reachable]
  have sub : ∀ item ∈ fresh, item ∈ search.seen := fun item mem => by
    rw [mirrors.seen]
    exact mem_append_right _ mem
  constructor
  case ended => rw [mirrors.queue, idle, drop_length]
  case reachable =>
    intro key
    rw [isReachable, mirrors.fresh_keys, explored_keys explored]
  case stubs =>
    intro row
    have nodup : ((fresh.filter fun item => db.needsStub item.1).map Prod.fst).Nodup := by
      have all := mirrors.nodup
      rw [mirrors.seen, map_append] at all
      exact all.of_append_right.sublist (filter_sublist.map _)
    have listed : row.userKey ∈ (fresh.filter fun item => db.needsStub item.1).map Prod.fst ↔
        row.userKey ∈ sweep.frontier.reachable ∧ db.needsStub row.userKey = true := by
      rw [isReachable, mem_map, mem_map]
      constructor
      · rintro ⟨item, mem, same⟩
        obtain ⟨isFresh, needs⟩ := mem_filter.mp mem
        exact ⟨⟨item, isFresh, same⟩, same ▸ needs⟩
      · rintro ⟨⟨item, isFresh, same⟩, needs⟩
        exact ⟨item, mem_filter.mpr ⟨isFresh, same ▸ needs⟩, same⟩
    rw [mirrors.tables]
    show row ∈ (fresh.filter fun item => db.needsStub item.1).foldl (upsertStub generation) db.frontierUsers ↔ _
    rw [mem_foldl_upsertStub nodup, listed]
    refine or_congr_left ?_
    constructor
    · rintro ⟨item, mem, rfl⟩
      obtain ⟨isFresh, needs⟩ := mem_filter.mp mem
      exact ⟨(isReachable _).mpr (mem_map_of_mem isFresh), needs, rfl, (explored_hop explored (sub item isFresh)).1⟩
    · rintro ⟨isKey, needs, isGeneration, hop⟩
      obtain ⟨item, isFresh, same⟩ := mem_map.mp ((isReachable _).mp isKey)
      refine ⟨item, mem_filter.mpr ⟨isFresh, same ▸ needs⟩, ?_⟩
      have isHop : item.2 = row.reverseHop := (same ▸ (explored_hop explored (sub item isFresh)).1).unique hop
      rw [stubRow, same, isHop, ← isGeneration]
  case edges =>
    refine ⟨search.seen.flatMap (db.liveEdges maxDepth), ?_, fun hash => mem_marks explored⟩
    rw [mirrors.tables, swept, Db.marks, idle, take_length]

/-- With a cap for every source the sweep ends in the ball around the readers, unless a stub of the ball is too far. -/
theorem reverse_frontier_ball (fuel : Nat) (db : Db) (readers : List FrontierReader) (capN generation maxDepth : Nat)
    (enough : (db.frontierEdges.map (·.sourcePubkey)).dedup.length ≤ capN)
    (time : readers.length + db.frontierEdges.length ≤ fuel) :
    (StubsFit db readers maxDepth → ∃ sweep, reverseFrontierBfs fuel db readers capN generation maxDepth = .ok sweep ∧
        Ball db readers generation maxDepth sweep) ∧
    (¬ StubsFit db readers maxDepth → ∃ failed,
      reverseFrontierBfs fuel db readers capN generation maxDepth = .error (.check, failed)) := by
  have some_ : readers = [] → firsts Prod.fst (roots readers) = [] := by
    rintro rfl
    rfl
  have keepsUp := (mirrors_start db readers capN generation maxDepth).loop enough fuel some_
  obtain ⟨idle, explored⟩ := (explores_trusters db readers maxDepth).explored (closed_trusters db readers maxDepth)
    (n := fuel) (by simpa using time)
  rw [explored_fits explored]
  rw [reverseFrontierBfs]
  cases keepsUp with
  | done fresh sweep isOk mirrors =>
    refine ⟨fun _ => ⟨sweep, isOk, mirrors.ball idle explored⟩, fun unfit => absurd ?_ unfit⟩
    intro item mem
    rw [mirrors.seen] at mem
    rcases mem_append.mp mem with root | isFresh
    · have isRoot := (nil_append (roots readers) ▸ foldl_offer_sublist [] (roots readers)).subset root
      have isLevel := (explores_trusters db readers maxDepth).level item isRoot
      exact .inl (by omega)
    · exact mirrors.fits item isFresh
  | refused item failed mem unfit isError =>
    exact ⟨fun fit => absurd (fit item mem) unfit, fun _ => ⟨failed, isError⟩⟩

end Whole

/-- The remote key `n + 1` trusts the key `n`, so that all trust the reader `0` over one another. -/
def trustChain (length : Nat) : Db where
  frontierEdges := (List.range length).map fun n =>
    { canonicalHash := BitVec.ofNat 256 n
      sourcePubkey := BitVec.ofNat 256 (n + 1)
      targetPubkey := BitVec.ofNat 256 n
      priorEdgeHash := none
      stance := .trust
      createdAt := 5
      payload := []
      signature := []
      generation := 0 }
  userHomes := (List.range length).map fun n =>
    { userKey := BitVec.ofNat 256 (n + 1)
      currentHomeKey := 99
      currentHomeDomain := "far.example"
      currentMoveHash := none
      currentCreatedAt := none }

def chainReaders : List FrontierReader := [{ key := 0, forwardScores := [] }]

theorem third_key_reached : ∃ sweep, reverseFrontierBfs 4 (trustChain 3) chainReaders 3 1 3 = .ok sweep ∧
    Ball (trustChain 3) chainReaders 1 3 sweep :=
  (reverse_frontier_ball 4 (trustChain 3) chainReaders 3 1 3 (by decide +kernel) (by decide)).1
    fun _ _ _ short => .inl short

/-- A fourth hop does not go into a stub, and the whole sweep fails on it. -/
theorem fourth_hop_refused : ¬ ∀ (fuel : Nat) (db : Db) (readers : List FrontierReader) (capN generation maxDepth : Nat),
    (db.frontierEdges.map (·.sourcePubkey)).dedup.length ≤ capN →
    readers.length + db.frontierEdges.length ≤ fuel →
    ∃ sweep, reverseFrontierBfs fuel db readers capN generation maxDepth = .ok sweep ∧
      Ball db readers generation maxDepth sweep := by
  intro all
  obtain ⟨sweep, isOk, -⟩ := all 5 (trustChain 4) chainReaders 4 1 4 (by decide +kernel) (by decide)
  have refused : (reverseFrontierBfs 5 (trustChain 4) chainReaders 4 1 4).isOk = false := by
    decide +kernel
  rw [isOk] at refused
  cases refused

end Prismoire
