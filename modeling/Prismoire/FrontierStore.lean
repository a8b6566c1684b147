import Mathlib.Data.List.Sort
import Prismoire.TrustEdges
import Prismoire.Lib.Table

namespace Prismoire

open Lib List Table

/-- A stored edge without its payload; the widths of its keys and hashes are those of the types. -/
structure FrontierEdgeRef where
  canonicalHash : Hash
  sourcePubkey : Key
  targetPubkey : Key
  priorEdgeHash : Option Hash
  stance : TrustStance
  createdAt : Nat
  generation : Nat

def FrontierEdgeRow.ref (row : FrontierEdgeRow) : FrontierEdgeRef where
  canonicalHash := row.canonicalHash
  sourcePubkey := row.sourcePubkey
  targetPubkey := row.targetPubkey
  priorEdgeHash := row.priorEdgeHash
  stance := row.stance
  createdAt := row.createdAt
  generation := row.generation

def Db.frontierEdgesByTarget (db : Db) (target : Key) : List FrontierEdgeRef :=
  (db.frontierEdges.filter (·.targetPubkey = target)).map FrontierEdgeRow.ref

/-- Later by the millisecond, ties by the larger hash. -/
def refNewer (a b : FrontierEdgeRef) : Bool :=
  b.createdAt < a.createdAt || (a.createdAt == b.createdAt && b.canonicalHash < a.canonicalHash)

/-- One round of the loop: the edge replaces the one kept for its source when that is not as new. -/
def keepActive (bySource : Table Key FrontierEdgeRef) (edge : FrontierEdgeRef) : Table Key FrontierEdgeRef :=
  match bySource.get? edge.sourcePubkey with
  | none => bySource ++ [(edge.sourcePubkey, edge)]
  | some existing =>
    if refNewer edge existing then bySource.modify edge.sourcePubkey fun _ => edge else bySource

def activeEdgesBySource (edges : List FrontierEdgeRef) : List FrontierEdgeRef :=
  ((edges.foldl keepActive []).map Prod.snd).insertionSort fun a b => a.sourcePubkey ≤ b.sourcePubkey

variable {a b c : FrontierEdgeRef}

theorem refNewer_iff : refNewer a b = true ↔
    b.createdAt < a.createdAt ∨ a.createdAt = b.createdAt ∧ b.canonicalHash < a.canonicalHash := by
  simp [refNewer]

theorem refNewer_trans (a b c : FrontierEdgeRef) (first : refNewer a b = true) (second : refNewer b c = true) :
    refNewer a c = true := by
  rw [refNewer_iff] at first second ⊢
  rcases first with later | ⟨sameAB, largerAB⟩
  · rcases second with later' | ⟨sameBC, -⟩
    · exact .inl (Nat.lt_trans later' later)
    · exact .inl (sameBC ▸ later)
  · rcases second with later' | ⟨sameBC, largerBC⟩
    · exact .inl (sameAB ▸ later')
    · exact .inr ⟨sameAB.trans sameBC, BitVec.lt_trans largerBC largerAB⟩

theorem refNewer_irrefl (a : FrontierEdgeRef) : refNewer a a = false := by
  simp [refNewer]

theorem get?_foldl_keepActive (edges : List FrontierEdgeRef) (bySource : Table Key FrontierEdgeRef) (source : Key) :
    (edges.foldl keepActive bySource).get? source =
      (edges.filter (·.sourcePubkey = source)).foldl (better refNewer) (bySource.get? source) := by
  induction edges generalizing bySource with
  | nil => rfl
  | cons edge edges ih =>
    rw [foldl_cons, ih]
    by_cases own : edge.sourcePubkey = source
    · subst own
      simp only [filter_cons, decide_true, if_true, foldl_cons]
      congr 1
      cases found : bySource.get? edge.sourcePubkey with
      | none =>
        simp only [keepActive, found, Table.get?_append, Option.none_or, better]
        simp [Table.get?]
      | some existing =>
        simp only [keepActive, found, better]
        split
        · rw [Table.get?_modify_self, found, Option.map_some]
        · exact found
    · simp only [filter_cons, own, decide_false, Bool.false_eq_true, if_false]
      congr 1
      cases found : bySource.get? edge.sourcePubkey with
      | none =>
        simp only [keepActive, found, Table.get?_append]
        simp [Table.get?, own]
      | some existing =>
        simp only [keepActive, found]
        split
        · exact Table.get?_modify_other (Ne.symm own)
        · rfl

structure BySource (bySource : Table Key FrontierEdgeRef) : Prop where
  keyed : Keyed bySource
  own : ∀ entry ∈ bySource, entry.2.sourcePubkey = entry.1

variable {bySource : Table Key FrontierEdgeRef}

theorem BySource.keepActive (table : BySource bySource)
    (edge : FrontierEdgeRef) : BySource (keepActive bySource edge) := by
  rw [Prismoire.keepActive]
  split
  · rename_i missing
    constructor
    · rw [Keyed, map_append, nodup_append]
      refine ⟨table.keyed, by simp, ?_⟩
      rintro key inTable other isNew rfl
      obtain ⟨entry, mem, rfl⟩ := mem_map.mp inTable
      exact Table.get?_eq_none.mp missing entry mem (by simpa using isNew)
    · exact forall_mem_concat.mpr ⟨table.own, rfl⟩
  · split
    · refine ⟨table.keyed.modify _, ?_⟩
      intro entry mem
      rcases mem_modify.mp mem with ⟨old, -, rfl⟩ | ⟨old, -⟩
      · rfl
      · exact table.own entry old
    · exact table

theorem BySource.foldl (table : BySource bySource)
    (edges : List FrontierEdgeRef) : BySource (edges.foldl Prismoire.keepActive bySource) := by
  induction edges generalizing bySource with
  | nil => exact table
  | cons edge edges ih => exact ih (table.keepActive edge)

theorem find?_activeEdgesBySource (edges : List FrontierEdgeRef) (source : Key) :
    (activeEdgesBySource edges).find? (·.sourcePubkey = source) =
      firstBy refNewer (edges.filter (·.sourcePubkey = source)) := by
  have empty : BySource [] := ⟨nodup_nil, by simp⟩
  have table := empty.foldl edges
  have tagged : (edges.foldl keepActive []) =
      ((edges.foldl keepActive []).map Prod.snd).map fun edge => (edge.sourcePubkey, edge) := by
    rw [map_map]
    conv_lhs => rw [← map_id (edges.foldl keepActive [])]
    apply map_congr_left
    intro entry mem
    exact Prod.ext (table.own entry mem).symm rfl
  have sorted : ((activeEdgesBySource edges).map fun edge => (edge.sourcePubkey, edge)).Perm
      (edges.foldl keepActive []) := by
    conv_rhs => rw [tagged]
    exact (perm_insertionSort _ _).map _
  have found : Table.get? ((activeEdgesBySource edges).map fun edge => (edge.sourcePubkey, edge)) source =
      (edges.foldl keepActive []).get? source := table.keyed.get?_perm sorted
  rw [get?_foldl_keepActive, Table.get?, find?_map, Option.map_map] at found
  have same : (Prod.snd ∘ fun edge : FrontierEdgeRef => (edge.sourcePubkey, edge)) = id := rfl
  rw [same, Option.map_id] at found
  exact found

end Prismoire
