import Prismoire.EdgeFeed
import Prismoire.ErasureTerminal

namespace Prismoire

open Lib Db

def OpensChain (user : Key) (edge : TrustEdge) : Prop :=
  (edge.fromKey = user ∨ edge.toKey = user) ∧ edge.priorEdgeHash = none

instance {user : Key} : DecidablePred (OpensChain user) :=
  fun _ => inferInstanceAs (Decidable (_ ∧ _))

/-- What is in the buffer waits for a predecessor. -/
def PendingLinked (platform : Platform) (db : Db) : Prop :=
  ∀ row ∈ db.pendingTrustEdges, ∀ edge, platform.parse row.payload = some (.trustEdge edge) → edge.priorEdgeHash ≠ none

/-- Nothing of a deleted user is left but a row under the names that the deletion gave it. -/
structure Buried (state : AppState) (user : Key) (shown : List Text) (db : Db) : Prop where
  names : (db.users.filter (·.publicKey = user)).map (·.displayName) = shown
  deleted : ∀ row ∈ db.users, row.publicKey = user → row.deleted = true
  keys : ∀ row ∈ db.signingKeys, row.user = user → row.active = false
  edges : ∀ row ∈ db.trustEdges, row.sourceUser ≠ user ∧ row.targetUser ≠ user
  silent : Silent state db (.user user)
  posts : ∀ post ∈ db.posts, post.author = user → post.retracted = true
  linked : PendingLinked state.platform db

variable {state : AppState} {user : Key} {shown : List Text} {db after : Db} {s : Subject} {payload signature : Bytes}
  {hash : Hash} {cls : InnerClass} {targeted : Hash → Bool} {authority : Option Hash}

theorem Silent.store (silent : Silent state db s)
    (other : ∀ object, state.platform.parse payload = some object → s ∉ object.subjects) :
    Silent state (db.storeSignedObject cls payload signature hash) s := by
  unfold storeSignedObject
  split
  · exact silent
  · exact forall_mem_concat.mpr ⟨silent, other⟩

theorem Silent.erase (silent : Silent state db s)
    (run : db.erasePayloads targeted authority = .ok after) : Silent state after s := by
  rw [erasePayloads_frame run]
  exact forall_mem_updateWhere silent fun _ _ _ parses => by cases parses

section

variable (buried : Buried state user shown db)
include buried

theorem Buried.store
    (other : ∀ object, state.platform.parse payload = some object → Subject.user user ∉ object.subjects) :
    Buried state user shown (db.storeSignedObject cls payload signature hash) :=
  { buried with silent := buried.silent.store other }

theorem Buried.storeObject {object : SignedPayload}
    (parses : state.platform.parse payload = some object) (other : Subject.user user ∉ object.subjects) :
    Buried state user shown (db.storeSignedObject cls payload signature hash) := by
  refine buried.store fun found again => ?_
  cases again.symm.trans parses
  exact other

theorem Buried.erase (run : db.erasePayloads targeted authority = .ok after) : Buried state user shown after := by
  have silent := buried.silent.erase run
  rw [erasePayloads_frame run] at silent ⊢
  exact { buried with silent }

theorem Buried.dequeue (source : Key) (prior : Hash) : Buried state user shown (deletePendingOrphan db source prior) :=
  { buried with linked := fun row mem => buried.linked row (List.mem_of_mem_filter mem) }

end

/-- A chain of the user cannot open where an end of its first edge is unknown, nor go on where it has no edge. -/
theorem Buried.walk (start : Db) : EdgeArrival state
    (fun payload _ _ edge => state.platform.parse payload = some (.trustEdge edge) ∧
      (OpensChain user edge → ¬ (start.hasUser edge.fromKey = true ∧ start.hasUser edge.toKey = true)))
    (fun db => Buried state user shown db ∧ db.users = start.users) where
  buffered held mem parses := ⟨parses, fun opens => absurd opens.2 (held.1.linked _ mem _ parses)⟩
  project := by
    intro db payload signature hash edge held fit source target unforked chained
    have sameUser (key : Key) : start.hasUser key = db.hasUser key := by rw [hasUser, hasUser, held.2]
    have other : edge.fromKey ≠ user ∧ edge.toKey ≠ user := by
      cases prior : edge.priorEdgeHash with
      | none =>
        have missing := fun touches => fit.2 ⟨touches, prior⟩
        rw [sameUser, sameUser] at missing
        exact not_or.mp fun touches => missing touches ⟨source, target⟩
      | some prev =>
        have linked := chained prev prior
        simp only [hasPairEdge, List.any_eq_true, decide_eq_true_eq] at linked
        obtain ⟨row, inEdges, isSource, isTarget, -⟩ := linked
        exact isSource ▸ isTarget ▸ held.1.edges row inEdges
    exact ⟨{ held.1 with edges := forall_mem_concat.mpr ⟨held.1.edges, other⟩ }, held.2⟩
  erase held _ run := ⟨held.1.erase run, by rw [erasePayloads_frame run]; exact held.2⟩
  store held fit := ⟨held.1.storeObject fit.1 (by simp [SignedPayload.subjects]), held.2⟩
  enqueue held fit chained := by
    refine ⟨{ held.1 with linked := forall_mem_concat.mpr ⟨held.1.linked, fun edge again => ?_⟩ }, held.2⟩
    cases again.symm.trans fit.1
    simp [chained]
  dequeue source prior held := ⟨held.1.dequeue source prior, held.2⟩
  frontier _ held := ⟨{ held.1 with }, held.2⟩

variable (buried : Buried state user shown db)
include buried

theorem Buried.sweep {key : Key} {flag : Bool}
    (unopened : ∀ candidate ∈ sweepCandidates state db key, ¬ OpensChain user candidate.edge)
    (run : sweepPendingProjections state db key = .ok (after, flag)) : Buried state user shown after := by
  refine ((Buried.walk db).toEdgeWalk.sweep ⟨buried, rfl⟩ ?_ run).1
  intro candidate mem
  exact ⟨(mem_sweepCandidates mem).2.1, fun opens => absurd opens (unopened candidate mem)⟩

theorem Buried.deliverEdge {wire : Bytes} {peer : Key}
    (unopened : ∀ edge ∈ attemptedEdge state db wire, OpensChain user edge →
      ¬ (db.hasUser edge.fromKey = true ∧ db.hasUser edge.toKey = true)) :
    Buried state user shown (deliverEdge state db wire peer) := by
  refine ((Buried.walk db).deliver ⟨buried, rfl⟩ ?_).1
  rintro payload signature hash edge ⟨attempted, parses, -⟩
  exact ⟨parses, unopened edge attempted⟩

end Prismoire
