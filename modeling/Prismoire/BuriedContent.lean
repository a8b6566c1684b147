import Prismoire.BuriedEdges

namespace Prismoire

open Lib List Db

/-- Only a profile sweeps parked edges, so it is the one class that can bring an edge of the user back. -/
def SignedPayload.profile? : SignedPayload → Option ProfileRevision
  | .profileRevision p => some p
  | _ => none

variable {state : AppState} {user : Key} {shown : List Text} {db after : Db} {payload signature : Bytes} {hash : Hash}
  {arrivedFrom : Key} {status : ContentStatus}

section

variable (buried : Buried state user shown db)
include buried

theorem Buried.insertPost {post : PostRow} (other : post.author ≠ user)
    (run : db.insertPost post = .ok after) : Buried state user shown after := by
  obtain ⟨-, -, -, -, rfl⟩ := insertPost_ok.mp run
  refine { buried with posts := ?_ }
  exact forall_mem_concat.mpr ⟨buried.posts, fun mine => absurd mine other⟩

theorem Buried.updatePosts {keep : PostRow → Bool} {set : PostRow → PostRow}
    (author : ∀ post, (set post).author = post.author)
    (retracted : ∀ post, post.retracted = true → (set post).retracted = true) :
    ∀ post ∈ updateWhere keep set db.posts, post.author = user → post.retracted = true :=
  forall_mem_updateWhere buried.posts fun post gone mine => retracted post (gone ((author post).symm.trans mine))

variable {outcome : ProjectionOutcome}

variable {p : PostRevision} {author key : Key}

theorem Buried.projectRevision (other : p.author ≠ user)
    (run : projectRemotePostRevision state db p signature hash arrivedFrom = .ok (outcome, after)) :
    Buried state user shown after := by
  obtain ⟨rfl, -⟩ | ⟨-, -, -, opened, recorded, opening, recordedRun, boundRun⟩ := projectRemotePostRevision_ok run
  · exact buried
  · have open_ : Buried state user shown opened := by
      rcases opening with ⟨-, openedRun⟩ | ⟨-, -, rfl⟩
      · exact buried.insertPost other openedRun
      · exact { buried with posts := buried.updatePosts (fun _ => rfl) fun _ => id }
    obtain ⟨-, -, rfl⟩ := insertPostRevision_ok.mp recordedRun
    obtain ⟨attachments, blobs, rfl⟩ := projectPostAttachments_frame boundRun
    exact { open_ with }

theorem Buried.reprojectThread {threadId : Uuid}
    (run : reprojectOrphanPostRevsForThread state db threadId arrivedFrom = .ok after) :
    Buried state user shown after := by
  refine settle_invariant (Buried state user shown) ?_ buried run
  intro orphan mem mid outcome final kept tried
  obtain ⟨⟨projection, last⟩, attempted, returned⟩ := bind_ok.mp tried
  cases returned
  refine kept.projectRevision ?_ attempted
  -- no stored bytes of the user are left for the sweep to find
  obtain ⟨row, inObjects, found⟩ := mem_filterMap.mp mem
  unfold orphanPostRev at found
  split at found
  · split at found
    · rename_i p parses
      split at found
      · cases found
        have uncovered := buried.silent row inObjects _ parses
        simpa [SignedPayload.subjects, eq_comm] using uncovered
      · cases found
    · cases found
  · cases found

theorem Buried.room {slug : Text}
    (run : getOrCreateRoom db slug author = .ok after) : Buried state user shown after := by
  obtain ⟨rooms, rfl⟩ := getOrCreateRoom_frame run
  exact { buried with }

theorem Buried.projectThread {t : ThreadCreate}
    (run : projectThreadAndOrphans state db t hash arrivedFrom = .ok after) : Buried state user shown after := by
  obtain ⟨⟨outcome, mid⟩, projected, rest⟩ := bind_ok.mp run
  have kept : Buried state user shown mid := by
    obtain ⟨rfl, -⟩ | ⟨-, -, roomed, roomRun, inserted⟩ := projectRemoteThreadCreate_ok projected
    · exact buried
    · obtain ⟨-, -, -, rfl⟩ := insertThread_ok.mp inserted
      exact { buried.room roomRun with }
  dsimp only at rest
  split at rest
  · exact kept.reprojectThread rest
  · cases rest
    exact kept

theorem Buried.reprojectAuthor
    (run : reprojectOrphanThreadsForAuthor state db author arrivedFrom = .ok after) : Buried state user shown after :=
  foldlM_invariant (Buried state user shown) (fun _ _ _ _ kept projected => kept.projectThread projected) buried run

theorem Buried.hydrate {home : Key} {displayName : Text}
    (other : key ≠ user) : Buried state user shown (hydrateStubUser state db key displayName home) := by
  unfold hydrateStubUser
  dsimp only
  split
  · split
    · refine { buried with names := ?_, deleted := ?_ }
      · rw [← buried.names]
        apply map_filter_updateWhere
        · exact fun _ _ => rfl
        · exact fun row hit mine => absurd ((of_decide_eq_true hit).symm.trans (of_decide_eq_true mine)) other
      · intro row mem mine
        obtain ⟨old, inUsers, ⟨hit, rfl⟩ | ⟨-, rfl⟩⟩ := mem_updateWhere.mp mem
        · exact absurd ((of_decide_eq_true hit).symm.trans mine) other
        · exact buried.deleted _ inUsers mine
    · exact { buried with }
  · refine { buried with names := ?_, deleted := ?_ }
    · rw [filter_append]
      simp [other, buried.names]
    · exact forall_mem_concat.mpr ⟨buried.deleted, fun mine => absurd mine other⟩

theorem Buried.projectProfile {p : ProfileRevision} {swept : Bool} (other : p.user ≠ user)
    (asleep : isLocalAuthoritative state db p.user arrivedFrom = false →
      ∀ candidate ∈ sweepCandidates state db p.user, ¬ OpensChain user candidate.edge)
    (run : projectRemoteProfile state db p signature hash arrivedFrom = .ok (outcome, after, swept)) :
    Buried state user shown after := by
  obtain rfl | ⟨foreign, -, mid, flag, sweptRun, threadsRun⟩ := projectRemoteProfile_run run
  · exact buried
  · have hydrated : Buried state user shown (hydrateStubUser state db p.user p.displayName
        (resolveCurrentHome db p.user arrivedFrom)) := buried.hydrate other
    have profiled : Buried state user shown (profiledDb state db p signature hash arrivedFrom) := { hydrated with }
    exact (profiled.sweep (asleep foreign) sweptRun).reprojectAuthor threadsRun

/-- Another key being erased retracts posts and frees files, none of which the user gets back. -/
theorem Buried.eraseAll {authority : Hash}
    (run : eraseAllForUserKey db key authority = .ok after) : Buried state user shown after := by
  obtain ⟨edged, profiled, revised, unbound, edgesRun, profilesRun, revisionsRun, unboundRun, rfl⟩ | ⟨-, rfl⟩ :=
    eraseAllForUserKey_statements run
  · have erased := ((buried.erase edgesRun).erase profilesRun).erase revisionsRun
    obtain ⟨blobs, rfl⟩ := deletePostAttachments_frame unboundRun
    refine { erased with names := ?_, deleted := ?_, posts := ?_ }
    · rw [← erased.names]
      apply map_filter_updateWhere <;> intros <;> rfl
    · intro row mem mine
      obtain ⟨old, inUsers, ⟨-, rfl⟩ | ⟨-, rfl⟩⟩ := mem_updateWhere.mp mem
      · rfl
      · exact erased.deleted _ inUsers mine
    · exact erased.updatePosts (fun _ => rfl) fun _ _ => rfl
  · exact buried

theorem Buried.adminRm {a : AdminRemoval}
    (parses : state.platform.parse payload = some (.adminRemoval a))
    (run : applyAdminRm state db arrivedFrom payload signature a = .ok (status, after)) :
    Buried state user shown after := by
  obtain ⟨rfl, -⟩ | ⟨-, -, -, -, erased, erasedRun, rfl⟩ := applyAdminRm_ok run
  · exact buried
  · have stored : Buried state user shown (db.storeSignedObject .adminRm payload signature
        (state.platform.sha256 payload)) := buried.storeObject parses (by simp [SignedPayload.subjects])
    exact { stored.erase erasedRun with }

end

theorem sweepCandidates_store {cls : InnerClass} {key : Key} (other : cls ≠ .trustEdge) :
    sweepCandidates state (db.storeSignedObject cls payload signature hash) key = sweepCandidates state db key := by
  unfold sweepCandidates storeSignedObject
  split
  · rfl
  · rw [filterMap_append]
    have missed : List.filterMap (sweepCandidate state db key)
        [{ canonicalHash := hash, innerClass := cls, payload := some payload, signature }] = [] := by
      simp [sweepCandidate, other]
    exact (congrArg _ missed).trans (append_nil _)

/-- An object of another user keeps the user buried unless its sweep opens a chain of the user. -/
theorem Buried.ingest {object : SignedPayload} (buried : Buried state user shown db)
    (parses : state.platform.parse payload = some object) (other : Subject.user user ∉ object.subjects)
    (asleep : ∀ p ∈ object.profile?, isLocalAuthoritative state db p.user arrivedFrom = false →
      ∀ candidate ∈ sweepCandidates state db p.user, ¬ OpensChain user candidate.edge)
    (run : ingestObject state db payload signature arrivedFrom object = .ok (status, after)) :
    Buried state user shown after := by
  obtain ⟨rfl, -⟩ | ⟨a, rfl, applied⟩ | ⟨cls, key, classed, -, handled⟩ := ingestObject_ok run
  · exact buried
  · exact buried.adminRm parses applied
  · have stored : Buried state user shown (db.storeSignedObject cls payload signature
        (state.platform.sha256 payload)) := buried.storeObject parses other
    cases handled with
    | retraction ran => exact stored.erase ran
    | deactivation ran => exact stored.eraseAll ran
    | profileRevision ran =>
      cases classed
      refine stored.projectProfile (by simpa [SignedPayload.subjects, eq_comm] using other) ?_ ran
      intro foreign
      rw [sweepCandidates_store (by decide)]
      exact asleep _ rfl foreign
    | postRevision ran => exact stored.projectRevision (by simpa [SignedPayload.subjects, eq_comm] using other) ran
    | threadCreate ran => exact stored.projectThread ran

/-- The condition looks only at what gets past the checks of the delivery. -/
theorem Buried.deliverObject {wire : Bytes} (buried : Buried state user shown db)
    (quiet : ∀ a ∈ arrival state db wire, Subject.user user ∉ a.object.subjects ∧
      ∀ p ∈ a.object.profile?, isLocalAuthoritative state db p.user arrivedFrom = false →
        ∀ candidate ∈ sweepCandidates state db p.user, ¬ OpensChain user candidate.edge) :
    Buried state user shown (deliverObject state db wire arrivedFrom) := by
  unfold Prismoire.deliverObject
  split
  · rename_i result final run
    rcases applyOneObject_arrival run with rfl | ⟨a, arrives, -, admitted, -, ingested⟩
    · exact buried
    · obtain ⟨other, asleep⟩ := quiet a arrives
      exact buried.ingest (admitObject_ok admitted).1 other asleep ingested
  · exact buried

end Prismoire
