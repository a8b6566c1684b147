import Prismoire.IngestTotality

namespace Prismoire

open Lib Db

variable {after db : Db} {corpus : Corpus} {state : AppState}

section Edges

/-- The hash of a trust-edge of the run, which a sweep may promote from the buffer. -/
def EdgeHash (state : AppState) (corpus : Corpus) (hash : Hash) : Prop :=
  ∃ payload signature edge, Filed state.platform corpus payload signature (.trustEdge edge) ∧
    hash = state.platform.sha256 payload

theorem EdgeEffects.authorities (effects : EdgeEffects state corpus db after) :
    after.adminRmAuthorities = db.adminRmAuthorities := by
  induction effects with
  | refl => rfl
  | tail _ step ih =>
    obtain ⟨objects, edges, pending, frontier, rfl⟩ := step.frame
    exact ih

theorem EdgeEffects.new_object (effects : EdgeEffects state corpus db after) {hash : Hash}
    (stored : after.hasObject hash = true) : db.hasObject hash = true ∨ EdgeHash state corpus hash := by
  induction effects with
  | refl => exact .inl stored
  | tail _ step ih =>
    cases step with
    | store filed =>
      rcases hasObject_storeSignedObject.mp stored with rfl | known
      · exact .inr ⟨_, _, _, filed, rfl⟩
      · exact ih known
    | project => exact ih stored
    | erase projected run => exact ih (by rwa [hasObject_erasePayloads run] at stored)
    | enqueue => exact ih stored
    | dequeue => exact ih stored
    | frontier => exact ih stored

end Edges

variable {payload signature : Bytes} {arrivedFrom : Key}

theorem projectRemoteProfile_footprint {p : ProfileRevision} {outcome : ProjectionOutcome} {swept : Bool}
    (sound : Sound state corpus db)
    (landing : Landing state corpus true db payload signature (.profileRevision p))
    (fresh : ∀ row ∈ db.profileRevisions, row.canonicalHash ≠ state.platform.sha256 payload)
    (run : projectRemoteProfile state db p signature (state.platform.sha256 payload) arrivedFrom =
      .ok (outcome, after, swept)) :
    after.adminRmAuthorities = db.adminRmAuthorities ∧
      ∀ hash, after.hasObject hash = true → db.hasObject hash = true ∨ EdgeHash state corpus hash := by
  obtain rfl | ⟨-, mid, profile, edges, reprojected⟩ := projectRemoteProfile_ok sound landing fresh run
  · exact ⟨rfl, fun hash => .inl⟩
  · have edgeEffects : Effects state corpus true _ mid := edges.effects
    have threads := reprojectOrphanThreadsForAuthor_projects (edgeEffects.sound (profile.sound sound)) reprojected
    refine ⟨threads.authorities.trans edges.authorities, ?_⟩
    intro hash stored
    rw [hasObject, threads.objects] at stored
    exact edges.new_object stored

theorem eraseAllForUserKey_footprint {user : Key} {authority : Hash}
    (run : eraseAllForUserKey db user authority = .ok after) :
    after.adminRmAuthorities = db.adminRmAuthorities ∧ ∀ hash, after.hasObject hash = db.hasObject hash := by
  obtain ⟨_, _, _, objects, rfl⟩ | rfl := eraseAllForUserKey_frame run
  · exact ⟨rfl, objects⟩
  · exact ⟨rfl, fun _ => rfl⟩

theorem adminRmBlocks_insert {row : AdminRmAuthorityRow} {post : Uuid} :
    adminRmBlocks (insertAdminRmAuthority db row) post = true ↔ adminRmBlocks db post = true ∨ row.postId = post := by
  cases present : adminRmBlocks db row.postId with
  | true =>
    simp only [insertAdminRmAuthority, present, if_true]
    constructor
    · exact .inl
    · rintro (known | rfl)
      · exact known
      · exact present
  | false =>
    simp only [insertAdminRmAuthority, present, Bool.false_eq_true, if_false]
    simp [adminRmBlocks]

def removes (post : Uuid) : SignedPayload → Prop
  | .adminRemoval a => a.postId = post
  | _ => False

/-- What a transaction adds to the two tables that the reads of a call look at. -/
structure Footprint (state : AppState) (corpus : Corpus) (payload : Bytes) (object : SignedPayload)
    (applied : Prop) (db after : Db) : Prop where
  idle : ¬ applied → after = db
  objects : ∀ hash, after.hasObject hash = true →
    db.hasObject hash = true ∨ hash = state.platform.sha256 payload ∨ EdgeHash state corpus hash
  removals : ∀ post, adminRmBlocks after post = true ↔ adminRmBlocks db post = true ∨ (applied ∧ removes post object)

variable {object : SignedPayload} {status : ContentStatus}

theorem Footprint.of_frame {applied : Prop} (cls : InnerClass) (signature : Bytes)
    (done : applied) (nothing : ∀ post, ¬ removes post object)
    (authorities : after.adminRmAuthorities = db.adminRmAuthorities)
    (objects : ∀ hash, after.hasObject hash = true →
      (db.storeSignedObject cls payload signature (state.platform.sha256 payload)).hasObject hash = true ∨
        EdgeHash state corpus hash) :
    Footprint state corpus payload object applied db after := by
  refine ⟨fun undone => absurd done undone, ?_, ?_⟩
  · intro hash stored
    rcases objects hash stored with known | edge
    · rcases hasObject_storeSignedObject.mp known with rfl | known
      · exact .inr (.inl rfl)
      · exact .inl known
    · exact .inr (.inr edge)
  · intro post
    simp [adminRmBlocks, authorities, nothing post]

theorem applyAdminRm_footprint {a : AdminRemoval} (occurs : corpus payload)
    (parses : state.platform.parse payload = some (.adminRemoval a))
    (run : applyAdminRm state db arrivedFrom payload signature a = .ok (status, after)) :
    Footprint state corpus payload (.adminRemoval a) (status = .applied) db after := by
  by_cases applied : status = .applied
  · subst applied
    obtain ⟨-, -, erased, erasedRun, rfl⟩ := applyAdminRm_applied occurs parses run
    refine ⟨fun undone => absurd rfl undone, ?_, ?_⟩
    · intro hash stored
      have known : erased.hasObject hash = true := stored
      rw [hasObject_erasePayloads erasedRun] at known
      rcases hasObject_storeSignedObject.mp known with rfl | known
      · exact .inr (.inl rfl)
      · exact .inl known
    · intro post
      have same : adminRmBlocks erased post = adminRmBlocks db post := by
        rw [erasePayloads_frame erasedRun]
        rfl
      rw [adminRmBlocks_insert, same]
      simp [removes]
  · rw [applyAdminRm_refused applied run]
    exact ⟨fun _ => rfl, fun hash => .inl, by simp [applied]⟩

theorem ingestObject_footprint (sound : Sound state corpus db)
    (occurs : corpus payload) (admitted : admitObject state.platform payload signature = .ok object)
    (absent : db.hasObject (state.platform.sha256 payload) = false)
    (run : ingestObject state db payload signature arrivedFrom object = .ok (status, after)) :
    Footprint state corpus payload object (status = .applied) db after := by
  obtain ⟨rfl, rfl⟩ | ⟨a, rfl, applied⟩ | ⟨cls, key, classed, rfl, handled⟩ := ingestObject_ok run
  · exact ⟨fun _ => rfl, fun hash => .inl, by simp⟩
  · exact applyAdminRm_footprint occurs (admitObject_ok admitted).1 applied
  · have filed := Filed.of_admitted occurs admitted classed
    have stored : Effect state corpus true db _ := filed.storing classed
    have nothing : ∀ post, ¬ removes post object := fun _ => by cases handled <;> exact id
    cases handled with
    | retraction ran =>
      refine .of_frame cls signature rfl nothing (by rw [erasePayloads_frame ran]; rfl) ?_
      intro hash known
      exact .inl (by rwa [hasObject_erasePayloads ran] at known)
    | deactivation ran =>
      obtain ⟨authorities, objects⟩ := eraseAllForUserKey_footprint ran
      refine .of_frame cls signature rfl nothing authorities ?_
      intro hash known
      exact .inl (by rwa [objects] at known)
    | profileRevision ran =>
      obtain ⟨authorities, objects⟩ := projectRemoteProfile_footprint (stored.sound sound) (filed.landing absent)
        (sound.profile_fresh absent) ran
      exact .of_frame cls signature rfl nothing authorities objects
    | postRevision ran =>
      have projects := (projectRemotePostRevision_projects (filed.landing absent) ran).1
      refine .of_frame cls signature rfl nothing projects.authorities ?_
      intro hash known
      exact .inl (by rwa [hasObject, projects.objects] at known)
    | threadCreate ran =>
      have projects := projectThreadAndOrphans_projects (stored.sound sound) (filed.landing absent) ran
      refine .of_frame cls signature rfl nothing projects.authorities ?_
      intro hash known
      exact .inl (by rwa [hasObject, projects.objects] at known)

end Prismoire
