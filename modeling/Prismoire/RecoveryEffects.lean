import Prismoire.BulkPages
import Prismoire.Footprint
import Prismoire.LocalIngest
import Prismoire.RegistrationMoves

namespace Prismoire

open Lib List Option Db

structure GainsNothing (platform : Platform) (corpus : Corpus) (key : Key) (db after : Db) : Prop where
  lives : after.livesHere key = true
  posts : ∀ post ∈ after.posts, post.author = key → ∃ old ∈ db.posts, old.id = post.id ∧ old.author = key
  revisions : ∀ payload signature p, Filed platform corpus payload signature (.postRevision p) → p.author = key →
    ∀ row ∈ after.postRevisions, row.canonicalHash = platform.sha256 payload →
      ∃ old ∈ db.postRevisions, old.canonicalHash = platform.sha256 payload

variable {after db mid : Db} {arrivedFrom key : Key} {corpus : Corpus} {state : AppState} {p : PostRevision}

section Gains

theorem GainsNothing.refl {platform : Platform} (lives : db.livesHere key = true) :
    GainsNothing platform corpus key db db :=
  ⟨lives, fun post mem own => ⟨post, mem, rfl, own⟩, fun _ _ _ _ _ row mem same => ⟨row, mem, same⟩⟩

theorem GainsNothing.trans {platform : Platform} (first : GainsNothing platform corpus key db mid)
    (second : GainsNothing platform corpus key mid after) : GainsNothing platform corpus key db after := by
  refine ⟨second.lives, ?_, ?_⟩
  · intro post mem own
    obtain ⟨old, inMid, sameId, sameAuthor⟩ := second.posts post mem own
    obtain ⟨older, inDb, sameId', own'⟩ := first.posts old inMid sameAuthor
    exact ⟨older, inDb, sameId'.trans sameId, own'⟩
  · intro payload signature p filed own row mem same
    obtain ⟨old, inMid, same'⟩ := second.revisions payload signature p filed own row mem same
    exact first.revisions payload signature p filed own old inMid same'

theorem livesHere_of_hydrated {publicKey home : Key} {displayName : Text} (lives : db.livesHere key = true)
    (other : publicKey ≠ key) : (hydrateStubUser state db publicKey displayName home).livesHere key = true := by
  simp only [livesHere, user?] at lives ⊢
  unfold hydrateStubUser
  dsimp only
  split
  · split
    · rw [find?_updateWhere (by intro row _; rfl)]
      cases found : db.users.find? (·.publicKey = key) with
      | none => simp [found] at lives
      | some user =>
        have isKey : user.publicKey = key := by simpa using find?_some found
        rw [found] at lives
        rw [map_some, if_neg (by simpa [isKey] using other.symm)]
        exact lives
    · exact lives
  · rw [find?_append]
    cases found : db.users.find? (·.publicKey = key) with
    | none => simp [found] at lives
    | some user =>
      rw [found] at lives
      exact lives

theorem livesHere_setDeleted {user : Key}
    (users : after.users = updateWhere (·.publicKey = user) (fun row => { row with deleted := true }) db.users) :
    after.livesHere key = db.livesHere key := by
  rw [livesHere, livesHere, user?, user?, users, find?_updateWhere (by intro row _; rfl)]
  cases db.users.find? (·.publicKey = key) with
  | none => rfl
  | some row =>
    rw [map_some]
    split <;> rfl

variable (injective : CollisionFree state.platform corpus)
include injective

theorem gainsNothing_project {payload signature : Bytes} (lives : db.livesHere key = true)
    (filed : Filed state.platform corpus payload signature (.postRevision p))
    (run : projectRemotePostRevision state db p signature (state.platform.sha256 payload) arrivedFrom =
      .ok (.projected, after)) : GainsNothing state.platform corpus key db after := by
  obtain ⟨-, foreign, -, opened, recorded, opening, recordedRun, boundRun⟩ :=
    (projectRemotePostRevision_ok run).resolve_left fun waits => waits.2 rfl
  have other : p.author ≠ key := by
    rintro rfl
    rw [livesHere_authoritative lives] at foreign
    cases foreign
  obtain ⟨-, -, rfl⟩ := insertPostRevision_ok.mp recordedRun
  obtain ⟨added, blobs, -, final⟩ := projectPostAttachments_added boundRun
  have columns : after.users = db.users ∧ after.postRevisions = db.postRevisions ++
      [remoteRevisionRow state p signature (state.platform.sha256 payload)] ∧
      ∀ post ∈ after.posts, post.author = key → ∃ old ∈ db.posts, old.id = post.id ∧ old.author = key := by
    rcases opening with ⟨-, openedRun⟩ | ⟨-, -, rfl⟩
    · obtain ⟨-, -, -, -, rfl⟩ := insertPost_ok.mp openedRun
      rw [final]
      exact ⟨rfl, rfl, forall_mem_concat.mpr ⟨fun post old own => ⟨post, old, rfl, own⟩, fun own => absurd own other⟩⟩
    · rw [final]
      exact ⟨rfl, rfl, forall_mem_updateWhere (fun post mem own => ⟨post, mem, rfl, own⟩) fun _ => id⟩
  obtain ⟨users, revisions, posts⟩ := columns
  refine ⟨livesHere_congr users key ▸ lives, posts, ?_⟩
  intro payload' signature' p' filed' own row mem same
  rw [revisions] at mem
  rcases mem_concat.mp mem with old | isNew
  · exact ⟨row, old, same⟩
  · rw [isNew] at same
    obtain rfl := injective _ _ filed.occurs filed'.occurs same
    have sameObject := filed.parses.symm.trans filed'.parses
    cases sameObject
    exact absurd own other

theorem Ingest.gainsNothing (change : Ingest state corpus arrivedFrom db after) (lives : db.livesHere key = true) :
    GainsNothing state.platform corpus key db after := by
  cases change with
  | aside same =>
    refine ⟨livesHere_congr same.users key ▸ lives, ?_, ?_⟩
    · intro post mem own
      exact ⟨post, same.posts ▸ mem, rfl, own⟩
    · intro _ _ _ _ _ row mem hashed
      exact ⟨row, same.revisions ▸ mem, hashed⟩
  | hydrate publicKey displayName home foreign =>
    have other : publicKey ≠ key := by
      rintro rfl
      rw [livesHere_authoritative lives] at foreign
      cases foreign
    have before : GainsNothing state.platform corpus key db db := .refl lives
    exact { before with lives := livesHere_of_hydrated lives other }
  | project filed run => exact gainsNothing_project injective lives filed run
  | erase user authority run =>
    obtain rfl | ⟨users, posts, ⟨selected, revisions⟩, -⟩ := eraseAllForUserKey_content run
    · exact .refl lives
    · refine ⟨livesHere_setDeleted users ▸ lives, ?_, ?_⟩
      · rw [posts]
        exact forall_mem_updateWhere (fun post mem own => ⟨post, mem, rfl, own⟩) fun _ => id
      · intro _ _ _ _ _
        rw [revisions]
        exact forall_mem_updateWhere (fun row mem hashed => ⟨row, mem, hashed⟩) fun _ => id

theorem Ingests.gainsNothing (changes : Ingests state corpus arrivedFrom db after) (lives : db.livesHere key = true) :
    GainsNothing state.platform corpus key db after := by
  induction changes with
  | refl => exact .refl lives
  | tail _ change ih => exact ih.trans (change.gainsNothing injective ih.lives)

end Gains

structure KeepsStored (db after : Db) : Prop where
  objects : ∀ hash, db.hasObject hash = true → after.hasObject hash = true
  removals : ∀ post, adminRmBlocks db post = true → adminRmBlocks after post = true

section Kept

variable {live : Bool}

theorem KeepsStored.refl : KeepsStored db db :=
  ⟨fun _ => id, fun _ => id⟩

theorem KeepsStored.trans (first : KeepsStored db mid) (second : KeepsStored mid after) : KeepsStored db after :=
  ⟨fun hash stored => second.objects hash (first.objects hash stored),
    fun post known => second.removals post (first.removals post known)⟩

theorem EdgeEffect.keepsStored (effect : EdgeEffect state corpus db after) : KeepsStored db after := by
  refine ⟨?_, ?_⟩
  · intro hash stored
    cases effect with
    | store => exact hasObject_storeSignedObject.mpr (.inr stored)
    | erase _ run => rwa [hasObject_erasePayloads run]
    | _ => exact stored
  · obtain ⟨objects, edges, pending, frontier, rfl⟩ := effect.frame
    exact fun _ => id

theorem Effect.keepsStored (effect : Effect state corpus live db after) : KeepsStored db after := by
  cases effect with
  | edge effect => exact effect.keepsStored
  | store => exact ⟨fun _ stored => hasObject_storeSignedObject.mpr (.inr stored), fun _ => id⟩
  | erase _ run =>
    refine ⟨fun hash stored => by rwa [hasObject_erasePayloads run], ?_⟩
    rw [erasePayloads_frame run]
    exact fun _ => id
  | room _ run =>
    obtain ⟨-, -, rfl⟩ := insertRoom_ok.mp run
    exact ⟨fun _ => id, fun _ => id⟩
  | thread _ _ run =>
    obtain ⟨-, -, -, rfl⟩ := insertThread_ok.mp run
    exact ⟨fun _ => id, fun _ => id⟩
  | openPost _ _ _ _ opened recorded =>
    obtain ⟨-, -, -, -, rfl⟩ := insertPost_ok.mp opened
    obtain ⟨-, -, rfl⟩ := insertPostRevision_ok.mp recorded
    exact ⟨fun _ => id, fun _ => id⟩
  | revise _ _ _ recorded =>
    obtain ⟨-, -, rfl⟩ := insertPostRevision_ok.mp recorded
    exact ⟨fun _ => id, fun _ => id⟩
  | bind run =>
    obtain ⟨-, -, -, -, rfl⟩ := insertPostAttachment_ok.mp run
    exact ⟨fun _ => id, fun _ => id⟩
  | unbind run =>
    obtain ⟨blobs, rfl⟩ := deletePostAttachments_frame run
    exact ⟨fun _ => id, fun _ => id⟩
  | gc run =>
    obtain ⟨blobs, rfl⟩ := gcOrphanBlobs_frame run
    exact ⟨fun _ => id, fun _ => id⟩
  | authority => exact ⟨fun _ => id, fun _ known => adminRmBlocks_insert.mpr (.inl known)⟩
  | _ => exact ⟨fun _ => id, fun _ => id⟩

theorem Effects.keepsStored (effects : Effects state corpus live db after) : KeepsStored db after := by
  induction effects with
  | refl => exact .refl
  | tail _ effect ih => exact ih.trans effect.keepsStored

end Kept

/-- What holds of the requester all through a recovery, with what has changed since its begin. -/
structure Recovering (state : AppState) (corpus : Corpus) (key : Key) (start db : Db) : Prop where
  sound : Sound state corpus db
  gains : GainsNothing state.platform corpus key start db

variable {start : Db} {wire : Bytes}

section

variable (recovering : Recovering state corpus key start db)
include recovering

theorem Recovering.step {after : Db} (effects : Effects state corpus true db after)
    (gains : GainsNothing state.platform corpus key db after) :
    Recovering state corpus key start after ∧ KeepsStored db after :=
  ⟨⟨effects.sound recovering.sound, recovering.gains.trans gains⟩, effects.keepsStored⟩

theorem Recovering.edge (occurs : Occurs state corpus wire) :
    Recovering state corpus key start (ingestEdgeObject state arrivedFrom db wire) ∧
      KeepsStored db (ingestEdgeObject state arrivedFrom db wire) := by
  have effects : EdgeEffects state corpus db (ingestEdgeObject state arrivedFrom db wire) :=
    deliverEdge_effects recovering.sound.toEdgeSound occurs
  have same := effects.sameContent
  refine recovering.step effects.effects ⟨livesHere_congr same.users key ▸ recovering.gains.lives, ?_, ?_⟩
  · intro post mem own
    exact ⟨post, same.posts ▸ mem, rfl, own⟩
  · intro _ _ _ _ _ row mem hashed
    exact ⟨row, same.revisions ▸ mem, hashed⟩

theorem Recovering.content (injective : CollisionFree state.platform corpus) (occurs : Occurs state corpus wire) :
    Recovering state corpus key start (ingestContentObject state arrivedFrom db wire) ∧
      KeepsStored db (ingestContentObject state arrivedFrom db wire) := by
  unfold ingestContentObject
  split
  · exact recovering.edge occurs
  · exact recovering.step (deliverObject_effects recovering.sound occurs)
      ((deliverObject_ingests recovering.sound occurs).gainsNothing injective recovering.gains.lives)

end

theorem ingestContentObject_stores {payload signature : Bytes} (lives : db.livesHere p.author = true)
    (decodes : state.platform.decodeSignedObject wire = some (payload, signature))
    (filed : Filed state.platform corpus payload signature (.postRevision p)) :
    (ingestContentObject state arrivedFrom db wire).hasObject (state.platform.sha256 payload) = true ∨
      adminRmBlocks db p.postId = true ∨ maxPostrevSize < wire.length := by
  unfold ingestContentObject
  simp only [decodes, bind_some, filed.parses]
  have admitted : admitObject state.platform payload signature = .ok (.postRevision p) := by
    have ok : signatureOk state.platform payload signature p.author = true := filed.signer rfl
    simp only [admitObject, filed.parses, contentClass, ok, if_true]
  have ingested : ingestObject state db payload signature arrivedFrom (.postRevision p) =
      .ok (.applied, db.storeSignedObject .postRev payload signature (state.platform.sha256 payload)) := by
    have isLocal : isLocalAuthoritative state
        (db.storeSignedObject .postRev payload signature (state.platform.sha256 payload)) p.author arrivedFrom = true :=
      livesHere_authoritative lives
    simp only [ingestObject, projectRemotePostRevision, isLocal, if_true]
    rfl
  unfold deliverObject applyOneObject
  by_cases large : maxPostrevSize < wire.length
  · exact .inr (.inr large)
  · simp only [if_neg large, decodes]
    cases known : knownStatus db (state.platform.sha256 payload) with
    | some status =>
      left
      obtain ⟨row, found, -⟩ := map_eq_some_iff.mp known
      exact List.any_eq_true.mpr ⟨row, mem_of_find?_eq_some found, by simpa using find?_some found⟩
    | none =>
      simp only [admitted]
      cases removed : adminRemoved db (.postRevision p) with
      | true => exact .inr (.inl removed)
      | false =>
        left
        simp only [Bool.false_eq_true, if_false, ingested]
        exact hasObject_stored

end Prismoire
