import Prismoire.MoveDelivery
import Prismoire.PostingEffects

namespace Prismoire

open Lib Db

section Local

variable {state : AppState} {corpus : Corpus} {db after : Db}

def LocalUserBirth.genesisProfile (birth : LocalUserBirth) : ProfileRevision :=
  { user := birth.publicKey, displayName := birth.displayName, bio := "", avatarAttachmentHash := none,
    createdAt := birth.createdAtMs, priorProfileHash := none }

variable {m : Move} {status : MoveStatus} {user : Key}

theorem completeLocalUserBirth_effects {birth : LocalUserBirth} (sound : Sound state corpus db)
    (profile : Filed state.platform corpus birth.profile.payload birth.profile.signature
      (.profileRevision birth.genesisProfile))
    (move : Filed state.platform corpus birth.move.payload birth.move.signature (.move m))
    (run : completeLocalUserBirth state db birth = .ok after) : Effects state corpus false db after := by
  simp only [completeLocalUserBirth, require_bind_ok, Bool.not_eq_true'] at run
  obtain ⟨unborn, -, run⟩ := run
  cases run
  let stored := db.storeSignedObject .profile birth.profile.payload birth.profile.signature
    (state.platform.sha256 birth.profile.payload)
  have storing : Effect state corpus false db stored := .store profile rfl
  let user : UserRow :=
    { publicKey := birth.publicKey, displayName := birth.displayName,
      displayNameSkeleton := birth.skeleton, signupMethod := birth.signupMethod, homeInstance := none }
  have signing : Effect state corpus false stored { stored with
      users := db.users ++ [user] } := by
    refine .users ?_
    intro key known
    rw [List.any_append]
    exact Bool.or_eq_true_iff.mpr (.inl known)
  let row : ProfileRevisionRow :=
    { user := birth.publicKey, displayName := birth.displayName, bio := "", avatarAttachmentHash := none,
      createdAt := birth.createdAtMs, signature := birth.profile.signature, priorProfileHash := none,
      canonicalHash := state.platform.sha256 birth.profile.payload }
  have fresh : ∀ other ∈ db.profileRevisions, other.user = row.user → other.canonicalHash ≠ row.canonicalHash := by
    intro other mem sameUser
    have known := sound.profileUsers other mem
    rw [sameUser, unborn] at known
    cases known
  have profiling : Effect state corpus false { stored with
      users := db.users ++ [user] } { stored with
      users := db.users ++ [user]
      profileRevisions := db.profileRevisions ++ [row] } :=
    .profile ⟨profile, hasObject_stored, by simp⟩ rfl rfl
      (by simp [hasUser, user, row]) fresh
  have moving : Effects state corpus false db _ :=
    (((Relation.ReflTransGen.single storing).tail signing).tail profiling).tail (.store move rfl)
  exact moving.tail (.aside _ _ _ _ _ _)

theorem seedTrustCode_effects (code : TrustCode) : Effects state corpus false db (seedTrustCode state db code) := by
  unfold seedTrustCode
  split
  · exact .refl
  · have hydrated : Effect state corpus true db _ :=
      hydrateStubUser_effect code.userPubkey code.displayName code.instancePubkey
    exact (Relation.ReflTransGen.single hydrated.stored).tail (.aside _ _ _ _ _ _)

theorem applyOneMove_effects {wireBytes : Bytes} {nowMs : Nat}
    (occurs : ∀ payload signature, state.platform.decodeSignedObject wireBytes = some (payload, signature) →
      corpus payload)
    (run : applyOneMove state db wireBytes nowMs = .ok (status, after)) :
    Effects state corpus false db after := by
  rcases applyOneMove_ok run with ⟨rfl, -, -⟩ | ⟨payload, signature, m, decodes, parses, -, passes, -, single, committed⟩
  · exact .refl
  · obtain ⟨-, rfl⟩ := commitMove_moved single committed
    have filed : Filed state.platform corpus payload signature (.move m) :=
      ⟨occurs payload signature decodes, parses, m.key, signatureOk_of_admissible passes⟩
    have storing : Effect state corpus false db _ := .store filed rfl
    have homing : ∀ stored : Db, stored.users = db.users → ∀ wins, Effect state corpus false stored { stored with
        users := updateWhere (·.publicKey = m.key) (movedUser state m wins (disposes state db m)) db.users } := by
      intro stored same wins
      refine .users fun other known => ?_
      rwa [← same, any_updateWhere (by intro row; rfl)]
    have homed := homing (db.storeSignedObject .move payload signature (state.platform.sha256 payload)) rfl
    exact ((Relation.ReflTransGen.single storing).tail (homed _)).tail (.aside _ _ _ _ _ _)

theorem mutateTrustEdge_effects {sign : TrustEdge → Bytes × Bytes} {target : Key} {call : TrustCall}
    {signed : SignedMutation}
    (filed : Filed state.platform corpus signed.payload signed.signature (.trustEdge signed.edge))
    (run : mutateTrustEdge state sign db user target call = .ok (signed, after)) :
    Effects state corpus false db after := by
  obtain ⟨-, -, hashed, nowIso, written, -, writes, erases⟩ := mutateTrustEdge_writes run
  obtain rfl := writeTrustEdge_ok writes
  have inserted : Effect state corpus false db { db with
      trustEdges := db.trustEdges ++ [localEdgeRow signed call.id nowIso] } :=
    .ownEdge filed hashed rfl rfl rfl
  have stored : Effects state corpus false db (storeSignedObject
      { db with trustEdges := db.trustEdges ++ [localEdgeRow signed call.id nowIso] }
      .trustEdge signed.payload signed.signature signed.canonicalHash) := by
    rw [hashed]
    exact (Relation.ReflTransGen.single inserted).tail (.store filed rfl)
  rcases erases with rfl | ⟨-, erases⟩
  · exact stored
  · refine stored.tail (.erase ?_ erases)
    intro hash targeted
    simp only [decide_eq_true_eq, List.any_eq_true] at targeted
    obtain ⟨-, row, mem, same, -⟩ := targeted
    simp only [projects, Bool.or_eq_true]
    exact .inr (List.any_eq_true.mpr ⟨row, mem, decide_eq_true same⟩)

theorem uploadAttachment_effects {ref : AttachmentRef}
    (run : uploadAttachment db user ref = .ok after) : Effects state corpus false db after := by
  simp only [uploadAttachment, require_bind_ok] at run
  obtain ⟨-, run⟩ := run
  cases run
  exact (Relation.ReflTransGen.single (.blob ref)).tail (.aside _ _ _ _ _ _)

theorem sweepStaging_effects {expired : AttachmentStagingRow → Bool}
    (run : sweepStaging db expired = .ok after) : Effects state corpus false db after := by
  have expiring : Effect state corpus false db { db with
      attachmentStaging := db.attachmentStaging.filter fun row => !expired row } := .aside _ _ _ _ _ _
  exact (Relation.ReflTransGen.single expiring).tail (.gc run)

end Local

def Occurs (state : AppState) (corpus : Corpus) (wireBytes : Bytes) : Prop :=
  ∀ payload signature, state.platform.decodeSignedObject wireBytes = some (payload, signature) → corpus payload

/--
One operation of the instance. Whatever is received or signed in it belongs to `corpus`, and a
content delivery also meets `meets`, the condition that a result puts on the deliveries of a run.
-/
inductive InstanceStep (state : AppState) (corpus : Corpus) (meets : Db → Bytes → Key → Prop) :
    Db → Db → Prop
  | content {db} (wireBytes : Bytes) (arrivedFrom : Key) : Occurs state corpus wireBytes →
      meets db wireBytes arrivedFrom →
      InstanceStep state corpus meets db (deliverObject state db wireBytes arrivedFrom)
  | edge {db} (wireBytes : Bytes) (peer : Key) : Occurs state corpus wireBytes →
      InstanceStep state corpus meets db (deliverEdge state db wireBytes peer)
  | thread {db} (sign : Signer) (user : Key) (req : ThreadRequest) :
      (∀ refs : AttachmentRefs, refs.1 = req.attachments →
        Signs state corpus sign (.postRevision (req.opening user refs))) →
      Signs state corpus sign (.threadCreate (req.thread user)) →
      InstanceStep state corpus meets db (createThread state sign db user req).2
  | reply {db after} (sign : Signer) (user : Key) (req : ReplyRequest) :
      Signs state corpus sign (.postRevision (req.reply user)) →
      createReply state sign db user req = .ok after → InstanceStep state corpus meets db after
  | edit {db after} (sign : Signer) (user : Key) (req : EditRequest) :
      (∀ post refs, db.posts.find? (·.id = req.postId) = some post → refs.1 = req.attachments →
        Signs state corpus sign (.postRevision (req.revision user post refs))) →
      editPost state sign db user req = .ok after → InstanceStep state corpus meets db after
  | retract {db after} (sign : Signer) (user : Key) (postId : Uuid) (now : Nat) :
      Signs state corpus sign (.retraction { postId, author := user, createdAt := now * 1000 }) →
      retractPost state sign db user postId now = .ok after → InstanceStep state corpus meets db after
  | upload {db after} (user : Key) (ref : AttachmentRef) :
      uploadAttachment db user ref = .ok after → InstanceStep state corpus meets db after
  | sweep {db after} (expired : AttachmentStagingRow → Bool) :
      sweepStaging db expired = .ok after → InstanceStep state corpus meets db after
  | birth {db after} (birth : LocalUserBirth) (m : Move) :
      Filed state.platform corpus birth.profile.payload birth.profile.signature
        (.profileRevision birth.genesisProfile) →
      Filed state.platform corpus birth.move.payload birth.move.signature (.move m) →
      completeLocalUserBirth state db birth = .ok after → InstanceStep state corpus meets db after
  | seed {db} (code : TrustCode) : InstanceStep state corpus meets db (seedTrustCode state db code)
  | move {db status after} (wireBytes : Bytes) (nowMs : Nat) : Occurs state corpus wireBytes →
      applyOneMove state db wireBytes nowMs = .ok (status, after) →
      InstanceStep state corpus meets db after
  | trust {db signed after} (sign : TrustEdge → Bytes × Bytes) (user target : Key) (call : TrustCall) :
      Filed state.platform corpus signed.payload signed.signature (.trustEdge signed.edge) →
      mutateTrustEdge state sign db user target call = .ok (signed, after) →
      InstanceStep state corpus meets db after
  | peers {db} (rows : List PeerRow) : InstanceStep state corpus meets db { db with
      peers := rows }

inductive Reachable (state : AppState) (corpus : Corpus) (meets : Db → Bytes → Key → Prop) :
    Db → Prop
  | start : Reachable state corpus meets {}
  | step {db after} : Reachable state corpus meets db → InstanceStep state corpus meets db after →
      Reachable state corpus meets after

variable {state : AppState} {corpus : Corpus} {meets : Db → Bytes → Key → Prop} {db after : Db}

theorem InstanceStep.effects (step : InstanceStep state corpus meets db after)
    (sound : Sound state corpus db) : Effects state corpus false db after := by
  cases step with
  | content wireBytes arrivedFrom occurs => exact (deliverObject_effects sound occurs).stored
  | edge wireBytes peer occurs => exact (deliverEdge_effects sound.toEdgeSound occurs).effects
  | thread sign user req signsOpening signsThread => exact createThread_effects signsOpening signsThread
  | reply sign user req signs run => exact createReply_effects signs run
  | edit sign user req signs run => exact editPost_effects sound signs run
  | retract sign user postId now signs run => exact retractPost_effects signs run
  | upload user ref run => exact uploadAttachment_effects run
  | sweep expired run => exact sweepStaging_effects run
  | birth birth m profile move run => exact completeLocalUserBirth_effects sound profile move run
  | seed code => exact seedTrustCode_effects code
  | move wireBytes nowMs occurs run => exact applyOneMove_effects occurs run
  | trust sign user target call filed run => exact mutateTrustEdge_effects filed run
  | peers rows => exact .single (.aside _ _ _ _ _ _)

theorem Sound.empty : Sound state corpus {} where
  objects := by simp
  buffered := by simp
  edges := by simp
  profiles := by simp
  profilesStored := by simp
  profileUsers := by simp
  threads := by simp
  posts := by simp
  revisions := by simp
  authorities := by simp

theorem Reachable.sound (reached : Reachable state corpus meets db) : Sound state corpus db := by
  induction reached with
  | start => exact .empty
  | step _ step ih => exact (step.effects ih).sound ih

theorem Reachable.deliverObjects {deliveries : List (Bytes × Key)}
    (reached : Reachable state corpus (fun _ _ _ => True) db)
    (occurs : ∀ delivery ∈ deliveries, Occurs state corpus delivery.1) :
    Reachable state corpus (fun _ _ _ => True) (deliverObjects state db deliveries) := by
  induction deliveries generalizing db with
  | nil => exact reached
  | cons delivery deliveries ih =>
    refine ih ?_ fun other mem => occurs other (by simp [mem])
    exact reached.step (.content delivery.1 delivery.2 (occurs delivery (by simp)) trivial)

end Prismoire
