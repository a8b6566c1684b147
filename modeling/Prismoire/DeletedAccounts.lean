import Prismoire.BuriedContent
import Prismoire.LocalErasure
import Prismoire.MoveAuthority

namespace Prismoire

open Lib List Function Db

structure AccountStore where
  db : Db
  logins : LoginTables

section Handlers

variable (state : AppState) (sign : Signer)

/-- `soft_delete_user` with the passkeys and sessions that it drops. -/
def deleteAccount (store : AccountStore) (user : Key) (anonName : Text) (now : Nat) : Sql AccountStore := do
  let db ← softDeleteUser state sign store.db user anonName now
  let userId := store.logins.userId user
  return {
    db
    logins := { store.logins with
      sessions := store.logins.sessions.filter (·.userId ≠ userId)
      credentials := store.logins.credentials.filter (·.userId ≠ userId) } }

variable (db : Db) (user : Key)

/-- What `create_reply` does before its transaction: the checks, and the signature over the reply. -/
def signReply (req : ReplyRequest) : Posting SigningOutput :=
  if !req.attachments.isEmpty then
    .error .badRequest
  else
    match db.threads.find? (·.id = req.threadId) with
    | none => .error .threadNotFound
    | some thread =>
      if thread.locked then
        .error .threadLocked
      else
        match db.posts.find? (·.id = req.parentId) with
        | none => .error .postNotFound
        | some parent =>
          if parent.thread ≠ req.threadId then
            .error .parentThreadMismatch
          else if parent.retracted then
            .error .parentRetracted
          else do
            ensure (hasActiveKey db user) .noKey
            return sign (.postRevision (req.reply user))

/-- The transaction of `create_reply`. -/
def commitReply (req : ReplyRequest) (signed : SigningOutput) : Posting Db := do
  let reply := req.reply user
  let db ← runSql (db.insertPost (localPostRow state reply))
  let db ← runSql (db.insertPostRevision (localRevisionRow state reply signed))
  let db := db.storeSignedObject .postRev signed.payload signed.signature (state.platform.sha256 signed.payload)
  return touchThread db req.threadId (iso8601FromMs state.platform (req.now * 1000))

theorem createReply_eq (req : ReplyRequest) :
    createReply state sign db user req = signReply sign db user req >>= commitReply state db user req := by
  unfold createReply signReply
  split
  · rfl
  · cases db.threads.find? (·.id = req.threadId) with
    | none => rfl
    | some thread =>
      dsimp only
      split
      · rfl
      · cases db.posts.find? (·.id = req.parentId) with
        | none => rfl
        | some parent =>
          dsimp only
          split
          · rfl
          · split
            · rfl
            · cases hasActiveKey db user <;> rfl

def computePriorProfileHash : Option Hash :=
  let rows := db.profileRevisions.filter (·.user = user)
  match firstBy (fun a b => b < a) (rows.map (·.createdAt)) with
  | none => none
  | some latest => pickMaxCanonicalHash ((rows.filter (·.createdAt = latest)).map (·.canonicalHash))

def updateProfile (bio : Text) (nowMs : Nat) : Posting Db :=
  match db.user? user with
  | none => .error (.database .foreignKey)
  | some row => do
    let profile : ProfileRevision :=
      { user, displayName := row.displayName, bio, avatarAttachmentHash := none, createdAt := nowMs,
        priorProfileHash := computePriorProfileHash db user }
    ensure (hasActiveKey db user) .noKey
    let signed := sign (.profileRevision profile)
    let canonicalHash := state.platform.sha256 signed.payload
    let db ← runSql (insertProfileRevision db (remoteProfileRow profile signed.signature canonicalHash))
    return db.storeSignedObject .profile signed.payload signed.signature canonicalHash

end Handlers

/-- What may still come for the user after her deletion: deliveries, and the writes of requests that were let in before it. -/
inductive LateEvent (state : AppState) (user : Key)
  | edge (wire : Bytes) (peer : Key)
  | object (wire : Bytes) (arrivedFrom : Key)
  | move (wire : Bytes) (nowMs : Nat)
  | createThread (sign : Signer) (req : ThreadRequest)
  | createReply (sign : Signer) (req : ReplyRequest)
  | commitReply (req : ReplyRequest) (signed : SigningOutput)
  | commitEdit (sign : Signer) (req : EditRequest) (seen : PostRow)
  | commitRetract (postId : Uuid) (now : Nat) (signed : SigningOutput)
      (parses : state.platform.parse signed.payload = some (.retraction ⟨postId, user, now * 1000⟩))
  | trust (sign : TrustEdge → Bytes × Bytes) (target : Key) (call : TrustCall)
  | updateProfile (sign : Signer) (bio : Text) (nowMs : Nat)
  | openSession (token : Uuid)

/-- A transaction that fails leaves the tables as they are. -/
def AccountStore.commit {ε : Type} (store : AccountStore) (written : Except ε Db) : AccountStore :=
  match written with
  | .ok db => { store with db }
  | .error _ => store

def AccountStore.apply (state : AppState) (user : Key) (store : AccountStore) : LateEvent state user → AccountStore
  | .edge wire peer => { store with db := deliverEdge state store.db wire peer }
  | .object wire arrivedFrom => { store with db := deliverObject state store.db wire arrivedFrom }
  | .move wire nowMs =>
    match applyOneMoveLogins state store.db store.logins wire nowMs with
    | .ok (_, db, logins) => ⟨db, logins⟩
    | .error _ => store
  | .createThread sign req => { store with db := (Prismoire.createThread state sign store.db user req).2 }
  | .createReply sign req => store.commit (Prismoire.createReply state sign store.db user req)
  | .commitReply req signed => store.commit (Prismoire.commitReply state store.db user req signed)
  | .commitEdit sign req seen => store.commit (Prismoire.commitEdit state sign store.db user req seen)
  | .commitRetract postId _ signed _ => store.commit (Prismoire.commitRetract state store.db postId signed)
  | .trust sign target call => store.commit ((mutateTrustEdge state sign store.db user target call).map Prod.snd)
  | .updateProfile sign bio nowMs => store.commit (Prismoire.updateProfile state sign store.db user bio nowMs)
  | .openSession token =>
    if store.logins.sessions.any (·.token = token) then
      store
    else
      { store with logins := { store.logins with
        sessions := store.logins.sessions ++ [⟨token, store.logins.userId user⟩] } }

/-- Nothing new that the user signed arrives, no edge about her that starts a chain is projected, and no reply and no
session of hers is still to be written. -/
def LateEvent.Quiet {state : AppState} {user : Key} (store : AccountStore) : LateEvent state user → Prop
  | .edge wire _ => ∀ edge ∈ attemptedEdge state store.db wire, OpensChain user edge →
    ¬ (store.db.hasUser edge.fromKey = true ∧ store.db.hasUser edge.toKey = true)
  | .object wire arrivedFrom => ∀ a ∈ arrival state store.db wire, Subject.user user ∉ a.object.subjects ∧
    ∀ p ∈ a.object.profile?, isLocalAuthoritative state store.db p.user arrivedFrom = false →
      ∀ candidate ∈ sweepCandidates state store.db p.user, ¬ OpensChain user candidate.edge
  | .commitReply req _ => ¬ (store.db.hasPost req.postId = false ∧ store.db.hasUser user = true ∧
    store.db.hasThread req.threadId = true ∧ store.db.hasPost req.parentId = true)
  | .openSession token => store.logins.sessions.any (·.token = token) = true
  | _ => True

instance {state : AppState} {user : Key} {store : AccountStore} (event : LateEvent state user) :
    Decidable (event.Quiet store) := by
  cases event <;> unfold LateEvent.Quiet <;> infer_instance

/-- Nothing of the user is left that she could act or be found with. -/
structure StaysDeleted (state : AppState) (user : Key) (shown : List Text) (store : AccountStore) : Prop where
  buried : Buried state user shown store.db
  sessions : ∀ row ∈ store.logins.sessions, row.userId ≠ store.logins.userId user
  credentials : ∀ row ∈ store.logins.credentials, row.userId ≠ store.logins.userId user

section Events

variable {state : AppState} {sign : Signer} {user : Key} {shown : List Text} {db after : Db}
  {store : AccountStore} {nowMs : Nat} {signed : SigningOutput} {req : ReplyRequest} {status : MoveStatus} {postId : Uuid}

section

variable (buried : Buried state user shown db)
include buried

theorem Buried.keyless : hasActiveKey db user = false := by
  rw [hasActiveKey, any_eq_false]
  intro row mem hit
  have live : row.user = user ∧ row.active = true := by simpa using hit
  exact Bool.false_ne_true ((buried.keys row mem live.1).symm.trans live.2)

theorem Buried.createThread {req : ThreadRequest} :
    Buried state user shown (createThread state sign db user req).2 := by
  unfold Prismoire.createThread
  split
  · exact buried
  · split
    · exact buried
    · rename_i roomed roomRun
      have kept := buried.room roomRun
      split
      · exact kept
      · rename_i final run
        -- the key is read after the first two inserts of the transaction
        obtain ⟨threaded, threadRun, run⟩ := bind_ok.mp run
        obtain ⟨opened, postRun, run⟩ := bind_ok.mp run
        obtain ⟨refs, -, run⟩ := bind_ok.mp run
        obtain ⟨keyed, -⟩ := ensure_bind_ok.mp run
        rw [runSql_ok] at threadRun postRun
        obtain ⟨-, -, -, rfl⟩ := insertThread_ok.mp threadRun
        obtain ⟨-, -, -, -, rfl⟩ := insertPost_ok.mp postRun
        exact absurd keyed (Bool.eq_false_iff.mp kept.keyless)

theorem Buried.createReply : createReply state sign db user req ≠ .ok after := by
  intro run
  rw [createReply_eq] at run
  obtain ⟨signed, signedRun, -⟩ := bind_ok.mp run
  unfold signReply at signedRun
  repeat' split at signedRun
  all_goals try cases signedRun
  obtain ⟨keyed, -⟩ := ensure_bind_ok.mp signedRun
  exact absurd keyed (Bool.eq_false_iff.mp buried.keyless)

end

theorem dropRemoved_signingKeys {prior : Nat} {refs : List AttachmentRef}
    (run : dropRemoved db postId prior refs = .ok after) : after.signingKeys = db.signingKeys := by
  refine foldlM_invariant (fun mid : Db => mid.signingKeys = db.signingKeys) ?_ rfl run
  intro hash _ mid final same dropped
  obtain ⟨blobs, rfl⟩ := deletePostAttachments_frame dropped
  exact same

theorem Buried.commitEdit {req : EditRequest} {seen : PostRow} (buried : Buried state user shown db) :
    commitEdit state sign db user req seen ≠ .ok after := by
  intro run
  unfold Prismoire.commitEdit at run
  split at run
  · cases run
  · obtain ⟨dropped, dropRun, run⟩ := bind_ok.mp run
    obtain ⟨refs, -, run⟩ := bind_ok.mp run
    obtain ⟨keyed, -⟩ := ensure_bind_ok.mp run
    rw [runSql_ok] at dropRun
    rw [hasActiveKey, dropRemoved_signingKeys dropRun] at keyed
    exact absurd keyed (Bool.eq_false_iff.mp buried.keyless)

theorem Buried.commitReply
    (unplaced : ¬ (db.hasPost req.postId = false ∧ db.hasUser user = true ∧ db.hasThread req.threadId = true ∧
      db.hasPost req.parentId = true)) : commitReply state db user req signed ≠ .ok after := by
  intro run
  obtain ⟨opened, postRun, -⟩ := bind_ok.mp run
  rw [runSql_ok] at postRun
  obtain ⟨fresh, known, threaded, parented, -⟩ := insertPost_ok.mp postRun
  exact unplaced ⟨fresh, known, threaded, parented⟩

section

variable (buried : Buried state user shown db)
include buried

theorem Buried.commitRetract {now : Nat}
    (parses : state.platform.parse signed.payload = some (.retraction ⟨postId, user, now * 1000⟩))
    (run : commitRetract state db postId signed = .ok after) : Buried state user shown after := by
  obtain ⟨unbound, unboundRun, run⟩ := bind_ok.mp run
  obtain ⟨collected, gcRun, run⟩ := bind_ok.mp run
  rw [runSql_ok] at unboundRun gcRun run
  obtain ⟨blobs, rfl⟩ := deletePostAttachments_frame unboundRun
  obtain ⟨blobs, rfl⟩ := gcOrphanBlobs_frame gcRun
  have retracted : Buried state user shown ((db.retractPosts (·.id = postId)).blankBodies (· = postId)) :=
    { buried with posts := buried.updatePosts (fun _ => rfl) fun _ _ => rfl }
  refine Buried.erase (Buried.storeObject ?_ parses (by simp [SignedPayload.subjects])) run
  exact { retracted with }

theorem Buried.trust {signEdge : TrustEdge → Bytes × Bytes} {target : Key} {call : TrustCall} {signed : SignedMutation} :
    mutateTrustEdge state signEdge db user target call ≠ .ok (signed, after) := by
  have unsigned : ∀ stance ms prior, signTrustEdge state signEdge db user target stance ms prior = .error .noActiveKey := by
    intro stance ms prior
    have keyless := buried.keyless
    rw [hasActiveKey] at keyless
    unfold signTrustEdge
    rw [keyless]
    rfl
  intro run
  unfold mutateTrustEdge deleteTrustEdge setTrustEdge at run
  simp only [unsigned] at run
  repeat' split at run
  all_goals cases run

theorem Buried.updateProfile {bio : Text} : updateProfile state sign db user bio nowMs ≠ .ok after := by
  intro run
  unfold Prismoire.updateProfile at run
  split at run
  · cases run
  · obtain ⟨keyed, -⟩ := ensure_bind_ok.mp run
    exact absurd keyed (Bool.eq_false_iff.mp buried.keyless)

theorem Buried.move {wire : Bytes}
    (run : applyOneMove state db wire nowMs = .ok (status, after)) : Buried state user shown after := by
  rcases applyOneMove_ok run with ⟨rfl, -, -⟩ | ⟨payload, signature, m, -, parses, -, -, -, single, committed⟩
  · exact buried
  · obtain ⟨-, rfl⟩ := commitMove_moved single committed
    have stored : Buried state user shown (db.storeSignedObject .move payload signature
        (state.platform.sha256 payload)) := buried.storeObject parses (by simp [SignedPayload.subjects])
    refine { stored with names := ?_, deleted := ?_, keys := ?_ }
    · rw [← buried.names]
      apply map_filter_updateWhere <;> intros <;> rfl
    · exact forall_mem_updateWhere buried.deleted fun _ => id
    · intro row mem mine
      simp only [moved] at mem
      split at mem
      · exact buried.keys row (mem_of_mem_filter mem) mine
      · exact buried.keys row mem mine

end

variable (kept : StaysDeleted state user shown store)
include kept

theorem StaysDeleted.commit {ε : Type} {written : Except ε Db}
    (buries : ∀ db, written = .ok db → Buried state user shown db) : StaysDeleted state user shown
    (store.commit written) := by
  unfold AccountStore.commit
  split
  · exact { kept with buried := buries _ rfl }
  · exact kept

theorem StaysDeleted.move {wire : Bytes} {logins : LoginTables}
    (run : applyOneMoveLogins state store.db store.logins wire nowMs = .ok (status, after, logins)) :
    StaysDeleted state user shown ⟨after, logins⟩ := by
  obtain ⟨⟨status', moved⟩, ran, rest⟩ := bind_ok.mp run
  have buried := kept.buried.move ran
  dsimp only at rest
  split at rest
  · cases rest
    exact ⟨buried, kept.sessions, kept.credentials⟩
  · split at rest
    · cases rest
      unfold disposeLogins
      split
      · exact ⟨buried, kept.sessions, kept.credentials⟩
      · split
        · exact ⟨buried, kept.sessions, kept.credentials⟩
        · exact ⟨buried, fun row mem => kept.sessions row (mem_of_mem_filter mem),
            fun row mem => kept.credentials row (mem_of_mem_filter mem)⟩
    · cases rest
      exact ⟨buried, kept.sessions, kept.credentials⟩

theorem StaysDeleted.apply {event : LateEvent state user}
    (quiet : event.Quiet store) : StaysDeleted state user shown (store.apply state user event) := by
  cases event with
  | edge wire peer => exact { kept with buried := kept.buried.deliverEdge quiet }
  | object wire arrivedFrom => exact { kept with buried := kept.buried.deliverObject quiet }
  | move wire nowMs =>
    simp only [AccountStore.apply]
    split
    · rename_i status after logins run
      exact kept.move run
    · exact kept
  | createThread sign req => exact { kept with buried := kept.buried.createThread }
  | createReply sign req => exact kept.commit fun db run => absurd run kept.buried.createReply
  | commitReply req signed => exact kept.commit fun db run => absurd run (Buried.commitReply quiet)
  | commitEdit sign req seen => exact kept.commit fun db run => absurd run kept.buried.commitEdit
  | commitRetract postId now signed parses => exact kept.commit fun db run => kept.buried.commitRetract parses run
  | trust sign target call =>
    refine kept.commit fun db run => ?_
    cases called : mutateTrustEdge state sign store.db user target call with
    | error error =>
      rw [called] at run
      cases run
    | ok result => exact absurd called kept.buried.trust
  | updateProfile sign bio nowMs => exact kept.commit fun db run => absurd run kept.buried.updateProfile
  | openSession token =>
    have taken : store.logins.sessions.any (·.token = token) = true := quiet
    simp only [AccountStore.apply]
    rw [if_pos taken]
    exact kept

end Events

section Deletion

variable {state : AppState} {sign : Signer} {user : Key} {db mid after : Db} {now : Nat}
  {hash : Hash}

def Db.speaks (state : AppState) (db : Db) (user : Key) (hash : Hash) : Prop :=
  ∃ row ∈ db.signedObjects, row.canonicalHash = hash ∧
    ∃ object ∈ row.payload.bind state.platform.parse, Subject.user user ∈ object.subjects

/-- What the loop of `soft_delete_user` has done when it has been over some posts. -/
structure LoopedOver (state : AppState) (user : Key) (done : Uuid → Bool) (db after : Db) : Prop where
  posts : ∀ post ∈ after.posts, post.author = user → post.retracted = true ∨
    (done post.id = false ∧ ∃ old ∈ db.posts, old.id = post.id ∧ old.author = user ∧ old.retracted = false)
  speaks : ∀ hash, after.speaks state user hash →
    db.speaks state user hash ∧ ∀ id, done id = true → ¬ db.revises hash id
  revises : ∀ hash id, after.revises hash id ↔ db.revises hash id
  users : after.users = db.users
  profiles : after.profileRevisions = db.profileRevisions
  pending : after.pendingTrustEdges = db.pendingTrustEdges

theorem LoopedOver.refl : LoopedOver state user (fun _ => false) db db where
  posts post mem mine := by
    cases standing : post.retracted with
    | true => exact .inl rfl
    | false => exact .inr ⟨rfl, post, mem, rfl, mine, standing⟩
  speaks hash speaks := ⟨speaks, nofun⟩
  revises _ _ := Iff.rfl
  users := rfl
  profiles := rfl
  pending := rfl

theorem LoopedOver.trans {first second : Uuid → Bool} (before : LoopedOver state user first db mid)
    (onward : LoopedOver state user second mid after) :
    LoopedOver state user (fun id => first id || second id) db after where
  posts post mem mine := by
    rcases onward.posts post mem mine with retracted | ⟨missed, old, inMid, sameId, mineToo, standing⟩
    · exact .inl retracted
    · rcases before.posts old inMid mineToo with retracted | ⟨missedToo, older, inDb, sameOld, found⟩
      · exact absurd retracted (Bool.eq_false_iff.mp standing)
      · exact .inr ⟨by rw [← sameId, missedToo, sameId, missed, Bool.or_self], older, inDb, sameOld.trans sameId, found⟩
  speaks hash speaks := by
    obtain ⟨spoke, unrevised⟩ := onward.speaks hash speaks
    obtain ⟨started, unrevisedToo⟩ := before.speaks hash spoke
    refine ⟨started, fun id done revises => ?_⟩
    rcases Bool.or_eq_true _ _ ▸ done with early | late
    · exact unrevisedToo id early revises
    · exact unrevised id late ((before.revises hash id).mpr revises)
  revises hash id := (onward.revises hash id).trans (before.revises hash id)
  users := onward.users.trans before.users
  profiles := onward.profiles.trans before.profiles
  pending := onward.pending.trans before.pending

variable {active : Bool} {anonName : Text}

/-- The live profiles and revisions of the user that the deletion finds in its tables. -/
def Covered (db : Db) (user : Key) (hash : Hash) : Prop :=
  (∃ row ∈ db.profileRevisions, row.canonicalHash = hash ∧ row.user = user) ∨
    ∃ post ∈ db.posts, post.author = user ∧ post.retracted = false ∧ db.revises hash post.id

instance {hash : Hash} : Decidable (Covered db user hash) :=
  inferInstanceAs (Decidable ((∃ row ∈ db.profileRevisions, row.canonicalHash = hash ∧ row.user = user) ∨
    ∃ post ∈ db.posts, post.author = user ∧ post.retracted = false ∧
      ∃ row ∈ db.postRevisions, row.canonicalHash = hash ∧ row.postId = post.id))

end Deletion

end Prismoire
