import Prismoire.EdgeEffects
import Prismoire.Posting

namespace Prismoire

open Lib List Db

def HeldLive (platform : Platform) (db : Db) (payload : Bytes) : Prop :=
  ∃ row ∈ db.signedObjects, row.canonicalHash = platform.sha256 payload ∧ row.payload = some payload

/-- An object of the run that is stored before anything is projected from it; while `live` is set
its bytes are there as well. -/
structure Landing (state : AppState) (corpus : Corpus) (live : Bool) (db : Db)
    (payload signature : Bytes) (object : SignedPayload) : Prop where
  filed : Filed state.platform corpus payload signature object
  stored : db.hasObject (state.platform.sha256 payload) = true
  held : live = true → HeldLive state.platform db payload

/-- A `threads` row written for a thread-create. -/
structure ThreadRow.Opens (platform : Platform) (payload : Bytes) (t : ThreadCreate) (row : ThreadRow) :
    Prop where
  id : row.id = t.threadId
  author : row.author = t.author
  hash : row.threadCreateHash = some (platform.sha256 payload)

structure PostRow.Opens (p : PostRevision) (row : PostRow) : Prop where
  id : row.id = p.postId
  author : row.author = p.author
  thread : row.thread = p.threadId
  parent : row.parent = p.parentId
  counted : 1 ≤ row.revisionCount

structure PostRevisionRow.Records (platform : Platform) (payload : Bytes) (p : PostRevision)
    (row : PostRevisionRow) : Prop where
  post : row.postId = p.postId
  revision : row.revision = clampI64 p.revision
  hash : row.canonicalHash = platform.sha256 payload

/-- A hash that some projection table carries, so that an erasure can find it. -/
def Db.projects (db : Db) (hash : Hash) : Bool :=
  db.postRevisions.any (·.canonicalHash = hash) || db.profileRevisions.any (·.canonicalHash = hash) || db.hasEdge hash

/--
The statements an instance runs on its tables, each with what the code has checked before it. A
post is opened together with its revision 0, as the two inserts never part.
-/
inductive Effect (state : AppState) (corpus : Corpus) (live : Bool) : Db → Db → Prop
  | edge {db after} : EdgeEffect state corpus db after → Effect state corpus live db after
  | ownEdge {db payload signature edge row} :
      Filed state.platform corpus payload signature (.trustEdge edge) →
      row.canonicalHash = state.platform.sha256 payload → row.sourceUser = edge.fromKey →
      row.targetUser = edge.toKey → row.priorEdgeHash = edge.priorEdgeHash →
      Effect state corpus live db { db with
        trustEdges := db.trustEdges ++ [row] }
  | store {db payload signature object cls} :
      Filed state.platform corpus payload signature object → object.innerClass = some cls →
      Effect state corpus live db (db.storeSignedObject cls payload signature (state.platform.sha256 payload))
  | erase {db after targeted authority} : (∀ hash, targeted hash = true → db.projects hash = true) →
      db.erasePayloads targeted authority = .ok after → Effect state corpus live db after
  | users {db rows} : (∀ key, db.hasUser key = true → rows.any (·.publicKey = key) = true) →
      Effect state corpus live db { db with
        users := rows }
  | profile {db payload signature p row} :
      Landing state corpus live db payload signature (.profileRevision p) →
      row.user = p.user → row.canonicalHash = state.platform.sha256 payload →
      db.hasUser row.user = true →
      (∀ other ∈ db.profileRevisions, other.user = row.user → other.canonicalHash ≠ row.canonicalHash) →
      Effect state corpus live db { db with
        profileRevisions := db.profileRevisions ++ [row] }
  | room {db after room} : room.mergedInto = none → db.insertRoom room = .ok after →
      Effect state corpus live db after
  | thread {db after payload signature t row} :
      Landing state corpus live db payload signature (.threadCreate t) →
      row.Opens state.platform payload t → db.insertThread row = .ok after →
      Effect state corpus live db after
  | openPost {db mid after payload signature p post row} :
      Landing state corpus live db payload signature (.postRevision p) → p.revision = 0 →
      post.Opens p → row.Records state.platform payload p →
      db.insertPost post = .ok mid → mid.insertPostRevision row = .ok after →
      Effect state corpus live db after
  | revise {db after payload signature p row} :
      Landing state corpus live db payload signature (.postRevision p) → p.revision ≠ 0 →
      row.Records state.platform payload p → db.insertPostRevision row = .ok after →
      Effect state corpus live db after
  | recount {db} (keep : PostRow → Bool) (count : PostRow → Nat) :
      (∀ row, 1 ≤ row.revisionCount → 1 ≤ count row) →
      Effect state corpus live db { db with
        posts := updateWhere keep (fun row => { row with revisionCount := count row }) db.posts }
  | touch {db} (threadId : Uuid) (at' : Text) :
      Effect state corpus live db (touchThread db threadId at')
  | blob {db} (ref : AttachmentRef) : Effect state corpus live db (db.insertAttachmentBlob ref)
  | bind {db after row} : db.insertPostAttachment row = .ok after → Effect state corpus live db after
  | unbind {db after doomed} : db.deletePostAttachments doomed = .ok after →
      Effect state corpus live db after
  | gc {db after} : gcOrphanBlobs db = .ok after → Effect state corpus live db after
  | retract {db} (selected : PostRow → Bool) : Effect state corpus live db (db.retractPosts selected)
  | blank {db} (selected : Uuid → Bool) : Effect state corpus live db (db.blankBodies selected)
  | authority {db payload signature a row} :
      Filed state.platform corpus payload signature (.adminRemoval a) →
      row.postId = a.postId → row.targetAuthor = a.targetAuthor →
      row.signingInstance = a.signingInstance →
      Effect state corpus live db (insertAdminRmAuthority db row)
  | aside {db} (signingKeys : List SigningKeyRow) (attachmentStaging : List AttachmentStagingRow)
      (peers : List PeerRow) (userHomes : List UserHomeRow) (userMoves : List UserMoveRow)
      (userGenesis : List UserGenesisRow) :
      Effect state corpus live db { db with
        signingKeys := signingKeys
        attachmentStaging := attachmentStaging
        peers := peers
        userHomes := userHomes
        userMoves := userMoves
        userGenesis := userGenesis }

abbrev Effects (state : AppState) (corpus : Corpus) (live : Bool) :=
  Relation.ReflTransGen (Effect state corpus live)

/-- What every projection table holds comes from the objects of the run. -/
structure Sound (state : AppState) (corpus : Corpus) (db : Db) : Prop
    extends EdgeSound state corpus db where
  profiles : ∀ row ∈ db.profileRevisions, ∃ payload signature p,
    Filed state.platform corpus payload signature (.profileRevision p) ∧
    row.user = p.user ∧ row.canonicalHash = state.platform.sha256 payload
  profilesStored : ∀ row ∈ db.profileRevisions, db.hasObject row.canonicalHash = true
  profileUsers : ∀ row ∈ db.profileRevisions, db.hasUser row.user = true
  threads : ∀ row ∈ db.threads, ∃ payload signature t,
    Filed state.platform corpus payload signature (.threadCreate t) ∧ row.Opens state.platform payload t
  posts : ∀ row ∈ db.posts, ∃ payload signature p,
    Filed state.platform corpus payload signature (.postRevision p) ∧ p.revision = 0 ∧ row.Opens p
  revisions : ∀ row ∈ db.postRevisions, ∃ payload signature p,
    Filed state.platform corpus payload signature (.postRevision p) ∧ row.Records state.platform payload p
  authorities : ∀ row ∈ db.adminRmAuthorities, ∃ payload signature a,
    Filed state.platform corpus payload signature (.adminRemoval a) ∧ row.postId = a.postId ∧
    row.targetAuthor = a.targetAuthor ∧ row.signingInstance = a.signingInstance

variable {after db : Db} {corpus : Corpus} {live : Bool} {state : AppState}

section Frames

theorem EdgeEffect.frame (effect : EdgeEffect state corpus db after) :
    ∃ objects edges pending frontier, after = { db with
      signedObjects := objects
      trustEdges := edges
      pendingTrustEdges := pending
      frontierEdges := frontier } := by
  cases effect with
  | store => exact ⟨_, _, _, _, rfl⟩
  | project => exact ⟨_, _, _, _, rfl⟩
  | erase projected run => exact ⟨_, _, _, _, erasePayloads_frame run⟩
  | enqueue => exact ⟨_, _, _, _, rfl⟩
  | dequeue => exact ⟨_, _, _, _, rfl⟩
  | frontier => exact ⟨_, _, _, _, rfl⟩

theorem deletePostAttachments_frame {doomed : PostAttachmentRow → Bool}
    (run : db.deletePostAttachments doomed = .ok after) :
    ∃ blobs, after = { db with
      postAttachments := db.postAttachments.filter fun row => !doomed row
      attachmentBlobs := blobs } := by
  obtain ⟨blobs, -, returned⟩ := bind_ok.mp run
  cases returned
  exact ⟨blobs, rfl⟩

theorem gcOrphanBlobs_frame (run : gcOrphanBlobs db = .ok after) : ∃ blobs, after = { db with
      attachmentBlobs := blobs } := by
  simp only [gcOrphanBlobs, require_bind_ok] at run
  obtain ⟨-, returned⟩ := run
  cases returned
  exact ⟨_, rfl⟩

theorem Effect.stored (effect : Effect state corpus live db after) : Effect state corpus false db after := by
  cases effect with
  | edge effect => exact .edge effect
  | ownEdge filed hashed source target prior => exact .ownEdge filed hashed source target prior
  | store filed cls => exact .store filed cls
  | erase projected run => exact .erase projected run
  | users keeps => exact .users keeps
  | profile landing user hash known fresh =>
    exact .profile ⟨landing.filed, landing.stored, nofun⟩ user hash known fresh
  | room unmerged run => exact .room unmerged run
  | thread landing opens run => exact .thread ⟨landing.filed, landing.stored, nofun⟩ opens run
  | openPost landing first opens records opened landed =>
    exact .openPost ⟨landing.filed, landing.stored, nofun⟩ first opens records opened landed
  | revise landing later records landed =>
    exact .revise ⟨landing.filed, landing.stored, nofun⟩ later records landed
  | recount keep count counted => exact .recount keep count counted
  | touch threadId at' => exact .touch threadId at'
  | blob ref => exact .blob ref
  | bind run => exact .bind run
  | unbind run => exact .unbind run
  | gc run => exact .gc run
  | retract selected => exact .retract selected
  | blank selected => exact .blank selected
  | authority filed post target signer => exact .authority filed post target signer
  | aside keys staging peers homes moves genesis => exact .aside keys staging peers homes moves genesis

theorem Effects.stored (effects : Effects state corpus live db after) : Effects state corpus false db after := by
  induction effects with
  | refl => exact .refl
  | tail _ step ih => exact ih.tail step.stored

theorem EdgeEffects.effects (effects : EdgeEffects state corpus db after) : Effects state corpus live db after := by
  induction effects with
  | refl => exact .refl
  | tail _ step ih => exact ih.tail (.edge step)

end Frames

section

variable (sound : Sound state corpus db)
include sound

theorem Sound.withPostRevision {row : PostRevisionRow}
    (recorded : ∃ payload signature p, Filed state.platform corpus payload signature (.postRevision p) ∧
      row.Records state.platform payload p) : Sound state corpus (db.withPostRevision row) :=
  { sound with
    revisions := by
      exact forall_mem_append.mpr ⟨sound.revisions, forall_mem_singleton.mpr recorded⟩ }

theorem Sound.insertPost {post : PostRow}
    (opened : ∃ payload signature p, Filed state.platform corpus payload signature (.postRevision p) ∧
      p.revision = 0 ∧ post.Opens p) (run : db.insertPost post = .ok after) : Sound state corpus after := by
  obtain ⟨-, -, -, -, rfl⟩ := insertPost_ok.mp run
  exact { sound with
    posts := by
      exact forall_mem_append.mpr ⟨sound.posts, forall_mem_singleton.mpr opened⟩ }

theorem Sound.insertPostRevision {row : PostRevisionRow}
    (recorded : ∃ payload signature p, Filed state.platform corpus payload signature (.postRevision p) ∧
      row.Records state.platform payload p) (run : db.insertPostRevision row = .ok after) :
    Sound state corpus after := by
  obtain ⟨-, -, rfl⟩ := insertPostRevision_ok.mp run
  exact sound.withPostRevision recorded

theorem Sound.updatePosts {keep : PostRow → Bool} {set : PostRow → PostRow}
    (frame : ∀ row p, row.Opens p → (set row).Opens p) {postsFts : List PostsFtsRow}
    {threadsFts : List ThreadsFtsRow} :
    Sound state corpus { db with
      posts := updateWhere keep set db.posts
      postsFts := postsFts
      threadsFts := threadsFts } :=
  { sound with
    posts := forall_mem_updateWhere sound.posts fun row ⟨payload, signature, p, filed, first, opens⟩ =>
      ⟨payload, signature, p, filed, first, frame row p opens⟩ }

end

theorem Effect.sound (effect : Effect state corpus live db after) (sound : Sound state corpus db) :
    Sound state corpus after := by
  cases effect with
  | edge effect =>
    have edgeSound := effect.sound sound.toEdgeSound
    have stored := fun row mem => effect.object_stays (sound.profilesStored row mem)
    obtain ⟨objects, edges, pending, frontier, rfl⟩ := effect.frame
    exact { edgeSound with
      profiles := sound.profiles
      profilesStored := stored
      profileUsers := sound.profileUsers
      threads := sound.threads
      posts := sound.posts
      revisions := sound.revisions
      authorities := sound.authorities }
  | ownEdge filed hashed source target prior =>
    exact { sound with
      edges := by
        exact forall_mem_append.mpr
          ⟨sound.edges, forall_mem_singleton.mpr ⟨_, _, _, filed, hashed, source, target, prior⟩⟩ }
  | store filed cls =>
    exact { sound with
      objects := storedFrom_storeSignedObject sound.objects filed cls
      profilesStored := fun row mem =>
        hasObject_storeSignedObject.mpr (.inr (sound.profilesStored row mem)) }
  | erase projected run =>
    have objects := storedFrom_erasePayloads sound.objects run
    have stored := fun row mem =>
      (hasObject_erasePayloads run _).trans (sound.profilesStored row mem)
    rw [erasePayloads_frame run] at objects stored ⊢
    exact { sound with
      objects := objects
      profilesStored := stored }
  | users keeps =>
    exact { sound with
      profileUsers := fun row mem => keeps row.user (sound.profileUsers row mem) }
  | profile landing user hash known =>
    exact { sound with
      profiles := by
        exact forall_mem_append.mpr
          ⟨sound.profiles, forall_mem_singleton.mpr ⟨_, _, _, landing.filed, user, hash⟩⟩
      profilesStored := by
        exact forall_mem_concat.mpr ⟨sound.profilesStored, hash ▸ landing.stored⟩
      profileUsers := by
        exact forall_mem_append.mpr ⟨sound.profileUsers, forall_mem_singleton.mpr known⟩ }
  | room unmerged run =>
    obtain ⟨-, -, rfl⟩ := insertRoom_ok.mp run
    exact { sound with }
  | thread landing opens run =>
    obtain ⟨-, -, -, rfl⟩ := insertThread_ok.mp run
    exact { sound with
      threads := by
        exact forall_mem_append.mpr
          ⟨sound.threads, forall_mem_singleton.mpr ⟨_, _, _, landing.filed, opens⟩⟩ }
  | openPost landing first opens records opened landed =>
    have mid := sound.insertPost ⟨_, _, _, landing.filed, first, opens⟩ opened
    exact mid.insertPostRevision ⟨_, _, _, landing.filed, records⟩ landed
  | revise landing later records landed =>
    exact sound.insertPostRevision ⟨_, _, _, landing.filed, records⟩ landed
  | recount keep count counted =>
    refine sound.updatePosts ?_
    intro row p opens
    exact ⟨opens.id, opens.author, opens.thread, opens.parent, counted row opens.counted⟩
  | touch threadId at' =>
    exact { sound with
      threads := forall_mem_updateWhere sound.threads fun _ ⟨payload, signature, t, filed, opens⟩ =>
        ⟨payload, signature, t, filed, opens.id, opens.author, opens.hash⟩ }
  | blob => exact { sound with }
  | bind run =>
    obtain ⟨-, -, -, -, rfl⟩ := insertPostAttachment_ok.mp run
    exact { sound with }
  | unbind run =>
    obtain ⟨blobs, rfl⟩ := deletePostAttachments_frame run
    exact { sound with }
  | gc run =>
    obtain ⟨blobs, rfl⟩ := gcOrphanBlobs_frame run
    exact { sound with }
  | retract selected =>
    refine sound.updatePosts ?_
    intro row p opens
    exact ⟨opens.id, opens.author, opens.thread, opens.parent, opens.counted⟩
  | blank selected =>
    exact { sound with
      revisions := forall_mem_updateWhere sound.revisions fun _ ⟨payload, signature, p, filed, records⟩ =>
        ⟨payload, signature, p, filed, records.post, records.revision, records.hash⟩ }
  | authority filed post target signer =>
    exact { sound with
      authorities := by
        intro row mem
        simp only [insertAdminRmAuthority] at mem
        split at mem
        · exact sound.authorities row mem
        · exact forall_mem_concat.mpr ⟨sound.authorities, ⟨_, _, _, filed, post, target, signer⟩⟩ row mem }
  | aside => exact { sound with }

theorem Effects.sound (effects : Effects state corpus live db after) (sound : Sound state corpus db) :
    Sound state corpus after := by
  induction effects with
  | refl => exact sound
  | tail _ step ih => exact step.sound ih

end Prismoire
