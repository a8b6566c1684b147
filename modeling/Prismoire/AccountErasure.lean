import Prismoire.Ingest

namespace Prismoire

open Lib List

section Account

variable (state : AppState) (sign : Signer)

def softDeletePost (user : Key) (now : Nat) (active : Bool) (db : Db) (post : PostRow) : Sql Db :=
  let signed := sign (.retraction { postId := post.id, author := user, createdAt := now * 1000 })
  let canonicalHash := state.platform.sha256 signed.payload
  let db := db.retractPosts (·.id = post.id)
  let db := db.blankBodies (· = post.id)
  if active then
    (db.storeSignedObject .retract signed.payload signed.signature canonicalHash).erasePostRevPayloads
      post.id (some canonicalHash)
  else
    db.erasePostRevPayloads post.id none

variable (db : Db) (user : Key)

/-- The umbrella `deactivate`, without which the erasures below carry no authority. -/
def storeDeactivation (now : Nat) (active : Bool) : Option Hash × Db :=
  let signed := sign (.deactivation { user, createdAt := now * 1000 })
  let canonicalHash := state.platform.sha256 signed.payload
  if active then
    (some canonicalHash, db.storeSignedObject .deactivate signed.payload signed.signature canonicalHash)
  else
    (none, db)

def clearAccountFts : Db :=
  { db with
    postsFts := db.postsFts.filter fun row => !authored db user row.postId
    threadsFts := updateWhere
      (fun row => db.threads.any fun thread => thread.id = row.threadId ∧ thread.author = user)
      (fun row => { row with opBody := "" }) db.threadsFts }

/-- The name is replaced once, under a fresh suffix. -/
def anonymise (anonName : Text) : Db :=
  { db with
    users := updateWhere (fun row => decide (row.publicKey = user) && !row.deleted) (fun row => { row with
        displayName := anonName
        displayNameSkeleton := state.platform.displayNameSkeleton anonName
        deleted := true }) db.users }

def dropTrustEdges : Db :=
  { db with
    trustEdges := db.trustEdges.filter fun row => !(decide (row.sourceUser = user) || decide (row.targetUser = user)) }

def dropAccountRows : Db :=
  { db with
    profileRevisions := db.profileRevisions.filter (·.user ≠ user)
    signingKeys := updateWhere (·.user = user) (fun row => { row with active := false }) db.signingKeys
    userHomes := if db.hasUser user then db.userHomes.filter (·.userKey ≠ user) else db.userHomes
    userGenesis := if db.hasUser user then db.userGenesis.filter (·.userKey ≠ user) else db.userGenesis }

/--
`privacy::soft_delete_user`, over the tables kept here. Its bindings stay: the comment at the
attachment cleanup says that the retraction loop dropped them, but the loop does not.
-/
def softDeleteUser (anonName : Text) (now : Nat) : Sql Db := do
  let active := hasActiveKey db user
  let db ← (db.posts.filter fun post => decide (post.author = user) && !post.retracted).foldlM
    (softDeletePost state sign user now active) db
  let (authority, db) := storeDeactivation state sign db user now active
  let db := clearAccountFts db user
  let db := { db with
    attachmentStaging := db.attachmentStaging.filter (·.uploader ≠ user) }
  let db ← gcOrphanBlobs db
  let db := anonymise state db user anonName
  let db ← db.eraseUserTrustEdgePayloads user authority
  let db := dropTrustEdges db user
  let db ← db.eraseUserProfileRevisionPayloads user authority
  return dropAccountRows db user

end Account

variable {state : AppState} {corpus : Corpus} {sign : Signer} {db after : Db}
  {user : Key} {now : Nat} {active : Bool}

theorem softDeletePost_effects {post : PostRow}
    (signs : Signs state corpus sign (.retraction { postId := post.id, author := user, createdAt := now * 1000 }))
    (run : softDeletePost state sign user now active db post = .ok after) : Effects state corpus false db after := by
  have blanked : Effects state corpus false db ((db.retractPosts (·.id = post.id)).blankBodies (· = post.id)) :=
    (Relation.ReflTransGen.single (.retract (·.id = post.id))).tail (.blank (· = post.id))
  cases active with
  | true =>
    have erased : Effect state corpus true _ after := erasePostRevPayloads_effect run
    exact (blanked.tail (signs.store rfl)).tail erased.stored
  | false =>
    have erased : Effect state corpus true _ after := erasePostRevPayloads_effect run
    exact blanked.tail erased.stored

theorem storeDeactivation_effects (db : Db) (active : Bool)
    (signs : Signs state corpus sign (.deactivation { user, createdAt := now * 1000 })) :
    Effects state corpus false db (storeDeactivation state sign db user now active).2 := by
  cases active with
  | true => exact .single (signs.store rfl)
  | false => exact .refl

variable {anonName : Text} {Keeps : Db → Prop} (sound : Sound state corpus db)
  (effects : ∀ db after, Effects state corpus false db after → Keeps db → Keeps after)
  (index : ∀ db, Keeps db → Keeps (clearAccountFts db user)) (edges : ∀ db, Keeps db → Keeps (dropTrustEdges db user))
  (rows : ∀ db, Keeps db → Keeps (dropAccountRows db user)) (signsRetractions : ∀ post ∈ db.posts,
    Signs state corpus sign (.retraction { postId := post.id, author := user, createdAt := now * 1000 }))
  (signsDeactivation : Signs state corpus sign (.deactivation { user, createdAt := now * 1000 }))
  (run : softDeleteUser state sign db user anonName now = .ok after)
include signsRetractions signsDeactivation run

include effects index edges rows in
theorem softDeleteUser_keeps (kept : Keeps db) : Keeps after := by
  obtain ⟨retracted, retracting, run⟩ := bind_ok.mp run
  obtain ⟨collected, gcRun, run⟩ := bind_ok.mp run
  obtain ⟨edged, edgesRun, run⟩ := bind_ok.mp run
  obtain ⟨profiled, profilesRun, run⟩ := bind_ok.mp run
  cases run
  have retractions : Effects state corpus false db retracted := by
    refine foldlM_invariant (fun mid => Effects state corpus false db mid) ?_ .refl retracting
    intro post mem mid final reached ran
    exact reached.trans (softDeletePost_effects (signsRetractions post (mem_filter.mp mem).1) ran)
  let cleared := clearAccountFts (storeDeactivation state sign retracted user now (hasActiveKey db user)).2 user
  have deactivated : Keeps cleared := index _ (effects _ _
    (retractions.trans (storeDeactivation_effects retracted (hasActiveKey db user) signsDeactivation)) kept)
  have unstaged : Effect state corpus false cleared { cleared with
      attachmentStaging := cleared.attachmentStaging.filter (·.uploader ≠ user) } := .aside _ _ _ _ _ _
  have collecting := effects _ _ ((Relation.ReflTransGen.single unstaged).tail (.gc gcRun)) deactivated
  have anonymised : Effect state corpus false collected (anonymise state collected user anonName) := by
    refine .users ?_
    intro key known
    rwa [any_updateWhere (by intro row; rfl)]
  have erasing : Effect state corpus true _ edged := eraseUserTrustEdgePayloads_effect edgesRun
  have edgesDropped := edges _ (effects _ _ ((Relation.ReflTransGen.single anonymised).tail erasing.stored) collecting)
  have erasingProfiles : Effect state corpus true _ profiled := eraseUserProfileRevisionPayloads_effect profilesRun
  exact rows _ (effects _ _ (.single erasingProfiles.stored) edgesDropped)

include sound in
theorem softDeleteUser_sound : Sound state corpus after := by
  refine softDeleteUser_keeps (fun _ _ effects sound => effects.sound sound) ?_ ?_ ?_ signsRetractions
    signsDeactivation run sound
  · intro db sound
    exact { sound with }
  · intro db sound
    exact { sound with edges := fun row mem => sound.edges row (mem_of_mem_filter mem) }
  · intro db sound
    exact { sound with
      profiles := fun row mem => sound.profiles row (mem_of_mem_filter mem)
      profilesStored := fun row mem => sound.profilesStored row (mem_of_mem_filter mem)
      profileUsers := fun row mem => sound.profileUsers row (mem_of_mem_filter mem) }

end Prismoire
