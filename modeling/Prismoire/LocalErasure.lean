import Prismoire.AdminRemovals
import Prismoire.AttachmentStore
import Prismoire.ErasureTerminal

namespace Prismoire

open Lib List Db

/-- A stored post-rev of the post, whose text a backfill still serves. -/
def Db.serves (state : AppState) (db : Db) (hash : Hash) (id : Uuid) : Prop :=
  ∃ row ∈ db.signedObjects, row.canonicalHash = hash ∧
    ∃ p, row.payload.bind state.platform.parse = some (.postRevision p) ∧ p.postId = id

def Db.revises (db : Db) (hash : Hash) (id : Uuid) : Prop :=
  ∃ row ∈ db.postRevisions, row.canonicalHash = hash ∧ row.postId = id

/-- A post whose text no projection and no index holds. -/
structure CoveredPost (db : Db) (id : Uuid) : Prop where
  retracted : ∀ post ∈ db.posts, post.id = id → post.retracted = true
  bodies : ∀ row ∈ db.postRevisions, row.postId = id → row.body = "" ∨ row.body = removalText
  postsFts : ∀ row ∈ db.postsFts, row.postId ≠ id
  threadsFts : ∀ post ∈ db.posts, post.id = id → post.parent = none →
    ∀ row ∈ db.threadsFts, row.threadId = post.thread → row.opBody = ""

structure ErasedPost (state : AppState) (db : Db) (id : Uuid) : Prop extends CoveredPost db id where
  payloads : ∀ hash, ¬ db.serves state hash id
  bindings : ∀ row ∈ db.postAttachments, row.postId ≠ id

def Uncovers (doomed : Uuid → Bool) (post : PostRow) : Prop :=
  doomed post.id = true ∧ post.retracted = false ∧ post.parent = none

/-- The retraction of posts together with the replacement of their bodies. -/
structure Retires (doomed : Uuid → Bool) (text : Text) (db after : Db) : Prop where
  threads : after.threads = db.threads
  posts : after.posts = updateWhere (fun post => doomed post.id && !post.retracted)
    (fun post => { post with retracted := true }) db.posts
  revisions : after.postRevisions = updateWhere (fun row => doomed row.postId) (fun row => { row with body := text })
    db.postRevisions
  postsFts : ∀ row ∈ after.postsFts, row ∈ db.postsFts ∧
    ∀ post ∈ db.posts, doomed post.id = true → post.retracted = false → post.id ≠ row.postId
  blanked : ∀ row ∈ after.threadsFts, row.opBody = "" ∨ row ∈ db.threadsFts ∧
    ∀ post ∈ db.posts, Uncovers doomed post → row.threadId ≠ post.thread
  left : ∀ row ∈ db.threadsFts, (∀ post ∈ db.posts, Uncovers doomed post → row.threadId ≠ post.thread) →
    row ∈ after.threadsFts

variable {after db : Db} {post : PostRow}

section Retirement

variable {doomed : Uuid → Bool} {text : Text} {mid : Db}

theorem Retires.refl : Retires (fun _ => false) text db db where
  threads := rfl
  posts := (updateWhere_eq_self fun _ _ => rfl).symm
  revisions := (updateWhere_eq_self fun _ _ => rfl).symm
  postsFts row mem := ⟨mem, nofun⟩
  blanked row mem := .inr ⟨mem, fun _ _ opening => by cases opening.1⟩
  left row mem _ := mem

theorem Retires.kept (retires : Retires doomed text db after) (mem : post ∈ db.posts)
    (spared : doomed post.id = false) : post ∈ after.posts := by
  rw [retires.posts]
  exact mem_updateWhere.mpr ⟨post, mem, .inr ⟨by simp [spared], rfl⟩⟩

theorem Retires.standing (retires : Retires doomed text db after) (mem : post ∈ after.posts)
    (standing : post.retracted = false) : post ∈ db.posts := by
  rw [retires.posts] at mem
  obtain ⟨old, inPosts, ⟨-, rfl⟩ | ⟨-, rfl⟩⟩ := mem_updateWhere.mp mem
  · cases standing
  · exact inPosts

theorem Retires.trans {more : Uuid → Bool} (first : Retires doomed text db mid) (second : Retires more text mid after) :
    Retires (fun id => doomed id || more id) text db after where
  threads := second.threads.trans first.threads
  posts := by
    rw [second.posts, first.posts, updateWhere, updateWhere, updateWhere, map_map]
    refine map_congr_left fun post _ => ?_
    cases hit : doomed post.id <;> cases old : post.retracted <;> cases again : more post.id <;> simp [hit, old, again]
  revisions := by
    rw [second.revisions, first.revisions, updateWhere, updateWhere, updateWhere, map_map]
    refine map_congr_left fun row _ => ?_
    cases hit : doomed row.postId <;> cases again : more row.postId <;> simp [hit, again]
  postsFts row mem := by
    obtain ⟨between, apart⟩ := second.postsFts row mem
    obtain ⟨inDb, sooner⟩ := first.postsFts row between
    refine ⟨inDb, fun post inPosts hit standing => ?_⟩
    cases early : doomed post.id with
    | true => exact sooner post inPosts early standing
    | false => exact apart post (first.kept inPosts early) (by simpa [early] using hit) standing
  blanked row mem := by
    rcases second.blanked row mem with blank | ⟨between, apart⟩
    · exact .inl blank
    · refine (first.blanked row between).imp_right fun found => ⟨found.1, fun post inPosts opening => ?_⟩
      obtain ⟨hit, standing, root⟩ := opening
      cases early : doomed post.id with
      | true => exact found.2 post inPosts ⟨early, standing, root⟩
      | false => exact apart post (first.kept inPosts early) ⟨by simpa [early] using hit, standing, root⟩
  left row mem apart := by
    refine second.left row (first.left row mem fun post inPosts opening => ?_) fun post between opening => ?_
    · exact apart post inPosts ⟨by simp [opening.1], opening.2⟩
    · exact apart post (first.standing between opening.2.1) ⟨by simp [opening.1], opening.2⟩

theorem Retires.of_post (id : Uuid) (text : Text) (posted : ∀ post ∈ db.posts, db.hasThread post.thread = true) :
    Retires (· = id) text db ((db.retractPosts (·.id = id)).replaceBodies (· = id) text) where
  threads := rfl
  posts := rfl
  revisions := rfl
  postsFts row mem := by
    obtain ⟨inDb, kept⟩ := mem_filter.mp mem
    refine ⟨inDb, fun post inPosts hit standing same => ?_⟩
    have hits : (db.posts.filter fun post => decide (post.id = id) && !post.retracted).any (·.id = row.postId) = true :=
      any_eq_true.mpr ⟨post, mem_filter.mpr ⟨inPosts, by simp_all⟩, by simpa using same⟩
    rw [hits] at kept
    cases kept
  blanked row mem := by
    rcases foldl_retract_mem mem with ⟨-, blank⟩ | ⟨inDb, apart⟩
    · exact .inl blank
    · refine .inr ⟨inDb, fun post inPosts opening => ?_⟩
      obtain ⟨hit, standing, root⟩ := opening
      exact apart post (mem_filter.mpr ⟨inPosts, by simp_all⟩) root (posted post inPosts)
  left row mem apart := by
    have kept : ∀ posts : List PostRow, (∀ post ∈ posts, post.parent = none → row.threadId ≠ post.thread) →
        ∀ fts, row ∈ fts → row ∈ posts.foldl (threadsFtsOpAfterRetract db.threads) fts := by
      intro posts
      induction posts with
      | nil => exact fun _ _ inFts => inFts
      | cons post posts ih =>
        intro others fts inFts
        refine ih (fun later inPosts => others later (mem_cons_of_mem _ inPosts)) _ ?_
        unfold threadsFtsOpAfterRetract replaceThreadsFts
        split
        · rename_i root
          split
          · exact inFts
          · have differs := others post mem_cons_self (Option.isNone_iff_eq_none.mp root)
            exact mem_append_left _ (mem_filter.mpr ⟨inFts, by simpa using differs⟩)
        · exact inFts
    refine kept _ (fun post inPosts root => ?_) _ mem
    obtain ⟨inPosts, hit⟩ := mem_filter.mp inPosts
    simp only [Bool.and_eq_true, Bool.not_eq_true'] at hit
    exact apart post inPosts ⟨hit.1, hit.2, root⟩

theorem Retires.of_same (retires : Retires doomed text db mid) (threads : after.threads = mid.threads)
    (posts : after.posts = mid.posts) (revisions : after.postRevisions = mid.postRevisions)
    (postsFts : after.postsFts = mid.postsFts) (threadsFts : after.threadsFts = mid.threadsFts) :
    Retires doomed text db after where
  threads := threads.trans retires.threads
  posts := posts.trans retires.posts
  revisions := revisions.trans retires.revisions
  postsFts := by
    rw [postsFts]
    exact retires.postsFts
  blanked := by
    rw [threadsFts]
    exact retires.blanked
  left := by
    rw [threadsFts]
    exact retires.left

theorem Retires.posted (retires : Retires doomed text db after)
    (posted : ∀ post ∈ db.posts, db.hasThread post.thread = true) :
    ∀ post ∈ after.posts, after.hasThread post.thread = true := by
  unfold hasThread
  rw [retires.threads, retires.posts]
  exact forall_mem_updateWhere posted fun _ => id

theorem Retires.covered (retires : Retires doomed text db after) (ids : UniqueBy PostRow.id db.posts)
    (inPosts : post ∈ db.posts) (hit : doomed post.id = true) (standing : post.retracted = false)
    (fixed : text = "" ∨ text = removalText) : CoveredPost after post.id where
  retracted other mem same := by
    cases stands : other.retracted with
    | true => rfl
    | false =>
      have old := retires.standing mem stands
      obtain rfl := ids.eq old inPosts same
      have retracted : ({ other with retracted := true } : PostRow) ∈ after.posts := by
        rw [retires.posts]
        exact mem_updateWhere.mpr ⟨other, old, .inl ⟨by simp [hit, stands], rfl⟩⟩
      have unique : UniqueBy PostRow.id after.posts := by
        rw [retires.posts]
        exact ids.update fun _ => rfl
      have apart := unique.eq retracted mem rfl
      rw [← apart] at stands
      cases stands
  bodies row mem same := by
    rw [retires.revisions] at mem
    obtain ⟨old, -, ⟨-, rfl⟩ | ⟨missed, rfl⟩⟩ := mem_updateWhere.mp mem
    · exact fixed
    · rw [same, hit] at missed
      cases missed
  postsFts row mem same := (retires.postsFts row mem).2 post inPosts hit standing same.symm
  threadsFts other mem same root row inFts sameThread := by
    refine (retires.blanked row inFts).resolve_right fun ⟨_, apart⟩ => ?_
    rw [retires.posts] at mem
    obtain ⟨old, inOld, ⟨-, rfl⟩ | ⟨-, rfl⟩⟩ := mem_updateWhere.mp mem
    · obtain rfl := ids.eq inOld inPosts same
      exact apart old inPosts ⟨hit, standing, root⟩ sameThread
    · obtain rfl := ids.eq inOld inPosts same
      exact apart other inPosts ⟨hit, standing, root⟩ sameThread

end Retirement

variable {corpus : Corpus} {state : AppState}

section Payloads

variable {hash : Hash} {id : Uuid} {authority : Option Hash}

theorem serves_congr (objects : after.signedObjects = db.signedObjects) :
    after.serves state hash id ↔ db.serves state hash id := by
  rw [Db.serves, Db.serves, objects]

theorem serves_erasePayloads {targeted : Hash → Bool}
    (run : db.erasePayloads targeted authority = .ok after) :
    after.serves state hash id ↔ db.serves state hash id ∧ targeted hash = false := by
  rw [erasePayloads_frame run]
  constructor
  · rintro ⟨row, mem, rfl, p, parses, named⟩
    obtain ⟨old, inDb, ⟨-, rfl⟩ | ⟨missed, rfl⟩⟩ := mem_updateWhere.mp mem
    · cases parses
    · refine ⟨⟨row, inDb, rfl, p, parses, named⟩, ?_⟩
      obtain ⟨payload, live, -⟩ := Option.bind_eq_some_iff.mp parses
      simpa [erasable, live] using missed
  · rintro ⟨⟨row, inDb, rfl, p, parses, named⟩, missed⟩
    exact ⟨row, mem_updateWhere.mpr ⟨row, inDb, .inr ⟨by simp [erasable, missed], rfl⟩⟩, rfl, p, parses, named⟩

theorem serves_store {object : SignedPayload} {payload signature : Bytes} {stored : Hash} {cls : InnerClass}
    (parses : state.platform.parse payload = some object) (other : ∀ p, object ≠ .postRevision p) :
    (db.storeSignedObject cls payload signature stored).serves state hash id ↔ db.serves state hash id := by
  cases present : db.hasObject stored with
  | true => rw [storeSignedObject_of_present present]
  | false =>
    rw [storeSignedObject_of_absent present]
    constructor
    · rintro ⟨row, mem, hashed, p, parsesRow, named⟩
      rcases mem_concat.mp mem with old | new
      · exact ⟨row, old, hashed, p, parsesRow, named⟩
      · rw [new] at parsesRow
        exact absurd (Option.some.inj (parses.symm.trans parsesRow)) (other p)
    · rintro ⟨row, mem, found⟩
      exact ⟨row, mem_append_left _ mem, found⟩

section

variable (sound : Sound state corpus db)
include sound

theorem Sound.served (served : db.serves state hash id) :
    ∃ payload p, corpus payload ∧ hash = state.platform.sha256 payload ∧
      state.platform.parse payload = some (.postRevision p) ∧ p.postId = id := by
  obtain ⟨row, mem, rfl, p, parses, named⟩ := served
  obtain ⟨payload, live, parses⟩ := Option.bind_eq_some_iff.mp parses
  obtain ⟨landing, hashed⟩ := sound.landing mem live parses
  exact ⟨payload, p, landing.filed.occurs, hashed, parses, named⟩

variable (injective : CollisionFree state.platform corpus) (served : db.serves state hash id)
include injective served

theorem Sound.served_parses {payload : Bytes} (occurs : corpus payload)
    (hashed : hash = state.platform.sha256 payload) :
    ∃ p, state.platform.parse payload = some (.postRevision p) ∧ p.postId = id := by
  obtain ⟨other, p, occursOther, hashedOther, parses, named⟩ := sound.served served
  obtain rfl := injective _ _ occurs occursOther (hashed.symm.trans hashedOther)
  exact ⟨p, parses, named⟩

theorem Sound.revises_named {other : Uuid} (revises : db.revises hash other) : other = id := by
  obtain ⟨row, mem, rfl, rfl⟩ := revises
  obtain ⟨payload, signature, p, filed, records⟩ := sound.revisions row mem
  obtain ⟨p', parses, named⟩ := sound.served_parses injective served filed.occurs records.hash
  rw [filed.parses] at parses
  cases parses
  exact records.post.trans named

end

theorem Retires.revises {doomed : Uuid → Bool} {text : Text} (retires : Retires doomed text db after) :
    after.revises hash id ↔ db.revises hash id := by
  rw [Db.revises, Db.revises, retires.revisions]
  exact exists_mem_updateWhere fun _ => Iff.rfl

def Silences (state : AppState) (doomed : Uuid → Bool) (db after : Db) : Prop :=
  ∀ hash id, after.serves state hash id ↔
    db.serves state hash id ∧ ∀ other, doomed other = true → ¬ db.revises hash other

theorem Silences.of_erase (run : db.erasePostRevPayloads id authority = .ok after) :
    Silences state (· = id) db after := by
  intro hash other
  rw [erasePostRevPayloads] at run
  refine (serves_erasePayloads run).trans (and_congr_right fun _ => ?_)
  rw [any_eq_false]
  constructor
  · rintro none named hit ⟨row, mem, hashed, post⟩
    exact none row mem (by simpa [hashed, post] using hit)
  · intro none row mem hit
    simp only [decide_eq_true_eq] at hit
    exact none id (by simp) ⟨row, mem, hit⟩

theorem Silences.trans {doomed more : Uuid → Bool} {text : Text} {mid : Db} (first : Silences state doomed db mid)
    (second : Silences state more mid after) (retires : Retires doomed text db mid) :
    Silences state (fun id => doomed id || more id) db after := by
  intro hash id
  rw [second hash id, first hash id, and_assoc, and_congr_right_iff]
  intro _
  simp only [Bool.or_eq_true, retires.revises]
  constructor
  · rintro ⟨early, late⟩ other (hit | hit)
    · exact early other hit
    · exact late other hit
  · exact fun none => ⟨fun other hit => none other (.inl hit), fun other hit => none other (.inr hit)⟩

end Payloads

variable {host : Host} {user : Key}

section Handlers

variable {sign : Signer}

variable {now : Nat} {active : Bool}

/-- The posts that the loop of `soft_delete_user` goes through. -/
def standingPosts (db : Db) (user : Key) : List PostRow :=
  db.posts.filter fun post => decide (post.author = user) && !post.retracted

end Handlers

/-- What an account deletion needs of a post of the user: no binding and no text of an earlier retraction left, and of a
post that it retracts no post-rev apart from the revisions. -/
structure DeletionErases (state : AppState) (db : Db) (user : Key) (post : PostRow) : Prop where
  bindings : ∀ row ∈ db.postAttachments, row.postId ≠ post.id
  payloads : ∀ hash, db.serves state hash post.id → post.retracted = false ∧ db.revises hash post.id
  bodies : post.retracted = true → ∀ row ∈ db.postRevisions, row.postId = post.id → row.body = "" ∨ row.body = removalText
  index : post.retracted = true → post.parent = none → ∀ row ∈ db.threadsFts, row.threadId = post.thread →
    row.opBody = "" ∨ (∃ thread ∈ db.threads, thread.id = post.thread ∧ thread.author = user) ∨
      ∃ other ∈ standingPosts db user, other.parent = none ∧ other.thread = post.thread

section Accounts

variable {looped : Db}

theorem mem_standingPosts : post ∈ standingPosts db user ↔
    post ∈ db.posts ∧ post.author = user ∧ post.retracted = false := by
  simp only [standingPosts, mem_filter, Bool.and_eq_true, decide_eq_true_eq, Bool.not_eq_true']

theorem doomed_iff (ids : UniqueBy PostRow.id db.posts) (inPosts : post ∈ db.posts) :
    (standingPosts db user).any (·.id = post.id) = true ↔ post ∈ standingPosts db user := by
  rw [any_eq_true]
  constructor
  · rintro ⟨other, mem, same⟩
    have inOld := (mem_standingPosts.mp mem).1
    exact ids.eq inOld inPosts (of_decide_eq_true same) ▸ mem
  · exact fun mem => ⟨post, mem, decide_eq_true rfl⟩

theorem Retires.form {doomed : Uuid → Bool} {text : Text} {other : PostRow} (retires : Retires doomed text db after)
    (ids : UniqueBy PostRow.id db.posts) (inPosts : post ∈ db.posts) (mem : other ∈ after.posts)
    (same : other.id = post.id) :
    other.parent = post.parent ∧ other.thread = post.thread ∧ (post.retracted = true → other.retracted = true) := by
  rw [retires.posts] at mem
  obtain ⟨old, inOld, ⟨-, rfl⟩ | ⟨-, rfl⟩⟩ := mem_updateWhere.mp mem
  · obtain rfl := ids.eq inOld inPosts same
    exact ⟨rfl, rfl, fun _ => rfl⟩
  · obtain rfl := ids.eq inOld inPosts same
    exact ⟨rfl, rfl, id⟩

variable (sound : Sound state corpus db) (injective : CollisionFree state.platform corpus)
  (ids : UniqueBy PostRow.id db.posts) (retires : Retires (fun id => (standingPosts db user).any (·.id = id)) "" db looped)
  (posts : after.posts = looped.posts) (revisions : after.postRevisions = looped.postRevisions)
include ids retires posts revisions

include sound injective

theorem DeletionErases.of_erased (threadsFts : after.threadsFts = updateWhere
      (fun row => looped.threads.any fun thread => thread.id = row.threadId ∧ thread.author = user)
      (fun row => { row with opBody := "" }) looped.threadsFts)
    (silences : Silences state (fun id => (standingPosts db user).any (·.id = id)) db after)
    (bindings : after.postAttachments = db.postAttachments) (inPosts : post ∈ db.posts)
    (erased : ErasedPost state after post.id) : DeletionErases state db user post where
  bindings := by
    rw [← bindings]
    exact erased.bindings
  payloads hash served := by
    by_contra lacks
    refine erased.payloads hash ((silences hash post.id).mpr ⟨served, fun other hit revises => lacks ?_⟩)
    obtain rfl := sound.revises_named injective served revises
    exact ⟨(mem_standingPosts.mp ((doomed_iff ids inPosts).mp hit)).2.2, revises⟩
  bodies retracted row inDb same := by
    refine erased.bodies row ?_ same
    rw [revisions, retires.revisions]
    refine mem_updateWhere.mpr ⟨row, inDb, .inr ⟨?_, rfl⟩⟩
    rw [← Bool.not_eq_true, same, doomed_iff ids inPosts]
    intro standing
    rw [(mem_standingPosts.mp standing).2.2] at retracted
    cases retracted
  index retracted root row inDb sameThread := by
    by_contra lacks
    obtain ⟨shown, others, unopened⟩ := by simpa only [not_or] using lacks
    have spared : (standingPosts db user).any (·.id = post.id) = false := by
      rw [← Bool.not_eq_true, doomed_iff ids inPosts]
      intro standing
      rw [(mem_standingPosts.mp standing).2.2] at retracted
      cases retracted
    have inLooped : row ∈ looped.threadsFts := by
      refine retires.left row inDb fun other inOld opening shares => unopened ⟨other, ?_, opening.2.2, ?_⟩
      · exact (doomed_iff ids inOld).mp opening.1
      · exact shares.symm.trans sameThread
    refine shown (erased.threadsFts post (posts ▸ retires.kept inPosts spared) rfl root row ?_ sameThread)
    rw [threadsFts]
    refine mem_updateWhere.mpr ⟨row, inLooped, .inr ⟨?_, rfl⟩⟩
    rw [retires.threads, any_eq_false]
    intro thread inThreads hit
    obtain ⟨same, author⟩ := of_decide_eq_true hit
    exact others ⟨thread, inThreads, same.trans sameThread, author⟩

end Accounts

/-- An operation of the instance, an account deletion, a collection of blobs, or the removal of a post by an admin. -/
inductive ErasureStep (host : Host) (corpus : Corpus) : Db → Db → Prop
  | blob {db after : Db} : BlobStep host.toAppState corpus db after → ErasureStep host corpus db after
  | remove {db after : Db} {signed} (sign : Signer) (req : RemovePostRequest) :
      (∀ post ∈ db.posts, Signs host.toAppState corpus sign (.adminRemoval (req.removal host post))) →
      removePost host sign db req = .ok (signed, after) → ErasureStep host corpus db after

abbrev ErasureReachable (host : Host) (corpus : Corpus) (db : Db) : Prop :=
  Relation.ReflTransGen (ErasureStep host corpus) {} db

structure ErasureKept (state : AppState) (corpus : Corpus) (db : Db) : Prop extends BlobsKept state corpus db where
  ints : Integrity state corpus db
  ord : Orderly db
  indexed : Indexed db

section Runs

theorem ErasureStep.keeps {Keeps : Db → Prop} (step : ErasureStep host corpus db after)
    (sound : Sound host.toAppState corpus db)
    (effects : ∀ db after, Effects host.toAppState corpus false db after → Keeps db → Keeps after)
    (index : ∀ db user, Keeps db → Keeps (clearAccountFts db user))
    (edges : ∀ db user, Keeps db → Keeps (dropTrustEdges db user))
    (rows : ∀ db user, Keeps db → Keeps (dropAccountRows db user))
    (replaced : ∀ db selected text, Keeps db → Keeps (db.replaceBodies selected text)) (kept : Keeps db) : Keeps after := by
  cases step with
  | blob step =>
    cases step with
    | operate step => exact effects _ _ (step.effects sound) kept
    | delete sign user anonName now signsRetractions signsDeactivation run =>
      exact softDeleteUser_keeps effects (fun db => index db user) (fun db => edges db user) (fun db => rows db user)
        signsRetractions signsDeactivation run kept
    | collect run => exact effects _ _ (.single (.gc run)) kept
  | remove sign req signs run =>
    obtain ⟨post, inPosts, -, -, -, -, -, -, committed⟩ := removePost_ok run
    exact commitRemoval_keeps effects replaced (signs post inPosts) committed kept

theorem ErasureStep.kept (step : ErasureStep host corpus db after) (kept : ErasureKept host.toAppState corpus db) :
    ErasureKept host.toAppState corpus after := by
  refine ⟨?_, ?_, ?_, ?_⟩
  · cases step with
    | blob step => exact step.kept kept.toBlobsKept
    | remove sign req signs run =>
      obtain ⟨post, inPosts, -, -, -, -, -, -, committed⟩ := removePost_ok run
      refine ⟨?_, ?_, ?_⟩
      · exact commitRemoval_keeps (fun _ _ effects sound => effects.sound sound)
          (fun _ selected text sound => sound.replaceBodies selected text) (signs post inPosts) committed kept.sound
      · exact commitRemoval_keeps (fun _ _ effects counted => effects.counted counted)
          (fun _ _ _ counted => counted.of_same rfl rfl) (signs post inPosts) committed kept.counted
      · obtain ⟨-, rfl⟩ := commitRemoval_ok committed
        exact kept.staged
  · refine step.keeps kept.sound (fun _ _ effects ints => effects.integrity ints) ?_ ?_ ?_
      (fun _ selected text ints => ints.replaceBodies selected text) kept.ints
    · intro db user ints
      exact { ints with }
    · intro db user ints
      exact { ints with }
    · intro db user ints
      exact { ints with
        profileKeys := ints.profileKeys.sublist (filter_sublist.map _) }
  · refine step.keeps kept.sound (fun _ _ effects ord => effects.orderly ord) ?_ ?_ ?_ ?_ kept.ord
    · intro db user ord
      exact { ord with }
    · intro db user ord
      exact { ord with }
    · intro db user ord
      exact { ord with }
    · intro db selected text ord
      exact ord.updateRevisions (fun _ => rfl) (fun _ => rfl) fun _ => rfl
  · refine step.keeps kept.sound (fun _ _ effects indexed => effects.indexed indexed) ?_ ?_ ?_ ?_ kept.indexed
    · intro db user indexed
      exact ⟨forall_mem_updateWhere indexed.roots fun _ => id, indexed.authors⟩
    · intro db user indexed
      exact { indexed with }
    · intro db user indexed
      exact { indexed with }
    · intro db selected text indexed
      exact { indexed with }

theorem ErasureReachable.kept (reached : ErasureReachable host corpus db) : ErasureKept host.toAppState corpus db := by
  induction reached with
  | refl => exact ⟨⟨.empty, .empty, by simp [StagedHaveBlobs]⟩, .empty, .empty, by simp, by simp⟩
  | tail _ step ih => exact step.kept ih

end Runs

/-- The objects of user 5 with a removal, a retraction and a deactivation of second 4. -/
def erasureTable : List SignedPayload :=
  [.profileRevision fileBirth.genesisProfile, .move fileGenesis,
    .postRevision (fileThread.opening 5 ⟨fileThread.attachments, fileThread_fits⟩), .threadCreate (fileThread.thread 5),
    .adminRemoval ⟨21, 5, "here", 4000, some "spam"⟩, .retraction ⟨21, 5, 4000⟩, .deactivation ⟨5, 4000⟩]

def erasureHost : Host :=
  { AppState.ofTable erasureTable with instanceDomain := "here" }

def erasureBytes (payload : Bytes) : Prop :=
  payload ∈ ([[0], [1], [2], [3], [4], [5], [6]] : List Bytes)

instance : DecidablePred erasureBytes :=
  fun payload => inferInstanceAs (Decidable (payload ∈ _))

def signErasure : Signer :=
  signByTable erasureTable

def erasureBorn : Db :=
  (completeLocalUserBirth erasureHost.toAppState {} fileBirth).toOption.getD {}

def erasureStaged : Db :=
  (uploadAttachment erasureBorn 5 ⟨7, "text/plain", 1, "a.txt", note_fits⟩).toOption.getD {}

def erasureDb : Db :=
  (createThread erasureHost.toAppState signErasure erasureStaged 5 fileThread).2

def removedDb : Db :=
  ((removePost erasureHost signErasure erasureDb ⟨true, 21, "spam", 4⟩).toOption.map Prod.snd).getD {}

theorem erasureDb_reached : ErasureReachable erasureHost erasureBytes erasureDb := by
  have born : ErasureStep erasureHost erasureBytes {} erasureBorn := by
    refine .blob (.operate (.birth fileBirth fileGenesis ?_ ?_ ?_))
    · exact ⟨by decide, rfl, 5, by decide⟩
    · exact ⟨by decide, rfl, 5, by decide⟩
    · rfl
  have staged : ErasureStep erasureHost erasureBytes erasureBorn erasureStaged :=
    .blob (.operate (.upload 5 ⟨7, "text/plain", 1, "a.txt", by decide⟩ (by decide +kernel)))
  refine ((Relation.ReflTransGen.single born).tail staged).tail (.blob (.operate (.thread signErasure 5 fileThread ?_ ?_)))
  · rintro ⟨refs, fit⟩ rfl
    have occurs : erasureBytes [2] := by decide
    have ok : signatureOk erasureHost.platform [2] (List.replicate 64 0) 5 = true := by decide
    exact ⟨occurs, rfl, 5, ok⟩
  · exact ⟨by decide +kernel, rfl, 5, by decide +kernel⟩

end Prismoire
