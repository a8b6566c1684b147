import Prismoire.ErasureAuthority
import Prismoire.Integrity

namespace Prismoire

open Lib List Option Db

/-- What an authority erases: one post, or everything of one user. -/
inductive Subject where
  | post (id : Uuid)
  | user (key : Key)
  deriving DecidableEq

/-- The subject that an authority ends. -/
def SignedPayload.condemns : SignedPayload → Option Subject
  | .retraction r => some (.post r.postId)
  | .adminRemoval a => some (.post a.postId)
  | .deactivation d => some (.user d.user)
  | _ => none

/-- The subjects that an object is content of. -/
def SignedPayload.subjects : SignedPayload → List Subject
  | .postRevision p => [.post p.postId, .user p.author]
  | .profileRevision p => [.user p.user]
  | _ => []

def Subject.owns (db : Db) : Subject → Uuid → Bool
  | .post id, other => other = id
  | .user key, other => authored db key other

/-- No text of the subject where a reader or a search can find it. -/
structure Hidden (db : Db) (s : Subject) : Prop where
  bodies : ∀ row ∈ db.postRevisions, s.owns db row.postId = true → row.body ≠ "" →
    ∀ post ∈ db.posts, post.id = row.postId → post.retracted = true
  postsFts : ∀ row ∈ db.postsFts, s.owns db row.postId = true → row.body = ""
  threadsFts : ∀ row ∈ db.threadsFts, ∀ id, row.opPost = some id → s.owns db id = true → row.opBody = ""

/-- No stored bytes of the subject. -/
def Silent (state : AppState) (db : Db) (s : Subject) : Prop :=
  ∀ row ∈ db.signedObjects, ∀ object ∈ row.payload.bind state.platform.parse, s ∉ object.subjects

structure Gone (state : AppState) (db : Db) (s : Subject) : Prop extends Hidden db s where
  silent : Silent state db s

/-- A stored authority over the subject. -/
def Condemned (state : AppState) (db : Db) (s : Subject) : Prop :=
  ∃ row ∈ db.signedObjects, ∃ object ∈ row.payload.bind state.platform.parse, object.condemns = some s

instance (state : AppState) (db : Db) (s : Subject) : Decidable (Condemned state db s) :=
  inferInstanceAs (Decidable (∃ row ∈ db.signedObjects, ∃ object ∈ row.payload.bind state.platform.parse,
    object.condemns = some s))

variable {corpus : Corpus} {db : Db} {payload : Bytes} {s : Subject} {state : AppState}

section Held

variable {object : SignedPayload}

theorem Silent.held (silent : Silent state db s) (held : HeldLive state.platform db payload)
    (parses : state.platform.parse payload = some object) : s ∉ object.subjects := by
  obtain ⟨row, mem, -, live⟩ := held
  exact silent row mem object (bind_eq_some_iff.mpr ⟨payload, live, parses⟩)

theorem Sound.heldLive (sound : Sound state corpus db) {row : SignedObjectRow} (mem : row ∈ db.signedObjects)
    (parses : row.payload.bind state.platform.parse = some object) :
    ∃ payload, HeldLive state.platform db payload ∧ state.platform.parse payload = some object := by
  obtain ⟨payload, live, parses⟩ := bind_eq_some_iff.mp parses
  exact ⟨payload, (sound.landing mem live parses).1.held rfl, parses⟩

theorem Sound.silent (sound : Sound state corpus db)
    (all : ∀ payload, HeldLive state.platform db payload → ∀ object, state.platform.parse payload = some object →
      s ∉ object.subjects) : Silent state db s := by
  intro row mem object parses
  obtain ⟨payload, held, parses⟩ := sound.heldLive mem parses
  exact all payload held object parses

theorem Condemned.of_held {condemning : SignedPayload} (held : HeldLive state.platform db payload)
    (parses : state.platform.parse payload = some condemning) (condemns : condemning.condemns = some s) :
    Condemned state db s := by
  obtain ⟨row, mem, -, live⟩ := held
  exact ⟨row, mem, condemning, bind_eq_some_iff.mpr ⟨payload, live, parses⟩, condemns⟩

theorem Sound.condemned (sound : Sound state corpus db) (condemned : Condemned state db s) :
    ∃ payload object, HeldLive state.platform db payload ∧ state.platform.parse payload = some object ∧
      object.condemns = some s := by
  obtain ⟨row, mem, object, parses, condemns⟩ := condemned
  obtain ⟨payload, held, parses⟩ := sound.heldLive mem parses
  exact ⟨payload, object, held, parses, condemns⟩

end Held

variable {after : Db}

section Posts

variable {keep : PostRow → Bool} {set : PostRow → PostRow}

theorem authored_updateWhere (sameId : ∀ row, (set row).id = row.id) (sameAuthor : ∀ row, (set row).author = row.author)
    (user : Key) (id : Uuid) :
    (updateWhere keep set db.posts).any (fun row => row.id = id ∧ row.author = user) = authored db user id := by
  rw [any_updateWhere]
  · rfl
  · intro row
    rw [sameId, sameAuthor]

theorem Hidden.updatePosts {postsFts : List PostsFtsRow}
    {threadsFts : List ThreadsFtsRow} (hidden : Hidden db s) (sameId : ∀ row, (set row).id = row.id)
    (sameAuthor : ∀ row, (set row).author = row.author)
    (stays : ∀ row, row.retracted = true → (set row).retracted = true)
    (fewer : ∀ row ∈ postsFts, row ∈ db.postsFts)
    (blanked : ∀ row ∈ threadsFts, row ∈ db.threadsFts ∨ row.opPost = none) :
    Hidden { db with
      posts := updateWhere keep set db.posts
      postsFts := postsFts
      threadsFts := threadsFts } s := by
  have owns : ∀ id, s.owns { db with
      posts := updateWhere keep set db.posts
      postsFts := postsFts
      threadsFts := threadsFts } id = s.owns db id := by
    intro id
    cases s with
    | post other => rfl
    | user key => exact authored_updateWhere sameId sameAuthor key id
  refine ⟨?_, ?_, ?_⟩
  · intro row mem owned shown post inPosts samePost
    rw [owns] at owned
    refine forall_mem_updateWhere (hidden.bodies row mem owned shown) ?_ post inPosts samePost
    exact fun old gone same => stays old (gone (by rw [← sameId, same]))
  · intro row mem owned
    rw [owns] at owned
    exact hidden.postsFts row (fewer row mem) owned
  · intro row mem id written owned
    rw [owns] at owned
    rcases blanked row mem with old | blank
    · exact hidden.threadsFts row old id written owned
    · rw [blank] at written
      cases written

theorem foldl_retract_mem {threads : List ThreadRow} {posts : List PostRow} {fts : List ThreadsFtsRow}
    {row : ThreadsFtsRow} (mem : row ∈ posts.foldl (threadsFtsOpAfterRetract threads) fts) :
    (row.opPost = none ∧ row.opBody = "") ∨ (row ∈ fts ∧ ∀ post ∈ posts, post.parent = none →
      threads.any (·.id = post.thread) = true → row.threadId ≠ post.thread) := by
  induction posts generalizing fts with
  | nil => exact .inr ⟨mem, nofun⟩
  | cons post posts ih =>
    obtain blank | ⟨old, apart⟩ := ih mem
    · exact .inl blank
    · have first : (row.opPost = none ∧ row.opBody = "") ∨ (row ∈ fts ∧ (post.parent = none →
          threads.any (·.id = post.thread) = true → row.threadId ≠ post.thread)) := by
        simp only [threadsFtsOpAfterRetract, replaceThreadsFts] at old
        split at old
        · split at old
          · rename_i missing
            refine .inr ⟨old, fun _ found => ?_⟩
            obtain ⟨thread, inThreads, same⟩ := List.any_eq_true.mp found
            exact absurd same (find?_eq_none.mp missing thread inThreads)
          · rcases mem_concat.mp old with old | new
            · obtain ⟨old, other⟩ := mem_filter.mp old
              exact .inr ⟨old, fun _ _ => by simpa using other⟩
            · rw [new]
              exact .inl ⟨rfl, rfl⟩
        · rename_i reply
          exact .inr ⟨old, fun root => absurd (by rw [root]; rfl) reply⟩
      obtain blank | ⟨old, other⟩ := first
      · exact .inl blank
      · refine .inr ⟨old, ?_⟩
        intro later inPosts
        rcases mem_cons.mp inPosts with rfl | inPosts
        · exact other
        · exact apart later inPosts

variable (hidden : Hidden db s)
include hidden

theorem Hidden.retractPosts (selected : PostRow → Bool) : Hidden (db.retractPosts selected) s := by
  refine hidden.updatePosts (fun _ => rfl) (fun _ => rfl) (fun _ _ => rfl) ?_ ?_
  · intro row mem
    exact mem_of_mem_filter mem
  · intro row mem
    exact (foldl_retract_mem mem).symm.imp And.left And.left

theorem Hidden.blankBodies (selected : Uuid → Bool) : Hidden (db.blankBodies selected) s := by
  refine ⟨?_, hidden.postsFts, hidden.threadsFts⟩
  exact forall_mem_updateWhere hidden.bodies fun _ _ _ shown => absurd rfl shown

theorem Hidden.insertPost {post : PostRow} (ints : Integrity state corpus db)
    (other : s ≠ .user post.author) (run : db.insertPost post = .ok after) : Hidden after s := by
  obtain ⟨fresh, -, -, -, rfl⟩ := insertPost_ok.mp run
  have owns : ∀ id, s.owns { db with
      posts := db.posts ++ [post] } id = s.owns db id := by
    intro id
    cases s with
    | post key => rfl
    | user key =>
      have apart : ¬ (post.id = id ∧ post.author = key) := by
        rintro ⟨-, rfl⟩
        exact other rfl
      simp [Subject.owns, authored, apart]
  refine ⟨?_, ?_, ?_⟩
  · intro row mem owned shown old inPosts samePost
    rw [owns] at owned
    rcases mem_concat.mp inPosts with known | new
    · exact hidden.bodies row mem owned shown old known samePost
    · -- a revision row has its post already
      rw [new] at samePost
      have posted := ints.revisionPost row mem
      rw [← samePost, fresh] at posted
      cases posted
  · intro row mem owned
    rw [owns] at owned
    exact hidden.postsFts row mem owned
  · intro row mem id written owned
    rw [owns] at owned
    exact hidden.threadsFts row mem id written owned

theorem Hidden.withPostRevision {row : PostRevisionRow}
    (other : s.owns db row.postId = false) : Hidden (db.withPostRevision row) s := by
  refine ⟨?_, ?_, ?_⟩
  · intro old mem owned shown
    rcases mem_concat.mp mem with known | new
    · exact hidden.bodies old known owned shown
    · have owned : s.owns db old.postId = true := owned
      rw [new, other] at owned
      cases owned
  · intro fts mem owned
    have owned : s.owns db fts.postId = true := owned
    simp only [Db.withPostRevision, postsFtsAfterRevision] at mem
    split at mem
    · exact hidden.postsFts fts mem owned
    · split at mem
      · rcases mem_concat.mp mem with known | new
        · exact hidden.postsFts fts (mem_of_mem_filter known) owned
        · rw [new, other] at owned
          cases owned
      · exact hidden.postsFts fts mem owned
  · intro fts mem id written owned
    have owned : s.owns db id = true := owned
    simp only [Db.withPostRevision, threadsFtsOpBodyAfterRevision, replaceThreadsFts] at mem
    split at mem
    · exact hidden.threadsFts fts mem id written owned
    · split at mem
      · split at mem
        · exact hidden.threadsFts fts mem id written owned
        · rcases mem_concat.mp mem with known | new
          · exact hidden.threadsFts fts (mem_of_mem_filter known) id written owned
          · rw [new, some.injEq] at written
            rw [← written, other] at owned
            cases owned
      · exact hidden.threadsFts fts mem id written owned

theorem Hidden.insertThread {row : ThreadRow} (run : db.insertThread row = .ok after) : Hidden after s := by
  obtain ⟨-, -, -, rfl⟩ := insertThread_ok.mp run
  refine ⟨hidden.bodies, hidden.postsFts, ?_⟩
  exact forall_mem_concat.mpr ⟨hidden.threadsFts, fun _ written => by cases written⟩

end Posts

section Objects

variable {live : Bool} {hash : Hash}

theorem HeldLive.of_objects (held : HeldLive state.platform after payload)
    (objects : after.signedObjects = db.signedObjects) : HeldLive state.platform db payload := by
  rwa [HeldLive, objects] at held

theorem HeldLive.of_store {cls : InnerClass} {stored signature : Bytes}
    (known : db.hasObject (state.platform.sha256 payload) = true)
    (held : HeldLive state.platform (db.storeSignedObject cls stored signature hash) payload) :
    HeldLive state.platform db payload := by
  cases present : db.hasObject hash with
  | true => rwa [storeSignedObject_of_present present] at held
  | false =>
    obtain ⟨row, mem, hashed, bytes⟩ := held
    rw [storeSignedObject_of_absent present] at mem
    rcases mem_concat.mp mem with old | new
    · exact ⟨row, old, hashed, bytes⟩
    · rw [new] at hashed
      rw [← hashed, present] at known
      cases known

theorem HeldLive.of_erase {targeted : Hash → Bool} {authority : Option Hash}
    (run : db.erasePayloads targeted authority = .ok after) (held : HeldLive state.platform after payload) :
    HeldLive state.platform db payload ∧ targeted (state.platform.sha256 payload) = false := by
  obtain ⟨row, mem, hashed, bytes⟩ := held
  rw [erasePayloads_frame run] at mem
  obtain ⟨old, inOld, ⟨-, rfl⟩ | ⟨missed, rfl⟩⟩ := mem_updateWhere.mp mem
  · cases bytes
  · refine ⟨⟨row, inOld, hashed, bytes⟩, ?_⟩
    simpa [erasable, bytes, hashed] using missed

theorem HeldLive.hasObject (held : HeldLive state.platform db payload) :
    db.hasObject (state.platform.sha256 payload) = true := by
  obtain ⟨row, mem, hashed, -⟩ := held
  exact List.any_eq_true.mpr ⟨row, mem, by simpa using hashed⟩

theorem Effect.objects (effect : Effect state corpus live db after) :
    (∃ stored signature object cls, Filed state.platform corpus stored signature object ∧
      object.innerClass = some cls ∧
      after = db.storeSignedObject cls stored signature (state.platform.sha256 stored)) ∨
    (∃ targeted authority, (∀ hash, targeted hash = true → db.projects hash = true) ∧
      db.erasePayloads targeted authority = .ok after) ∨
    after.signedObjects = db.signedObjects := by
  cases effect with
  | edge effect =>
    cases effect with
    | store filed => exact .inl ⟨_, _, _, _, filed, rfl, rfl⟩
    | erase projected run =>
      refine .inr (.inl ⟨_, _, ?_, run⟩)
      intro hash targeted
      simp only [Db.projects, Bool.or_eq_true]
      exact .inr (projected hash targeted)
    | _ => exact .inr (.inr rfl)
  | store filed cls => exact .inl ⟨_, _, _, _, filed, cls, rfl⟩
  | erase projected run => exact .inr (.inl ⟨_, _, projected, run⟩)
  | room unmerged run =>
    obtain ⟨-, -, rfl⟩ := insertRoom_ok.mp run
    exact .inr (.inr rfl)
  | thread landing opens run =>
    obtain ⟨-, -, -, rfl⟩ := insertThread_ok.mp run
    exact .inr (.inr rfl)
  | openPost landing first opens records opened landed =>
    obtain ⟨-, -, -, -, rfl⟩ := insertPost_ok.mp opened
    obtain ⟨-, -, rfl⟩ := insertPostRevision_ok.mp landed
    exact .inr (.inr rfl)
  | revise landing later records landed =>
    obtain ⟨-, -, rfl⟩ := insertPostRevision_ok.mp landed
    exact .inr (.inr rfl)
  | bind run =>
    obtain ⟨-, -, -, -, rfl⟩ := insertPostAttachment_ok.mp run
    exact .inr (.inr rfl)
  | unbind run =>
    obtain ⟨blobs, rfl⟩ := deletePostAttachments_frame run
    exact .inr (.inr rfl)
  | gc run =>
    obtain ⟨blobs, rfl⟩ := gcOrphanBlobs_frame run
    exact .inr (.inr rfl)
  | _ => exact .inr (.inr rfl)

theorem Effect.object_stays (effect : Effect state corpus live db after)
    (known : db.hasObject hash = true) : after.hasObject hash = true := by
  obtain ⟨_, _, _, _, -, -, rfl⟩ | ⟨_, _, -, run⟩ | same := effect.objects
  · exact hasObject_storeSignedObject.mpr (.inr known)
  · rwa [hasObject_erasePayloads run]
  · rwa [Db.hasObject, same]

theorem Effects.object_stays (effects : Effects state corpus live db after)
    (known : db.hasObject hash = true) : after.hasObject hash = true := by
  induction effects with
  | refl => exact known
  | tail _ step ih => exact step.object_stays ih

theorem Effects.no_revival (effects : Effects state corpus live db after)
    (known : db.hasObject (state.platform.sha256 payload) = true)
    (held : HeldLive state.platform after payload) : HeldLive state.platform db payload := by
  induction effects with
  | refl => exact held
  | tail before step ih =>
    refine ih ?_
    obtain ⟨_, _, _, _, -, -, rfl⟩ | ⟨_, _, -, run⟩ | same := step.objects
    · exact held.of_store (Effects.object_stays before known)
    · exact (held.of_erase run).1
    · exact held.of_objects same

theorem Sound.projected_class (sound : Sound state corpus db) (injective : CollisionFree state.platform corpus)
    (occurs : corpus payload) (projects : db.projects (state.platform.sha256 payload) = true) :
    ∃ object, state.platform.parse payload = some object ∧ object.condemns = none := by
  simp only [Db.projects, hasEdge, Bool.or_eq_true, List.any_eq_true, decide_eq_true_eq] at projects
  obtain (⟨row, mem, hashed⟩ | ⟨row, mem, hashed⟩) | ⟨row, mem, hashed⟩ := projects
  · obtain ⟨payload', signature, p, filed, records⟩ := sound.revisions row mem
    obtain rfl := injective _ _ filed.occurs occurs (records.hash.symm.trans hashed)
    exact ⟨_, filed.parses, rfl⟩
  · obtain ⟨payload', signature, p, filed, -, hash⟩ := sound.profiles row mem
    obtain rfl := injective _ _ filed.occurs occurs (hash.symm.trans hashed)
    exact ⟨_, filed.parses, rfl⟩
  · obtain ⟨payload', signature, e, filed, hash, -, -, -⟩ := sound.edges row mem
    obtain rfl := injective _ _ filed.occurs occurs (hash.symm.trans hashed)
    exact ⟨_, filed.parses, rfl⟩

def AuthoritiesHeld (state : AppState) (corpus : Corpus) (db : Db) : Prop :=
  ∀ payload signature object s, Filed state.platform corpus payload signature object → object.condemns = some s →
    db.hasObject (state.platform.sha256 payload) = true → HeldLive state.platform db payload

theorem Effect.authoritiesHeld (effect : Effect state corpus live db after) (sound : Sound state corpus db)
    (injective : CollisionFree state.platform corpus) (held : AuthoritiesHeld state corpus db) :
    AuthoritiesHeld state corpus after := by
  intro payload signature object s filed condemns stored
  obtain ⟨other, signature', object', cls, filed', -, rfl⟩ | ⟨targeted, _, projected, run⟩ | same := effect.objects
  · cases known : db.hasObject (state.platform.sha256 payload) with
    | true => exact (held payload signature object s filed condemns known).storeSignedObject
    | false =>
      rcases hasObject_storeSignedObject.mp stored with hashed | stored
      · obtain rfl := injective _ _ filed.occurs filed'.occurs hashed
        exact heldLive_storeSignedObject known
      · rw [known] at stored
        cases stored
  · rw [hasObject_erasePayloads run] at stored
    rcases erasePayloads_targeted run (held payload signature object s filed condemns stored) with stays | hit
    · exact stays
    · obtain ⟨other, parses, none⟩ := sound.projected_class injective filed.occurs (projected _ hit)
      rw [filed.parses, some.injEq] at parses
      rw [← parses, condemns] at none
      cases none
  · rw [Db.hasObject, same] at stored
    rw [HeldLive, same]
    exact held payload signature object s filed condemns stored

variable (effects : Effects state corpus live db after) (sound : Sound state corpus db)
include effects sound

theorem Effects.authoritiesHeld
    (injective : CollisionFree state.platform corpus) (held : AuthoritiesHeld state corpus db) :
    AuthoritiesHeld state corpus after := by
  induction effects with
  | refl => exact held
  | tail before step ih => exact step.authoritiesHeld (Effects.sound before sound) injective ih

theorem Effects.condemned (held : AuthoritiesHeld state corpus after) {s : Subject} (condemned : Condemned state db s) :
    Condemned state after s := by
  obtain ⟨payload, object, live, parses, condemns⟩ := sound.condemned condemned
  obtain ⟨signature, object', filed⟩ := sound.held_filed live
  obtain rfl : object' = object := some.inj (filed.parses.symm.trans parses)
  have stored := effects.object_stays live.hasObject
  exact .of_held (held payload signature object' s filed condemns stored) parses condemns

end Objects

theorem Sound.not_owns (sound : Sound state corpus db) (owned : PostsOwned state.platform corpus)
    {payload signature : Bytes} {p : PostRevision}
    (filed : Filed state.platform corpus payload signature (.postRevision p))
    (uncovered : s ∉ (SignedPayload.postRevision p).subjects) : s.owns db p.postId = false := by
  rw [Bool.eq_false_iff]
  intro owns
  cases s with
  | post id =>
    have same : p.postId = id := by simpa [Subject.owns] using owns
    exact uncovered (by simp [SignedPayload.subjects, same])
  | user key =>
    simp only [Subject.owns, authored, List.any_eq_true, decide_eq_true_eq] at owns
    obtain ⟨post, inPosts, sameId, author⟩ := owns
    obtain ⟨payload', signature', p', filed', -, opens⟩ := sound.posts post inPosts
    have samePost : p.postId = p'.postId := by rw [← sameId, opens.id]
    have sameAuthor : p.author = p'.author := owned _ _ _ _ _ _ _ _ _ filed filed' (samePost ▸ rfl) rfl
    exact uncovered (by simp [SignedPayload.subjects, sameAuthor, ← opens.author, author])

theorem Effect.hidden (effect : Effect state corpus true db after) (sound : Sound state corpus db)
    (ints : Integrity state corpus db) (owned : PostsOwned state.platform corpus) (gone : Gone state db s) :
    Hidden after s := by
  have hidden := gone.toHidden
  have uncovered : ∀ payload signature object, Landing state corpus true db payload signature object →
      s ∉ object.subjects :=
    fun payload signature object landing => gone.silent.held (landing.held rfl) landing.filed.parses
  cases effect with
  | edge effect =>
    obtain ⟨objects, edges, pending, frontier, rfl⟩ := effect.frame
    exact { hidden with }
  | erase projected run =>
    rw [erasePayloads_frame run]
    exact { hidden with }
  | room unmerged run =>
    obtain ⟨-, -, rfl⟩ := insertRoom_ok.mp run
    exact { hidden with }
  | thread landing opens run => exact hidden.insertThread run
  | @openPost mid _ payload signature p post row landing first opens records opened landed =>
    have other := uncovered payload signature _ landing
    have midHidden : Hidden mid s := by
      refine hidden.insertPost ints ?_ opened
      rintro rfl
      exact other (by simp [SignedPayload.subjects, opens.author])
    have midSound := sound.insertPost ⟨_, _, _, landing.filed, first, opens⟩ opened
    obtain ⟨-, -, rfl⟩ := insertPostRevision_ok.mp landed
    refine midHidden.withPostRevision ?_
    rw [records.post]
    exact midSound.not_owns owned landing.filed other
  | @revise _ payload signature p row landing later records landed =>
    obtain ⟨-, -, rfl⟩ := insertPostRevision_ok.mp landed
    refine hidden.withPostRevision ?_
    rw [records.post]
    exact sound.not_owns owned landing.filed (uncovered payload signature _ landing)
  | recount keep count counted =>
    exact hidden.updatePosts (fun _ => rfl) (fun _ => rfl) (fun _ retracted => retracted) (fun _ => id)
      (fun _ => .inl)
  | bind run =>
    obtain ⟨-, -, -, -, rfl⟩ := insertPostAttachment_ok.mp run
    exact { hidden with }
  | unbind run =>
    obtain ⟨blobs, rfl⟩ := deletePostAttachments_frame run
    exact { hidden with }
  | gc run =>
    obtain ⟨blobs, rfl⟩ := gcOrphanBlobs_frame run
    exact { hidden with }
  | retract selected => exact hidden.retractPosts selected
  | blank selected => exact hidden.blankBodies selected
  | _ => exact { hidden with }

theorem Effects.gone (effects : Effects state corpus true db after) (sound : Sound state corpus db)
    (ints : Integrity state corpus db) (owned : PostsOwned state.platform corpus) (gone : Gone state db s)
    (nothing : ∀ payload signature object, Filed state.platform corpus payload signature object →
      s ∈ object.subjects → after.hasObject (state.platform.sha256 payload) = true →
      db.hasObject (state.platform.sha256 payload) = true) : Gone state after s := by
  induction effects with
  | refl => exact gone
  | @tail mid final before step ih =>
    have midGone : Gone state mid s := by
      refine ih ?_
      intro payload signature object filed covered stored
      exact nothing payload signature object filed covered (step.object_stays stored)
    have reached : Effects state corpus true db final := before.tail step
    have hidden := step.hidden (Effects.sound before sound) (Effects.integrity before ints) owned midGone
    refine { hidden with
      silent := (reached.sound sound).silent ?_ }
    intro payload held object parses covered
    obtain ⟨signature, object', filed⟩ := (reached.sound sound).held_filed held
    obtain rfl : object' = object := some.inj (filed.parses.symm.trans parses)
    have known := nothing payload signature object' filed covered held.hasObject
    exact gone.silent.held (reached.no_revival known held) parses covered

end Prismoire
