import Prismoire.ErasedContent
import Prismoire.Footprint
import Prismoire.Lib.Run

namespace Prismoire

open Lib List Option Db

/-- The search row of a thread names the root post that it was written for, and posts have users. -/
structure Indexed (db : Db) : Prop where
  roots : ∀ row ∈ db.threadsFts, ∀ id, row.opPost = some id →
    ∃ post ∈ db.posts, post.id = id ∧ post.parent = none ∧ post.thread = row.threadId
  authors : ∀ post ∈ db.posts, db.hasUser post.author = true

variable {after db : Db} {corpus : Corpus} {state : AppState} {post : PostRow}

section Index

variable {live : Bool}

theorem Indexed.updatePosts {keep : PostRow → Bool} {set : PostRow → PostRow} {postsFts : List PostsFtsRow}
    {threadsFts : List ThreadsFtsRow} (indexed : Indexed db) (sameId : ∀ row, (set row).id = row.id)
    (sameAuthor : ∀ row, (set row).author = row.author) (sameParent : ∀ row, (set row).parent = row.parent)
    (sameThread : ∀ row, (set row).thread = row.thread)
    (blanked : ∀ row ∈ threadsFts, row ∈ db.threadsFts ∨ row.opPost = none) :
    Indexed { db with
      posts := updateWhere keep set db.posts
      postsFts := postsFts
      threadsFts := threadsFts } := by
  refine ⟨?_, ?_⟩
  · intro row mem id written
    rcases blanked row mem with old | blank
    · refine (exists_mem_updateWhere ?_).mpr (indexed.roots row old id written)
      intro post
      rw [sameId, sameParent, sameThread]
    · rw [blank] at written
      cases written
  · exact forall_mem_updateWhere indexed.authors fun _ known => by rwa [sameAuthor]

theorem Indexed.insertPost (indexed : Indexed db) (run : db.insertPost post = .ok after) :
    Indexed after := by
  obtain ⟨-, known, -, -, rfl⟩ := insertPost_ok.mp run
  refine ⟨?_, ?_⟩
  · intro row mem id written
    obtain ⟨old, inPosts, found⟩ := indexed.roots row mem id written
    exact ⟨old, mem_append_left _ inPosts, found⟩
  · exact forall_mem_concat.mpr ⟨indexed.authors, known⟩

theorem Indexed.withPostRevision {row : PostRevisionRow} (indexed : Indexed db) :
    Indexed (db.withPostRevision row) := by
  refine ⟨?_, indexed.authors⟩
  intro fts mem id written
  simp only [Db.withPostRevision, threadsFtsOpBodyAfterRevision, replaceThreadsFts] at mem
  split at mem
  · exact indexed.roots fts mem id written
  · rename_i post found
    split at mem
    · rename_i top
      split at mem
      · exact indexed.roots fts mem id written
      · rcases mem_concat.mp mem with old | new
        · exact indexed.roots fts (mem_of_mem_filter old) id written
        · rw [new] at written ⊢
          obtain rfl := some.inj written
          simp only [Bool.and_eq_true, isNone_iff_eq_none] at top
          exact ⟨post, mem_of_find?_eq_some found, by simpa using find?_some found, top.1, rfl⟩
    · exact indexed.roots fts mem id written

theorem Effect.indexed (effect : Effect state corpus live db after) (indexed : Indexed db) : Indexed after := by
  cases effect with
  | edge effect =>
    obtain ⟨objects, edges, pending, frontier, rfl⟩ := effect.frame
    exact { indexed with }
  | erase projected run =>
    rw [erasePayloads_frame run]
    exact { indexed with }
  | users keeps => exact ⟨indexed.roots, fun post mem => keeps post.author (indexed.authors post mem)⟩
  | room unmerged run =>
    obtain ⟨-, -, rfl⟩ := insertRoom_ok.mp run
    exact { indexed with }
  | thread landing opens run =>
    obtain ⟨-, -, -, rfl⟩ := insertThread_ok.mp run
    refine ⟨?_, indexed.authors⟩
    exact forall_mem_concat.mpr ⟨indexed.roots, fun _ written => by cases written⟩
  | openPost landing first opens records opened landed =>
    obtain ⟨-, -, rfl⟩ := insertPostRevision_ok.mp landed
    exact (indexed.insertPost opened).withPostRevision
  | revise landing later records landed =>
    obtain ⟨-, -, rfl⟩ := insertPostRevision_ok.mp landed
    exact indexed.withPostRevision
  | recount keep count counted =>
    exact indexed.updatePosts (fun _ => rfl) (fun _ => rfl) (fun _ => rfl) (fun _ => rfl) (fun _ => .inl)
  | bind run =>
    obtain ⟨-, -, -, -, rfl⟩ := insertPostAttachment_ok.mp run
    exact { indexed with }
  | unbind run =>
    obtain ⟨blobs, rfl⟩ := deletePostAttachments_frame run
    exact { indexed with }
  | gc run =>
    obtain ⟨blobs, rfl⟩ := gcOrphanBlobs_frame run
    exact { indexed with }
  | retract selected =>
    refine indexed.updatePosts (fun _ => rfl) (fun _ => rfl) (fun _ => rfl) (fun _ => rfl) ?_
    intro row mem
    exact (foldl_retract_mem mem).symm.imp And.left And.left
  | _ => exact { indexed with }

theorem Effects.indexed (effects : Effects state corpus live db after) (indexed : Indexed db) : Indexed after := by
  induction effects with
  | refl => exact indexed
  | tail _ step ih => exact step.indexed ih

end Index

/-- Work that sets no `retracted_at`. -/
def Unretracting (db after : Db) : Prop :=
  ∀ post ∈ after.posts, post.retracted = true → ∃ old ∈ db.posts, old.author = post.author ∧ old.retracted = true

variable {arrivedFrom : Key} {signature payload : Bytes}

section Retractions

theorem Unretracting.of_posts (posts : after.posts = db.posts) : Unretracting db after := by
  intro post mem retracted
  exact ⟨post, posts ▸ mem, rfl, retracted⟩

theorem Unretracting.trans {mid : Db} (first : Unretracting db mid) (second : Unretracting mid after) :
    Unretracting db after := by
  intro post mem retracted
  obtain ⟨between, inMid, author, retracted⟩ := second post mem retracted
  obtain ⟨old, inOld, sameAuthor, retracted⟩ := first between inMid retracted
  exact ⟨old, inOld, sameAuthor.trans author, retracted⟩

variable {hash : Hash} {outcome : ProjectionOutcome}

variable {p : PostRevision}

theorem projectRemotePostRevision_unretracting
    (run : projectRemotePostRevision state db p signature hash arrivedFrom = .ok (outcome, after)) :
    Unretracting db after := by
  obtain ⟨rfl, -⟩ | ⟨-, -, -, opened, recorded, opening, recordedRun, boundRun⟩ := projectRemotePostRevision_ok run
  · exact .of_posts rfl
  · obtain ⟨-, -, rfl⟩ := insertPostRevision_ok.mp recordedRun
    obtain ⟨attachments, blobs, rfl⟩ := projectPostAttachments_frame boundRun
    intro post mem retracted
    rcases opening with ⟨-, openedRun⟩ | ⟨-, -, rfl⟩
    · obtain ⟨-, -, -, -, rfl⟩ := insertPost_ok.mp openedRun
      rcases mem_concat.mp mem with old | new
      · exact ⟨post, old, rfl, retracted⟩
      · rw [new] at retracted
        cases retracted
    · obtain ⟨old, inPosts, ⟨-, rfl⟩ | ⟨-, rfl⟩⟩ := mem_updateWhere.mp mem
      · exact ⟨old, inPosts, rfl, retracted⟩
      · exact ⟨post, inPosts, rfl, retracted⟩

theorem reprojectOrphanPostRevsForThread_unretracting {threadId : Uuid}
    (run : reprojectOrphanPostRevsForThread state db threadId arrivedFrom = .ok after) : Unretracting db after := by
  refine settle_invariant (Unretracting db) ?_ (.of_posts rfl) run
  intro orphan _ mid outcome final reached tried
  obtain ⟨⟨projection, last⟩, projected, returned⟩ := bind_ok.mp tried
  cases returned
  exact reached.trans (projectRemotePostRevision_unretracting projected)

theorem projectThreadAndOrphans_unretracting {t : ThreadCreate}
    (run : projectThreadAndOrphans state db t hash arrivedFrom = .ok after) : Unretracting db after := by
  obtain ⟨⟨outcome, mid⟩, projected, rest⟩ := bind_ok.mp run
  have posts : mid.posts = db.posts := by
    obtain ⟨rfl, -⟩ | ⟨-, -, roomed, roomRun, inserted⟩ := projectRemoteThreadCreate_ok projected
    · rfl
    · obtain ⟨rooms, rfl⟩ := getOrCreateRoom_frame roomRun
      obtain ⟨-, -, -, rfl⟩ := insertThread_ok.mp inserted
      rfl
  dsimp only at rest
  split at rest
  · exact Unretracting.trans (.of_posts posts) (reprojectOrphanPostRevsForThread_unretracting rest)
  · cases rest
    exact .of_posts posts

theorem EdgeEffects.posts (effects : EdgeEffects state corpus db after) : after.posts = db.posts := by
  induction effects with
  | refl => rfl
  | tail _ step ih =>
    obtain ⟨objects, edges, pending, frontier, rfl⟩ := step.frame
    exact ih

theorem projectRemoteProfile_unretracting {p : ProfileRevision} {swept : Bool} (sound : Sound state corpus db)
    (landing : Landing state corpus true db payload signature (.profileRevision p))
    (fresh : ∀ row ∈ db.profileRevisions, row.canonicalHash ≠ state.platform.sha256 payload)
    (run : projectRemoteProfile state db p signature (state.platform.sha256 payload) arrivedFrom =
      .ok (outcome, after, swept)) : Unretracting db after := by
  obtain rfl | ⟨-, mid, profile, edges, reprojected⟩ := projectRemoteProfile_ok sound landing fresh run
  · exact .of_posts rfl
  · have threads : Unretracting mid after := by
      refine foldlM_invariant (Unretracting mid) ?_ (.of_posts rfl) reprojected
      intro orphan _ between last reached projected
      exact reached.trans (projectThreadAndOrphans_unretracting projected)
    exact Unretracting.trans (.of_posts edges.posts) threads

theorem ingestObject_unretracting {object : SignedPayload} {status : ContentStatus}
    (sound : Sound state corpus db) (occurs : corpus payload)
    (admitted : admitObject state.platform payload signature = .ok object)
    (absent : db.hasObject (state.platform.sha256 payload) = false)
    (other : ∀ d, object ≠ .deactivation d)
    (run : ingestObject state db payload signature arrivedFrom object = .ok (status, after)) :
    Unretracting db after := by
  obtain ⟨rfl, -⟩ | ⟨a, rfl, applied⟩ | ⟨cls, key, classed, -, handled⟩ := ingestObject_ok run
  · exact .of_posts rfl
  · obtain ⟨rfl, -⟩ | ⟨-, -, -, -, erased, erasedRun, rfl⟩ := applyAdminRm_ok applied
    · exact .of_posts rfl
    · exact .of_posts (by rw [erasePayloads_frame erasedRun]; rfl)
  · have filed := Filed.of_admitted occurs admitted classed
    have storing : Effect state corpus true db _ := filed.storing classed
    have unretracting : Unretracting (db.storeSignedObject cls payload signature
        (state.platform.sha256 payload)) after := by
      cases handled with
      | retraction ran => exact .of_posts (by rw [erasePayloads_frame ran])
      | deactivation => exact absurd rfl (other _)
      | profileRevision ran =>
        exact projectRemoteProfile_unretracting (storing.sound sound) (filed.landing absent)
          (sound.profile_fresh absent) ran
      | postRevision ran => exact projectRemotePostRevision_unretracting ran
      | threadCreate ran => exact projectThreadAndOrphans_unretracting ran
    exact unretracting

end Retractions

/-- The bytes that an authority over the subject erases are found through the projection tables. -/
def Subject.reaches (db : Db) (hash : Hash) : Subject → Bool
  | .post id => db.postRevisions.any fun row => row.canonicalHash = hash ∧ row.postId = id
  | .user key => (db.profileRevisions.any fun row => row.canonicalHash = hash ∧ row.user = key) ||
      db.postRevisions.any fun row => row.canonicalHash = hash ∧ authored db key row.postId

/-- What an authority over the subject can end: every stored byte of it is projected, and a post,
whose text no federated authority blanks, shows none. -/
structure Erasable (state : AppState) (db : Db) (s : Subject) : Prop where
  reached : ∀ row ∈ db.signedObjects, ∀ object ∈ row.payload.bind state.platform.parse, s ∈ object.subjects →
    s.reaches db row.canonicalHash = true
  hidden : ∀ id, s = .post id → Hidden db s

section Authorities

theorem Erasable.held {s : Subject} {object : SignedPayload} (erasable : Erasable state db s)
    (held : HeldLive state.platform db payload) (parses : state.platform.parse payload = some object)
    (covered : s ∈ object.subjects) : s.reaches db (state.platform.sha256 payload) = true := by
  obtain ⟨row, mem, hashed, live⟩ := held
  rw [← hashed]
  exact erasable.reached row mem object (bind_eq_some_iff.mpr ⟨payload, live, parses⟩) covered

theorem HeldLive.of_stored {cls : InnerClass} {stored signature : Bytes} {hash : Hash}
    (held : HeldLive state.platform (db.storeSignedObject cls stored signature hash) payload) :
    HeldLive state.platform db payload ∨ payload = stored := by
  cases present : db.hasObject hash with
  | true =>
    rw [storeSignedObject_of_present present] at held
    exact .inl held
  | false =>
    obtain ⟨row, mem, hashed, bytes⟩ := held
    rw [storeSignedObject_of_absent present] at mem
    rcases mem_concat.mp mem with old | new
    · exact .inl ⟨row, old, hashed, bytes⟩
    · rw [new, some.injEq] at bytes
      exact .inr bytes.symm

variable {user : Key} {authority : Hash}

theorem eraseAllForUserKey_held (sound : Sound state corpus db)
    (indexed : Indexed db) (run : eraseAllForUserKey db user authority = .ok after)
    (held : HeldLive state.platform after payload) :
    HeldLive state.platform db payload ∧ (Subject.user user).reaches db (state.platform.sha256 payload) = false := by
  obtain ⟨edged, profiled, posted, unbound, edgesRun, profilesRun, postsRun, unboundRun, rfl⟩ | ⟨unknown, rfl⟩ :=
    eraseAllForUserKey_statements run
  · obtain ⟨blobs, rfl⟩ := deletePostAttachments_frame unboundRun
    have held : HeldLive state.platform posted payload := held
    obtain ⟨held, missedPosts⟩ := held.of_erase postsRun
    obtain ⟨held, missedProfiles⟩ := held.of_erase profilesRun
    obtain ⟨held, -⟩ := held.of_erase edgesRun
    refine ⟨held, ?_⟩
    rw [erasePayloads_frame profilesRun, erasePayloads_frame edgesRun] at missedPosts
    rw [erasePayloads_frame edgesRun] at missedProfiles
    simp only [Subject.reaches, authored, missedProfiles, Bool.false_or]
    simpa only [Bool.decide_and, Bool.decide_eq_true] using missedPosts
  · refine ⟨held, ?_⟩
    -- neither a profile nor a post without its user
    rw [Bool.eq_false_iff]
    intro reaches
    refine unknown ?_
    simp only [Subject.reaches, authored, Bool.or_eq_true, List.any_eq_true, decide_eq_true_eq] at reaches
    obtain ⟨row, mem, -, rfl⟩ | ⟨row, -, -, post, inPosts, -, rfl⟩ := reaches
    · exact sound.profileUsers row mem
    · exact indexed.authors post inPosts

variable (ints : Integrity state corpus db) (indexed : Indexed db)
  (unretracted : ∀ post ∈ db.posts, post.author = user → post.retracted = false)
include ints indexed unretracted

theorem Hidden.of_retract : Hidden (db.retractPosts fun post => post.author = user) (.user user) := by
  have owner : ∀ id, (Subject.user user).owns (db.retractPosts fun post => post.author = user) id = true →
      ∃ post, post ∈ db.posts.filter (fun post => decide (post.author = user) && !post.retracted) ∧ post.id = id := by
    intro id owns
    have same : authored (db.retractPosts fun post => post.author = user) user id = authored db user id := by
      refine authored_updateWhere ?_ ?_ user id <;> intro row <;> rfl
    have owns : authored db user id = true := same.symm.trans owns
    simp only [authored, List.any_eq_true, decide_eq_true_eq] at owns
    obtain ⟨post, inPosts, sameId, author⟩ := owns
    exact ⟨post, mem_filter.mpr ⟨inPosts, by simp [author, unretracted post inPosts author]⟩, sameId⟩
  refine ⟨?_, ?_, ?_⟩
  · intro row mem owned shown post inPosts samePost
    obtain ⟨own, hit, sameId⟩ := owner row.postId owned
    obtain ⟨inOwn, hit⟩ := mem_filter.mp hit
    obtain ⟨old, inOld, ⟨-, rfl⟩ | ⟨missed, rfl⟩⟩ := mem_updateWhere.mp inPosts
    · rfl
    · obtain rfl := ints.postIds.eq inOld inOwn (samePost.trans sameId.symm)
      have missed : (decide (post.author = user) && !post.retracted) = false := missed
      rw [hit] at missed
      cases missed
  · intro row mem owned
    obtain ⟨own, hit, sameId⟩ := owner row.postId owned
    have kept := (mem_filter.mp mem).2
    rw [any_eq_true.mpr ⟨own, hit, by simpa using sameId⟩] at kept
    cases kept
  · intro row mem id written owned
    obtain ⟨own, hit, sameId⟩ := owner id owned
    obtain ⟨blank, -⟩ | ⟨old, apart⟩ := foldl_retract_mem mem
    · rw [blank] at written
      cases written
    · obtain ⟨post, inPosts, samePost, root, thread⟩ := indexed.roots row old id written
      obtain rfl := ints.postIds.eq inPosts (mem_of_mem_filter hit) (samePost.trans sameId.symm)
      exact absurd thread.symm (apart post hit root (ints.postThread post inPosts))

theorem eraseAllForUserKey_hidden
    (run : eraseAllForUserKey db user authority = .ok after) : Hidden after (.user user) := by
  obtain ⟨edged, profiled, posted, unbound, edgesRun, profilesRun, postsRun, unboundRun, rfl⟩ | ⟨unknown, rfl⟩ :=
    eraseAllForUserKey_statements run
  · have edges : Effect state corpus true db edged := eraseUserTrustEdgePayloads_effect edgesRun
    have profiles : Effect state corpus true edged profiled :=
      eraseUserProfileRevisionPayloads_effect profilesRun
    have posts : Effect state corpus true profiled posted := eraseUserPostRevPayloads_effect postsRun
    have erased : Effects state corpus true db unbound :=
      (((Relation.ReflTransGen.single edges).tail profiles).tail posts).tail (.unbind unboundRun)
    have same : unbound.posts = db.posts := by
      obtain ⟨blobs, rfl⟩ := deletePostAttachments_frame unboundRun
      rw [erasePayloads_frame postsRun, erasePayloads_frame profilesRun, erasePayloads_frame edgesRun]
    have retracted : Hidden _ (.user user) :=
      .of_retract (erased.integrity ints) (erased.indexed indexed) (same ▸ unretracted)
    exact { retracted.blankBodies _ with }
  · have owns : ∀ id, (Subject.user user).owns after id = false := by
      intro id
      rw [Bool.eq_false_iff]
      intro owns
      simp only [Subject.owns, authored, List.any_eq_true, decide_eq_true_eq] at owns
      obtain ⟨post, inPosts, -, rfl⟩ := owns
      exact unknown (indexed.authors post inPosts)
    refine ⟨?_, ?_, ?_⟩
    · intro row _ owned
      rw [owns] at owned
      cases owned
    · intro row _ owned
      rw [owns] at owned
      cases owned
    · intro row _ id _ owned
      rw [owns] at owned
      cases owned

end Authorities

/-- What a delivery brings to the write transaction. -/
structure Arrival where
  payload : Bytes
  signature : Bytes
  object : SignedPayload

/-- The object of a delivery that passes every check before the write. -/
def arrival (state : AppState) (db : Db) (wireBytes : Bytes) : Option Arrival :=
  if maxPostrevSize < wireBytes.length then
    none
  else
    match state.platform.decodeSignedObject wireBytes with
    | none => none
    | some (payload, signature) =>
      match knownStatus db (state.platform.sha256 payload) with
      | some _ => none
      | none =>
        match admitObject state.platform payload signature with
        | .error _ => none
        | .ok object => if adminRemoved db object then none else some ⟨payload, signature, object⟩

/-- An admin-rm that the route, the sender's domain or the signature turns away. -/
def refused (state : AppState) (db : Db) (arrivedFrom : Key) (a : Arrival) : Bool :=
  match a.object with
  | .adminRemoval r => db.hasUser r.targetAuthor ||
      decide (peerDomainFor db arrivedFrom ≠ some r.signingInstance) ||
      !signatureOk state.platform a.payload a.signature arrivedFrom
  | _ => false

/-- The delivery brings no content of an ended subject, and an authority finds all that it ends. -/
def InOrder (state : AppState) (db : Db) (delivery : Bytes × Key) : Prop :=
  ∀ a ∈ arrival state db delivery.1, (∀ s ∈ a.object.subjects, ¬ Condemned state db s) ∧
    ∀ s ∈ a.object.condemns, Condemned state db s ∨ (Erasable state db s ∧ refused state db delivery.2 a = false)

/-- The invariant of a run in order. -/
structure Terminal (state : AppState) (corpus : Corpus) (db : Db) : Prop where
  healthy : Healthy state corpus db
  indexed : Indexed db
  held : AuthoritiesHeld state corpus db
  removals : ∀ post, adminRmBlocks db post = true → Condemned state db (.post post)
  retracted : ∀ post ∈ db.posts, post.retracted = true → Condemned state db (.user post.author)
  gone : ∀ s, Condemned state db s → Gone state db s

section Deliveries

variable {wireBytes : Bytes}

theorem applyOneObject_arrival {result : ContentResult}
    (run : applyOneObject state db wireBytes arrivedFrom = .ok (result, after)) :
    after = db ∨ ∃ a, arrival state db wireBytes = some a ∧
        state.platform.decodeSignedObject wireBytes = some (a.payload, a.signature) ∧
        admitObject state.platform a.payload a.signature = .ok a.object ∧
        db.hasObject (state.platform.sha256 a.payload) = false ∧
        ingestObject state db a.payload a.signature arrivedFrom a.object = .ok (result.status, after) := by
  rcases applyOneObject_ok run with same | ⟨payload, signature, object, decodes, admitted, -, absent, unremoved, ingested⟩
  · exact .inl same.1
  · by_cases large : maxPostrevSize < wireBytes.length
    · rw [applyOneObject, if_pos large] at run
      cases run
      exact .inl rfl
    · have unknown : knownStatus db (state.platform.sha256 payload) = none := by
        simpa [knownStatus, Db.hasObject] using absent
      refine .inr ⟨⟨payload, signature, object⟩, ?_, decodes, admitted, absent, ingested⟩
      simp only [arrival, if_neg large, decodes, unknown, admitted, unremoved]
      rfl

variable {object : SignedPayload} {s : Subject} {status : ContentStatus}

theorem ingestObject_condemns
    (occurs : corpus payload) (admitted : admitObject state.platform payload signature = .ok object)
    (held : AuthoritiesHeld state corpus after) (condemns : object.condemns = some s)
    (run : ingestObject state db payload signature arrivedFrom object = .ok (.applied, after)) :
    Condemned state after s := by
  have parses := (admitObject_ok admitted).1
  obtain ⟨-, rejected⟩ | ⟨a, rfl, applied⟩ | ⟨cls, key, classed, -, handled⟩ := ingestObject_ok run
  · cases rejected
  · obtain ⟨filed, -, erased, erasedRun, rfl⟩ := applyAdminRm_applied occurs parses applied
    have known := (hasObject_erasePayloads erasedRun _).trans Db.hasObject_stored
    exact .of_held (held _ _ _ _ filed condemns known) parses condemns
  · have filed := Filed.of_admitted occurs admitted classed
    refine .of_held (held _ _ _ _ filed condemns ?_) parses condemns
    cases handled with
    | retraction ran => exact (hasObject_erasePayloads ran _).trans Db.hasObject_stored
    | deactivation ran => exact ((eraseAllForUserKey_footprint ran).2 _).trans Db.hasObject_stored
    | _ => cases condemns

theorem Footprint.new_subject {object' : SignedPayload} {applied : Prop}
    {payload' signature' : Bytes} (footprint : Footprint state corpus payload object applied db after)
    (injective : CollisionFree state.platform corpus) (occurs : corpus payload)
    (parses : state.platform.parse payload = some object)
    (filed : Filed state.platform corpus payload' signature' object')
    (stored : after.hasObject (state.platform.sha256 payload') = true) :
    db.hasObject (state.platform.sha256 payload') = true ∨ object' = object ∨
      (object'.subjects = [] ∧ object'.condemns = none) := by
  rcases footprint.objects _ stored with known | same | ⟨edgeBytes, _, edge, filedEdge, same⟩
  · exact .inl known
  · obtain rfl := injective _ _ filed.occurs occurs same
    exact .inr (.inl (some.inj (filed.parses.symm.trans parses)))
  · obtain rfl := injective _ _ filed.occurs filedEdge.occurs same
    obtain rfl := some.inj (filed.parses.symm.trans filedEdge.parses)
    exact .inr (.inr ⟨rfl, rfl⟩)

theorem Terminal.ended (terminal : Terminal state corpus db) (occurs : corpus payload)
    (admitted : admitObject state.platform payload signature = .ok object)
    (absent : db.hasObject (state.platform.sha256 payload) = false) (condemns : object.condemns = some s)
    (erasable : Erasable state db s) (fresh : ¬ Condemned state db s) (condemned : Condemned state after s)
    (run : ingestObject state db payload signature arrivedFrom object = .ok (status, after)) :
    Gone state after s := by
  have sound := terminal.healthy.sound
  have parses := (admitObject_ok admitted).1
  have soundAfter := (ingestObject_effects sound occurs admitted absent run).sound sound
  -- bytes that stay were stored before, as an authority is no content
  have before : ∀ cls other object', HeldLive state.platform
      (db.storeSignedObject cls payload signature (state.platform.sha256 payload)) other →
      state.platform.parse other = some object' → s ∈ object'.subjects →
      s.reaches db (state.platform.sha256 other) = true := by
    intro cls other object' held parses' covered
    rcases held.of_stored with old | rfl
    · exact erasable.held old parses' covered
    · obtain rfl := some.inj (parses.symm.trans parses')
      cases object <;> cases condemns <;> cases covered
  cases object with
  | retraction r =>
    obtain rfl := some.inj condemns
    obtain ⟨erased, erasedRun, returned⟩ := bind_ok.mp run
    cases returned
    have hidden : Hidden after (.post r.postId) := by
      rw [erasePayloads_frame erasedRun]
      exact { erasable.hidden r.postId rfl with }
    refine { hidden with
      silent := soundAfter.silent ?_ }
    intro other held object' parses' covered
    obtain ⟨held, missed⟩ := held.of_erase erasedRun
    have reaches := before _ other object' held parses' covered
    exact Bool.false_ne_true (missed.symm.trans reaches)
  | adminRemoval a =>
    obtain rfl := some.inj condemns
    by_cases applied : status = .applied
    · subst applied
      obtain ⟨-, -, erased, erasedRun, rfl⟩ := applyAdminRm_applied occurs parses run
      have hidden : Hidden erased (.post a.postId) := by
        rw [erasePayloads_frame erasedRun]
        exact { erasable.hidden a.postId rfl with }
      refine { hidden with
        silent := soundAfter.silent ?_ }
      intro other held object' parses' covered
      have held : HeldLive state.platform erased other := held
      obtain ⟨held, missed⟩ := held.of_erase erasedRun
      have reaches := before _ other object' held parses' covered
      exact Bool.false_ne_true (missed.symm.trans reaches)
    · rw [applyAdminRm_refused applied run] at condemned
      exact absurd condemned fresh
  | deactivation d =>
    obtain rfl := some.inj condemns
    have filed := Filed.of_admitted occurs admitted rfl
    obtain ⟨erased, erasedRun, returned⟩ := bind_ok.mp run
    cases returned
    have storing : Effects state corpus true db _ := .single (.store filed rfl)
    have healthy := storing.healthy terminal.healthy
    have indexed := storing.indexed terminal.indexed
    have hidden : Hidden after (.user d.user) := by
      refine eraseAllForUserKey_hidden healthy.ints indexed ?_ erasedRun
      intro post mem author
      rw [Bool.eq_false_iff]
      intro retracted
      exact fresh (author ▸ terminal.retracted post mem retracted)
    refine { hidden with
      silent := soundAfter.silent ?_ }
    intro other held object' parses' covered
    obtain ⟨held, missed⟩ := eraseAllForUserKey_held healthy.sound indexed erasedRun held
    have reaches := before _ other object' held parses' covered
    exact Bool.false_ne_true (missed.symm.trans reaches)
  | _ => cases condemns

theorem eraseAllForUserKey_retracts {user : Key} {authority : Hash}
    (run : eraseAllForUserKey db user authority = .ok after) (mem : post ∈ after.posts)
    (retracted : post.retracted = true) :
    post.author = user ∨ ∃ old ∈ db.posts, old.author = post.author ∧ old.retracted = true := by
  obtain ⟨_, _, _, -, rfl⟩ | rfl := eraseAllForUserKey_frame run
  · obtain ⟨old, inPosts, ⟨hit, rfl⟩ | ⟨-, rfl⟩⟩ := mem_updateWhere.mp mem
    · simp only [Bool.and_eq_true, decide_eq_true_eq] at hit
      exact .inl hit.1
    · exact .inr ⟨post, inPosts, rfl, retracted⟩
  · exact .inr ⟨post, mem, rfl, retracted⟩

theorem ingestObject_retracts (sound : Sound state corpus db) (occurs : corpus payload)
    (admitted : admitObject state.platform payload signature = .ok object)
    (absent : db.hasObject (state.platform.sha256 payload) = false)
    (run : ingestObject state db payload signature arrivedFrom object = .ok (status, after))
    (mem : post ∈ after.posts) (retracted : post.retracted = true) :
    (∃ old ∈ db.posts, old.author = post.author ∧ old.retracted = true) ∨
      (object.condemns = some (.user post.author) ∧ status = .applied) := by
  by_cases deactivates : ∃ d, object = .deactivation d
  · obtain ⟨d, rfl⟩ := deactivates
    obtain ⟨erased, erasedRun, returned⟩ := bind_ok.mp run
    cases returned
    rcases eraseAllForUserKey_retracts erasedRun mem retracted with author | old
    · exact .inr ⟨by rw [author]; rfl, rfl⟩
    · exact .inl old
  · have other : ∀ d, object ≠ .deactivation d := fun d same => deactivates ⟨d, same⟩
    exact .inl (ingestObject_unretracting sound occurs admitted absent other run post mem retracted)

section

variable (terminal : Terminal state corpus db) (injective : CollisionFree state.platform corpus)
  (owned : PostsOwned state.platform corpus)
include terminal injective owned

theorem Terminal.ingest {a : Arrival}
    (occurs : corpus a.payload) (admitted : admitObject state.platform a.payload a.signature = .ok a.object)
    (absent : db.hasObject (state.platform.sha256 a.payload) = false)
    (content : ∀ s ∈ a.object.subjects, ¬ Condemned state db s)
    (authority : ∀ s ∈ a.object.condemns, Condemned state db s ∨ Erasable state db s)
    (run : ingestObject state db a.payload a.signature arrivedFrom a.object = .ok (status, after)) :
    Terminal state corpus after := by
  have sound := terminal.healthy.sound
  have parses := (admitObject_ok admitted).1
  have effects := ingestObject_effects sound occurs admitted absent run
  have footprint := ingestObject_footprint sound occurs admitted absent run
  have held := effects.authoritiesHeld sound injective terminal.held
  have healthy := effects.healthy terminal.healthy
  have stays : ∀ s, Condemned state db s → Condemned state after s :=
    fun s condemned => effects.condemned sound held condemned
  have remains : ∀ s, Condemned state db s → Gone state after s := by
    intro s condemned
    refine effects.gone sound terminal.healthy.ints owned (terminal.gone s condemned) ?_
    intro payload signature object filed covered stored
    obtain known | rfl | ⟨none, -⟩ := footprint.new_subject injective occurs parses filed stored
    · exact known
    · exact absurd condemned (content s covered)
    · rw [none] at covered
      cases covered
  refine ⟨healthy, effects.indexed terminal.indexed, held, ?_, ?_, ?_⟩
  · intro post blocks
    rcases (footprint.removals post).mp blocks with old | ⟨rfl, removes⟩
    · exact stays _ (terminal.removals post old)
    · refine ingestObject_condemns occurs admitted held ?_ run
      cases object : a.object with
      | adminRemoval r =>
        rw [object] at removes
        obtain rfl : r.postId = post := removes
        rfl
      | _ =>
        rw [object] at removes
        cases removes
  · intro post mem retracted
    obtain ⟨old, inPosts, author, retracted⟩ | ⟨condemns, rfl⟩ :=
      ingestObject_retracts sound occurs admitted absent run mem retracted
    · exact stays _ (author ▸ terminal.retracted old inPosts retracted)
    · exact ingestObject_condemns occurs admitted held condemns run
  · intro s condemned
    by_cases before : Condemned state db s
    · exact remains s before
    · obtain ⟨payload, object, live, parses', condemns⟩ := healthy.sound.condemned condemned
      obtain ⟨signature, object', filed⟩ := healthy.sound.held_filed live
      obtain rfl : object' = object := some.inj (filed.parses.symm.trans parses')
      obtain known | rfl | ⟨-, none⟩ := footprint.new_subject injective occurs parses filed live.hasObject
      · exact absurd (.of_held (effects.no_revival known live) parses' condemns) before
      · have erasable := (authority s condemns).resolve_left before
        exact terminal.ended occurs admitted absent condemns erasable before condemned run
      · rw [none] at condemns
        cases condemns

theorem Terminal.deliver (occurs : Occurs state corpus wireBytes) (order : InOrder state db (wireBytes, arrivedFrom)) :
    Terminal state corpus (deliverObject state db wireBytes arrivedFrom) := by
  unfold deliverObject
  split
  · rename_i result final run
    obtain rfl | ⟨a, arrives, decodes, admitted, absent, ingested⟩ := applyOneObject_arrival run
    · exact terminal
    · obtain ⟨content, authority⟩ := order a arrives
      exact terminal.ingest injective owned (occurs _ _ decodes) admitted absent content
        (fun s condemns => (authority s condemns).imp_right And.left) ingested
  · exact terminal

end

theorem ingestObject_authority (ord : Orderly db) (condemns : object.condemns = some s)
    (accepted : refused state db arrivedFrom ⟨payload, signature, object⟩ = false) :
    ∃ after, ingestObject state db payload signature arrivedFrom object = .ok (.applied, after) := by
  cases object with
  | retraction r =>
    obtain ⟨after, erased⟩ := @erasePostRevPayloads_total _ r.postId _ ord.storeSignedObject Db.hasObject_stored
    exact ⟨_, bind_ok.mpr ⟨_, erased, rfl⟩⟩
  | deactivation d =>
    obtain ⟨after, erased⟩ := @eraseAllForUserKey_total _ d.user _ ord.storeSignedObject Db.hasObject_stored
    exact ⟨_, bind_ok.mpr ⟨_, erased, rfl⟩⟩
  | adminRemoval a =>
    simp only [refused, Bool.or_eq_false_iff, decide_eq_false_iff_not, Bool.not_eq_false'] at accepted
    obtain ⟨⟨unknown, domain⟩, verified⟩ := accepted
    obtain ⟨⟨status, after⟩, run⟩ := @applyAdminRm_total state db payload signature arrivedFrom a ord
    have applied := run
    simp only [applyAdminRm, unknown, verified, if_neg domain] at applied
    obtain ⟨erased, -, returned⟩ := bind_ok.mp applied
    cases returned
    exact ⟨_, run⟩
  | _ => cases condemns

theorem Terminal.condemns (terminal : Terminal state corpus db) (injective : CollisionFree state.platform corpus)
    (order : InOrder state db (wireBytes, arrivedFrom)) (fits : wireBytes.length ≤ maxPostrevSize)
    (decodes : state.platform.decodeSignedObject wireBytes = some (payload, signature))
    (admitted : admitObject state.platform payload signature = .ok object)
    (filed : Filed state.platform corpus payload signature object) (condemns : object.condemns = some s)
    (kept : Condemned state db s → Condemned state (deliverObject state db wireBytes arrivedFrom) s) :
    Condemned state (deliverObject state db wireBytes arrivedFrom) s := by
  cases unknown : knownStatus db (state.platform.sha256 payload) with
  | some status =>
    obtain ⟨row, found, -⟩ := map_eq_some_iff.mp unknown
    have known : db.hasObject (state.platform.sha256 payload) = true :=
      any_eq_true.mpr ⟨row, mem_of_find?_eq_some found, by simpa using find?_some found⟩
    exact kept (.of_held (terminal.held _ _ _ _ filed condemns known) filed.parses condemns)
  | none =>
    cases removed : adminRemoved db object with
    | true =>
      -- a removal of the post is there already
      cases object with
      | retraction r =>
        obtain rfl := some.inj condemns
        exact kept (terminal.removals _ removed)
      | _ => first | cases removed | cases condemns
    | false =>
      have arrives : arrival state db wireBytes = some ⟨payload, signature, object⟩ := by
        simp only [arrival, if_neg (Nat.not_lt.mpr fits), decodes, unknown, admitted, removed]
        rfl
      obtain old | ⟨-, accepted⟩ := (order _ arrives).2 s condemns
      · exact kept old
      · obtain ⟨after, run⟩ : ∃ after, ingestObject state db payload signature arrivedFrom object =
            .ok (.applied, after) := ingestObject_authority terminal.healthy.ord condemns accepted
        have delivered : deliverObject state db wireBytes arrivedFrom = after := by
          simp only [deliverObject, applyOneObject, if_neg (Nat.not_lt.mpr fits), decodes, unknown, admitted,
            removed, run]
          rfl
        rw [delivered]
        have absent := knownStatus_none unknown
        have effects := ingestObject_effects terminal.healthy.sound filed.occurs admitted absent run
        have held := effects.authoritiesHeld terminal.healthy.sound injective terminal.held
        exact ingestObject_condemns filed.occurs admitted held condemns run

end Deliveries

/-- One step of a run of deliveries. -/
def deliverNext (state : AppState) (db : Db) (delivery : Bytes × Key) : Db :=
  deliverObject state db delivery.1 delivery.2

section Runs

variable {deliveries : List (Bytes × Key)}

theorem Terminal.run (injective : CollisionFree state.platform corpus) (owned : PostsOwned state.platform corpus)
    (occurs : ∀ delivery ∈ deliveries, Occurs state corpus delivery.1) (terminal : Terminal state corpus db)
    (order : MeetAlong (deliverNext state) (InOrder state) db deliveries) :
    Terminal state corpus (deliverObjects state db deliveries) ∧
      ∀ s, Condemned state db s → Condemned state (deliverObjects state db deliveries) s := by
  induction deliveries generalizing db with
  | nil => exact ⟨terminal, fun s => id⟩
  | cons delivery deliveries ih =>
    obtain ⟨first, order⟩ := order
    have occursFirst := occurs delivery mem_cons_self
    have next := terminal.deliver injective owned occursFirst first
    have effects := @deliverObject_effects db delivery.2 state corpus _ terminal.healthy.sound occursFirst
    obtain ⟨final, stays⟩ := ih (fun other later => occurs other (mem_cons_of_mem _ later)) next order
    refine ⟨final, ?_⟩
    intro s condemned
    exact stays s (effects.condemned terminal.healthy.sound next.held condemned)

theorem Terminal.start (peers : List PeerRow) : Terminal state corpus { peers := peers } where
  healthy := by
    have reached : Effects state corpus true {} { peers := peers } := .single (.aside _ _ _ _ _ _)
    exact reached.healthy (@Reachable.start state corpus fun _ _ _ => True).healthy
  indexed := ⟨nofun, nofun⟩
  held := by
    intro payload signature object s _ _ stored
    cases stored
  removals := nofun
  retracted := nofun
  gone := by
    rintro s ⟨row, mem, -⟩
    cases mem

theorem Terminal.ends {delivery : Bytes × Key} {payload signature : Bytes} {object : SignedPayload} {s : Subject}
    (injective : CollisionFree state.platform corpus) (owned : PostsOwned state.platform corpus)
    (occurs : ∀ delivery ∈ deliveries, Occurs state corpus delivery.1) (terminal : Terminal state corpus db)
    (order : MeetAlong (deliverNext state) (InOrder state) db deliveries) (mem : delivery ∈ deliveries)
    (fits : delivery.1.length ≤ maxPostrevSize)
    (decodes : state.platform.decodeSignedObject delivery.1 = some (payload, signature))
    (admitted : admitObject state.platform payload signature = .ok object)
    (filed : Filed state.platform corpus payload signature object) (condemns : object.condemns = some s) :
    Gone state (deliverObjects state db deliveries) s := by
  obtain ⟨before, later, rfl⟩ := append_of_mem mem
  obtain ⟨earlier, here, order⟩ := meetAlong_append.mp order
  have occursHere := occurs delivery (by simp)
  obtain ⟨reached, -⟩ := terminal.run injective owned (fun other inBefore => occurs other (by simp [inBefore])) earlier
  have next : Terminal state corpus (deliverNext state (deliverObjects state db before) delivery) :=
    reached.deliver injective owned occursHere here
  have effects := @deliverObject_effects _ delivery.2 state corpus _ reached.healthy.sound occursHere
  have condemned := reached.condemns injective here fits decodes admitted filed condemns
    (effects.condemned reached.healthy.sound next.held)
  obtain ⟨final, stays⟩ := next.run injective owned (fun other inLater => occurs other (by simp [inLater])) order
  rw [deliverObjects, foldl_append]
  exact final.gone s (stays s condemned)

end Runs

/--
In a run from an empty instance whose deliveries are all in order: once an authority is applied, its
subject is gone in that and every later state; and two instances that receive the same deliveries,
both in order, have lost the same subjects at the end.
-/
theorem erasure_is_terminal {state : AppState} {corpus : Corpus} {peers : List PeerRow}
    {deliveries : List (Bytes × Key)} (injective : CollisionFree state.platform corpus)
    (owned : PostsOwned state.platform corpus)
    (occurs : ∀ delivery ∈ deliveries, Occurs state corpus delivery.1)
    (order : MeetAlong (deliverNext state) (InOrder state) { peers := peers } deliveries) :
    (∀ earlier delivery reached, earlier ++ [delivery] <+: reached → reached <+: deliveries →
      ∀ result after payload signature object s,
        applyOneObject state (deliverObjects state { peers := peers } earlier) delivery.1 delivery.2 =
          .ok (result, after) → result.status = .applied →
        state.platform.decodeSignedObject delivery.1 = some (payload, signature) →
        state.platform.parse payload = some object → object.condemns = some s →
        Gone state (deliverObjects state { peers := peers } reached) s) ∧
    ∀ other : List (Bytes × Key), (∀ delivery, delivery ∈ other ↔ delivery ∈ deliveries) →
      MeetAlong (deliverNext state) (InOrder state) { peers := peers } other →
      ∀ delivery ∈ deliveries, delivery.1.length ≤ maxPostrevSize → ∀ payload signature object s,
        state.platform.decodeSignedObject delivery.1 = some (payload, signature) →
        admitObject state.platform payload signature = .ok object →
        Filed state.platform corpus payload signature object → object.condemns = some s →
        Gone state (deliverObjects state { peers := peers } deliveries) s ∧
          Gone state (deliverObjects state { peers := peers } other) s := by
  have start : Terminal state corpus { peers := peers } := .start peers
  refine ⟨?_, ?_⟩
  · intro earlier delivery reached before within result after payload signature object s run applied decodes
      parses condemns
    obtain ⟨rest, rfl⟩ := before
    have occurs : ∀ other ∈ earlier ++ [delivery] ++ rest, Occurs state corpus other.1 :=
      fun other mem => occurs other (within.subset mem)
    obtain ⟨upTo, onward⟩ := meetAlong_append.mp (order.of_shorter within)
    obtain ⟨atDelivery, -⟩ := start.run injective owned
      (fun other mem => occurs other (mem_append_left _ mem)) upTo
    have delivered : deliverObjects state { peers := peers } (earlier ++ [delivery]) = after := by
      have one : deliverObject state (deliverObjects state { peers := peers } earlier) delivery.1 delivery.2 =
          after := by
        rw [deliverObject, run]
      rw [deliverObjects, foldl_append]
      exact one
    rw [delivered] at atDelivery
    obtain ⟨admitted, -, ingested⟩ := applyOneObject_applied run applied decodes parses
    have occursHere := occurs delivery (by simp) _ _ decodes
    have condemned := ingestObject_condemns occursHere admitted atDelivery.held condemns ingested
    have onward : MeetAlong (deliverNext state) (InOrder state) after rest := delivered ▸ onward
    obtain ⟨final, stays⟩ := atDelivery.run injective owned
      (fun other mem => occurs other (mem_append_right _ mem)) onward
    have reached : deliverObjects state { peers := peers } (earlier ++ [delivery] ++ rest) =
        deliverObjects state after rest := by
      rw [← delivered]
      exact foldl_append
    rw [reached]
    exact final.gone s (stays s condemned)
  · intro other same order' delivery mem fits payload signature object s decodes admitted filed condemns
    constructor
    · exact start.ends injective owned occurs order mem fits decodes admitted filed condemns
    · exact start.ends injective owned (fun d inOther => occurs d ((same d).mp inOther)) order'
        ((same delivery).mpr mem) fits decodes admitted filed condemns

instance (db : Db) (s : Subject) : Decidable (Hidden db s) :=
  decidable_of_iff ((∀ row ∈ db.postRevisions, s.owns db row.postId = true → row.body ≠ "" →
      ∀ post ∈ db.posts, post.id = row.postId → post.retracted = true) ∧
    (∀ row ∈ db.postsFts, s.owns db row.postId = true → row.body = "") ∧
    ∀ row ∈ db.threadsFts, ∀ id ∈ row.opPost, s.owns db id = true → row.opBody = "")
    ⟨fun ⟨bodies, postsFts, threadsFts⟩ => ⟨bodies, postsFts, threadsFts⟩,
      fun hidden => ⟨hidden.bodies, hidden.postsFts, hidden.threadsFts⟩⟩

instance (state : AppState) (db : Db) : (s : Subject) → Decidable (Erasable state db s)
  | .post id => decidable_of_iff ((∀ row ∈ db.signedObjects, ∀ object ∈ row.payload.bind state.platform.parse,
        .post id ∈ object.subjects → (Subject.post id).reaches db row.canonicalHash = true) ∧
      Hidden db (.post id))
    ⟨fun ⟨reached, hidden⟩ => ⟨reached, fun _ _ => hidden⟩, fun erasable =>
      ⟨erasable.reached, erasable.hidden id rfl⟩⟩
  | .user key => decidable_of_iff (∀ row ∈ db.signedObjects, ∀ object ∈ row.payload.bind state.platform.parse,
        .user key ∈ object.subjects → (Subject.user key).reaches db row.canonicalHash = true)
    ⟨fun reached => ⟨reached, nofun⟩, Erasable.reached⟩

instance (state : AppState) (db : Db) (delivery : Bytes × Key) : Decidable (InOrder state db delivery) :=
  inferInstanceAs (Decidable (∀ a ∈ arrival state db delivery.1, (∀ s ∈ a.object.subjects, ¬ Condemned state db s) ∧
    ∀ s ∈ a.object.condemns, Condemned state db s ∨ (Erasable state db s ∧ refused state db delivery.2 a = false)))

def deactivateTable : List SignedPayload :=
  [.profileRevision ⟨1, "a", "", none, 1000, none⟩, .threadCreate ⟨10, 1, "room", "title", none, 20, 2000⟩,
    .postRevision ownPost, .deactivation ⟨1, 3000⟩]

def deactivateState : AppState :=
  AppState.ofTable deactivateTable

/-- Whether the thread or the profile comes first, the deactivation ends what user 1 wrote. -/
theorem deactivated_in_both_orders :
    Gone deactivateState (deliverObjects deactivateState {} [([0], 8), ([1], 8), ([2], 8), ([3], 8)]) (.user 1) ∧
    Gone deactivateState (deliverObjects deactivateState {} [([1], 8), ([0], 8), ([2], 8), ([3], 8)]) (.user 1) := by
  have injective : CollisionFree deactivateState.platform (· ∈ [[0], [1], [2], [3]]) := by
    intro a b inA inB same
    have distinct : ∀ a ∈ [[0], [1], [2], [3]], ∀ b ∈ [[0], [1], [2], [3]],
        deactivateState.platform.sha256 a = deactivateState.platform.sha256 b → a = b := by decide
    exact distinct a inA b inB same
  have oneKey : ∀ bytes ∈ [[0], [1], [2], [3]],
      ((deactivateState.platform.parse bytes).bind namedPost).all (fun named => named.2 = 1) = true := by decide
  have named : ∀ payload signature object post key,
      Filed deactivateState.platform (· ∈ [[0], [1], [2], [3]]) payload signature object →
      namedPost object = some (post, key) → key = 1 := by
    intro payload signature object post key filed named
    have bound := oneKey payload filed.occurs
    rw [filed.parses, bind_some, named] at bound
    simpa using bound
  have owned : PostsOwned deactivateState.platform (· ∈ [[0], [1], [2], [3]]) := by
    intro _ _ _ _ _ _ _ _ _ filed filed' post post'
    rw [named _ _ _ _ _ filed post, named _ _ _ _ _ filed' post']
  have occurs : ∀ delivery ∈ [(([0] : Bytes), (8 : Key)), ([1], 8), ([2], 8), ([3], 8)],
      Occurs deactivateState (· ∈ [[0], [1], [2], [3]]) delivery.1 := by
    intro delivery mem payload signature decodes
    simp only [mem_cons, not_mem_nil, or_false] at mem
    obtain rfl | rfl | rfl | rfl := mem <;> (obtain ⟨rfl, -⟩ := Prod.mk.inj (some.inj decodes); decide)
  have filed : Filed deactivateState.platform (· ∈ [[0], [1], [2], [3]]) [3] (replicate 64 0)
      (.deactivation ⟨1, 3000⟩) := ⟨by decide, rfl, 1, rfl⟩
  have swapped : ∀ delivery : Bytes × Key, delivery ∈ [([1], 8), ([0], 8), ([2], 8), ([3], 8)] ↔
      delivery ∈ [([0], 8), ([1], 8), ([2], 8), ([3], 8)] := by
    intro delivery
    simp only [mem_cons, not_mem_nil, or_false]
    tauto
  exact (erasure_is_terminal injective owned occurs (by decide +kernel)).2
    [([1], 8), ([0], 8), ([2], 8), ([3], 8)] swapped (by decide +kernel) ([3], 8) (by decide) (by decide)
    [3] (replicate 64 0) (.deactivation ⟨1, 3000⟩) (.user 1) rfl rfl filed rfl

/-- The author's own retract is applied, and the text stays readable and searchable. -/
theorem retract_leaves_text : ∃ state deliveries wireBytes arrivedFrom after payload signature object s,
    applyOneObject state (deliverObjects state {} deliveries) wireBytes arrivedFrom =
      .ok (⟨state.platform.sha256 payload, .applied⟩, after) ∧
    state.platform.decodeSignedObject wireBytes = some (payload, signature) ∧
    state.platform.parse payload = some object ∧ object.condemns = some s ∧ ¬ Gone state after s := by
  refine ⟨retractState, [([0], 8), ([1], 8), ([2], 8)], [4], 8, afterRetract [4], [4], replicate 64 0,
    .retraction ⟨20, 1, 3000⟩, .post 20, rfl, rfl, rfl, rfl, ?_⟩
  intro gone
  have shown : ¬ Hidden (afterRetract [4]) (.post 20) := by decide +kernel
  exact shown gone.toHidden

end Prismoire
