import Prismoire.LocalFiles

namespace Prismoire

open Lib List Option Db

/-- Nobody else has signed a later revision of a local user's post, among the bytes of the run. -/
def OwnRevisions (platform : Platform) (corpus : Corpus) (db : Db) : Prop :=
  ∀ post ∈ db.posts, db.livesHere post.author = true → ∀ payload signature p,
    Filed platform corpus payload signature (.postRevision p) → p.revision ≠ 0 → p.postId = post.id →
      p.author = post.author

variable {state : AppState} {corpus : Corpus} {arrivedFrom : Key} {db mid after : Db}

variable {key user : Key} {row : PostRevisionRow} {added : List PostAttachmentRow} {platform : Platform}

theorem livesHere_authoritative (lives : db.livesHere key = true) :
    isLocalAuthoritative state db key arrivedFrom = true := by
  rw [livesHere] at lives
  rw [isLocalAuthoritative]
  cases found : db.user? key with
  | none => simp [found] at lives
  | some row => simpa [found] using lives

variable {publicKey home : Key} {displayName : Text} {authority : Hash}

theorem livesHere_hydrateStubUser (lives : (hydrateStubUser state db publicKey displayName home).livesHere key = true) :
    db.livesHere key = true := by
  simp only [livesHere, user?] at lives ⊢
  unfold hydrateStubUser at lives
  split at lives
  · rename_i row found
    dsimp only at lives
    split at lives
    · rw [find?_updateWhere (by intro row _; rfl)] at lives
      cases old : db.users.find? (·.publicKey = key) with
      | none => simp [old] at lives
      | some user =>
        rw [old, map_some] at lives
        split at lives
        · simp at lives
        · exact lives
    · exact lives
  · rename_i absent
    dsimp only at lives
    rw [find?_append] at lives
    cases old : db.users.find? (·.publicKey = key) with
    | some user => simpa [old] using lives
    | none =>
      rw [old, none_or, find?_singleton] at lives
      split at lives <;> simp at lives

theorem active_hydrateStubUser (active : db.active key) :
    (hydrateStubUser state db publicKey displayName home).active key := by
  obtain ⟨user, mem, same, standing⟩ := active
  unfold Db.active hydrateStubUser
  dsimp only
  split
  · split
    · refine (exists_mem_updateWhere ?_).mpr ⟨user, mem, same, standing⟩
      exact fun _ => Iff.rfl
    · exact ⟨user, mem, same, standing⟩
  · exact ⟨user, mem_append_left _ mem, same, standing⟩

/-- What a delivery keeps between its changes: the local posts, and no file bound to one of them anew. -/
structure KeepsOurs (platform : Platform) (corpus : Corpus) (db after : Db) : Prop where
  tables : PostTables after
  locals : LocalPosts after
  own : OwnRevisions platform corpus after
  bound : ∀ hash, after.boundHere hash → db.boundHere hash

theorem projectPostAttachments_added {id : Uuid} {revision : Nat} {refs : List AttachmentRef}
    (run : projectPostAttachments db id revision refs = .ok after) :
    ∃ added blobs, (∀ row ∈ added, row.postId = id ∧ row.revision = revision) ∧ after = { db with
      postAttachments := db.postAttachments ++ added
      attachmentBlobs := blobs } := by
  refine foldlM_invariant (fun mid => ∃ added blobs, (∀ row ∈ added, row.postId = id ∧ row.revision = revision) ∧
    mid = { db with
      postAttachments := db.postAttachments ++ added
      attachmentBlobs := blobs }) ?_ ⟨[], db.attachmentBlobs, by simp, by simp⟩ run
  rintro ref - mid final ⟨added, blobs, ours, rfl⟩ projected
  obtain ⟨-, -, -, -, rfl⟩ := insertPostAttachment_ok.mp projected
  refine ⟨added ++ [_], _, ?_, by rw [← append_assoc]; rfl⟩
  exact forall_mem_append.mpr ⟨ours, forall_mem_singleton.mpr ⟨rfl, rfl⟩⟩

theorem PostTables.revised (tables : PostTables db)
    (postIds : UniqueBy PostRow.id after.posts) (posts : ∀ id, db.hasPost id = true → after.hasPost id = true)
    (known : after.hasPost row.postId = true) (revisions : after.postRevisions = db.postRevisions ++ [row])
    (bindings : after.postAttachments = db.postAttachments ++ added)
    (bound : ∀ new ∈ added, new.postId = row.postId ∧ new.revision = row.revision) : PostTables after where
  postIds := postIds
  revisionPost := by
    intro found mem
    rw [revisions] at mem
    rcases mem_concat.mp mem with old | new
    · exact posts _ (tables.revisionPost found old)
    · rw [new]
      exact known
  boundRevision := by
    intro found mem
    rw [hasRevision, revisions, any_append, Bool.or_eq_true]
    rw [bindings] at mem
    rcases mem_append.mp mem with old | new
    · exact .inl (tables.boundRevision found old)
    · exact .inr (by simp [bound found new])

theorem OpensPost.keepsOurs {post : PostRow} (opens : OpensPost db after post row added) (tables : PostTables db)
    (locals : LocalPosts db) (own : OwnRevisions platform corpus db) (away : db.livesHere post.author ≠ true) :
    KeepsOurs platform corpus db after := by
  constructor
  · refine tables.revised ?_ ?_ ?_ opens.revisions opens.bindings ?_
    · rw [opens.posts]
      refine tables.postIds.insert fun old mem same => ?_
      have taken : db.hasPost post.id = true := List.any_eq_true.mpr ⟨old, mem, decide_eq_true same⟩
      exact Bool.false_ne_true (opens.fresh.symm.trans taken)
    · intro id taken
      rw [Db.hasPost, opens.posts, any_append, Bool.or_eq_true]
      exact .inl taken
    · simp [Db.hasPost, opens.posts, opens.revision.1]
    · intro new mem
      rw [opens.revision.1, opens.revision.2]
      exact opens.bound new mem
  · exact opens.locals locals tables.revisionPost tables.boundRevision fun lives => absurd lives away
  · intro found mem lives
    rw [opens.posts] at mem
    rw [livesHere_congr opens.users] at lives
    rcases mem_concat.mp mem with old | new
    · exact own found old lives
    · rw [new] at lives
      exact absurd lives away
  · intro hash here
    obtain old | ⟨-, -, -, -, found, inPosts, isPost, lives⟩ :=
      boundHere_of_post opens.users (fun other differs => opens.leaves differs) here
    · exact old
    · rw [opens.only inPosts isPost] at lives
      exact absurd lives away

section

variable (tables : PostTables db) (locals : LocalPosts db)
include tables locals

theorem keepsOurs_revised {id : Uuid} {count : Nat}
    (own : OwnRevisions platform corpus db) (users : after.users = db.users)
    (posts : after.posts = (db.raiseRevisionCount id count).posts)
    (revisions : after.postRevisions = db.postRevisions ++ [row]) (rowPost : row.postId = id)
    (known : db.hasPost id = true) (bindings : after.postAttachments = db.postAttachments ++ added)
    (bound : ∀ new ∈ added, new.postId = id ∧ new.revision = row.revision)
    (notOurs : ∀ post ∈ db.posts, post.id = id → db.livesHere post.author ≠ true) :
    KeepsOurs platform corpus db after := by
  have origin : ∀ post ∈ after.posts, ∃ old ∈ db.posts, old.id = post.id ∧ old.author = post.author ∧
      (post.id ≠ id → old = post) := by
    intro post mem
    rw [posts] at mem
    obtain ⟨old, inOld, hit, rfl⟩ | ⟨inOld, -⟩ := of_mem_updateWhere mem
    · exact ⟨old, inOld, rfl, rfl, fun differs => absurd hit differs⟩
    · exact ⟨_, inOld, rfl, rfl, fun _ => rfl⟩
  have leaves : ∀ other, other ≠ id → LeavesPost db after other := by
    intro other differs
    constructor
    · intro found inPosts same
      obtain ⟨old, inOld, -, -, unchanged⟩ := origin found inPosts
      exact unchanged (same ▸ differs) ▸ inOld
    · intro r
      simp [hasRevision, revisions, rowPost, Ne.symm differs]
    · intro found same
      rw [bindings]
      refine ⟨fun mem => ?_, fun mem => mem_append_left _ mem⟩
      rcases mem_append.mp mem with old | new
      · exact old
      · exact absurd (same.symm.trans (bound found new).1) differs
  have hasPost : ∀ other, after.hasPost other = db.hasPost other := by
    intro other
    rw [Db.hasPost, posts]
    exact any_updateWhere (by intro row; rfl) _
  have notOursAfter : ∀ post ∈ after.posts, post.id = id → db.livesHere post.author ≠ true := by
    intro post mem same
    obtain ⟨old, inOld, sameId, sameAuthor, -⟩ := origin post mem
    exact sameAuthor ▸ notOurs old inOld (sameId.trans same)
  constructor
  · refine tables.revised ?_ (fun other taken => (hasPost other).trans taken) ?_ revisions bindings ?_
    · rw [posts]
      exact tables.postIds.update fun row => rfl
    · rw [hasPost, rowPost]
      exact known
    · intro new mem
      rw [rowPost]
      exact bound new mem
  · refine locals.of_post id users ?_ leaves fun post mem same lives => absurd lives (notOursAfter post mem same)
    intro post mem
    obtain ⟨old, inOld, -, sameAuthor, -⟩ := origin post mem
    exact sameAuthor ▸ locals.authors old inOld
  · intro post mem lives payload signature p filed later same
    rw [livesHere_congr users] at lives
    obtain ⟨old, inOld, sameId, sameAuthor, -⟩ := origin post mem
    exact (own old inOld (sameAuthor.symm ▸ lives) payload signature p filed later
      (same.trans sameId.symm)).trans sameAuthor
  · intro hash here
    obtain old | ⟨-, -, -, -, post, inPosts, isPost, lives⟩ := boundHere_of_post users leaves here
    · exact old
    · exact absurd lives (notOursAfter post inPosts isPost)

theorem keepsOurs_project {payload signature : Bytes} {p : PostRevision} (own : OwnRevisions state.platform corpus db)
    (filed : Filed state.platform corpus payload signature (.postRevision p))
    (run : projectRemotePostRevision state db p signature (state.platform.sha256 payload) arrivedFrom =
      .ok (.projected, after)) : KeepsOurs state.platform corpus db after := by
  obtain ⟨-, foreign, known, opened, recorded, opening, recordedRun, boundRun⟩ :=
    (projectRemotePostRevision_ok run).resolve_left fun waits => waits.2 rfl
  have away : db.livesHere p.author ≠ true := by
    intro lives
    rw [livesHere_authoritative lives] at foreign
    cases foreign
  obtain ⟨added, blobs, bound, final⟩ := projectPostAttachments_added boundRun
  obtain ⟨-, -, rfl⟩ := insertPostRevision_ok.mp recordedRun
  rcases opening with ⟨first, openedRun⟩ | ⟨later, posted, rfl⟩
  · obtain ⟨fresh, -, -, -, rfl⟩ := insertPost_ok.mp openedRun
    have zero : clampI64 p.revision = 0 := by rw [first]; rfl
    rw [zero] at bound
    have opens : OpensPost db after (remotePostRow state db p arrivedFrom)
        (remoteRevisionRow state p signature (state.platform.sha256 payload)) added :=
      ⟨fresh, known, by rw [final]; rfl, by rw [final]; rfl, by rw [final]; rfl, ⟨rfl, zero⟩, by rw [final]; rfl,
        bound⟩
    exact opens.keepsOurs tables locals own away
  · have posts : after.posts = (db.raiseRevisionCount p.postId (clampI64 (clampI64 p.revision + 1))).posts := by
      rw [final]
      rfl
    have revisions : after.postRevisions = db.postRevisions ++
        [remoteRevisionRow state p signature (state.platform.sha256 payload)] := by
      rw [final]
      rfl
    refine keepsOurs_revised tables locals own (by rw [final]; rfl) posts revisions rfl posted (by rw [final]; rfl)
      bound ?_
    -- a later revision of a local post would be by its local author
    intro post mem same lives
    rw [own post mem lives payload signature p filed later same.symm] at away
    exact away lives

theorem keepsOurs_erased (own : OwnRevisions platform corpus db)
    (users : after.users = updateWhere (·.publicKey = user) (fun row => { row with deleted := true }) db.users)
    (posts : after.posts = updateWhere (fun post => decide (post.author = user) && !post.retracted)
      (fun post => { post with retracted := true }) db.posts)
    (revisions : ∃ selected : PostRevisionRow → Bool,
      after.postRevisions = updateWhere selected (fun row => { row with body := "" }) db.postRevisions)
    (bindings : after.postAttachments = db.postAttachments.filter fun row => !authored db user row.postId) :
    KeepsOurs platform corpus db after := by
  obtain ⟨selected, revisions⟩ := revisions
  have unchanged : ∀ id r, after.hasRevision id r = db.hasRevision id r := by
    intro id r
    rw [hasRevision, revisions]
    exact any_updateWhere (by intro row; rfl) _
  have hasPost : ∀ id, after.hasPost id = db.hasPost id := by
    intro id
    rw [Db.hasPost, posts]
    exact any_updateWhere (by intro row; rfl) _
  have lives : ∀ key, after.livesHere key = db.livesHere key := by
    intro key
    rw [livesHere, livesHere, user?, user?, users, find?_updateWhere (by intro row _; rfl)]
    cases db.users.find? (·.publicKey = key) with
    | none => rfl
    | some row =>
      rw [map_some]
      split <;> rfl
  have origin : ∀ post ∈ after.posts, ∃ old ∈ db.posts, old.id = post.id ∧ old.author = post.author ∧
      (post.author = user → post.retracted = true) ∧ (post.author ≠ user → old = post) ∧
      old.homeInstance = post.homeInstance ∧ old.revisionCount = post.revisionCount := by
    intro post mem
    rw [posts] at mem
    obtain ⟨old, inOld, ⟨hit, rfl⟩ | ⟨miss, rfl⟩⟩ := mem_updateWhere.mp mem
    · have mine : old.author = user := by simpa using (Bool.and_eq_true_iff.mp hit).1
      exact ⟨old, inOld, rfl, rfl, fun _ => rfl, fun other => absurd mine other, rfl, rfl⟩
    · exact ⟨_, inOld, rfl, rfl, fun mine => by simpa [mine] using miss, fun _ => rfl, rfl, rfl⟩
  have touched : ∀ post ∈ db.posts, (authored db user post.id = true ↔ post.author = user) := by
    intro post mem
    simp only [authored, List.any_eq_true, decide_eq_true_eq]
    constructor
    · rintro ⟨other, inPosts, same, mine⟩
      rw [← tables.postIds.eq inPosts mem same, mine]
    · exact fun mine => ⟨post, mem, rfl, mine⟩
  constructor
  · refine ⟨?_, ?_, ?_⟩
    · rw [posts]
      exact tables.postIds.update fun row => rfl
    · rw [revisions]
      exact forall_mem_updateWhere (fun row inOld => (hasPost _).trans (tables.revisionPost row inOld)) fun _ => id
    · intro row mem
      rw [bindings] at mem
      exact (unchanged _ _).trans (tables.boundRevision row (mem_of_mem_filter mem))
  · refine locals.of_touched (fun id => authored db user id = true) ?_ (fun key local_ => lives key ▸ local_) ?_ ?_ ?_
    · intro post mem
      obtain ⟨old, inOld, -, sameAuthor, -⟩ := origin post mem
      have known : after.hasUser old.author = db.hasUser old.author := by
        rw [hasUser, users]
        exact any_updateWhere (by intro row; rfl) _
      rw [← sameAuthor, known]
      exact locals.authors old inOld
    · intro id away
      refine ⟨?_, unchanged id, ?_⟩
      · rintro post mem rfl
        obtain ⟨old, inOld, sameId, sameAuthor, -, unchanged, -, -⟩ := origin post mem
        have other : post.author ≠ user := by
          rw [← sameAuthor]
          intro mine
          exact away (sameId ▸ (touched old inOld).mpr mine)
        exact unchanged other ▸ inOld
      · rintro row rfl
        simp [bindings, away]
    · intro post mem away row inUsers same standing
      have other : ¬ row.publicKey = user := fun mine => away ((touched post mem).mpr (same.symm.trans mine))
      exact ⟨row, users ▸ mem_updateWhere.mpr ⟨row, inUsers, .inr ⟨decide_eq_false other, rfl⟩⟩, same, standing⟩
    · intro post mem mine isLocal
      obtain ⟨old, inOld, sameId, sameAuthor, gone, -, sameHome, sameCount⟩ := origin post mem
      rw [lives, ← sameAuthor] at isLocal
      have ours := locals.ours old inOld isLocal
      have retracted : post.retracted = true :=
        gone (sameAuthor.symm.trans ((touched old inOld).mp (sameId.symm ▸ mine)))
      refine ⟨sameHome.symm.trans ours.home, ?_, ?_, ?_⟩
      · intro stands
        rw [retracted] at stands
        cases stands
      · intro r
        rw [unchanged, ← sameId, ours.revisions, sameCount]
      · intro row inRows same
        rw [bindings] at inRows
        have kept := (mem_filter.mp inRows).2
        rw [same, mine] at kept
        cases kept
  · intro post mem isLocal payload signature p filed later same
    rw [lives] at isLocal
    obtain ⟨old, inOld, sameId, sameAuthor, -⟩ := origin post mem
    exact (own old inOld (sameAuthor.symm ▸ isLocal) payload signature p filed later
      (same.trans sameId.symm)).trans sameAuthor
  · rintro hash ⟨row, inRows, sameHash, post, mem, isPost, isLocal⟩
    rw [lives] at isLocal
    rw [bindings] at inRows
    obtain ⟨old, inOld, sameId, sameAuthor, -⟩ := origin post mem
    exact ⟨row, mem_of_mem_filter inRows, sameHash, old, inOld, sameId.trans isPost, sameAuthor.symm ▸ isLocal⟩

end

theorem eraseAllForUserKey_content (run : eraseAllForUserKey db user authority = .ok after) :
    after = db ∨ after.users = updateWhere (·.publicKey = user) (fun row => { row with deleted := true }) db.users ∧
      after.posts = updateWhere (fun post => decide (post.author = user) && !post.retracted)
        (fun post => { post with retracted := true }) db.posts ∧
      (∃ selected : PostRevisionRow → Bool,
        after.postRevisions = updateWhere selected (fun row => { row with body := "" }) db.postRevisions) ∧
      after.postAttachments = db.postAttachments.filter fun row => !authored db user row.postId := by
  obtain ⟨_, _, _, -, rfl⟩ | rfl := eraseAllForUserKey_frame run
  · exact .inr ⟨rfl, rfl, ⟨_, rfl⟩, rfl⟩
  · exact .inl rfl

theorem keepsOurs_erase (tables : PostTables db) (locals : LocalPosts db)
    (own : OwnRevisions state.platform corpus db) (run : eraseAllForUserKey db user authority = .ok after) :
    KeepsOurs state.platform corpus db after := by
  obtain rfl | ⟨users, posts, revisions, bindings⟩ := eraseAllForUserKey_content run
  · exact ⟨tables, locals, own, fun _ here => here⟩
  · exact keepsOurs_erased tables locals own users posts revisions bindings

theorem Ingest.keepsOurs (change : Ingest state corpus arrivedFrom mid after)
    (kept : KeepsOurs state.platform corpus db mid) : KeepsOurs state.platform corpus db after := by
  cases change with
  | aside same =>
    constructor
    · refine ⟨same.posts ▸ kept.tables.postIds, ?_, ?_⟩
      · intro row mem
        rw [Db.hasPost, same.posts]
        exact kept.tables.revisionPost row (same.revisions ▸ mem)
      · intro row mem
        rw [hasRevision, same.revisions]
        exact kept.tables.boundRevision row (same.bindings ▸ mem)
    · exact kept.locals.of_same same.users same.posts same.revisions same.bindings
    · intro post mem lives
      exact kept.own post (same.posts ▸ mem) (livesHere_congr same.users _ ▸ lives)
    · intro hash here
      exact kept.bound hash ((boundHere_congr same.users same.posts same.bindings).mp here)
  | hydrate key displayName home foreign =>
    constructor
    · exact ⟨kept.tables.postIds, kept.tables.revisionPost, kept.tables.boundRevision⟩
    · refine kept.locals.of_touched (fun _ => False) ?_ (fun _ lives => livesHere_hydrateStubUser lives) ?_ ?_ (by simp)
      · intro post mem
        exact hasUser_hydrateStubUser.mpr (.inr (kept.locals.authors post mem))
      · exact fun id _ => ⟨fun post mem _ => mem, fun r => rfl, fun row _ => Iff.rfl⟩
      · intro post _ _ user mem sameKey standing
        exact active_hydrateStubUser ⟨user, mem, sameKey, standing⟩
    · intro post mem lives
      exact kept.own post mem (livesHere_hydrateStubUser lives)
    · rintro hash ⟨row, mem, same, post, inPosts, isPost, lives⟩
      exact kept.bound hash ⟨row, mem, same, post, inPosts, isPost, livesHere_hydrateStubUser lives⟩
  | project filed run =>
    have projected := keepsOurs_project kept.tables kept.locals kept.own filed run
    exact { projected with bound := fun hash here => kept.bound hash (projected.bound hash here) }
  | erase user authority run =>
    have erased := keepsOurs_erase kept.tables kept.locals kept.own run
    exact { erased with bound := fun hash here => kept.bound hash (erased.bound hash here) }

theorem Ingests.keepsOurs (changes : Ingests state corpus arrivedFrom db after) (tables : PostTables db)
    (locals : LocalPosts db) (own : OwnRevisions state.platform corpus db) :
    KeepsOurs state.platform corpus db after := by
  induction changes with
  | refl => exact ⟨tables, locals, own, fun _ here => here⟩
  | tail _ change ih => exact change.keepsOurs ih

end Prismoire
