import Prismoire.PostWrites
import Prismoire.Refcounts

namespace Prismoire

open Lib List Db

def Db.livesHere (db : Db) (key : Key) : Bool :=
  (db.user? key).any (·.homeInstance.isNone)

def Db.boundHere (db : Db) (hash : Hash) : Prop :=
  ∃ row ∈ db.postAttachments, row.contentHash = hash ∧
    ∃ post ∈ db.posts, post.id = row.postId ∧ db.livesHere post.author = true

def Db.staged (db : Db) (hash : Hash) : Prop :=
  ∃ row ∈ db.attachmentStaging, row.contentHash = hash

instance (db : Db) (hash : Hash) : Decidable (db.boundHere hash) :=
  inferInstanceAs (Decidable (∃ row ∈ db.postAttachments, row.contentHash = hash ∧
    ∃ post ∈ db.posts, post.id = row.postId ∧ db.livesHere post.author = true))

instance (db : Db) (hash : Hash) : Decidable (db.staged hash) :=
  inferInstanceAs (Decidable (∃ row ∈ db.attachmentStaging, row.contentHash = hash))

/-- A post of a local user between transactions: it is stored as one of ours, its count is exact, and
while it stands each of its files is bound to its current revision. -/
structure LocalPost (db : Db) (post : PostRow) : Prop where
  home : post.homeInstance = none
  standing : post.retracted = false → ∃ user ∈ db.users, user.publicKey = post.author ∧ user.deleted = false
  revisions : ∀ r, db.hasRevision post.id r = true ↔ r < post.revisionCount
  current : ∀ row ∈ db.postAttachments, row.postId = post.id → post.retracted = false ∧
    ∃ now ∈ db.postAttachments, now.postId = post.id ∧ now.contentHash = row.contentHash ∧
      now.revision + 1 = post.revisionCount

structure LocalPosts (db : Db) : Prop where
  authors : ∀ post ∈ db.posts, db.hasUser post.author = true
  ours : ∀ post ∈ db.posts, db.livesHere post.author = true → LocalPost db post

structure LeavesPost (db after : Db) (id : Uuid) : Prop where
  posts : ∀ post ∈ after.posts, post.id = id → post ∈ db.posts
  revisions : ∀ r, after.hasRevision id r = db.hasRevision id r
  bindings : ∀ row, row.postId = id → (row ∈ after.postAttachments ↔ row ∈ db.postAttachments)

section Frames

variable {db after : Db}

theorem livesHere_congr (users : after.users = db.users) (key : Key) : after.livesHere key = db.livesHere key := by
  rw [livesHere, livesHere, user?, user?, users]

theorem LocalPost.of_leaves {post : PostRow} (kept : LocalPost db post) (leaves : LeavesPost db after post.id)
    (users : ∀ user ∈ db.users, user.publicKey = post.author → user.deleted = false →
      ∃ user ∈ after.users, user.publicKey = post.author ∧ user.deleted = false) : LocalPost after post where
  home := kept.home
  standing := by
    intro stands
    obtain ⟨user, mem, same, active⟩ := kept.standing stands
    exact users user mem same active
  revisions r := by rw [leaves.revisions, kept.revisions]
  current := by
    intro row mem same
    obtain ⟨stands, now, inRows, samePost, sameHash, isCurrent⟩ :=
      kept.current row ((leaves.bindings row same).mp mem) same
    exact ⟨stands, now, (leaves.bindings now samePost).mpr inRows, samePost, sameHash, isCurrent⟩

theorem LocalPosts.of_touched (locals : LocalPosts db) (touched : Uuid → Prop)
    (authors : ∀ post ∈ after.posts, after.hasUser post.author = true)
    (fewer : ∀ key, after.livesHere key = true → db.livesHere key = true)
    (leaves : ∀ id, ¬ touched id → LeavesPost db after id)
    (users : ∀ post ∈ db.posts, ¬ touched post.id → ∀ user ∈ db.users, user.publicKey = post.author →
      user.deleted = false → ∃ user ∈ after.users, user.publicKey = post.author ∧ user.deleted = false)
    (again : ∀ post ∈ after.posts, touched post.id → after.livesHere post.author = true → LocalPost after post) :
    LocalPosts after where
  authors := authors
  ours := by
    intro post mem isLocal
    by_cases hit : touched post.id
    · exact again post mem hit isLocal
    · have old := (leaves post.id hit).posts post mem rfl
      exact (locals.ours post old (fewer _ isLocal)).of_leaves (leaves post.id hit) (users post old hit)

theorem LocalPosts.of_post (locals : LocalPosts db) (id : Uuid) (users : after.users = db.users)
    (authors : ∀ post ∈ after.posts, db.hasUser post.author = true)
    (leaves : ∀ other, other ≠ id → LeavesPost db after other)
    (again : ∀ post ∈ after.posts, post.id = id → db.livesHere post.author = true → LocalPost after post) :
    LocalPosts after := by
  refine locals.of_touched (· = id) ?_ ?_ leaves ?_ ?_
  · intro post mem
    rw [hasUser, users]
    exact authors post mem
  · intro key isLocal
    rwa [← livesHere_congr users]
  · intro post _ _ user mem same active
    exact ⟨user, users ▸ mem, same, active⟩
  · intro post mem same isLocal
    exact again post mem same (livesHere_congr users _ ▸ isLocal)

theorem LocalPosts.of_same (locals : LocalPosts db) (users : after.users = db.users) (posts : after.posts = db.posts)
    (revisions : after.postRevisions = db.postRevisions) (bindings : after.postAttachments = db.postAttachments) :
    LocalPosts after where
  authors := by
    intro post mem
    rw [hasUser, users]
    exact locals.authors post (posts ▸ mem)
  ours := by
    intro post mem isLocal
    refine (locals.ours post (posts ▸ mem) (livesHere_congr users _ ▸ isLocal)).of_leaves ?_ ?_
    · refine ⟨fun _ inPosts _ => posts ▸ inPosts, fun r => ?_, fun row _ => by rw [bindings]⟩
      rw [hasRevision, revisions]
      rfl
    · intro user inUsers same active
      exact ⟨user, users ▸ inUsers, same, active⟩

theorem boundHere_congr {hash : Hash} (users : after.users = db.users) (posts : after.posts = db.posts)
    (bindings : after.postAttachments = db.postAttachments) : after.boundHere hash ↔ db.boundHere hash := by
  simp only [boundHere, posts, bindings, livesHere_congr users]

theorem boundHere_of_post {hash : Hash} {id : Uuid} (users : after.users = db.users)
    (leaves : ∀ other, other ≠ id → LeavesPost db after other) (bound : after.boundHere hash) :
    db.boundHere hash ∨ ∃ row ∈ after.postAttachments, row.contentHash = hash ∧ row.postId = id ∧
      ∃ post ∈ after.posts, post.id = id ∧ db.livesHere post.author = true := by
  obtain ⟨row, mem, same, post, inPosts, samePost, isLocal⟩ := bound
  rw [livesHere_congr users] at isLocal
  by_cases hit : row.postId = id
  · exact .inr ⟨row, mem, same, hit, post, inPosts, samePost.trans hit, isLocal⟩
  · have leaves := leaves row.postId hit
    exact .inl ⟨row, (leaves.bindings row rfl).mp mem, same, post, leaves.posts post inPosts samePost, samePost,
      isLocal⟩

end Frames

section Opened

variable {db after : Db} {post : PostRow} {row : PostRevisionRow} {added : List PostAttachmentRow}

structure OpensPost (db after : Db) (post : PostRow) (row : PostRevisionRow) (added : List PostAttachmentRow) :
    Prop where
  fresh : db.hasPost post.id = false
  known : db.hasUser post.author = true
  users : after.users = db.users
  posts : after.posts = db.posts ++ [post]
  revisions : after.postRevisions = db.postRevisions ++ [row]
  revision : row.postId = post.id ∧ row.revision = 0
  bindings : after.postAttachments = db.postAttachments ++ added
  bound : ∀ new ∈ added, new.postId = post.id ∧ new.revision = 0

theorem OpensPost.leaves (opens : OpensPost db after post row added) {other : Uuid} (differs : other ≠ post.id) :
    LeavesPost db after other where
  posts := by
    intro found mem same
    rw [opens.posts] at mem
    rcases mem_concat.mp mem with old | new
    · exact old
    · exact absurd (same.symm.trans (by rw [new])) differs
  revisions r := by
    simp [hasRevision, opens.revisions, opens.revision.1, Ne.symm differs]
  bindings found same := by
    rw [opens.bindings]
    refine ⟨fun mem => ?_, fun mem => mem_append_left _ mem⟩
    rcases mem_append.mp mem with old | new
    · exact old
    · exact absurd (same.symm.trans (opens.bound found new).1) differs

theorem hasRevision_of_fresh {id : Uuid} (ints : ∀ row ∈ db.postRevisions, db.hasPost row.postId = true)
    (fresh : db.hasPost id = false) (r : Nat) : db.hasRevision id r = false := by
  rw [hasRevision, any_eq_false]
  intro old mem same
  have known := ints old mem
  rw [(of_decide_eq_true same).1, fresh] at known
  cases known

variable (opens : OpensPost db after post row added)
include opens

theorem OpensPost.unbound (ints : ∀ row ∈ db.postRevisions, db.hasPost row.postId = true)
    (anchored : ∀ row ∈ db.postAttachments, db.hasRevision row.postId row.revision = true) :
    ∀ old ∈ db.postAttachments, old.postId ≠ post.id := by
  intro old mem same
  have known := anchored old mem
  rw [same, hasRevision_of_fresh ints opens.fresh] at known
  cases known

theorem OpensPost.only {found : PostRow} (mem : found ∈ after.posts) (same : found.id = post.id) : found = post := by
  rw [opens.posts] at mem
  rcases mem_concat.mp mem with old | new
  · have known : db.hasPost post.id = true := any_eq_true.mpr ⟨found, old, decide_eq_true same⟩
    rw [opens.fresh] at known
    cases known
  · exact new

theorem OpensPost.locals (locals : LocalPosts db) (ints : ∀ row ∈ db.postRevisions, db.hasPost row.postId = true)
    (anchored : ∀ row ∈ db.postAttachments, db.hasRevision row.postId row.revision = true)
    (ours : db.livesHere post.author = true → post.homeInstance = none ∧ post.retracted = false ∧
      post.revisionCount = 1 ∧ ∃ user ∈ db.users, user.publicKey = post.author ∧ user.deleted = false) :
    LocalPosts after := by
  have unrevised := hasRevision_of_fresh ints opens.fresh
  refine locals.of_post post.id opens.users ?_ (fun other differs => opens.leaves differs) ?_
  · intro found mem
    rw [opens.posts] at mem
    rcases mem_concat.mp mem with old | new
    · exact locals.authors found old
    · rw [new]
      exact opens.known
  · intro found mem same isLocal
    cases opens.only mem same
    obtain ⟨home, stands, counted, user, inUsers, sameUser, active⟩ := ours isLocal
    constructor
    · exact home
    · exact fun _ => ⟨user, opens.users ▸ inUsers, sameUser, active⟩
    · intro r
      have has : after.hasRevision post.id r = (db.hasRevision post.id r || decide (0 = r)) := by
        simp [hasRevision, opens.revisions, opens.revision.1, opens.revision.2]
      rw [counted, has, unrevised, Bool.false_or, decide_eq_true_iff]
      omega
    · intro bound mem samePost
      rw [opens.bindings] at mem ⊢
      rcases mem_append.mp mem with old | new
      · exact absurd samePost (opens.unbound ints anchored bound old)
      · refine ⟨stands, bound, mem_append_right _ new, samePost, rfl, ?_⟩
        rw [(opens.bound bound new).2, counted]

end Opened

variable {state : AppState} {sign : Signer} {db after : Db} {user : Key}

/-- The keys of the tables that hold posts and their files. -/
structure PostTables (db : Db) : Prop where
  postIds : UniqueBy PostRow.id db.posts
  revisionPost : ∀ row ∈ db.postRevisions, db.hasPost row.postId = true
  boundRevision : ∀ row ∈ db.postAttachments, db.hasRevision row.postId row.revision = true

variable {refs : List AttachmentRef} {id : Uuid} {revision : Nat} {req : ThreadRequest}

theorem bindingRow_added {row : PostAttachmentRow} (mem : row ∈ refs.zipIdx.map (bindingRow id revision)) :
    row.postId = id ∧ row.revision = revision ∧ ∃ ref ∈ refs, ref.contentHash = row.contentHash := by
  obtain ⟨⟨ref, place⟩, inRefs, rfl⟩ := mem_map.mp mem
  exact ⟨rfl, rfl, ref, (mem_zipIdx' inRefs).2 ▸ getElem_mem _, rfl⟩

theorem bindingRow_of_ref {ref : AttachmentRef}
    (mem : ref ∈ refs) : ∃ row ∈ refs.zipIdx.map (bindingRow id revision), row.postId = id ∧
      row.revision = revision ∧ row.contentHash = ref.contentHash := by
  obtain ⟨place, short, rfl⟩ := mem_iff_getElem.mp mem
  refine ⟨bindingRow id revision (refs[place], place), mem_map_of_mem ?_, rfl, rfl, rfl⟩
  exact mk_mem_zipIdx_iff_getElem?.mpr (getElem?_eq_getElem short)

/-- The active account behind a request. -/
def Db.active (db : Db) (user : Key) : Prop :=
  ∃ row ∈ db.users, row.publicKey = user ∧ row.deleted = false

theorem writeThread_opens (run : writeThread state sign db user req = .ok after) :
    ∃ refs row, OpensPost db after (localPostRow state (req.opening user refs)) row
      (refs.1.zipIdx.map (bindingRow req.postId 0)) ∧
      ∀ ref ∈ refs.1, db.staged ref.contentHash ∨ ∃ row ∈ db.postAttachments, row.contentHash = ref.contentHash ∧
        ∃ post ∈ after.posts, post.id = row.postId ∧ post.author = user := by
  obtain ⟨opened, refs, row, fresh, known, posts, staging, bindings, validated, rowPost, rowRevision, users,
    afterPosts, revisions, added⟩ := writeThread_ok run
  have opens : OpensPost db after (localPostRow state (req.opening user refs)) row
      (refs.1.zipIdx.map (bindingRow req.postId 0)) :=
    ⟨fresh, known, users, afterPosts.trans posts, revisions, ⟨rowPost, rowRevision⟩, added,
      fun new mem => ⟨(bindingRow_added mem).1, (bindingRow_added mem).2.1⟩⟩
  refine ⟨refs, row, opens, ?_⟩
  intro ref mem
  obtain ⟨-, ⟨old, inStaging, same⟩ | ⟨old, inRows, same, authors⟩⟩ :=
    validateAttachments_usable validated ref (validateAttachments_ok validated ▸ mem)
  · exact .inl ⟨old, staging ▸ inStaging, same⟩
  · simp only [authored, any_eq_true, decide_eq_true_eq] at authors
    rw [← afterPosts] at authors
    exact .inr ⟨old, bindings ▸ inRows, same, authors⟩

variable (locals : LocalPosts db)
include locals

section

variable (tables : PostTables db)
include tables

theorem LocalPosts.writeThread (active : db.active user) (run : writeThread state sign db user req = .ok after) :
    LocalPosts after ∧ ∀ hash, after.boundHere hash → db.boundHere hash ∨ db.staged hash := by
  obtain ⟨refs, row, opens, usable⟩ := writeThread_opens run
  refine ⟨opens.locals locals tables.revisionPost tables.boundRevision fun _ => ⟨rfl, rfl, rfl, active⟩, ?_⟩
  intro hash bound
  obtain old | ⟨new, inRows, same, samePost, post, inPosts, isPost, isLocal⟩ :=
    boundHere_of_post opens.users (fun other differs => opens.leaves differs) bound
  · exact .inl old
  · have unbound := opens.unbound tables.revisionPost tables.boundRevision
    cases opens.only inPosts isPost
    rw [opens.bindings] at inRows
    rcases mem_append.mp inRows with old | added
    · exact absurd samePost (unbound new old)
    · obtain ⟨-, -, ref, inRefs, sameHash⟩ := bindingRow_added added
      rcases usable ref inRefs with staged | ⟨old, inOld, oldHash, other, inAfter, otherPost, mine⟩
      · exact .inr ((sameHash.trans same) ▸ staged)
      · -- the earlier post that has the file is by the same local user
        have before : other ∈ db.posts := by
          rw [opens.posts] at inAfter
          rcases mem_concat.mp inAfter with known | new
          · exact known
          · rw [new] at otherPost
            exact absurd otherPost.symm (unbound old inOld)
        exact .inl ⟨old, inOld, oldHash.trans (sameHash.trans same), other, before, otherPost, mine ▸ isLocal⟩

theorem LocalPosts.createThread (active : db.active user) : LocalPosts (createThread state sign db user req).2 ∧
      ∀ hash, (Prismoire.createThread state sign db user req).2.boundHere hash → db.boundHere hash ∨ db.staged hash := by
  rcases @createThread_ok state sign db user req with same | ⟨roomed, same, run⟩
  · exact ⟨locals.of_same same.users same.posts same.revisions same.bindings,
      fun hash bound => .inl ((boundHere_congr same.users same.posts same.bindings).mp bound)⟩
  · have roomedLocals := locals.of_same same.users same.posts same.revisions same.bindings
    have roomedTables : PostTables roomed := by
      refine ⟨same.posts ▸ tables.postIds, ?_, ?_⟩
      · intro row mem
        rw [hasPost, same.posts]
        exact tables.revisionPost row (same.revisions ▸ mem)
      · intro row mem
        rw [hasRevision, same.revisions]
        exact tables.boundRevision row (same.bindings ▸ mem)
    have roomedActive : roomed.active user := by
      rw [Db.active, same.users]
      exact active
    obtain ⟨final, bound⟩ := roomedLocals.writeThread roomedTables roomedActive run
    refine ⟨final, ?_⟩
    intro hash here
    rcases bound hash here with old | ⟨row, staged, rowHash⟩
    · exact .inl ((boundHere_congr same.users same.posts same.bindings).mp old)
    · exact .inr ⟨row, same.staging ▸ staged, rowHash⟩

theorem LocalPosts.createReply {req : ReplyRequest}
    (active : db.active user) (run : createReply state sign db user req = .ok after) :
    LocalPosts after ∧ ∀ hash, after.boundHere hash → db.boundHere hash := by
  obtain ⟨row, fresh, known, rowPost, rowRevision, users, posts, revisions, bindings⟩ := createReply_ok run
  have opens : OpensPost db after (localPostRow state (req.reply user)) row [] :=
    ⟨fresh, known, users, posts, revisions, ⟨rowPost, rowRevision⟩, by rw [bindings, append_nil], by simp⟩
  refine ⟨opens.locals locals tables.revisionPost tables.boundRevision fun _ => ⟨rfl, rfl, rfl, active⟩, ?_⟩
  intro hash bound
  obtain old | ⟨new, inRows, -, samePost, -⟩ :=
    boundHere_of_post users (fun other differs => opens.leaves differs) bound
  · exact old
  · exact absurd samePost (opens.unbound tables.revisionPost tables.boundRevision new (bindings ▸ inRows))

theorem LocalPosts.editPost {req : EditRequest} (run : editPost state sign db user req = .ok after) :
    LocalPosts after ∧ ∀ hash, after.boundHere hash → db.boundHere hash ∨ db.staged hash := by
  obtain ⟨post, dropped, refs, row, found, mine, stands, dropRun, validated, rowPost, rowRevision, fresh, users, posts,
    revisions, bindings⟩ := editPost_ok run
  have mem := mem_of_find?_eq_some found
  have isPost : post.id = req.postId := by simpa using find?_some found
  have sameRefs := validateAttachments_ok validated
  obtain ⟨blobs, droppedEq⟩ := dropRemoved_frame dropRun
  have left : ∀ old, old ∈ dropped.postAttachments ↔
      old ∈ db.postAttachments ∧ dropsBinding db req.postId (post.revisionCount - 1) req.attachments old = false := by
    intro old
    rw [droppedEq]
    simp [mem_filter]
  have leaves : ∀ other, other ≠ req.postId → LeavesPost db after other := by
    intro other differs
    constructor
    · intro found inPosts same
      rw [posts] at inPosts
      obtain ⟨old, -, hit, rfl⟩ | ⟨inOld, -⟩ := of_mem_updateWhere inPosts
      · exact absurd (same.symm.trans hit) differs
      · exact inOld
    · intro r
      simp [hasRevision, revisions, rowPost, Ne.symm differs]
    · intro old same
      rw [bindings, mem_append, left]
      constructor
      · rintro (⟨inOld, -⟩ | new)
        · exact inOld
        · exact absurd (same.symm.trans (bindingRow_added new).1) differs
      · intro inOld
        exact .inl ⟨inOld, by simp [dropsBinding, same, differs]⟩
  constructor
  · refine locals.of_post req.postId users ?_ leaves ?_
    · rw [posts]
      exact forall_mem_updateWhere locals.authors fun _ => id
    · intro edited inPosts isEdited isLocal
      have same : edited = { post with revisionCount := post.revisionCount + 1 } := by
        rw [posts] at inPosts
        obtain ⟨old, inOld, hit, rfl⟩ | ⟨-, miss⟩ := of_mem_updateWhere inPosts
        · rw [tables.postIds.eq inOld mem (hit.trans isPost.symm)]
        · exact absurd isEdited miss
      subst same
      have ours := locals.ours post mem isLocal
      -- the count was free as a revision, so it is not beyond what the column holds
      have unclamped : clampI64 post.revisionCount = post.revisionCount := by
        have free : ¬ clampI64 post.revisionCount < post.revisionCount := by
          rw [← ours.revisions, isPost, fresh]
          exact Bool.false_ne_true
        have below : clampI64 post.revisionCount ≤ post.revisionCount := Nat.min_le_left _ _
        omega
      rw [unclamped] at rowRevision bindings
      constructor
      · exact ours.home
      · intro _
        rw [users]
        exact ours.standing stands
      · intro r
        have has : after.hasRevision post.id r = true ↔ db.hasRevision post.id r = true ∨ post.revisionCount = r := by
          simp [hasRevision, revisions, rowPost, rowRevision, isPost]
        rw [has, ours.revisions]
        show _ ↔ r < post.revisionCount + 1
        omega
      · intro bound inRows samePost
        refine ⟨stands, ?_⟩
        have inRefs : ∃ ref ∈ refs.1, ref.contentHash = bound.contentHash := by
          rw [bindings] at inRows
          rcases mem_append.mp inRows with old | new
          · -- the file was bound to the prior revision and is kept, so it is in the new array
            obtain ⟨inOld, kept⟩ := (left bound).mp old
            obtain ⟨-, now, inNow, nowPost, nowHash, isCurrent⟩ := ours.current bound inOld samePost
            have prior : (db.postAttachments.any fun old => old.postId = req.postId ∧
                old.revision = post.revisionCount - 1 ∧ old.contentHash = bound.contentHash) = true := by
              refine any_eq_true.mpr ⟨now, inNow, decide_eq_true ⟨nowPost.trans isPost, ?_, nowHash⟩⟩
              omega
            have hit : bound.postId = req.postId := samePost.trans isPost
            rw [dropsBinding, prior] at kept
            rw [sameRefs]
            simpa [hit] using kept
          · exact (bindingRow_added new).2.2
        obtain ⟨ref, inRefs, sameHash⟩ := inRefs
        obtain ⟨now, inNow, nowPost, nowRevision, nowHash⟩ := @bindingRow_of_ref refs.1 req.postId post.revisionCount ref inRefs
        refine ⟨now, ?_, nowPost.trans isPost.symm, nowHash.trans sameHash, by rw [nowRevision]⟩
        rw [bindings]
        exact mem_append_right _ inNow
  · intro hash bound
    obtain old | ⟨new, inRows, same, samePost, edited, inPosts, isEdited, isLocal⟩ :=
      boundHere_of_post users leaves bound
    · exact .inl old
    · have isLocalAuthor : db.livesHere post.author = true := by
        rw [posts] at inPosts
        obtain ⟨old, inOld, hit, rfl⟩ | ⟨-, miss⟩ := of_mem_updateWhere inPosts
        · rwa [tables.postIds.eq inOld mem (hit.trans isPost.symm)] at isLocal
        · exact absurd isEdited miss
      rw [bindings] at inRows
      rcases mem_append.mp inRows with old | added
      · exact .inl ⟨new, ((left new).mp old).1, same, post, mem, isPost.trans samePost.symm, isLocalAuthor⟩
      · obtain ⟨-, -, ref, inRefs, sameHash⟩ := bindingRow_added added
        obtain ⟨-, ⟨staged, inStaging, stagedHash⟩ | ⟨other, inOther, otherHash, authors⟩⟩ :=
          validateAttachments_usable validated ref (sameRefs ▸ inRefs)
        · refine .inr ⟨staged, ?_, stagedHash.trans (sameHash.trans same)⟩
          rw [droppedEq] at inStaging
          exact inStaging
        · simp only [authored, any_eq_true, decide_eq_true_eq] at authors
          obtain ⟨older, inOlder, olderPost, byUser⟩ := authors
          rw [droppedEq] at inOlder
          exact .inl ⟨other, ((left other).mp inOther).1, otherHash.trans (sameHash.trans same), older, inOlder,
            olderPost, (byUser.trans mine.symm) ▸ isLocalAuthor⟩

end

theorem LocalPosts.retractPost {postId : Uuid} {now : Nat}
    (run : retractPost state sign db user postId now = .ok after) :
    LocalPosts after ∧ ∀ hash, after.boundHere hash → db.boundHere hash := by
  obtain ⟨users, posts, revisions, bindings⟩ := retractPost_ok run
  have unchanged : ∀ id r, after.hasRevision id r = db.hasRevision id r := by
    intro id r
    rw [hasRevision, revisions]
    exact any_updateWhere (by intro row; rfl) _
  have leaves : ∀ other, other ≠ postId → LeavesPost db after other := by
    intro other differs
    refine ⟨?_, unchanged other, ?_⟩
    · intro found inPosts same
      rw [posts] at inPosts
      obtain ⟨old, inOld, ⟨hit, rfl⟩ | ⟨-, rfl⟩⟩ := mem_updateWhere.mp inPosts
      · have isPost : old.id = postId := by simpa using (Bool.and_eq_true_iff.mp hit).1
        exact absurd (same.symm.trans isPost) differs
      · exact inOld
    · intro row same
      simp [bindings, same, differs]
  constructor
  · refine locals.of_post postId users ?_ leaves ?_
    · rw [posts]
      exact forall_mem_updateWhere locals.authors fun _ => id
    · intro found inPosts isPost isLocal
      have unbound : ∀ row ∈ after.postAttachments, row.postId ≠ found.id := by
        intro row inRows same
        rw [bindings] at inRows
        simp [same, isPost] at inRows
      rw [posts] at inPosts
      obtain ⟨old, inOld, ⟨hit, rfl⟩ | ⟨miss, rfl⟩⟩ := mem_updateWhere.mp inPosts
      · have ours := locals.ours old inOld isLocal
        exact ⟨ours.home, by simp, fun r => (unchanged _ r).symm ▸ ours.revisions r,
          fun row inRows same => absurd same (unbound row inRows)⟩
      · have ours := locals.ours _ inOld isLocal
        have gone : found.retracted = true := by simpa [isPost] using miss
        refine ⟨ours.home, ?_, fun r => (unchanged _ r).symm ▸ ours.revisions r,
          fun row inRows same => absurd same (unbound row inRows)⟩
        intro stands
        rw [gone] at stands
        cases stands
  · intro hash bound
    obtain old | ⟨new, inRows, -, samePost, -⟩ := boundHere_of_post users leaves bound
    · exact old
    · rw [bindings] at inRows
      simp [samePost] at inRows

theorem LocalPosts.completeLocalUserBirth {birth : LocalUserBirth}
    (run : completeLocalUserBirth state db birth = .ok after) :
    LocalPosts after ∧ ∀ hash, after.boundHere hash → db.boundHere hash := by
  simp only [Prismoire.completeLocalUserBirth, require_bind_ok, Bool.not_eq_true'] at run
  obtain ⟨fresh, -, run⟩ := run
  cases run
  have lives : ∀ post ∈ db.posts, ∀ user : UserRow,
      ((db.users ++ [user]).find? (·.publicKey = post.author)).any (·.homeInstance.isNone) =
        db.livesHere post.author := by
    intro post mem user
    have known := locals.authors post mem
    rw [hasUser_eq, user?] at known
    rw [find?_append, Option.or_of_isSome known]
    rfl
  constructor
  · constructor
    · intro post mem
      have known := locals.authors post mem
      rw [hasUser] at known ⊢
      show (db.users ++ [_]).any _ = true
      rw [any_append, known, Bool.true_or]
    · intro post mem isLocal
      refine (locals.ours post mem ((lives post mem _).symm.trans isLocal)).of_leaves ?_ ?_
      · exact ⟨fun _ inPosts _ => inPosts, fun _ => rfl, fun _ _ => Iff.rfl⟩
      · intro user inUsers same active
        exact ⟨user, mem_append_left _ inUsers, same, active⟩
  · rintro hash ⟨row, inRows, same, post, mem, isPost, isLocal⟩
    exact ⟨row, inRows, same, post, mem, isPost, (lives post mem _).symm.trans isLocal⟩

end Prismoire
