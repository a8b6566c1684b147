import Prismoire.Integrity

namespace Prismoire

open Lib

/--
What the validly signed objects of a run say about one post agrees: a later revision has the author,
thread and parent of revision 0, and a post without parent is the opening post of its thread, by
the thread's author.
-/
structure PostsConsistent (platform : Platform) (corpus : Corpus) : Prop where
  revisions : ∀ payload signature p payload' signature' p',
    Filed platform corpus payload signature (.postRevision p) →
    Filed platform corpus payload' signature' (.postRevision p') →
    p.revision = 0 → p'.revision ≠ 0 → p.postId = p'.postId →
    p'.author = p.author ∧ p'.threadId = p.threadId ∧ p'.parentId = p.parentId
  roots : ∀ payload signature p payload' signature' t, Filed platform corpus payload signature (.postRevision p) →
    Filed platform corpus payload' signature' (.threadCreate t) →
    p.revision = 0 → p.parentId = none → p.threadId = t.threadId →
    p.postId = t.opPostId ∧ p.author = t.author

def RevisionOwned (platform : Platform) (post : PostRow) (row : PostRevisionRow) : Prop :=
  ∃ payload signature p, platform.parse payload = some (.postRevision p) ∧
    row.canonicalHash = platform.sha256 payload ∧
    signatureOk platform payload signature post.author = true ∧
    p.author = post.author ∧ p.threadId = post.thread ∧ p.parentId = post.parent

def OneRoot (platform : Platform) (db : Db) (thread : ThreadRow) : Prop :=
  ∃ payload t, platform.parse payload = some (.threadCreate t) ∧
    thread.threadCreateHash = some (platform.sha256 payload) ∧
    ∀ post ∈ db.posts, post.thread = thread.id → post.parent = none →
      post.id = t.opPostId ∧ post.author = thread.author ∧
      ∀ other ∈ db.posts, other.thread = thread.id → other.parent = none → other = post

section Ownership

variable {state : AppState} {corpus : Corpus} {db : Db} {row : PostRevisionRow} {post : PostRow}

theorem revisionOwned_of_filed {payload signature : Bytes} {p : PostRevision}
    (filed : Filed state.platform corpus payload signature (.postRevision p))
    (records : row.Records state.platform payload p) (author : p.author = post.author)
    (thread : p.threadId = post.thread) (parent : p.parentId = post.parent) :
    RevisionOwned state.platform post row :=
  ⟨payload, signature, p, filed.parses, records.hash, author ▸ filed.signer rfl, author, thread, parent⟩

variable (sound : Sound state corpus db) (ints : Integrity state corpus db)
  (consistent : PostsConsistent state.platform corpus)
include sound ints consistent

theorem revision_owned (inPosts : post ∈ db.posts)
    (inRows : row ∈ db.postRevisions) (samePost : row.postId = post.id) :
    RevisionOwned state.platform post row := by
  obtain ⟨payload, signature, p, filed, first, opens, recorded, inRecorded, records⟩ := ints.opened post inPosts
  obtain ⟨payload', signature', p', filed', records'⟩ := sound.revisions row inRows
  by_cases later : p'.revision = 0
  · -- the key of `post_revisions` leaves one row for revision 0
    have same : row = recorded := by
      refine ints.revisionKeys.eq inRows inRecorded ?_
      have ids : row.postId = recorded.postId := by rw [samePost, opens.id, records.post]
      have revisions : row.revision = recorded.revision := by
        rw [records'.revision, records.revision, first, later]
      exact Prod.ext ids revisions
    subst same
    exact revisionOwned_of_filed filed records opens.author.symm opens.thread.symm opens.parent.symm
  · have ids : p.postId = p'.postId := by rw [← opens.id, ← samePost, records'.post]
    obtain ⟨author, thread, parent⟩ := consistent.revisions _ _ _ _ _ _ filed filed' first later ids
    exact revisionOwned_of_filed filed' records' (author.trans opens.author.symm)
      (thread.trans opens.thread.symm) (parent.trans opens.parent.symm)

theorem one_root {thread : ThreadRow} (inThreads : thread ∈ db.threads) : OneRoot state.platform db thread := by
  obtain ⟨payload, signature, t, filed, opensThread⟩ := sound.threads thread inThreads
  have root : ∀ post ∈ db.posts, post.thread = thread.id → post.parent = none →
      post.id = t.opPostId ∧ post.author = thread.author := by
    intro post inPosts sameThread parentless
    obtain ⟨payload', signature', p, filed', first, opens⟩ := sound.posts post inPosts
    have threads : p.threadId = t.threadId := by rw [← opens.thread, sameThread, opensThread.id]
    obtain ⟨id, author⟩ := consistent.roots _ _ _ _ _ _ filed' filed first
      (opens.parent.symm.trans parentless) threads
    exact ⟨opens.id.trans id, opens.author.trans (author.trans opensThread.author.symm)⟩
  refine ⟨payload, t, filed.parses, opensThread.hash, ?_⟩
  intro post inPosts sameThread parentless
  obtain ⟨id, author⟩ := root post inPosts sameThread parentless
  refine ⟨id, author, ?_⟩
  intro other inOther sameThread' parentless'
  obtain ⟨id', -⟩ := root other inOther sameThread' parentless'
  exact ints.postIds.eq inOther inPosts (id'.trans id.symm)

end Ownership

/-- In every reachable state of a run with consistent posts, content belongs to its author. -/
theorem posts_belong_to_author {state : AppState} {corpus : Corpus} {db : Db}
    (reached : Reachable state corpus (fun _ _ _ => True) db)
    (consistent : PostsConsistent state.platform corpus) :
    (∀ post ∈ db.posts, ∀ row ∈ db.postRevisions, row.postId = post.id → RevisionOwned state.platform post row) ∧
    ∀ thread ∈ db.threads, OneRoot state.platform db thread :=
  ⟨fun _ inPosts _ inRows samePost =>
    revision_owned reached.sound reached.integrity consistent inPosts inRows samePost,
    fun _ inThreads => one_root reached.sound reached.integrity consistent inThreads⟩

def rootPost : PostRevision where
  postId := 20
  author := 1
  threadId := 10
  parentId := none
  revision := 0
  body := "text"
  createdAt := 2000
  attachments := []

def revisionTable : List SignedPayload :=
  [.profileRevision ⟨1, "a", "", none, 1000, none⟩, .threadCreate ⟨10, 1, "room", "title", none, 20, 2000⟩,
    .postRevision rootPost, .profileRevision ⟨2, "b", "", none, 1000, none⟩,
    .postRevision { rootPost with author := 2, revision := 1, body := "planted" },
    .postRevision { rootPost with revision := 1, body := "edited" }]

def revisionState : AppState :=
  AppState.ofTable revisionTable

def revisedDb (indices : List UInt8) : Db :=
  deliverObjects revisionState {} (indices.map fun i => ([i], 8))

theorem revisedDb_reachable {corpus : Corpus} {indices : List UInt8} (occur : ∀ i ∈ indices, corpus [i]) :
    Reachable revisionState corpus (fun _ _ _ => True) (revisedDb indices) := by
  refine Reachable.deliverObjects .start ?_
  intro delivery mem payload signature decodes
  obtain ⟨i, inIndices, rfl⟩ := List.mem_map.mp mem
  obtain ⟨rfl, -⟩ := Prod.mk.inj (Option.some.inj decodes)
  exact occur i inIndices

/-- A key appends a revision to another user's post. -/
theorem foreign_revision_projected : ∃ state db post row,
    Reachable state (fun _ => True) (fun _ _ _ => True) db ∧ post ∈ db.posts ∧ row ∈ db.postRevisions ∧
    row.postId = post.id ∧ ¬ RevisionOwned state.platform post row := by
  let post : PostRow := ⟨20, 1, 10, none, "00002", false, 2, some 8⟩
  let row : PostRevisionRow :=
    ⟨20, 1, "planted", List.replicate 64 0, revisionState.platform.sha256 [4], "00002"⟩
  refine ⟨revisionState, revisedDb [0, 1, 2, 3, 4], post, row, revisedDb_reachable fun _ _ => trivial,
    by decide, by decide, rfl, ?_⟩
  rintro ⟨payload, signature, p, parses, hashed, -, author, -, -⟩
  obtain ⟨i, rfl⟩ : ∃ i, payload = [i] := by
    match payload, parses with
    | [i], _ => exact ⟨i, rfl⟩
  have index : i.toNat = 4 := by
    have numbers := congrArg BitVec.toNat hashed
    simp [row, revisionState, AppState.ofTable, Platform.ofTable] at numbers
    have := i.toNat_lt
    omega
  have found : revisionTable[i.toNat]? = some (.postRevision p) := parses
  rw [index] at found
  cases found
  exact absurd author (by decide)

def ownRevisionRun : List Bytes :=
  [[0], [1], [2], [5]]

/-- The two agreements of a run, for objects that can be compared by evaluation. -/
def objectsAgree : SignedPayload → SignedPayload → Bool
  | .postRevision p, .postRevision p' => p.revision ≠ 0 ∨ p'.revision = 0 ∨ p.postId ≠ p'.postId ∨
      (p'.author = p.author ∧ p'.threadId = p.threadId ∧ p'.parentId = p.parentId)
  | .postRevision p, .threadCreate t => p.revision ≠ 0 ∨ p.parentId ≠ none ∨ p.threadId ≠ t.threadId ∨
      (p.postId = t.opPostId ∧ p.author = t.author)
  | _, _ => true

theorem own_revision_owned : ∃ post ∈ (revisedDb [0, 1, 2, 5]).posts,
    ∃ row ∈ (revisedDb [0, 1, 2, 5]).postRevisions, row.revision = 1 ∧ row.postId = post.id ∧
      RevisionOwned revisionState.platform post row := by
  have agree : ∀ a ∈ ownRevisionRun, ∀ b ∈ ownRevisionRun,
      ((revisionState.platform.parse a).all fun x => (revisionState.platform.parse b).all fun y =>
        objectsAgree x y) = true := by decide
  have consistent : PostsConsistent revisionState.platform (· ∈ ownRevisionRun) := by
    refine ⟨?_, ?_⟩
    · intro payload signature p payload' signature' p' filed filed' first later same
      have both := agree payload filed.occurs payload' filed'.occurs
      rw [filed.parses, filed'.parses] at both
      simpa [objectsAgree, first, later, same] using both
    · intro payload signature p payload' signature' t filed filed' first parentless same
      have both := agree payload filed.occurs payload' filed'.occurs
      rw [filed.parses, filed'.parses] at both
      simpa [objectsAgree, first, parentless, same] using both
  have reached : Reachable revisionState (· ∈ ownRevisionRun) (fun _ _ _ => True)
      (revisedDb [0, 1, 2, 5]) := revisedDb_reachable (by simp [ownRevisionRun])
  let post : PostRow := ⟨20, 1, 10, none, "00002", false, 2, some 8⟩
  let row : PostRevisionRow :=
    ⟨20, 1, "edited", List.replicate 64 0, revisionState.platform.sha256 [5], "00002"⟩
  have inPosts : post ∈ (revisedDb [0, 1, 2, 5]).posts := by decide
  have inRows : row ∈ (revisedDb [0, 1, 2, 5]).postRevisions := by decide
  exact ⟨post, inPosts, row, inRows, rfl, rfl,
    (posts_belong_to_author reached consistent).1 post inPosts row inRows rfl⟩

end Prismoire
