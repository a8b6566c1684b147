import Prismoire.Lib.Search
import Prismoire.RoomDeletion

namespace Prismoire

open Lib List Db

def opensThread (thread : Uuid) (post : PostRow) : Bool :=
  decide (post.thread = thread) && post.parent.isNone && !post.retracted

def Db.openingRevisions (db : Db) (thread : Uuid) : List PostRevisionRow :=
  db.postRevisions.filter fun row => db.posts.any fun post => opensThread thread post && decide (post.id = row.postId)

/-- `ORDER BY pr.revision DESC` -/
def revisionDesc (a b : PostRevisionRow) : Bool :=
  b.revision < a.revision

def Db.openingRevision (db : Db) (thread : Uuid) : Option PostRevisionRow :=
  firstBy revisionDesc (db.openingRevisions thread)

theorem revisionDesc_trans (a b c : PostRevisionRow) (first : revisionDesc a b = true) (second : revisionDesc b c = true) :
    revisionDesc a c = true := by
  simp only [revisionDesc, decide_eq_true_eq] at first second ⊢
  omega

theorem revisionDesc_irrefl (a : PostRevisionRow) : revisionDesc a a = false := by
  simp [revisionDesc]

def Db.retitle (db : Db) (thread : Uuid) (title : Text) : Db :=
  let threads := updateWhere (·.id = thread) (fun row => { row with title }) db.threads
  let opening := db.openingRevision thread
  { db with
    threads
    threadsFts := replaceThreadsFts threads db.threadsFts thread ((opening.map (·.body)).getD "")
      (opening.map (·.postId)) }

/-- The statements that a trigger of the index fires on, and the two transactions that delete rows. -/
inductive IndexOp where
  | insertThread (row : ThreadRow)
  | insertPost (row : PostRow)
  | insertRevision (row : PostRevisionRow)
  /-- `retracted_at` of a selection of posts, then the bodies of their revisions. -/
  | retract (selected : PostRow → Bool) (text : Text)
  | retitle (thread : Uuid) (title : Text)
  /-- The index statements of `soft_delete_user`. -/
  | clearAccount (user : Key)
  | deleteRoom (slug : Text)
  /-- Writes to other tables. -/
  | elsewhere (rest : Db)

/-- The posts of a selection, by their ids. -/
def Db.selects (db : Db) (selected : PostRow → Bool) (id : Uuid) : Bool :=
  db.posts.any fun post => selected post && decide (post.id = id)

/-- A statement that fails leaves everything as it was. -/
def landed (db : Db) : Sql Db → Db
  | .ok after => after
  | .error _ => db

def IndexOp.apply (db : Db) : IndexOp → Db
  | insertThread row => landed db (db.insertThread row)
  | insertPost row => landed db (db.insertPost row)
  | insertRevision row => landed db (db.insertPostRevision row)
  | retract selected text => (db.retractPosts selected).replaceBodies (db.selects selected) text
  | retitle thread title => db.retitle thread title
  | clearAccount user => clearAccountFts db user
  | deleteRoom slug => landed db (eraseRoom slug db)
  | elsewhere rest => { rest with
      threads := db.threads
      posts := db.posts
      postRevisions := db.postRevisions
      postsFts := db.postsFts
      threadsFts := db.threadsFts }

def Greatest (revisions : List PostRevisionRow) (id : Uuid) (body : Text) : Prop :=
  ∃ row ∈ revisions, row.postId = id ∧ row.body = body ∧
    ∀ other ∈ revisions, other.postId = id → other.revision ≤ row.revision

def OpBody (posts : List PostRow) (revisions : List PostRevisionRow) (thread : Uuid) (body : Text) : Prop :=
  (∃ post ∈ posts, opensThread thread post = true ∧ Greatest revisions post.id body) ∨
  (body = "" ∧ ∀ post ∈ posts, opensThread thread post = true → ∀ row ∈ revisions, row.postId ≠ post.id)

/-- `posts_fts` against the posts and their revisions. -/
structure PostsMirror (posts : List PostRow) (revisions : List PostRevisionRow) (fts : List PostsFtsRow) : Prop where
  rows : ∀ row, row ∈ fts ↔
    ∃ post ∈ posts, post.id = row.postId ∧ post.retracted = false ∧ Greatest revisions post.id row.body
  once : UniqueBy PostsFtsRow.postId fts

/-- `threads_fts` against the threads and what their text should be. -/
structure ThreadsMirror (right : Uuid → Text → Prop) (threads : List ThreadRow) (fts : List ThreadsFtsRow) : Prop where
  covers : ∀ thread ∈ threads, ∃ row ∈ fts,
    row.threadId = thread.id ∧ row.title = thread.title ∧ right thread.id row.opBody
  known : ∀ row ∈ fts, ∃ thread ∈ threads, thread.id = row.threadId
  once : UniqueBy ThreadsFtsRow.threadId fts

structure SearchMirror (db : Db) : Prop where
  posts : PostsMirror db.posts db.postRevisions db.postsFts
  threads : ThreadsMirror (OpBody db.posts db.postRevisions) db.threads db.threadsFts

instance Greatest.decidable {revisions : List PostRevisionRow} {id : Uuid} {body : Text} : Decidable (Greatest revisions id body) :=
  inferInstanceAs (Decidable (∃ row ∈ revisions, _ ∧ _ ∧ ∀ other ∈ revisions, _ → _))

instance OpBody.decidable {posts : List PostRow} {revisions : List PostRevisionRow} {thread : Uuid} {body : Text} :
    Decidable (OpBody posts revisions thread body) :=
  inferInstanceAs (Decidable ((∃ post ∈ posts, _ ∧ _) ∨ (_ ∧ ∀ post ∈ posts, _ → ∀ row ∈ revisions, _)))

/--
The triggers see one row each, so three statements can leave the text of a thread wrong: the
revision trigger does not test `retracted_at`, the retraction trigger does not look for another
opening post, and an account is cleared by the author of the thread.
-/
def IndexOp.KeepsText (db : Db) : IndexOp → Prop
  | insertRevision row => ∀ post ∈ db.posts, post.id = row.postId → post.parent = none → post.retracted = true →
      (∀ other ∈ db.postRevisions, other.postId = row.postId → other.revision ≤ row.revision) →
      OpBody db.posts db.postRevisions post.thread row.body
  | retract selected _ => ∀ post ∈ db.posts, selected post = true → opensThread post.thread post = true →
      ∀ other ∈ db.posts, selected other = false → opensThread post.thread other = true →
      ∀ row ∈ db.postRevisions, row.postId ≠ other.id
  | clearAccount user =>
      (∀ post ∈ db.posts, post.author = user → post.retracted = false → ∀ row ∈ db.postRevisions, row.postId ≠ post.id) ∧
      ∀ thread ∈ db.threads, thread.author = user → OpBody db.posts db.postRevisions thread.id ""
  | _ => True

instance IndexOp.KeepsText.decidable {db : Db} : (op : IndexOp) → Decidable (op.KeepsText db)
  | .insertRevision _ => inferInstanceAs (Decidable (∀ post ∈ db.posts, _ → _ → _ → (∀ other ∈ db.postRevisions, _ → _) → _))
  | .retract _ _ => inferInstanceAs (Decidable (∀ post ∈ db.posts, _ → _ → ∀ other ∈ db.posts, _ → _ →
      ∀ row ∈ db.postRevisions, _))
  | .clearAccount _ => inferInstanceAs (Decidable ((∀ post ∈ db.posts, _ → _ → ∀ row ∈ db.postRevisions, _) ∧
      ∀ thread ∈ db.threads, _ → _))
  | .insertThread _ | .insertPost _ | .retitle _ _ | .deleteRoom _ | .elsewhere _ => isTrue trivial

variable {posts : List PostRow} {revisions rewritten : List PostRevisionRow} {row : PostRevisionRow}

section Texts

variable {others : List PostRow} {thread id : Uuid} {body : Text}

theorem opensThread_iff {post : PostRow} :
    opensThread thread post = true ↔ post.thread = thread ∧ post.parent = none ∧ post.retracted = false := by
  simp [opensThread, and_assoc]

theorem Greatest.congr (same : ∀ row, row.postId = id → (row ∈ revisions ↔ row ∈ rewritten)) :
    Greatest revisions id body ↔ Greatest rewritten id body := by
  constructor
  · rintro ⟨row, mem, named, rfl, most⟩
    exact ⟨row, (same row named).mp mem, named, rfl,
      fun other inOthers isOther => most other ((same other isOther).mpr inOthers) isOther⟩
  · rintro ⟨row, mem, named, rfl, most⟩
    exact ⟨row, (same row named).mpr mem, named, rfl,
      fun other inOthers isOther => most other ((same other isOther).mp inOthers) isOther⟩

theorem Greatest.unique {text : Text}
    (keys : UniqueBy (fun row : PostRevisionRow => (row.postId, row.revision)) revisions)
    (greatest : Greatest revisions id body) (other : Greatest revisions id text) : body = text := by
  obtain ⟨row, inRows, named, rfl, most⟩ := greatest
  obtain ⟨second, inSecond, named', rfl, most'⟩ := other
  have level : row.revision = second.revision :=
    Nat.le_antisymm (most' row inRows named) (most second inSecond named')
  have same : row = second := keys.eq inRows inSecond (Prod.ext (named.trans named'.symm) level)
  rw [same]

theorem exists_greatest (mem : row ∈ revisions) : ∃ text, Greatest revisions row.postId text := by
  have some_ : revisions.filter (·.postId = row.postId) ≠ [] :=
    ne_nil_of_mem (mem_filter.mpr ⟨mem, by simp⟩)
  obtain ⟨first, inFirst, -, most⟩ := firstBy_spec revisionDesc_trans revisionDesc_irrefl some_
  obtain ⟨inRows, named⟩ := mem_filter.mp inFirst
  refine ⟨first.body, first, inRows, by simpa using named, rfl, fun other inOthers isOther => ?_⟩
  have bound := most other (mem_filter.mpr ⟨inOthers, by simpa using isOther⟩)
  simpa [revisionDesc] using bound

theorem OpBody.transfer (right : OpBody posts revisions thread body)
    (stays : ∀ post ∈ posts, opensThread thread post = true →
      ∃ other ∈ others, opensThread thread other = true ∧ other.id = post.id)
    (opened : ∀ other ∈ others, opensThread thread other = true →
      (∃ post ∈ posts, opensThread thread post = true ∧ post.id = other.id) ∨ ∀ row ∈ rewritten, row.postId ≠ other.id)
    (same : ∀ post ∈ posts, opensThread thread post = true → ∀ text,
      Greatest revisions post.id text ↔ Greatest rewritten post.id text) : OpBody others rewritten thread body := by
  rcases right with ⟨post, mem, opens, greatest⟩ | ⟨rfl, silent⟩
  · obtain ⟨other, inOthers, opens', named⟩ := stays post mem opens
    exact .inl ⟨other, inOthers, opens', named ▸ (same post mem opens body).mp greatest⟩
  · refine .inr ⟨rfl, fun other inOthers opens row inRows named => ?_⟩
    rcases opened other inOthers opens with ⟨post, mem, opens', isPost⟩ | unrevised
    · obtain ⟨text, greatest⟩ := exists_greatest inRows
      rw [named, ← isPost] at greatest
      obtain ⟨old, inOld, ofPost, -⟩ := (same post mem opens' text).mpr greatest
      exact silent post mem opens' old inOld ofPost
    · exact unrevised row inRows named

theorem OpBody.congr (right : OpBody posts revisions thread body)
    (same : ∀ post ∈ posts, opensThread thread post = true → ∀ text,
      Greatest revisions post.id text ↔ Greatest rewritten post.id text) : OpBody posts rewritten thread body :=
  right.transfer (fun post mem opens => ⟨post, mem, opens, rfl⟩)
    (fun post mem opens => .inl ⟨post, mem, opens, rfl⟩) same

theorem Greatest.insert (most : ∀ other ∈ revisions, other.postId = row.postId →
      other.revision ≤ row.revision) : Greatest (revisions ++ [row]) row.postId row.body := by
  refine ⟨row, by simp, rfl, rfl, fun other mem named => ?_⟩
  rcases mem_concat.mp mem with old | rfl
  · exact most other old named
  · exact le_rfl

theorem Greatest.late {later : PostRevisionRow} (inRows : later ∈ revisions) (ofPost : later.postId = row.postId)
    (above : row.revision < later.revision) : Greatest (revisions ++ [row]) row.postId body ↔
      Greatest revisions row.postId body := by
  constructor
  · rintro ⟨greatest, mem, named, rfl, most⟩
    rcases mem_concat.mp mem with old | rfl
    · exact ⟨greatest, old, named, rfl, fun other inOld => most other (mem_append_left _ inOld)⟩
    · have bound := most later (mem_append_left _ inRows) ofPost
      omega
  · rintro ⟨greatest, mem, named, rfl, most⟩
    refine ⟨greatest, mem_append_left _ mem, named, rfl, fun other inNew isPost => ?_⟩
    rcases mem_concat.mp inNew with old | rfl
    · exact most other old isPost
    · exact (above.trans_le (most later inRows ofPost)).le

theorem Greatest.apart (apart : row.postId ≠ id) :
    Greatest revisions id body ↔ Greatest (revisions ++ [row]) id body := by
  refine Greatest.congr fun other named => ⟨mem_append_left _, fun mem => ?_⟩
  rcases mem_concat.mp mem with old | rfl
  · exact old
  · exact absurd named apart

end Texts

section Mirrors

variable {fts : List PostsFtsRow} {threads : List ThreadRow} {threadsFts : List ThreadsFtsRow}
    {right : Uuid → Text → Prop}

theorem PostsMirror.congr (mirror : PostsMirror posts revisions fts)
    (same : ∀ post ∈ posts, post.retracted = false → ∀ text,
      Greatest revisions post.id text ↔ Greatest rewritten post.id text) : PostsMirror posts rewritten fts := by
  refine ⟨fun row => (mirror.rows row).trans ?_, mirror.once⟩
  constructor
  · rintro ⟨post, mem, named, live, greatest⟩
    exact ⟨post, mem, named, live, (same post mem live _).mp greatest⟩
  · rintro ⟨post, mem, named, live, greatest⟩
    exact ⟨post, mem, named, live, (same post mem live _).mpr greatest⟩

theorem PostsMirror.insertPost {post : PostRow} (mirror : PostsMirror posts revisions fts)
    (unrevised : ∀ row ∈ revisions, row.postId ≠ post.id) : PostsMirror (posts ++ [post]) revisions fts := by
  refine ⟨fun row => (mirror.rows row).trans ?_, mirror.once⟩
  constructor
  · rintro ⟨old, mem, known⟩
    exact ⟨old, mem_append_left _ mem, known⟩
  · rintro ⟨old, mem, named, live, greatest⟩
    rcases mem_concat.mp mem with known | rfl
    · exact ⟨old, known, named, live, greatest⟩
    · obtain ⟨revision, inRows, ofPost, -⟩ := greatest
      exact absurd ofPost (unrevised revision inRows)

theorem PostsMirror.drop {after : List PostRow} {gone : Uuid → Bool} (mirror : PostsMirror posts revisions fts)
    (left : ∀ id, (∃ post ∈ after, post.id = id ∧ post.retracted = false) ↔
      (∃ post ∈ posts, post.id = id ∧ post.retracted = false) ∧ gone id = false) :
    PostsMirror after revisions (fts.filter fun row => !gone row.postId) := by
  refine ⟨fun row => ?_, mirror.once.sublist (filter_sublist.map _)⟩
  rw [mem_filter, Bool.not_eq_true', mirror.rows row]
  constructor
  · rintro ⟨⟨post, mem, named, live, greatest⟩, stays⟩
    obtain ⟨other, inAfter, named', live'⟩ := (left row.postId).mpr ⟨⟨post, mem, named, live⟩, stays⟩
    exact ⟨other, inAfter, named', live', named' ▸ named ▸ greatest⟩
  · rintro ⟨post, mem, named, live, greatest⟩
    obtain ⟨⟨other, inPosts, named', live'⟩, stays⟩ := (left row.postId).mp ⟨post, mem, named, live⟩
    exact ⟨⟨other, inPosts, named', live', named' ▸ named ▸ greatest⟩, stays⟩

theorem ThreadsMirror.mono {other : Uuid → Text → Prop} (mirror : ThreadsMirror right threads threadsFts)
    (weaker : ∀ thread ∈ threads, ∀ body, right thread.id body → other thread.id body) :
    ThreadsMirror other threads threadsFts := by
  refine ⟨fun thread mem => ?_, mirror.known, mirror.once⟩
  obtain ⟨row, inFts, named, titled, texted⟩ := mirror.covers thread mem
  exact ⟨row, inFts, named, titled, weaker thread mem _ texted⟩

theorem ThreadsMirror.replace {thread : Uuid} {body : Text} {opPost : Option Uuid}
    (unique : UniqueBy ThreadRow.id threads)
    (others : ∀ other ∈ threads, other.id ≠ thread → ∃ row ∈ threadsFts,
      row.threadId = other.id ∧ row.title = other.title ∧ right other.id row.opBody)
    (known : ∀ row ∈ threadsFts, ∃ other ∈ threads, other.id = row.threadId)
    (once : UniqueBy ThreadsFtsRow.threadId threadsFts) (here : right thread body) :
    ThreadsMirror right threads (Db.replaceThreadsFts threads threadsFts thread body opPost) := by
  unfold Db.replaceThreadsFts
  cases found : threads.find? (·.id = thread) with
  | none =>
    have absent := find?_eq_none.mp found
    exact ⟨fun other mem => others other mem (by simpa using absent other mem), known, once⟩
  | some row =>
    have inThreads := mem_of_find?_eq_some found
    have named : row.id = thread := by simpa using find?_some found
    refine ⟨fun other mem => ?_, fun entry mem => ?_, ?_⟩
    · by_cases same : other.id = thread
      · obtain rfl : other = row := unique.eq mem inThreads (same.trans named.symm)
        exact ⟨_, mem_append_right _ (mem_singleton_self _), named.symm, rfl, named ▸ here⟩
      · obtain ⟨old, inFts, isOther, rest⟩ := others other mem same
        exact ⟨old, mem_append_left _ (mem_filter.mpr ⟨inFts, by simpa [isOther] using same⟩), isOther, rest⟩
    · rcases mem_concat.mp mem with old | rfl
      · exact known entry (mem_of_mem_filter old)
      · exact ⟨row, inThreads, named⟩
    · refine UniqueBy.insert (once.sublist (filter_sublist.map _)) fun entry mem => ?_
      simpa using (mem_filter.mp mem).2

theorem ThreadsMirror.retract {hits : List PostRow} (unique : UniqueBy ThreadRow.id threads)
    (mirror : ThreadsMirror (fun thread body => right thread body ∨ ∃ post ∈ hits, post.parent = none ∧ post.thread = thread)
      threads threadsFts) (blank : ∀ post ∈ hits, post.parent = none → right post.thread "") :
    ThreadsMirror right threads (hits.foldl (threadsFtsOpAfterRetract threads) threadsFts) := by
  induction hits generalizing threadsFts with
  | nil => exact mirror.mono fun thread _ body texted => by simpa using texted
  | cons post hits ih =>
    refine ih ?_ fun other later => blank other (mem_cons_of_mem _ later)
    unfold threadsFtsOpAfterRetract
    cases parent : post.parent with
    | some above =>
      refine mirror.mono fun thread _ body texted => texted.imp_right ?_
      rintro ⟨other, mem, isRoot, named⟩
      rcases mem_cons.mp mem with rfl | later
      · cases parent.symm.trans isRoot
      · exact ⟨other, later, isRoot, named⟩
    | none =>
      rw [Option.isNone_none, if_pos rfl]
      refine .replace unique (fun other mem apart => ?_) mirror.known mirror.once
        (.inl (blank post mem_cons_self parent))
      obtain ⟨row, inFts, named, titled, texted⟩ := mirror.covers other mem
      refine ⟨row, inFts, named, titled, texted.imp_right ?_⟩
      rintro ⟨hit, inHits, isRoot, ofThread⟩
      rcases mem_cons.mp inHits with rfl | later
      · exact absurd ofThread.symm apart
      · exact ⟨hit, later, isRoot, ofThread⟩

end Mirrors

/-- The keys and references of the tables, beside the mirror. -/
structure IndexKept (db : Db) : Prop extends SearchMirror db where
  threadIds : UniqueBy ThreadRow.id db.threads
  postIds : UniqueBy PostRow.id db.posts
  revisionKeys : UniqueBy (fun row : PostRevisionRow => (row.postId, row.revision)) db.postRevisions
  postThread : ∀ post ∈ db.posts, db.hasThread post.thread = true
  revisionPost : ∀ row ∈ db.postRevisions, db.hasPost row.postId = true
  threaded : Threaded db

variable {after db : Db}

section Steps

theorem IndexKept.empty : IndexKept {} where
  posts := ⟨by simp, .nil⟩
  threads := ⟨by simp, by simp, .nil⟩
  threadIds := .nil
  postIds := .nil
  revisionKeys := .nil
  postThread := by simp
  revisionPost := by simp
  threaded := .nil

theorem IndexKept.insertThread {row : ThreadRow} (kept : IndexKept db) (run : db.insertThread row = .ok after) :
    IndexKept after := by
  obtain ⟨fresh, -, -, rfl⟩ := insertThread_ok.mp run
  have apart : ∀ thread ∈ db.threads, thread.id ≠ row.id := by simpa [hasThread] using fresh
  have unposted : ∀ post ∈ db.posts, post.thread ≠ row.id := fun post mem same =>
    Bool.false_ne_true (fresh.symm.trans (same ▸ kept.postThread post mem))
  refine { kept with threads := ⟨?_, ?_, ?_⟩, threadIds := kept.threadIds.insert apart, postThread := ?_ }
  · intro thread mem
    rcases mem_concat.mp mem with old | rfl
    · obtain ⟨entry, inFts, right⟩ := kept.threads.covers thread old
      exact ⟨entry, mem_append_left _ inFts, right⟩
    · refine ⟨_, mem_append_right _ (mem_singleton_self _), rfl, rfl, .inr ⟨rfl, ?_⟩⟩
      exact fun post mem opens => absurd (opensThread_iff.mp opens).1 (unposted post mem)
  · intro entry mem
    rcases mem_concat.mp mem with old | rfl
    · obtain ⟨thread, inThreads, named⟩ := kept.threads.known entry old
      exact ⟨thread, mem_append_left _ inThreads, named⟩
    · exact ⟨row, by simp, rfl⟩
  · refine kept.threads.once.insert fun entry mem => ?_
    obtain ⟨thread, inThreads, named⟩ := kept.threads.known entry mem
    exact named ▸ apart thread inThreads
  · intro post mem
    show (db.threads ++ [row]).any _ = true
    rw [any_append]
    exact Bool.or_eq_true_iff.mpr (.inl (kept.postThread post mem))

variable {post : PostRow} {selected : PostRow → Bool} {text : Text}

theorem IndexKept.insertPost (kept : IndexKept db) (run : db.insertPost post = .ok after) : IndexKept after := by
  obtain ⟨fresh, -, threaded, answers, rfl⟩ := insertPost_ok.mp run
  have apart : ∀ old ∈ db.posts, old.id ≠ post.id := by simpa [hasPost] using fresh
  have unrevised : ∀ row ∈ db.postRevisions, row.postId ≠ post.id := fun row mem same =>
    Bool.false_ne_true (fresh.symm.trans (same ▸ kept.revisionPost row mem))
  refine { kept with
    posts := kept.posts.insertPost unrevised, threads := kept.threads.mono fun thread _ body right => ?_
    postIds := kept.postIds.insert apart, postThread := ?_, revisionPost := ?_, threaded := .grow kept.threaded ?_ }
  · refine right.transfer (fun old mem opens => ⟨old, mem_append_left _ mem, opens, rfl⟩) ?_
      fun _ _ _ _ => Iff.rfl
    intro other mem opens
    rcases mem_concat.mp mem with old | new
    · exact .inl ⟨other, old, opens, rfl⟩
    · exact .inr (new ▸ unrevised)
  · exact forall_mem_concat.mpr ⟨kept.postThread, threaded⟩
  · intro row mem
    exact (hasPost_append db.posts post row.postId).mpr (.inl (kept.revisionPost row mem))
  · intro above isParent
    obtain ⟨other, inPosts, named⟩ := any_eq_true.mp ((Option.all_eq_true _ _).mp answers above isParent)
    exact ⟨other, inPosts, of_decide_eq_true named⟩

theorem maxRevision_insert : maxRevision { db with
      postRevisions := db.postRevisions ++ [row] } row.postId row.revision = true ↔
      ∀ other ∈ db.postRevisions, other.postId = row.postId → other.revision ≤ row.revision := by
  simp only [maxRevision, all_eq_true, decide_eq_true_eq, mem_append, mem_singleton]
  constructor
  · exact fun all other mem named => (all other (.inl mem)).resolve_left (not_not_intro named)
  · rintro most other (old | rfl)
    · by_cases named : other.postId = row.postId
      · exact .inr (most other old named)
      · exact .inl named
    · exact .inr le_rfl

theorem Greatest.insert_iff {id : Uuid} {body : Text}
    (idle : row.postId = id → ¬∀ other ∈ db.postRevisions, other.postId = row.postId → other.revision ≤ row.revision) :
    Greatest db.postRevisions id body ↔ Greatest (db.postRevisions ++ [row]) id body := by
  by_cases named : row.postId = id
  · have below := idle named
    push Not at below
    obtain ⟨later, inRows, ofPost, above⟩ := below
    rw [← named]
    exact (Greatest.late inRows ofPost above).symm
  · exact Greatest.apart named

theorem IndexKept.post_found {id : Uuid} (kept : IndexKept db) (known : db.hasPost id = true) : ∃ post ∈ db.posts,
    post.id = id ∧ db.posts.find? (·.id = id) = some post ∧ ∀ other ∈ db.posts, other.id = id → other = post := by
  obtain ⟨post, inPosts, hit⟩ := any_eq_true.mp known
  obtain rfl : post.id = id := of_decide_eq_true hit
  exact ⟨post, inPosts, rfl, find?_of_nodup kept.postIds inPosts, fun other mem => kept.postIds.eq mem inPosts⟩

theorem IndexKept.posts_insertRevision (kept : IndexKept db)
    (keys : UniqueBy (fun row : PostRevisionRow => (row.postId, row.revision)) (db.postRevisions ++ [row]))
    (known : db.hasPost row.postId = true) :
    PostsMirror db.posts (db.postRevisions ++ [row]) (db.withPostRevision row).postsFts := by
  obtain ⟨post, inPosts, named, found, own⟩ := kept.post_found known
  simp only [withPostRevision, postsFtsAfterRevision, found]
  split
  · rename_i written
    obtain ⟨live, most⟩ := Bool.and_eq_true_iff.mp written
    have most := maxRevision_insert.mp most
    have greatest : Greatest (db.postRevisions ++ [row]) row.postId row.body := .insert most
    refine ⟨fun entry => ?_, ?_⟩
    · by_cases same : entry.postId = row.postId
      · -- the entry of the post itself is the new one
        constructor
        · intro mem
          rcases mem_concat.mp mem with old | rfl
          · exact absurd same (by simpa using (mem_filter.mp old).2)
          · exact ⟨post, inPosts, named, by simpa using live, named ▸ greatest⟩
        · rintro ⟨other, mem, isEntry, -, text⟩
          have isRow := isEntry.trans same
          rw [isRow] at text
          refine mem_append_right _ (mem_singleton.mpr ?_)
          cases entry
          exact congrArg₂ PostsFtsRow.mk same (text.unique keys greatest)
      · rw [replacePostsFts, mem_append, mem_filter, kept.posts.rows entry]
        have notNew : entry ∉ [{ postId := row.postId, body := row.body : PostsFtsRow }] := by
          intro new
          exact same (by rw [mem_singleton.mp new])
        constructor
        · rintro (⟨⟨other, mem, isEntry, live, text⟩, -⟩ | new)
          · exact ⟨other, mem, isEntry, live, (Greatest.apart fun isRow => same (isEntry.symm.trans isRow.symm)).mp text⟩
          · exact absurd new notNew
        · rintro ⟨other, mem, isEntry, live, text⟩
          refine .inl ⟨⟨other, mem, isEntry, live, ?_⟩, by simpa using same⟩
          exact (Greatest.apart fun isRow => same (isEntry.symm.trans isRow.symm)).mpr text
    · refine UniqueBy.insert (kept.posts.once.sublist (filter_sublist.map _)) fun entry mem => ?_
      simpa using (mem_filter.mp mem).2
  · rename_i unwritten
    refine kept.posts.congr fun other mem live text => Greatest.insert_iff fun isRow most => unwritten ?_
    rw [own other mem isRow.symm] at live
    rw [live, maxRevision_insert.mpr most]
    rfl

theorem IndexKept.threads_insertRevision (kept : IndexKept db)
    (allowed : (IndexOp.insertRevision row).KeepsText db) (known : db.hasPost row.postId = true) :
    ThreadsMirror (OpBody db.posts (db.postRevisions ++ [row])) db.threads (db.withPostRevision row).threadsFts := by
  obtain ⟨post, inPosts, named, found, own⟩ := kept.post_found known
  simp only [withPostRevision, threadsFtsOpBodyAfterRevision, found]
  split
  · rename_i written
    obtain ⟨isRoot, most⟩ := Bool.and_eq_true_iff.mp written
    have isRoot : post.parent = none := by simpa using isRoot
    have most := maxRevision_insert.mp most
    refine .replace kept.threadIds (fun thread mem apart => ?_) kept.threads.known kept.threads.once ?_
    · obtain ⟨entry, inFts, isThread, titled, right⟩ := kept.threads.covers thread mem
      refine ⟨entry, inFts, isThread, titled, right.congr fun other inOthers opens text => Greatest.apart fun isRow => ?_⟩
      rw [own other inOthers isRow.symm] at opens
      exact apart (opensThread_iff.mp opens).1.symm
    · cases retracted : post.retracted with
      | false => exact .inl ⟨post, inPosts, opensThread_iff.mpr ⟨rfl, isRoot, retracted⟩, named ▸ .insert most⟩
      | true =>
        refine (allowed post inPosts named isRoot retracted most).congr fun other inOthers opens text =>
          Greatest.apart fun isRow => ?_
        rw [own other inOthers isRow.symm] at opens
        exact Bool.false_ne_true ((opensThread_iff.mp opens).2.2.symm.trans retracted)
  · rename_i unwritten
    refine kept.threads.mono fun thread _ body right => right.congr fun other mem opens text =>
      Greatest.insert_iff fun isRow most => unwritten ?_
    rw [own other mem isRow.symm] at opens
    rw [(opensThread_iff.mp opens).2.1, maxRevision_insert.mpr most]
    rfl

theorem IndexKept.insertRevision (kept : IndexKept db)
    (allowed : (IndexOp.insertRevision row).KeepsText db) (run : db.insertPostRevision row = .ok after) :
    IndexKept after := by
  obtain ⟨fresh, known, rfl⟩ := insertPostRevision_ok.mp run
  have keys : UniqueBy (fun row : PostRevisionRow => (row.postId, row.revision)) (db.postRevisions ++ [row]) :=
    kept.revisionKeys.insert (by simpa [hasRevision] using fresh)
  refine { kept with
    posts := kept.posts_insertRevision keys known, threads := kept.threads_insertRevision allowed known
    revisionKeys := keys, revisionPost := ?_ }
  exact forall_mem_append.mpr ⟨kept.revisionPost, forall_mem_singleton.mpr known⟩

theorem mem_replaceBodies {selected : Uuid → Bool} {id : Uuid} (apart : selected id = false) :
    ∀ row : PostRevisionRow, row.postId = id →
      (row ∈ db.postRevisions ↔ row ∈ (db.replaceBodies selected text).postRevisions) := by
  intro row named
  constructor
  · exact fun mem => mem_updateWhere.mpr ⟨row, mem, .inr ⟨named ▸ apart, rfl⟩⟩
  · intro mem
    obtain ⟨old, inRows, ⟨hit, rfl⟩ | ⟨-, rfl⟩⟩ := mem_updateWhere.mp mem
    · exact absurd (hit.symm.trans (named ▸ apart)) (by simp)
    · exact inRows

theorem selects_of_mem (unique : UniqueBy PostRow.id db.posts)
    (mem : post ∈ db.posts) : db.selects selected post.id = selected post := by
  rw [Bool.eq_iff_iff, selects, any_eq_true]
  constructor
  · rintro ⟨other, inPosts, hit⟩
    obtain ⟨isSelected, same⟩ := Bool.and_eq_true_iff.mp hit
    rwa [← unique.eq inPosts mem (of_decide_eq_true same)]
  · exact fun isSelected => ⟨post, mem, by simp [isSelected]⟩

theorem mem_retracted : post ∈ (db.retractPosts selected).posts ∧ post.retracted = false ↔
      post ∈ db.posts ∧ post.retracted = false ∧ selected post = false := by
  simp only [retractPosts, mem_updateWhere]
  constructor
  · rintro ⟨⟨old, mem, ⟨-, rfl⟩ | ⟨missed, rfl⟩⟩, live⟩
    · cases live
    · exact ⟨mem, live, by simpa [live] using missed⟩
  · rintro ⟨mem, live, missed⟩
    exact ⟨⟨post, mem, .inr ⟨by simp [missed], rfl⟩⟩, live⟩

section

variable (kept : IndexKept db)
include kept

theorem IndexKept.unselected {body : Text} (mem : post ∈ db.posts) (stays : selected post = false) :
    Greatest db.postRevisions post.id body ↔
      Greatest ((db.retractPosts selected).replaceBodies (db.selects selected) text).postRevisions post.id body :=
  Greatest.congr (mem_replaceBodies ((selects_of_mem kept.postIds mem).trans stays))

theorem IndexKept.posts_retract : PostsMirror (db.retractPosts selected).posts
      ((db.retractPosts selected).replaceBodies (db.selects selected) text).postRevisions
      (db.retractPosts selected).postsFts := by
  have dropped : PostsMirror (db.retractPosts selected).posts db.postRevisions
      (db.postsFts.filter fun row => !(db.posts.filter fun post => selected post && !post.retracted).any
        (·.id = row.postId)) := by
    refine @PostsMirror.drop _ _ _ _
      (fun id => (db.posts.filter fun post => selected post && !post.retracted).any (·.id = id)) kept.posts fun id => ?_
    constructor
    · rintro ⟨post, mem, rfl, live⟩
      obtain ⟨inPosts, live, stays⟩ := mem_retracted.mp ⟨mem, live⟩
      refine ⟨⟨post, inPosts, rfl, live⟩, ?_⟩
      rw [any_eq_false]
      intro hit inHits same
      obtain ⟨isPost, isHit⟩ := mem_filter.mp inHits
      rw [kept.postIds.eq isPost inPosts (of_decide_eq_true same), stays] at isHit
      cases isHit
    · rintro ⟨⟨post, mem, rfl, live⟩, notHit⟩
      rw [any_eq_false] at notHit
      refine ⟨post, (mem_retracted.mpr ⟨mem, live, ?_⟩).1, rfl, live⟩
      by_contra isHit
      exact notHit post (mem_filter.mpr ⟨mem, by simpa [live] using isHit⟩) (by simp)
  refine dropped.congr fun post mem live body => ?_
  obtain ⟨inPosts, -, stays⟩ := mem_retracted.mp ⟨mem, live⟩
  exact kept.unselected inPosts stays

theorem IndexKept.threads_retract (allowed : (IndexOp.retract selected text).KeepsText db) :
    ThreadsMirror (OpBody (db.retractPosts selected).posts
      ((db.retractPosts selected).replaceBodies (db.selects selected) text).postRevisions) db.threads
      (db.retractPosts selected).threadsFts := by
  refine .retract kept.threadIds (kept.threads.mono fun thread _ body right => ?_) fun hit mem isRoot => ?_
  · by_cases reached : ∃ hit ∈ db.posts.filter fun post => selected post && !post.retracted,
        hit.parent = none ∧ hit.thread = thread.id
    · exact .inr reached
    · have missed : ∀ post ∈ db.posts, opensThread thread.id post = true → selected post = false := by
        intro post mem opens
        obtain ⟨ofThread, isRoot, live⟩ := opensThread_iff.mp opens
        by_contra isSelected
        exact reached ⟨post, mem_filter.mpr ⟨mem, by simpa [live] using isSelected⟩, isRoot, ofThread⟩
      refine .inl (right.transfer ?_ ?_ ?_)
      · intro post mem opens
        have live := (opensThread_iff.mp opens).2.2
        exact ⟨post, (mem_retracted.mpr ⟨mem, live, missed post mem opens⟩).1, opens, rfl⟩
      · intro other mem opens
        have inPosts := (mem_retracted.mp ⟨mem, (opensThread_iff.mp opens).2.2⟩).1
        exact .inl ⟨other, inPosts, opens, rfl⟩
      · exact fun post mem opens body => kept.unselected mem (missed post mem opens)
  · obtain ⟨inPosts, isHit⟩ := mem_filter.mp mem
    obtain ⟨isSelected, live⟩ := Bool.and_eq_true_iff.mp isHit
    refine .inr ⟨rfl, fun other inAfter opens row inRows named => ?_⟩
    obtain ⟨inDb, -, stays⟩ := mem_retracted.mp ⟨inAfter, (opensThread_iff.mp opens).2.2⟩
    have opensHit : opensThread hit.thread hit = true := opensThread_iff.mpr ⟨rfl, isRoot, by simpa using live⟩
    have same : row ∈ db.postRevisions ↔
        row ∈ ((db.retractPosts selected).replaceBodies (db.selects selected) text).postRevisions :=
      mem_replaceBodies ((selects_of_mem kept.postIds inDb).trans stays) row named
    exact allowed hit inPosts isSelected opensHit other inDb stays opens row (same.mpr inRows) named

theorem IndexKept.retract (allowed : (IndexOp.retract selected text).KeepsText db) :
    IndexKept ((db.retractPosts selected).replaceBodies (db.selects selected) text) := by
  refine { kept with
    posts := kept.posts_retract, threads := kept.threads_retract allowed, postIds := kept.postIds.update fun _ => rfl
    revisionKeys := kept.revisionKeys.update fun _ => rfl, postThread := ?_, revisionPost := ?_
    threaded := kept.threaded.updateWhere (fun _ => rfl) fun _ => rfl }
  · exact forall_mem_updateWhere kept.postThread fun _ => id
  · intro row mem
    have same : (db.retractPosts selected).hasPost row.postId = db.hasPost row.postId :=
      any_updateWhere (by intro post; rfl) db.posts
    refine same.trans (forall_mem_updateWhere kept.revisionPost ?_ row mem)
    exact fun _ => id

end

theorem opBody_openingRevision (thread : Uuid) :
    OpBody db.posts db.postRevisions thread (((db.openingRevision thread).map (·.body)).getD "") := by
  by_cases none_ : db.openingRevisions thread = []
  · have nothing : db.openingRevision thread = none := by rw [openingRevision, none_]; rfl
    rw [nothing]
    refine .inr ⟨rfl, fun post mem opens row inRows named => ?_⟩
    have opening : row ∈ db.openingRevisions thread :=
      mem_filter.mpr ⟨inRows, any_eq_true.mpr ⟨post, mem, by simp [opens, named]⟩⟩
    rw [none_] at opening
    cases opening
  · obtain ⟨first, inOpening, found, most⟩ := firstBy_spec revisionDesc_trans revisionDesc_irrefl none_
    obtain ⟨inRows, hit⟩ := mem_filter.mp inOpening
    obtain ⟨post, mem, opens⟩ := any_eq_true.mp hit
    obtain ⟨opens, named⟩ := Bool.and_eq_true_iff.mp opens
    have named : post.id = first.postId := of_decide_eq_true named
    rw [openingRevision, found]
    refine .inl ⟨post, mem, opens, first, inRows, named.symm, rfl, fun other inOthers isPost => ?_⟩
    have bound := most other (mem_filter.mpr ⟨inOthers, any_eq_true.mpr ⟨post, mem, by simp [opens, isPost]⟩⟩)
    simpa [revisionDesc] using bound

theorem IndexKept.retitle (kept : IndexKept db) (thread : Uuid) (title : Text) : IndexKept (db.retitle thread title) := by
  refine { kept with
    threads := .replace (kept.threadIds.update fun _ => rfl) ?_ ?_ kept.threads.once (opBody_openingRevision thread)
    threadIds := kept.threadIds.update fun _ => rfl, postThread := ?_ }
  · intro other mem apart
    obtain ⟨old, -, hit, rfl⟩ | ⟨inThreads, -⟩ := of_mem_updateWhere mem
    · exact absurd hit apart
    · exact kept.threads.covers other inThreads
  · intro row mem
    obtain ⟨old, inThreads, named⟩ := kept.threads.known row mem
    exact ⟨_, mem_map_of_mem inThreads, by split <;> exact named⟩
  · intro post mem
    have same : (db.retitle thread title).hasThread post.thread = db.hasThread post.thread :=
      any_updateWhere (by intro row; rfl) db.threads
    exact same.trans (kept.postThread post mem)

theorem IndexKept.clearAccount {user : Key} (kept : IndexKept db) (allowed : (IndexOp.clearAccount user).KeepsText db) :
    IndexKept (clearAccountFts db user) := by
  have unlisted : (db.postsFts.filter fun row => !authored db user row.postId) = db.postsFts := by
    refine filter_eq_self.mpr fun row mem => ?_
    obtain ⟨post, inPosts, named, live, revision, inRows, ofPost, -⟩ := (kept.posts.rows row).mp mem
    rw [Bool.not_eq_true', authored, any_eq_false]
    intro other inOthers hit
    obtain ⟨isRow, isAuthor⟩ := of_decide_eq_true hit
    rw [kept.postIds.eq inOthers inPosts (isRow.trans named.symm)] at isAuthor
    exact allowed.1 post inPosts isAuthor live revision inRows ofPost
  refine { kept with posts := ?_, threads := ⟨?_, ?_, kept.threads.once.update fun _ => rfl⟩ }
  · show PostsMirror db.posts db.postRevisions (db.postsFts.filter _)
    rw [unlisted]
    exact kept.posts
  · intro thread mem
    obtain ⟨row, inFts, named, titled, right⟩ := kept.threads.covers thread mem
    cases hit : db.threads.any fun other => decide (other.id = row.threadId ∧ other.author = user) with
    | false => exact ⟨row, mem_updateWhere.mpr ⟨row, inFts, .inr ⟨hit, rfl⟩⟩, named, titled, right⟩
    | true =>
      obtain ⟨other, inThreads, isOwn⟩ := any_eq_true.mp hit
      obtain ⟨isRow, isAuthor⟩ := of_decide_eq_true isOwn
      rw [kept.threadIds.eq inThreads mem (isRow.trans named)] at isAuthor
      exact ⟨_, mem_updateWhere.mpr ⟨row, inFts, .inl ⟨hit, rfl⟩⟩, named, titled, allowed.2 thread mem isAuthor⟩
  · exact forall_mem_updateWhere kept.threads.known fun _ => id

end Steps

section Deletion

variable {slug : Text}

section

variable (mirror : PostsMirror db.posts revisions db.postsFts) (unique : UniqueBy PostRow.id db.posts)
include mirror unique

theorem PostsMirror.peeled {affected : Nat} (run : peelLeaves slug db = .ok (affected, after)) :
    PostsMirror after.posts revisions after.postsFts := by
  simp only [peelLeaves, require_bind_ok] at run
  obtain ⟨-, -, returned⟩ := run
  cases returned
  refine @PostsMirror.drop _ _ _ _ (fun id => db.posts.any fun post =>
    leafIn PostRow.id PostRow.parent (inRoom db.threads slug) db.posts post && decide (post.id = id)) mirror fun id => ?_
  constructor
  · rintro ⟨post, mem, rfl, live⟩
    obtain ⟨inPosts, stays⟩ := mem_filter.mp mem
    refine ⟨⟨post, inPosts, rfl, live⟩, ?_⟩
    rw [any_eq_false]
    intro other inOthers gone
    obtain ⟨doomed, same⟩ := Bool.and_eq_true_iff.mp gone
    rw [unique.eq inOthers inPosts (of_decide_eq_true same)] at doomed
    rw [doomed] at stays
    cases stays
  · rintro ⟨⟨post, mem, rfl, live⟩, stays⟩
    rw [any_eq_false] at stays
    refine ⟨post, mem_filter.mpr ⟨mem, ?_⟩, rfl, live⟩
    have kept := stays post mem
    simpa using kept

theorem PostsMirror.peelLoop {fuel : Nat} (run : peelLoop slug fuel db = .ok after) :
    PostsMirror after.posts revisions after.postsFts := by
  induction fuel generalizing db with
  | zero =>
    cases run
    exact mirror
  | succ fuel ih =>
    rw [Prismoire.peelLoop] at run
    obtain ⟨⟨affected, mid⟩, peeled, run⟩ := bind_ok.mp run
    have next := mirror.peeled unique peeled
    obtain ⟨fts, -, rfl, -⟩ := peelLeaves_ok peeled
    dsimp only at run
    split at run
    · cases run
      exact next
    · exact ih next (unique.sublist (filter_sublist.map _)) run

end

theorem IndexKept.eraseRoom_index (kept : IndexKept db) (run : eraseRoom slug db = .ok after) :
    ∃ blobs postsFts, after = db.withoutRoom slug blobs postsFts
        (db.threadsFts.filter fun row => !db.threads.any fun thread => thread.id = row.threadId ∧ thread.room = slug) ∧
      Threaded after ∧ PostsMirror after.posts db.postRevisions postsFts := by
  obtain ⟨unbound, unboundRun, run⟩ := bind_ok.mp run
  obtain ⟨peeled, peelRun, run⟩ := bind_ok.mp run
  obtain ⟨-, run⟩ := require_bind_ok.mp run
  cases run
  obtain ⟨blobs, rfl⟩ := deletePostAttachments_frame unboundRun
  have enough : db.posts.countP (inRoom db.threads slug) < db.posts.length + 1 :=
    Nat.lt_succ_of_le countP_le_length
  have mirror : PostsMirror peeled.posts db.postRevisions peeled.postsFts :=
    PostsMirror.peelLoop (by exact kept.posts) (by exact kept.postIds) peelRun
  obtain ⟨grown, fts, rfl⟩ := peelLoop_ok (by exact kept.threaded) (by exact kept.postIds) (by exact enough) peelRun
  exact ⟨_, fts, rfl, grown, mirror⟩

theorem IndexKept.outside (kept : IndexKept db) {post : PostRow} {body : Text} (mem : post ∈ db.posts)
    (outside : inRoom db.threads slug post = false) :
    Greatest db.postRevisions post.id body ↔
      Greatest (db.postRevisions.filter fun row => !postedIn db slug row.postId) post.id body := by
  refine Greatest.congr fun row named => ⟨fun inRows => mem_filter.mpr ⟨inRows, ?_⟩, mem_of_mem_filter⟩
  rw [named, postedIn_of_mem kept.postIds mem, outside]
  rfl

theorem IndexKept.eraseRoom (kept : IndexKept db) (run : eraseRoom slug db = .ok after) : IndexKept after := by
  obtain ⟨blobs, postsFts, rfl, grown, mirror⟩ := kept.eraseRoom_index run
  have elsewhere : ∀ thread ∈ db.threads, thread.room ≠ slug → ∀ post ∈ db.posts, post.thread = thread.id →
      inRoom db.threads slug post = false := by
    intro thread mem apart post _ ofThread
    rw [inRoom, any_eq_false]
    intro other inThreads hit
    obtain ⟨same, here⟩ := of_decide_eq_true hit
    rw [kept.threadIds.eq inThreads mem (same.trans ofThread)] at here
    exact apart here
  refine {
    posts := mirror.congr fun post mem _ body => ?_, threads := ⟨?_, ?_, ?_⟩
    threadIds := kept.threadIds.sublist (filter_sublist.map _)
    postIds := kept.postIds.sublist (filter_sublist.map _)
    revisionKeys := kept.revisionKeys.sublist (filter_sublist.map _)
    postThread := ?_, revisionPost := ?_, threaded := grown }
  · obtain ⟨inPosts, outside⟩ := mem_filter.mp mem
    exact kept.outside inPosts (by simpa using outside)
  · intro thread mem
    obtain ⟨inThreads, apart⟩ := mem_filter.mp mem
    have apart : thread.room ≠ slug := by simpa using apart
    obtain ⟨row, inFts, named, titled, right⟩ := kept.threads.covers thread inThreads
    have listed : (db.threads.any fun other => decide (other.id = row.threadId ∧ other.room = slug)) = false := by
      rw [any_eq_false]
      intro other inOthers hit
      obtain ⟨same, here⟩ := of_decide_eq_true hit
      rw [kept.threadIds.eq inOthers inThreads (same.trans named)] at here
      exact apart here
    refine ⟨row, mem_filter.mpr ⟨inFts, by simpa using listed⟩, named, titled, right.transfer ?_ ?_ ?_⟩
    · intro post inPosts opens
      have outside := elsewhere thread inThreads apart post inPosts (opensThread_iff.mp opens).1
      exact ⟨post, mem_filter.mpr ⟨inPosts, by simp [outside]⟩, opens, rfl⟩
    · exact fun other inAfter opens => .inl ⟨other, mem_of_mem_filter inAfter, opens, rfl⟩
    · exact fun post inPosts opens body =>
        kept.outside inPosts (elsewhere thread inThreads apart post inPosts (opensThread_iff.mp opens).1)
  · intro row mem
    obtain ⟨inFts, stays⟩ := mem_filter.mp mem
    rw [Bool.not_eq_true', any_eq_false] at stays
    obtain ⟨thread, inThreads, named⟩ := kept.threads.known row inFts
    have apart : thread.room ≠ slug := fun here => stays thread inThreads (by simp [named, here])
    exact ⟨thread, mem_filter.mpr ⟨inThreads, by simpa using apart⟩, named⟩
  · exact kept.threads.once.sublist (filter_sublist.map _)
  · intro post mem
    obtain ⟨inPosts, outside⟩ := mem_filter.mp mem
    exact hasThread_withoutRoom (kept.postThread post inPosts) (by simpa using outside)
  · intro row mem
    obtain ⟨inRows, outside⟩ := mem_filter.mp mem
    obtain ⟨post, inPosts, named⟩ := any_eq_true.mp (kept.revisionPost row inRows)
    rw [← of_decide_eq_true named, postedIn_of_mem kept.postIds inPosts] at outside
    exact any_eq_true.mpr ⟨post, mem_filter.mpr ⟨inPosts, outside⟩, named⟩

end Deletion

section Runs

theorem landed_keeps {Keeps : Db → Prop} {run : Sql Db} (before : Keeps db)
    (ran : ∀ after, run = .ok after → Keeps after) : Keeps (landed db run) := by
  cases run with
  | error violated => exact before
  | ok after => exact ran after rfl

theorem IndexKept.step (kept : IndexKept db) {op : IndexOp} (allowed : op.KeepsText db) : IndexKept (op.apply db) := by
  cases op with
  | insertThread row => exact landed_keeps kept fun _ => kept.insertThread
  | insertPost row => exact landed_keeps kept fun _ => kept.insertPost
  | insertRevision row => exact landed_keeps kept fun _ => kept.insertRevision allowed
  | retract selected text => exact kept.retract allowed
  | retitle thread title => exact kept.retitle thread title
  | clearAccount user => exact kept.clearAccount allowed
  | deleteRoom slug => exact landed_keeps kept fun _ => kept.eraseRoom
  | elsewhere rest => exact { kept with }

end Runs

def revised (post : Uuid) (revision : Nat) (body : Text) : IndexOp :=
  .insertRevision { postId := post, revision, body, signature := [], canonicalHash := 0, createdAt := "" }

end Prismoire
