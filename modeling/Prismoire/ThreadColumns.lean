import Prismoire.EditRaces
import Prismoire.Ingest
import Prismoire.RecentRepliers

namespace Prismoire

open Lib List

/-- What the denormalised columns are about: a post of a thread, with a parent or without one. -/
structure PostMark where
  thread : Uuid
  reply : Bool
  author : Key
  createdAt : Text

structure ThreadMark where
  id : Uuid
  createdAt : Text
  replyCount : Nat
  lastActivity : Text

/-- Threads, their posts in the order in which they were added, and `thread_recent_repliers`. -/
structure Board where
  threads : List ThreadMark
  posts : List PostMark
  repliers : List RecentReplierRow

namespace Board

def replies (board : Board) (id : Uuid) : List PostMark :=
  board.posts.filter fun post => post.thread = id && post.reply

structure Mirrors (board : Board) (thread : ThreadMark) : Prop where
  count : thread.replyCount = (board.replies thread.id).length
  created : thread.createdAt ≤ thread.lastActivity
  latest : ∀ post ∈ board.posts, post.thread = thread.id → post.createdAt ≤ thread.lastActivity
  attained : thread.lastActivity = thread.createdAt ∨
    ∃ post ∈ board.posts, post.thread = thread.id ∧ post.createdAt = thread.lastActivity
  recent : ∀ row, (row ∈ board.repliers ∧ row.threadId = thread.id) ↔
    ∃ (rank : Nat) (post : PostMark), rank < 50 ∧ (board.replies thread.id).reverse[rank]? = some post ∧
      row = { threadId := thread.id, rank, replier := post.author, repliedAt := post.createdAt }

structure Mirrored (board : Board) : Prop where
  ids : UniqueBy ThreadMark.id board.threads
  posted : ∀ post ∈ board.posts, ∃ thread ∈ board.threads, thread.id = post.thread
  listed : ∀ row ∈ board.repliers, ∃ thread ∈ board.threads, thread.id = row.threadId
  mirrors : ∀ thread ∈ board.threads, board.Mirrors thread

/-- A new thread, a post without a parent that is not the latest activity, and a reply that is. -/
inductive Step (order : RowOrder) : Board → Board → Prop
  | thread {board : Board} (id : Uuid) (at' : Text) : (∀ thread ∈ board.threads, thread.id ≠ id) →
      Step order board { board with
        threads := board.threads ++ [⟨id, at', 0, at'⟩] }
  | root {board : Board} (post : PostMark) : post.reply = false →
      (∃ thread ∈ board.threads, thread.id = post.thread ∧ post.createdAt ≤ thread.lastActivity) →
      Step order board { board with
        posts := board.posts ++ [post] }
  | reply {board : Board} {repliers : List RecentReplierRow} (id : Uuid) (author : Key) (at' : Text) :
      (∃ thread ∈ board.threads, thread.id = id ∧ thread.lastActivity ≤ at') →
      pushReplier order board.repliers id author at' = .ok repliers →
      Step order board {
        threads := updateWhere (·.id = id)
          (fun thread => { thread with replyCount := thread.replyCount + 1, lastActivity := at' }) board.threads
        posts := board.posts ++ [⟨id, true, author, at'⟩]
        repliers }

variable {order : RowOrder} {board after : Board}

variable {post : PostMark} {id : Uuid} {at' : Text}

theorem replies_append : ({ board with posts := board.posts ++ [post] } : Board).replies id =
      board.replies id ++ if post.thread = id && post.reply then [post] else [] := by
  rw [replies, replies, filter_append]
  congr 1
  cases hit : decide (post.thread = id) && post.reply <;> simp [hit]

theorem Mirrored.thread (mirrored : board.Mirrored) (fresh : ∀ thread ∈ board.threads, thread.id ≠ id) :
    Mirrored { board with threads := board.threads ++ [⟨id, at', 0, at'⟩] } where
  ids := mirrored.ids.insert fresh
  posted post mem := by
    obtain ⟨thread, inThreads, same⟩ := mirrored.posted post mem
    exact ⟨thread, mem_append_left _ inThreads, same⟩
  listed row mem := by
    obtain ⟨thread, inThreads, same⟩ := mirrored.listed row mem
    exact ⟨thread, mem_append_left _ inThreads, same⟩
  mirrors thread mem := by
    rcases mem_concat.mp mem with known | rfl
    · have mirrors := mirrored.mirrors thread known
      exact ⟨mirrors.count, mirrors.created, mirrors.latest, mirrors.attained, mirrors.recent⟩
    · -- nothing refers to a thread that was not there
      have unposted : ∀ post ∈ board.posts, post.thread ≠ id := by
        rintro post inPosts rfl
        obtain ⟨thread, inThreads, same⟩ := mirrored.posted post inPosts
        exact fresh thread inThreads same
      have unreplied : board.replies id = [] := by
        rw [replies, filter_eq_nil_iff]
        intro post inPosts
        simp [unposted post inPosts]
      refine ⟨?_, le_refl _, ?_, .inl rfl, ?_⟩
      · exact (congrArg List.length unreplied).symm
      · exact fun post inPosts same => absurd same (unposted post inPosts)
      · intro row
        constructor
        · rintro ⟨inRows, same⟩
          obtain ⟨thread, inThreads, same'⟩ := mirrored.listed row inRows
          exact absurd (same'.trans same) (fresh thread inThreads)
        · rintro ⟨rank, post, -, found, -⟩
          have none : (board.replies id).reverse[rank]? = some post := found
          rw [unreplied] at none
          simp at none

theorem Mirrored.root (mirrored : board.Mirrored) (root : post.reply = false)
    (dated : ∃ thread ∈ board.threads, thread.id = post.thread ∧ post.createdAt ≤ thread.lastActivity) :
    Mirrored { board with posts := board.posts ++ [post] } where
  ids := mirrored.ids
  posted other mem := by
    rcases mem_concat.mp mem with known | rfl
    · exact mirrored.posted other known
    · obtain ⟨thread, inThreads, same, -⟩ := dated
      exact ⟨thread, inThreads, same⟩
  listed := mirrored.listed
  mirrors thread mem := by
    have mirrors := mirrored.mirrors thread mem
    have same : ({ board with posts := board.posts ++ [post] } : Board).replies thread.id = board.replies thread.id := by
      rw [replies_append]
      simp [root]
    refine ⟨?_, mirrors.created, ?_, ?_, ?_⟩
    · rw [same]
      exact mirrors.count
    · intro other inPosts here
      rcases mem_concat.mp inPosts with known | rfl
      · exact mirrors.latest other known here
      · obtain ⟨dater, inThreads, sameId, early⟩ := dated
        obtain rfl := mirrored.ids.eq inThreads mem (sameId.trans here)
        exact early
    · refine mirrors.attained.imp_right ?_
      rintro ⟨other, inPosts, found⟩
      exact ⟨other, mem_append_left _ inPosts, found⟩
    · rw [same]
      exact mirrors.recent

theorem Mirrored.reply {repliers : List RecentReplierRow} {author : Key}
    (mirrored : board.Mirrored) (dated : ∃ thread ∈ board.threads, thread.id = id ∧ thread.lastActivity ≤ at')
    (pushed : ∀ row, row ∈ repliers ↔ row = { threadId := id, rank := 0, replier := author, repliedAt := at' } ∨
      (row ∈ board.repliers ∧ row.threadId ≠ id) ∨
      ∃ old ∈ board.repliers, old.threadId = id ∧ old.rank < recentRepliersBuffer - 1 ∧ row = old.raised) :
    Mirrored {
      threads := updateWhere (·.id = id)
        (fun thread => { thread with replyCount := thread.replyCount + 1, lastActivity := at' }) board.threads
      posts := board.posts ++ [⟨id, true, author, at'⟩]
      repliers } := by
  obtain ⟨dater, inDaters, daterId, early⟩ := dated
  have renamed : ∀ thread ∈ board.threads, ∃ other ∈ updateWhere (fun thread : ThreadMark => thread.id = id)
      (fun thread => { thread with replyCount := thread.replyCount + 1, lastActivity := at' }) board.threads,
      other.id = thread.id := by
    intro thread inThreads
    cases hit : decide (thread.id = id) with
    | true => exact ⟨_, mem_updateWhere.mpr ⟨thread, inThreads, .inl ⟨hit, rfl⟩⟩, rfl⟩
    | false => exact ⟨thread, mem_updateWhere.mpr ⟨thread, inThreads, .inr ⟨hit, rfl⟩⟩, rfl⟩
  refine ⟨mirrored.ids.update fun _ => rfl, ?_, ?_, ?_⟩
  · intro post mem
    rcases mem_concat.mp mem with known | rfl
    · obtain ⟨thread, inThreads, same⟩ := mirrored.posted post known
      obtain ⟨other, inOthers, sameId⟩ := renamed thread inThreads
      exact ⟨other, inOthers, sameId.trans same⟩
    · obtain ⟨other, inOthers, sameId⟩ := renamed dater inDaters
      exact ⟨other, inOthers, sameId.trans daterId⟩
  · intro row mem
    have source : ∃ thread ∈ board.threads, thread.id = row.threadId := by
      rcases (pushed row).mp mem with rfl | ⟨inRows, -⟩ | ⟨old, inRows, -, -, rfl⟩
      · exact ⟨dater, inDaters, daterId⟩
      · exact mirrored.listed row inRows
      · exact mirrored.listed old inRows
    obtain ⟨thread, inThreads, same⟩ := source
    obtain ⟨other, inOthers, sameId⟩ := renamed thread inThreads
    exact ⟨other, inOthers, sameId.trans same⟩
  · intro thread mem
    obtain ⟨old, inThreads, ⟨hit, rfl⟩ | ⟨missed, rfl⟩⟩ := mem_updateWhere.mp mem
    · have here := of_decide_eq_true hit
      obtain rfl := mirrored.ids.eq inThreads inDaters (here.trans daterId.symm)
      subst here
      have mirrors := mirrored.mirrors old inThreads
      have more : ({ board with posts := board.posts ++ [⟨old.id, true, author, at'⟩] } : Board).replies old.id =
          board.replies old.id ++ [⟨old.id, true, author, at'⟩] := by
        rw [replies_append]
        simp
      have newest : (board.replies old.id ++ [(⟨old.id, true, author, at'⟩ : PostMark)]).reverse =
          (⟨old.id, true, author, at'⟩ : PostMark) :: (board.replies old.id).reverse := by simp
      refine ⟨?_, mirrors.created.trans early, ?_, .inr ⟨_, mem_append_right _ mem_cons_self, rfl, rfl⟩, ?_⟩
      · refine Eq.trans ?_ (congrArg List.length more).symm
        rw [length_append, mirrors.count]
        rfl
      · exact forall_mem_concat.mpr
          ⟨fun post known here => (mirrors.latest post known here).trans early, fun _ => le_refl _⟩
      · intro row
        change (row ∈ repliers ∧ _) ↔ ∃ (rank : Nat) (post : PostMark), rank < 50 ∧
          (({ board with posts := board.posts ++ [⟨old.id, true, author, at'⟩] } : Board).replies old.id).reverse[rank]? =
            some post ∧ _
        rw [more, newest, pushed]
        constructor
        · rintro ⟨rfl | ⟨-, other⟩ | ⟨ranked, inRows, mine, low, rfl⟩, here⟩
          · exact ⟨0, _, by omega, rfl, rfl⟩
          · exact absurd here other
          · obtain ⟨rank, post, -, found, rfl⟩ := (mirrors.recent ranked).mp ⟨inRows, mine⟩
            simp only [recentRepliersBuffer] at low
            exact ⟨rank + 1, post, by omega, by simpa using found, by simp [RecentReplierRow.raised]⟩
        · rintro ⟨rank, post, low, found, rfl⟩
          refine ⟨?_, rfl⟩
          cases rank with
          | zero =>
            obtain rfl := Option.some.inj found
            exact .inl rfl
          | succ rank =>
            have older := (mirrors.recent { threadId := old.id, rank, replier := post.author, repliedAt := post.createdAt }).mpr
              ⟨rank, post, by omega, by simpa using found, rfl⟩
            refine .inr (.inr ⟨_, older.1, rfl, ?_, by simp [RecentReplierRow.raised]⟩)
            simp only [recentRepliersBuffer]
            omega
    · have apart : thread.id ≠ id := by simpa using missed
      have mirrors := mirrored.mirrors thread inThreads
      have same : ({ board with posts := board.posts ++ [⟨id, true, author, at'⟩] } : Board).replies thread.id =
          board.replies thread.id := by
        rw [replies_append]
        simp [Ne.symm apart]
      refine ⟨mirrors.count.trans (congrArg List.length same).symm, mirrors.created, ?_, ?_, ?_⟩
      · exact forall_mem_concat.mpr ⟨mirrors.latest, fun here => absurd here.symm apart⟩
      · refine mirrors.attained.imp_right ?_
        rintro ⟨post, inPosts, found⟩
        exact ⟨post, mem_append_left _ inPosts, found⟩
      · intro row
        change (row ∈ repliers ∧ _) ↔ ∃ (rank : Nat) (post : PostMark), rank < 50 ∧
          (({ board with posts := board.posts ++ [⟨id, true, author, at'⟩] } : Board).replies thread.id).reverse[rank]? =
            some post ∧ _
        rw [same, ← mirrors.recent row, pushed]
        constructor
        · rintro ⟨rfl | ⟨inRows, -⟩ | ⟨old, -, mine, -, rfl⟩, here⟩
          · exact absurd here.symm apart
          · exact ⟨inRows, here⟩
          · exact absurd (here.symm.trans mine) apart
        · rintro ⟨inRows, here⟩
          exact ⟨.inr (.inl ⟨inRows, fun mine => apart (here.symm.trans mine)⟩), here⟩

theorem Step.ranked (step : Step order board after) (ranked : Ranked board.repliers) : Ranked after.repliers := by
  cases step with
  | thread => exact ranked
  | root => exact ranked
  | reply id author at' dated run =>
    obtain ⟨after, pushed, keeps, -⟩ := @pushReplier_ok order _ id author at' ranked
    cases pushed.symm.trans run
    exact keeps

theorem Step.mirrored (step : Step order board after) (ranked : Ranked board.repliers) (mirrored : board.Mirrored) :
    after.Mirrored := by
  cases step with
  | thread id at' fresh => exact mirrored.thread fresh
  | root post root dated => exact mirrored.root root dated
  | reply id author at' dated run =>
    obtain ⟨after, pushed, -, members⟩ := @pushReplier_ok order _ id author at' ranked
    cases pushed.symm.trans run
    exact mirrored.reply dated members

theorem Mirrors.ranks {thread : ThreadMark} (mirrors : board.Mirrors thread) (rank : Int) :
    (∃ row ∈ board.repliers, row.threadId = thread.id ∧ row.rank = rank) ↔
      0 ≤ rank ∧ rank < 50 ∧ rank < thread.replyCount := by
  constructor
  · rintro ⟨row, inRows, mine, rfl⟩
    obtain ⟨place, post, low, found, rfl⟩ := (mirrors.recent row).mp ⟨inRows, mine⟩
    have inside := (List.getElem?_eq_some_iff.mp found).1
    rw [length_reverse] at inside
    have count := mirrors.count
    dsimp only
    omega
  · rintro ⟨nonneg, low, counted⟩
    obtain ⟨place, rfl⟩ := Int.eq_ofNat_of_zero_le nonneg
    have inside : place < (board.replies thread.id).reverse.length := by
      rw [length_reverse, ← mirrors.count]
      omega
    obtain ⟨inRows, mine⟩ := (mirrors.recent _).mpr ⟨place, _, by omega, getElem?_eq_getElem inside, rfl⟩
    exact ⟨_, inRows, mine, rfl⟩

end Board

end Prismoire
