import Prismoire.Instance

namespace Prismoire

open Lib List Db

/-- The keys and references of the content tables, and the revision 0 behind each post. -/
structure Integrity (state : AppState) (corpus : Corpus) (db : Db) : Prop where
  threadIds : UniqueBy ThreadRow.id db.threads
  postIds : UniqueBy PostRow.id db.posts
  revisionKeys : UniqueBy (fun row : PostRevisionRow => (row.postId, row.revision)) db.postRevisions
  profileKeys : UniqueBy (fun row : ProfileRevisionRow => (row.user, row.canonicalHash)) db.profileRevisions
  postThread : ∀ post ∈ db.posts, db.hasThread post.thread = true
  revisionPost : ∀ row ∈ db.postRevisions, db.hasPost row.postId = true
  opened : ∀ post ∈ db.posts, ∃ payload signature p,
    Filed state.platform corpus payload signature (.postRevision p) ∧ p.revision = 0 ∧ post.Opens p ∧
    ∃ row ∈ db.postRevisions, row.Records state.platform payload p

variable {state : AppState} {corpus : Corpus} {live : Bool} {db after : Db} {row : PostRevisionRow}

theorem Integrity.empty : Integrity state corpus {} where
  threadIds := .nil
  postIds := .nil
  revisionKeys := .nil
  profileKeys := .nil
  postThread := by simp
  revisionPost := by simp
  opened := by simp

theorem Integrity.insertThread {row : ThreadRow} (ints : Integrity state corpus db)
    (run : db.insertThread row = .ok after) : Integrity state corpus after := by
  obtain ⟨fresh, -, -, rfl⟩ := insertThread_ok.mp run
  exact { ints with
    threadIds := ints.threadIds.insert (by simpa [hasThread] using fresh)
    postThread := by
      intro post mem
      show (db.threads ++ [row]).any _ = true
      rw [any_append]
      exact Bool.or_eq_true_iff.mpr (.inl (ints.postThread post mem)) }

theorem Integrity.insertPostRevision (ints : Integrity state corpus db)
    (run : db.insertPostRevision row = .ok after) : Integrity state corpus after := by
  obtain ⟨fresh, known, rfl⟩ := insertPostRevision_ok.mp run
  exact { ints with
    revisionKeys := by
      refine ints.revisionKeys.insert ?_
      simpa [hasRevision] using fresh
    revisionPost := by
      exact forall_mem_append.mpr ⟨ints.revisionPost, forall_mem_singleton.mpr known⟩
    opened := by
      intro post mem
      obtain ⟨payload, signature, p, filed, first, opens, recorded, inRows, records⟩ := ints.opened post mem
      exact ⟨payload, signature, p, filed, first, opens, recorded, mem_append_left _ inRows, records⟩ }

theorem hasPost_append (posts : List PostRow) (post : PostRow) (id : Uuid) :
    (posts ++ [post]).any (·.id = id) = true ↔ posts.any (·.id = id) = true ∨ post.id = id := by
  simp

section

variable (ints : Integrity state corpus db)
include ints

theorem Integrity.openPost {mid : Db} {payload signature : Bytes} {p : PostRevision} {post : PostRow}
    
    (filed : Filed state.platform corpus payload signature (.postRevision p)) (first : p.revision = 0)
    (opens : post.Opens p) (records : row.Records state.platform payload p)
    (openedRun : db.insertPost post = .ok mid) (landed : mid.insertPostRevision row = .ok after) :
    Integrity state corpus after := by
  obtain ⟨fresh, -, thread, -, rfl⟩ := insertPost_ok.mp openedRun
  obtain ⟨unrevised, known, rfl⟩ := insertPostRevision_ok.mp landed
  exact { ints with
    postIds := ints.postIds.insert (by simpa [hasPost] using fresh)
    revisionKeys := by
      refine ints.revisionKeys.insert ?_
      simpa [hasRevision] using unrevised
    postThread := by
      exact forall_mem_append.mpr ⟨ints.postThread, forall_mem_singleton.mpr thread⟩
    revisionPost := by
      exact forall_mem_concat.mpr
        ⟨fun other old => (hasPost_append _ _ _).mpr (.inl (ints.revisionPost other old)), known⟩
    opened := by
      intro other mem
      rcases mem_concat.mp mem with old | new
      · obtain ⟨payload', signature', p', filed', first', opens', recorded, inRows, records'⟩ :=
          ints.opened other old
        exact ⟨payload', signature', p', filed', first', opens', recorded, mem_append_left _ inRows, records'⟩
      · rw [new]
        exact ⟨payload, signature, p, filed, first, opens, row, by simp [withPostRevision], records⟩ }

theorem Integrity.updatePosts {keep : PostRow → Bool} {set : PostRow → PostRow}
    {postsFts : List PostsFtsRow} {threadsFts : List ThreadsFtsRow}
    (sameId : ∀ row, (set row).id = row.id) (sameThread : ∀ row, (set row).thread = row.thread)
    (frame : ∀ row p, row.Opens p → (set row).Opens p) :
    Integrity state corpus { db with
      posts := updateWhere keep set db.posts
      postsFts := postsFts
      threadsFts := threadsFts } :=
  { ints with
    postIds := ints.postIds.update sameId
    postThread := forall_mem_updateWhere ints.postThread fun _ known => by rwa [sameThread]
    revisionPost := by
      intro row mem
      have known := ints.revisionPost row mem
      rw [hasPost] at known ⊢
      rwa [any_updateWhere (by intro row; rw [sameId])]
    opened := forall_mem_updateWhere ints.opened fun post ⟨payload, signature, p, filed, first, opens, recorded⟩ =>
      ⟨payload, signature, p, filed, first, frame post p opens, recorded⟩ }

theorem Integrity.updateRevisions {keep : PostRevisionRow → Bool} {set : PostRevisionRow → PostRevisionRow}
    (samePost : ∀ row, (set row).postId = row.postId)
    (sameRevision : ∀ row, (set row).revision = row.revision)
    (sameHash : ∀ row, (set row).canonicalHash = row.canonicalHash) :
    Integrity state corpus { db with
      postRevisions := updateWhere keep set db.postRevisions } :=
  { ints with
    revisionKeys := ints.revisionKeys.update fun row => by rw [samePost, sameRevision]
    revisionPost := forall_mem_updateWhere ints.revisionPost fun _ known => by rwa [samePost]
    opened := by
      intro post mem
      obtain ⟨payload, signature, p, filed, first, opens, row, inRows, records⟩ := ints.opened post mem
      refine ⟨payload, signature, p, filed, first, opens, ?_⟩
      cases hit : keep row with
      | true =>
        exact ⟨_, mem_updateWhere.mpr ⟨row, inRows, .inl ⟨hit, rfl⟩⟩, (samePost row).trans records.post,
          (sameRevision row).trans records.revision, (sameHash row).trans records.hash⟩
      | false => exact ⟨row, mem_updateWhere.mpr ⟨row, inRows, .inr ⟨hit, rfl⟩⟩, records⟩ }

theorem Integrity.blankBodies (selected : Uuid → Bool) : Integrity state corpus (db.blankBodies selected) :=
  ints.updateRevisions (fun _ => rfl) (fun _ => rfl) fun _ => rfl

theorem Integrity.touchThread (threadId : Uuid) (at' : Text) : Integrity state corpus (touchThread db threadId at') :=
  { ints with
    threadIds := ints.threadIds.update fun _ => rfl
    postThread := by
      intro post mem
      have known := ints.postThread post mem
      rw [hasThread] at known ⊢
      rwa [Prismoire.touchThread, any_updateWhere (by intro row; rfl)] }

end

theorem Effect.integrity (effect : Effect state corpus live db after) (ints : Integrity state corpus db) :
    Integrity state corpus after := by
  cases effect with
  | edge effect =>
    obtain ⟨objects, edges, pending, frontier, rfl⟩ := effect.frame
    exact { ints with }
  | ownEdge => exact { ints with }
  | store => exact { ints with }
  | erase projected run =>
    rw [erasePayloads_frame run]
    exact { ints with }
  | users => exact { ints with }
  | profile landing user hash known fresh =>
    exact { ints with
      profileKeys := by
        refine ints.profileKeys.insert ?_
        intro other mem same
        obtain ⟨sameUser, sameHash⟩ := Prod.mk.inj same
        exact fresh other mem sameUser sameHash }
  | room unmerged run =>
    obtain ⟨-, -, rfl⟩ := insertRoom_ok.mp run
    exact { ints with }
  | thread landing opens run => exact ints.insertThread run
  | openPost landing first opens records opened landed =>
    exact ints.openPost landing.filed first opens records opened landed
  | revise landing later records landed => exact ints.insertPostRevision landed
  | recount keep count counted =>
    refine ints.updatePosts (fun _ => rfl) (fun _ => rfl) ?_
    intro row p opens
    exact ⟨opens.id, opens.author, opens.thread, opens.parent, counted row opens.counted⟩
  | touch threadId at' => exact ints.touchThread threadId at'
  | blob => exact { ints with }
  | bind run =>
    obtain ⟨-, -, -, -, rfl⟩ := insertPostAttachment_ok.mp run
    exact { ints with }
  | unbind run =>
    obtain ⟨blobs, rfl⟩ := deletePostAttachments_frame run
    exact { ints with }
  | gc run =>
    obtain ⟨blobs, rfl⟩ := gcOrphanBlobs_frame run
    exact { ints with }
  | retract selected =>
    refine ints.updatePosts (fun _ => rfl) (fun _ => rfl) ?_
    intro row p opens
    exact ⟨opens.id, opens.author, opens.thread, opens.parent, opens.counted⟩
  | blank selected => exact ints.blankBodies selected
  | authority => exact { ints with }
  | aside => exact { ints with }

theorem Effects.integrity (effects : Effects state corpus live db after) (ints : Integrity state corpus db) :
    Integrity state corpus after := by
  induction effects with
  | refl => exact ints
  | tail _ step ih => exact step.integrity ih

theorem Reachable.integrity {meets : Db → Bytes → Key → Prop} (reached : Reachable state corpus meets db) :
    Integrity state corpus db := by
  induction reached with
  | start => exact .empty
  | step before step ih => exact (step.effects before.sound).integrity ih

end Prismoire
