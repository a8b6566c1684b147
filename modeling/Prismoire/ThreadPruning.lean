import Prismoire.Db
import Prismoire.ThreadView

namespace Prismoire

open Lib List TreeCtx ThreadView

inductive PostResponse.Shows : PostResponse → PostView → Prop
  | self {post children more} : Shows (.mk post children more) post
  | reply {post children more child view} :
      child ∈ children → Shows child view → Shows (.mk post children more) view

/-- The path from the opening post to this one is visible, and below the opening post none of it is a retracted leaf. -/
inductive TreeCtx.Shown {rows : List PostMeta} (ctx : TreeCtx rows) : Fin rows.length → Prop
  | opening : ctx.isVisible ctx.tree.rootIdx true = true → Shown ctx ctx.tree.rootIdx
  | reply {parent idx} : Shown ctx parent → parentIdx rows idx = some parent → retractedLeaf rows idx = false →
      ctx.isVisible idx false = true → Shown ctx idx

structure TreeCtx.Agree {rows : List PostMeta} (ctx : TreeCtx rows) (store other : PostStore) : Prop where
  bodies : ∀ idx, ctx.Shown idx → store.bodies (rows.get idx).id = other.bodies (rows.get idx).id
  attachments : ∀ idx, ctx.Shown idx → store.attachments (rows.get idx).id = other.attachments (rows.get idx).id

variable {rows : List PostMeta} {depth fuel : Nat}

namespace TreeCtx

variable {ctx : TreeCtx rows} {idx : Fin rows.length}

theorem Shown.root (shown : ctx.Shown idx) : ctx.isVisible ctx.tree.rootIdx true = true := by
  induction shown with
  | opening isVisible => exact isVisible
  | reply _ _ _ _ ih => exact ih

theorem Shown.above {parent : Fin rows.length} (shown : ctx.Shown idx) (isParent : parentIdx rows idx = some parent) :
    ctx.Shown parent ∧ ctx.isVisible idx false = true := by
  cases shown with
  | opening =>
    simp only [parentIdx, ctx.tree.opening, Option.bind_none] at isParent
    cases isParent
  | reply above parent' _ isVisible =>
    cases parent'.symm.trans isParent
    exact ⟨above, isVisible⟩

theorem Shown.resort {sortByNew : Bool} (shown : ctx.Shown idx) : Shown { ctx with sortByNew } idx := by
  induction shown with
  | opening isVisible => exact @Shown.opening rows { ctx with sortByNew } isVisible
  | reply _ parent leaf isVisible ih => exact .reply ih parent leaf isVisible

theorem mem_visibleSortedChildren {ci : Fin rows.length} : ci ∈ ctx.visibleSortedChildren idx ↔
    parentIdx rows ci = some idx ∧ retractedLeaf rows ci = false ∧ ctx.isVisible ci false = true := by
  unfold visibleSortedChildren sortChildren childrenMap
  rw [mem_filter, (perm_insertionSort _ _).mem_iff, mem_filter]
  simp

theorem Shown.child {ci : Fin rows.length} (shown : ctx.Shown idx) (mem : ci ∈ ctx.visibleSortedChildren idx) :
    ctx.Shown ci := by
  obtain ⟨parent, leaf, isVisible⟩ := mem_visibleSortedChildren.mp mem
  exact .reply shown parent leaf isVisible

variable {bodies : Uuid → Option BodyInfo} {attachments : Uuid → List AttachmentResponse}
  {focusPath : List (Fin rows.length)}

variable {bodies' : Uuid → Option BodyInfo} {attachments' : Uuid → List AttachmentResponse}

theorem buildTree_shows {post : PostView} (shown : ctx.Shown idx)
    (shows : (ctx.buildTree bodies attachments focusPath fuel idx depth).Shows post) :
    ∃ i, ctx.Shown i ∧ (rows.get i).id = post.id := by
  induction fuel generalizing idx depth with
  | zero =>
    cases shows with
    | self => exact ⟨idx, shown, rfl⟩
    | reply mem _ => cases mem
  | succ fuel ih =>
    cases shows with
    | self => exact ⟨idx, shown, rfl⟩
    | reply mem shows =>
      split at mem
      · cases mem
      · obtain ⟨ci, isChild, rfl⟩ := mem_map.mp mem
        exact ih (shown.child isChild) shows

theorem postView_agree (sameBody : bodies (rows.get idx).id = bodies' (rows.get idx).id)
    (sameFiles : attachments (rows.get idx).id = attachments' (rows.get idx).id) :
    ctx.postView bodies attachments idx = ctx.postView bodies' attachments' idx := by
  simp only [postView, sameBody, sameFiles]

theorem buildTree_agree (sameBodies : ∀ i, ctx.Shown i → bodies (rows.get i).id = bodies' (rows.get i).id)
    (sameFiles : ∀ i, ctx.Shown i → attachments (rows.get i).id = attachments' (rows.get i).id)
    (shown : ctx.Shown idx) : ctx.buildTree bodies attachments focusPath fuel idx depth =
      ctx.buildTree bodies' attachments' focusPath fuel idx depth := by
  have same := @postView_agree rows ctx idx bodies attachments bodies' attachments' (sameBodies idx shown)
    (sameFiles idx shown)
  induction fuel generalizing idx depth with
  | zero =>
    unfold buildTree
    rw [same]
  | succ fuel ih =>
    unfold buildTree
    dsimp only
    rw [same]
    congr 1
    split
    · rfl
    · refine map_congr_left fun ci mem => ?_
      have below := shown.child mem
      exact ih below (postView_agree (sameBodies ci below) (sameFiles ci below))

end TreeCtx

section Bound

variable (ctx : TreeCtx rows)

/-- A post as many replies below the opening post. -/
inductive TreeCtx.Below : Nat → Fin rows.length → Prop
  | opening : Below 0 ctx.tree.rootIdx
  | reply {depth parent idx} : Below depth parent → parentIdx rows idx = some parent → Below (depth + 1) idx

variable {ctx}

theorem TreeCtx.Below.unique {depth other : Nat} {idx : Fin rows.length} (below : ctx.Below depth idx)
    (again : ctx.Below other idx) : depth = other := by
  have parentless : parentIdx rows ctx.tree.rootIdx = none := by
    simp only [parentIdx, ctx.tree.opening, Option.bind_none]
  induction below generalizing other with
  | opening =>
    cases again with
    | opening => rfl
    | reply _ parent => exact absurd (parentless.symm.trans parent) nofun
  | reply _ parent ih =>
    cases again with
    | opening => exact absurd (parentless.symm.trans parent) nofun
    | reply above parent' =>
      cases parent.symm.trans parent'
      rw [ih above]

theorem TreeCtx.Below.path {depth : Nat} {idx : Fin rows.length} (below : ctx.Below depth idx) :
    ∃ path : List (Fin rows.length), path.length = depth + 1 ∧ path.Nodup ∧
      ∀ i ∈ path, ∃ above ≤ depth, ctx.Below above i := by
  induction below with
  | opening => exact ⟨[_], rfl, nodup_singleton _, fun i mem =>
      ⟨0, le_rfl, mem_singleton.mp mem ▸ .opening⟩⟩
  | @reply depth parent idx above isParent ih =>
    obtain ⟨path, length, nodup, placed⟩ := ih
    have here : ctx.Below (depth + 1) idx := .reply above isParent
    refine ⟨idx :: path, by rw [length_cons, length], nodup_cons.mpr ⟨?_, nodup⟩, ?_⟩
    · intro mem
      obtain ⟨other, within, again⟩ := placed idx mem
      have := here.unique again
      omega
    · intro i mem
      rcases mem_cons.mp mem with rfl | old
      · exact ⟨depth + 1, le_rfl, here⟩
      · obtain ⟨other, within, found⟩ := placed i old
        exact ⟨other, by omega, found⟩

theorem TreeCtx.Below.lt_length {depth : Nat} {idx : Fin rows.length} (below : ctx.Below depth idx) :
    depth < rows.length := by
  obtain ⟨path, length, nodup, -⟩ := below.path
  have := nodup.length_le_card
  rw [Fintype.card_fin] at this
  omega

/-- A walk from here ends before its steps do: it runs down from the opening post, or it counts its depth throughout. -/
def TreeCtx.Bounded (ctx : TreeCtx rows) (focusPath : List (Fin rows.length)) (fuel : Nat) (idx : Fin rows.length)
    (currentDepth : Nat) : Prop :=
  (∃ depth, ctx.Below depth idx ∧ rows.length ≤ fuel + depth) ∨
    (focusPath = [] ∧ maxDepth < fuel + currentDepth ∧ currentDepth ≤ maxDepth)

variable {focusPath : List (Fin rows.length)} {currentDepth : Nat} {idx ci : Fin rows.length}

theorem TreeCtx.Bounded.positive (bounded : ctx.Bounded focusPath fuel idx currentDepth) : fuel ≠ 0 := by
  obtain ⟨depth, below, enough⟩ | ⟨-, enough, within⟩ := bounded
  · have := below.lt_length
    omega
  · omega

theorem TreeCtx.Bounded.child (bounded : ctx.Bounded focusPath (fuel + 1) idx currentDepth)
    (uncut : cutOff focusPath idx currentDepth = false) (mem : ci ∈ ctx.visibleSortedChildren idx) :
    ctx.Bounded focusPath fuel ci (childDepth focusPath idx ci currentDepth) := by
  obtain ⟨depth, below, enough⟩ | ⟨rfl, enough, within⟩ := bounded
  · exact .inl ⟨depth + 1, .reply below (mem_visibleSortedChildren.mp mem).1, by omega⟩
  · have shallow : currentDepth < maxDepth := by simpa [cutOff] using uncut
    refine .inr ⟨rfl, ?_, ?_⟩ <;> simp only [childDepth, contains_nil, Bool.false_and, Bool.false_eq_true, if_false] <;>
      omega

theorem TreeCtx.bounded_start (enough : depthBound rows ≤ fuel) :
    (∀ idx ∈ ctx.visibleSortedChildren ctx.tree.rootIdx, ctx.Bounded focusPath fuel idx 1) ∧
      ∀ idx, ctx.Bounded [] fuel idx 0 := by
  unfold depthBound at enough
  refine ⟨fun idx mem => .inl ⟨1, ?_, by omega⟩, fun idx => .inr ⟨rfl, by omega, Nat.zero_le _⟩⟩
  exact .reply .opening (mem_visibleSortedChildren.mp mem).1

theorem TreeCtx.buildTree_succ (bodies : Uuid → Option BodyInfo) (attachments : Uuid → List AttachmentResponse) :
    ctx.buildTree bodies attachments focusPath (fuel + 1) idx currentDepth = .mk (ctx.postView bodies attachments idx)
        (if cutOff focusPath idx currentDepth then [] else (ctx.visibleSortedChildren idx).map fun ci =>
          ctx.buildTree bodies attachments focusPath fuel ci (childDepth focusPath idx ci currentDepth))
        (cutOff focusPath idx currentDepth && !(ctx.visibleSortedChildren idx).isEmpty) :=
  rfl

theorem TreeCtx.collectTruncated_succ : ctx.collectTruncated focusPath (fuel + 1) idx currentDepth =
    (rows.get idx).id :: if cutOff focusPath idx currentDepth then [] else (ctx.visibleSortedChildren idx).flatMap fun ci =>
      ctx.collectTruncated focusPath fuel ci (childDepth focusPath idx ci currentDepth) :=
  rfl

end Bound

variable {other store : PostStore} {info : ThreadInfo}

section Answers

variable {ctx : TreeCtx rows} {focusPath starts : List (Fin rows.length)}

theorem TreeCtx.Agree.fetched (agree : ctx.Agree store other) (postIds : List Uuid) (idx : Fin rows.length)
    (shown : ctx.Shown idx) :
    fetchBodies store postIds (rows.get idx).id = fetchBodies other postIds (rows.get idx).id ∧
      fetchLatestAttachments store postIds (rows.get idx).id = fetchLatestAttachments other postIds (rows.get idx).id := by
  unfold fetchBodies fetchLatestAttachments
  rw [agree.bodies idx shown, agree.attachments idx shown]
  exact ⟨rfl, rfl⟩

variable {postIds : List Uuid} {post : PostView} {focused : Option Uuid} {loaded : Option Nat}

theorem buildAll_shows {response : PostResponse}
    (shown : ∀ idx ∈ starts, ctx.Shown idx) (mem : response ∈ buildAll ctx store postIds focusPath starts depth)
    (shows : response.Shows post) : ∃ i, ctx.Shown i ∧ (rows.get i).id = post.id := by
  obtain ⟨idx, isStart, rfl⟩ := mem_map.mp mem
  exact buildTree_shows (shown idx isStart) shows

theorem buildAll_agree (agree : ctx.Agree store other) (shown : ∀ idx ∈ starts, ctx.Shown idx) :
    buildAll ctx store postIds focusPath starts depth = buildAll ctx other postIds focusPath starts depth := by
  refine map_congr_left fun idx isStart => ?_
  exact buildTree_agree (fun i seen => (agree.fetched postIds i seen).1) (fun i seen => (agree.fetched postIds i seen).2)
    (shown idx isStart)

theorem detailResponse_shows (isVisible : ctx.isVisible ctx.tree.rootIdx true = true)
    (replies : ∀ idx ∈ starts, idx ∈ ctx.visibleSortedChildren ctx.tree.rootIdx)
    (shows : (detailResponse ctx store info focusPath starts focused loaded).post.Shows post) :
    ∃ i, ctx.Shown i ∧ (rows.get i).id = post.id := by
  have opening : ctx.Shown ctx.tree.rootIdx := .opening isVisible
  cases shows with
  | self => exact ⟨_, opening, rfl⟩
  | reply mem shows => exact buildAll_shows (fun idx isStart => opening.child (replies idx isStart)) mem shows

theorem detailResponse_agree (agree : ctx.Agree store other) (isVisible : ctx.isVisible ctx.tree.rootIdx true = true)
    (replies : ∀ idx ∈ starts, idx ∈ ctx.visibleSortedChildren ctx.tree.rootIdx) :
    detailResponse ctx store info focusPath starts focused loaded =
      detailResponse ctx other info focusPath starts focused loaded := by
  have opening : ctx.Shown ctx.tree.rootIdx := .opening isVisible
  unfold detailResponse
  dsimp only
  rw [buildAll_agree agree fun idx isStart => opening.child (replies idx isStart)]
  obtain ⟨sameBody, sameFiles⟩ := agree.fetched ((rows.get ctx.tree.rootIdx).id :: collectAll ctx focusPath starts 1)
    ctx.tree.rootIdx opening
  rw [postView_agree sameBody sameFiles]

/-- What `get_thread` decides before it reads any text. -/
structure DetailPlan (rows : List PostMeta) where
  focusPath : List (Fin rows.length)
  topLevel : List (Fin rows.length)
  topLevelLoaded : Option Nat

theorem buildFocusedResponse_plan (ctx : TreeCtx rows) (info : ThreadInfo) (focusId : Uuid) :
    ∃ plan : Except ThreadError (DetailPlan rows),
      (∀ store, buildFocusedResponse ctx store info focusId = plan.map fun p =>
        detailResponse ctx store info p.focusPath p.topLevel (some focusId) p.topLevelLoaded) ∧
      ∀ p, plan = .ok p → ∀ idx ∈ p.topLevel, idx ∈ ctx.visibleSortedChildren ctx.tree.rootIdx := by
  have within : ∀ idx ∈ (ctx.visibleSortedChildren ctx.tree.rootIdx).take topLevelLimit,
      idx ∈ ctx.visibleSortedChildren ctx.tree.rootIdx := fun _ => mem_of_mem_take
  unfold buildFocusedResponse
  split
  · exact ⟨.error .postNotFound, fun _ => rfl, nofun⟩
  · rename_i focusIdx known
    by_cases hidden : (!ctx.isVisible focusIdx (focusIdx = ctx.tree.rootIdx)) = true
    · simp only [if_pos hidden]
      exact ⟨.error .postNotFound, fun _ => rfl, nofun⟩
    · simp only [if_neg hidden]
      split
      · refine ⟨.ok ⟨_, _, none⟩, fun _ => rfl, ?_⟩
        intro p planned
        cases planned
        exact within
      · rename_i ftl found
        split
        · refine ⟨.ok ⟨_, _, none⟩, fun _ => rfl, ?_⟩
          intro p planned
          cases planned
          exact within
        · refine ⟨.ok ⟨_, _, some _⟩, fun _ => rfl, ?_⟩
          intro p planned idx mem
          cases planned
          rcases mem_concat.mp mem with early | late
          · exact within idx early
          · rw [late]
            exact mem_of_find?_eq_some found

end Answers

namespace ThreadView

variable (view : ThreadView)

def Shown (postId : Uuid) : Prop :=
  ∃ info ctx, view.prepare .trust = .ok (info, ctx) ∧ ∃ idx, ctx.Shown idx ∧ (view.rows.get idx).id = postId

def Agree (store other : PostStore) : Prop :=
  ∀ postId, view.Shown postId →
    store.bodies postId = other.bodies postId ∧ store.attachments postId = other.attachments postId

end ThreadView

def ThreadAnswer.Shows : ThreadAnswer → PostView → Prop
  | .detail response, post => response.post.Shows post
  | .replies page _, post => ∃ response ∈ page, response.Shows post
  | .subtree response, post => response.Shows post

structure ThreadViewRequest.Discreet (view : ThreadView) (request : ThreadViewRequest) : Prop where
  posts : ∀ store answer post, view.answer store request = .ok answer → answer.Shows post → view.Shown post.id
  texts : ∀ store other, view.Agree store other → view.answer store request = view.answer other request
  hidden : ∀ store sort, view.getThread store sort none = .error .threadNotFound →
    ∀ other answer post, view.answer other request = .ok answer → ¬ answer.Shows post

def TreeCtx.visibleReplies {rows : List PostMeta} (ctx : TreeCtx rows) : Nat :=
  (childrenMap rows ctx.tree.rootIdx).countP fun ci => !retractedLeaf rows ci && ctx.isVisible ci false

/-- Where a request enters the tree, it enters at shown posts: the replies of a visible opening post or a page past all
of them, and for a subtree a post that is unknown, invisible by itself or shown. -/
def ThreadViewRequest.EntersShown (view : ThreadView) : ThreadViewRequest → Prop
  | .thread _ _ => True
  | .replies sort offset => ∀ info ctx, view.prepare sort = .ok (info, ctx) →
      ctx.isVisible ctx.tree.rootIdx true = true ∨ ctx.visibleReplies ≤ offset
  | .subtree sort postId => ∀ info ctx idx, view.prepare sort = .ok (info, ctx) → idToIndex view.rows postId = some idx →
      ctx.isVisible idx (idx = ctx.tree.rootIdx) = true → view.Shown postId

section Requests

variable {view : ThreadView} {ctx : TreeCtx view.rows} {sort : PostSort}

theorem ThreadView.prepare_resort (prepared : view.prepare sort = .ok (info, ctx)) (again : PostSort) :
    view.prepare again = .ok (info, { ctx with sortByNew := decide (again = .new) }) := by
  unfold prepare at prepared ⊢
  split at prepared
  · cases prepared
  · split at prepared
    · cases prepared
    · rename_i entitled
      rw [if_neg entitled]
      split at prepared
      · cases prepared
      · cases prepared
        rfl

variable {postId : Uuid}

theorem ThreadView.shown_iff (prepared : view.prepare sort = .ok (info, ctx)) :
    view.Shown postId ↔ ∃ idx, ctx.Shown idx ∧ (view.rows.get idx).id = postId := by
  constructor
  · rintro ⟨info', ctx', prepared', idx, shown, named⟩
    cases (prepare_resort prepared .trust).symm.trans prepared'
    have back := @TreeCtx.Shown.resort _ _ _ ctx.sortByNew shown
    exact ⟨idx, back, named⟩
  · rintro ⟨idx, shown, named⟩
    exact ⟨info, _, prepare_resort prepared .trust, idx, shown.resort, named⟩

theorem ThreadView.Agree.within (agree : view.Agree store other) (prepared : view.prepare sort = .ok (info, ctx)) :
    ctx.Agree store other where
  bodies idx shown := (agree _ ((shown_iff prepared).mpr ⟨idx, shown, rfl⟩)).1
  attachments idx shown := (agree _ ((shown_iff prepared).mpr ⟨idx, shown, rfl⟩)).2

theorem ThreadView.getThread_prepared (prepared : view.prepare sort = .ok (info, ctx)) (focus : Option Uuid) :
    view.getThread store sort focus =
      if ctx.isVisible ctx.tree.rootIdx true then
        focus.elim (.ok (detailResponse ctx store info []
          ((ctx.visibleSortedChildren ctx.tree.rootIdx).take topLevelLimit) none none)) (buildFocusedResponse ctx store info)
      else
        .error .threadNotFound := by
  unfold getThread
  rw [prepared]
  cases isVisible : ctx.isVisible ctx.tree.rootIdx true <;> cases focus <;> simp [bind, Except.bind, isVisible]

theorem ThreadView.getThread_notFound (missing : view.getThread store sort none = .error .threadNotFound) {again : PostSort}
    (prepared : view.prepare again = .ok (info, ctx)) : ctx.isVisible ctx.tree.rootIdx true = false := by
  rw [getThread_prepared (prepare_resort prepared sort)] at missing
  by_contra seen
  have isVisible : ctx.isVisible ctx.tree.rootIdx true = true := by simpa using seen
  rw [if_pos (by exact isVisible)] at missing
  cases missing

theorem TreeCtx.visibleSortedChildren_length :
    (ctx.visibleSortedChildren ctx.tree.rootIdx).length = ctx.visibleReplies := by
  unfold visibleSortedChildren sortChildren visibleReplies
  rw [((perm_insertionSort _ _).filter _).length_eq, countP_eq_length_filter]

theorem ThreadViewRequest.Discreet.of_posts {request : ThreadViewRequest}
    (posts : ∀ store answer post, view.answer store request = .ok answer → answer.Shows post → view.Shown post.id)
    (texts : ∀ store other, view.Agree store other → view.answer store request = view.answer other request) :
    request.Discreet view where
  posts := posts
  texts := texts
  hidden store sort missing other answer post answered shows := by
    obtain ⟨info, ctx, prepared, idx, shown, -⟩ := posts other answer post answered shows
    have hidden := getThread_notFound missing prepared
    exact absurd shown.root (by simp [hidden])

theorem ThreadView.getThread_plan (prepared : view.prepare sort = .ok (info, ctx)) (focus : Option Uuid) :
    ∃ plan : Except ThreadError (DetailPlan view.rows), (∀ store, view.getThread store sort focus = plan.map fun p =>
        detailResponse ctx store info p.focusPath p.topLevel focus p.topLevelLoaded) ∧
      ∀ p, plan = .ok p → ctx.isVisible ctx.tree.rootIdx true = true ∧
        ∀ idx ∈ p.topLevel, idx ∈ ctx.visibleSortedChildren ctx.tree.rootIdx := by
  simp only [getThread_prepared prepared]
  cases isVisible : ctx.isVisible ctx.tree.rootIdx true with
  | false => exact ⟨.error .threadNotFound, fun _ => rfl, nofun⟩
  | true =>
    simp only [if_true, true_and]
    cases focus with
    | some focusId => exact buildFocusedResponse_plan ctx info focusId
    | none =>
      refine ⟨.ok ⟨[], _, none⟩, fun _ => rfl, ?_⟩
      intro p planned
      cases planned
      exact fun _ => mem_of_mem_take

theorem ThreadView.getThread_unprepared {error : ThreadError} (failed : view.prepare sort = .error error)
    (focus : Option Uuid) : view.getThread store sort focus = .error error := by
  unfold getThread
  rw [failed]
  rfl

theorem ThreadView.getThread_discreet (sort : PostSort) (focus : Option Uuid) :
    (ThreadViewRequest.thread sort focus).Discreet view := by
  cases prepared : view.prepare sort with
  | error error =>
    have refused : ∀ store, view.answer store (.thread sort focus) = .error error := by
      intro store
      rw [ThreadView.answer, getThread_unprepared prepared focus]
      rfl
    refine .of_posts (fun store answer post answered _ => ?_) fun store other _ => ?_
    · cases (refused store).symm.trans answered
    · rw [refused, refused]
  | ok loaded =>
    obtain ⟨info, ctx⟩ := loaded
    obtain ⟨plan, planned, sane⟩ := getThread_plan prepared focus
    have answers : ∀ store, view.answer store (.thread sort focus) = plan.map fun p =>
        .detail (detailResponse ctx store info p.focusPath p.topLevel focus p.topLevelLoaded) := by
      intro store
      rw [ThreadView.answer, planned store]
      cases plan <;> rfl
    refine .of_posts (fun store answer post answered shows => ?_) fun store other agree => ?_
    · rw [answers store] at answered
      cases plan with
      | error error => cases answered
      | ok p =>
        cases answered
        obtain ⟨isVisible, replies⟩ := sane p rfl
        exact (shown_iff prepared).mpr (detailResponse_shows isVisible replies shows)
    · rw [answers store, answers other]
      cases plan with
      | error error => rfl
      | ok p =>
        obtain ⟨isVisible, replies⟩ := sane p rfl
        exact congrArg (fun response => Except.ok (ThreadAnswer.detail response))
          (detailResponse_agree (agree.within prepared) isVisible replies)

theorem ThreadView.getThreadReplies_discreet (sort : PostSort) (offset : Nat) :
    (ThreadViewRequest.replies sort offset).Discreet view ↔ (ThreadViewRequest.replies sort offset).EntersShown view := by
  cases prepared : view.prepare sort with
  | error error =>
    have refused : ∀ store, view.answer store (.replies sort offset) = .error error := by
      intro store
      simp [ThreadView.answer, getThreadReplies, prepared, bind, Except.bind, Except.map]
    refine ⟨fun _ => ?_, fun _ => .of_posts (fun store answer post answered _ => ?_) fun store other _ => ?_⟩
    · intro info ctx prepared'
      cases prepared.symm.trans prepared'
    · cases (refused store).symm.trans answered
    · rw [refused, refused]
  | ok loaded =>
    obtain ⟨info, ctx⟩ := loaded
    let page := (((ctx.visibleSortedChildren ctx.tree.rootIdx).drop offset).take (repliesPageSize + 1)).take repliesPageSize
    have within : ∀ idx ∈ page, idx ∈ ctx.visibleSortedChildren ctx.tree.rootIdx :=
      fun idx mem => mem_of_mem_drop (mem_of_mem_take (mem_of_mem_take mem))
    obtain ⟨more, answers⟩ : ∃ more, ∀ store, view.answer store (.replies sort offset) =
        .ok (.replies (buildAll ctx store (collectAll ctx [] page 1) [] page 1) more) := by
      refine ⟨decide (repliesPageSize < (((ctx.visibleSortedChildren ctx.tree.rootIdx).drop offset).take
        (repliesPageSize + 1)).length), fun store => ?_⟩
      simp only [ThreadView.answer, getThreadReplies, prepared, bind, Except.bind, Except.map, pure, Except.pure]
      rfl
    constructor
    · intro discreet info' ctx' prepared'
      cases prepared.symm.trans prepared'
      by_contra enters
      push Not at enters
      obtain ⟨hidden, beyond⟩ := enters
      rw [← visibleSortedChildren_length] at beyond
      -- the first reply of the page is part of the answer, below a hidden opening post
      obtain ⟨first, rest, isPage⟩ : ∃ first rest, page = first :: rest := by
        refine exists_cons_of_ne_nil fun empty => ?_
        have : page.length = 0 := by rw [empty, length_nil]
        simp only [page, length_take, length_drop, repliesPageSize] at this
        omega
      let store : PostStore := ⟨fun _ => none, fun _ => []⟩
      have shows : (ThreadAnswer.replies (buildAll ctx store (collectAll ctx [] page 1) [] page 1) more).Shows
          (ctx.postView (fetchBodies store (collectAll ctx [] page 1))
            (fetchLatestAttachments store (collectAll ctx [] page 1)) first) := by
        refine ⟨_, mem_map.mpr ⟨first, by rw [isPage]; exact mem_cons_self, rfl⟩, ?_⟩
        exact .self
      obtain ⟨idx, shown, -⟩ := (shown_iff prepared).mp (discreet.posts store _ _ (answers store) shows)
      exact hidden shown.root
    · intro enters
      have shown : ∀ idx ∈ page, ctx.Shown idx := by
        intro idx mem
        rcases enters info ctx prepared with isVisible | past
        · exact (TreeCtx.Shown.opening isVisible).child (within idx mem)
        · rw [← visibleSortedChildren_length] at past
          simp [page, drop_eq_nil_of_le past] at mem
      refine .of_posts (fun store answer post answered shows => ?_) fun store other agree => ?_
      · cases (answers store).symm.trans answered
        obtain ⟨response, mem, below⟩ := shows
        exact (shown_iff prepared).mpr (buildAll_shows shown mem below)
      · rw [answers, answers, buildAll_agree (agree.within prepared) shown]

theorem idToIndex_id {id : Uuid} {idx : Fin rows.length} (found : idToIndex rows id = some idx) :
    (rows.get idx).id = id := by
  simpa using find?_some found

theorem index_unique (distinct : (rows.map (·.id)).Nodup) {i j : Fin rows.length}
    (same : (rows.get i).id = (rows.get j).id) : i = j := by
  have equal := inj_on_of_nodup_map distinct (get_mem rows i) (get_mem rows j) same
  exact nodup_iff_injective_get.mp distinct.of_map equal

theorem ThreadView.answer_subtree {idx : Fin view.rows.length} (prepared : view.prepare sort = .ok (info, ctx))
    (known : idToIndex view.rows postId = some idx) (isVisible : ctx.isVisible idx (idx = ctx.tree.rootIdx) = true)
    (store : PostStore) : view.answer store (.subtree sort postId) =
      let postIds := ctx.collectTruncated [] (TreeCtx.depthBound view.rows) idx 0
      .ok (.subtree (ctx.buildTree (fetchBodies store postIds) (fetchLatestAttachments store postIds) []
        (TreeCtx.depthBound view.rows) idx 0)) := by
  simp only [ThreadView.answer, getThreadSubtree, prepared, bind, Except.bind, known, isVisible, Bool.not_true,
    Bool.false_eq_true, if_false]
  rfl

theorem ThreadView.getThreadSubtree_discreet (sort : PostSort) (postId : Uuid) :
    (ThreadViewRequest.subtree sort postId).Discreet view ↔ (ThreadViewRequest.subtree sort postId).EntersShown view := by
  by_cases answered : ∃ info ctx idx, view.prepare sort = .ok (info, ctx) ∧ idToIndex view.rows postId = some idx ∧
      ctx.isVisible idx (idx = ctx.tree.rootIdx) = true
  · obtain ⟨info, ctx, subtreeRoot, prepared, known, isVisible⟩ := answered
    let postIds := ctx.collectTruncated [] (TreeCtx.depthBound view.rows) subtreeRoot 0
    let tree := fun store => ctx.buildTree (fetchBodies store postIds) (fetchLatestAttachments store postIds) []
      (TreeCtx.depthBound view.rows) subtreeRoot 0
    have answers : ∀ store, view.answer store (.subtree sort postId) = .ok (.subtree (tree store)) :=
      answer_subtree prepared known isVisible
    constructor
    · intro discreet info' ctx' idx prepared' known' _
      have shows : (ThreadAnswer.subtree (tree ⟨fun _ => none, fun _ => []⟩)).Shows
          (ctx.postView (fetchBodies _ postIds) (fetchLatestAttachments _ postIds) subtreeRoot) := .self
      have shown := discreet.posts _ _ _ (answers _) shows
      rw [← idToIndex_id known]
      exact shown
    · intro enters
      obtain ⟨idx, shown, named⟩ := (shown_iff prepared).mp (enters info ctx subtreeRoot prepared known isVisible)
      rw [index_unique view.distinct (named.trans (idToIndex_id known).symm)] at shown
      refine .of_posts (fun store answer post answered shows => ?_) fun store other agree => ?_
      · cases (answers store).symm.trans answered
        exact (shown_iff prepared).mpr (buildTree_shows shown shows)
      · rw [answers, answers]
        have agrees := agree.within prepared
        exact congrArg (fun post => Except.ok (ThreadAnswer.subtree post))
          (buildTree_agree (fun i seen => (agrees.fetched postIds i seen).1)
            (fun i seen => (agrees.fetched postIds i seen).2) shown)
  · have refused : ∃ error, ∀ store, view.answer store (.subtree sort postId) = .error error := by
      cases prepared : view.prepare sort with
      | error error =>
        refine ⟨error, fun store => ?_⟩
        simp [ThreadView.answer, getThreadSubtree, prepared, bind, Except.bind, Except.map]
      | ok loaded =>
        refine ⟨.postNotFound, fun store => ?_⟩
        cases known : idToIndex view.rows postId with
        | none => simp [ThreadView.answer, getThreadSubtree, prepared, known, bind, Except.bind, Except.map]
        | some idx =>
          have hidden : loaded.2.isVisible idx (idx = loaded.2.tree.rootIdx) = false := by
            by_contra isVisible
            exact answered ⟨loaded.1, loaded.2, idx, prepared, known, by simpa using isVisible⟩
          simp [ThreadView.answer, getThreadSubtree, prepared, known, hidden, bind, Except.bind, Except.map]
    obtain ⟨error, refused⟩ := refused
    refine ⟨fun _ => ?_, fun _ => .of_posts (fun store answer post given _ => ?_) fun store other _ => ?_⟩
    · intro info ctx idx prepared known isVisible
      exact absurd ⟨info, ctx, idx, prepared, known, isVisible⟩ answered
    · cases (refused store).symm.trans given
    · rw [refused, refused]

end Requests

/-- A request to the thread endpoints shows nothing that the thread view prunes if and only if it enters the tree at shown
posts. -/
theorem discreet_iff_entersShown (view : ThreadView) (request : ThreadViewRequest) :
    request.Discreet view ↔ request.EntersShown view := by
  cases request with
  | thread sort focus => exact ⟨fun _ => trivial, fun _ => getThread_discreet sort focus⟩
  | replies sort offset => exact getThreadReplies_discreet sort offset
  | subtree sort postId => exact getThreadSubtree_discreet sort postId

def plainPost (id author : Uuid) (parentId : Option Uuid) : PostMeta :=
  ⟨id, parentId, author, "name", 0, .active, "2026", none, false⟩

def prunedViewer : ViewerCtx where
  trustMap author := if author = 11 then some 1 else none
  reverseMap author := if author = 11 then some 1 else none
  distrustSet := [10]
  tagMap _ := none
  readerId := some 20

def prunedInfo : ThreadInfo :=
  ⟨7, "title", 10, "name", 0, "2026", 8, "room", false, false, none⟩

/-- A trusted reply to an opening post whose author the reader distrusts. -/
def prunedThread : ThreadView where
  info := some prunedInfo
  rows := [plainPost 1 10 none, plainPost 2 11 (some 1)]
  viewer := prunedViewer
  distinct := by decide

/-- A trusted reply below a reply that the reader cannot see. -/
def prunedBranch : ThreadView where
  info := some prunedInfo
  rows := [plainPost 1 11 none, plainPost 2 12 (some 1), plainPost 3 11 (some 2)]
  viewer := prunedViewer
  distinct := by decide

def prunedStore : PostStore where
  bodies id := some ⟨if id = 1 then "opening" else if id = 2 then "reply" else "nested", none, 0⟩
  attachments _ := []

/-- The thread is not found, but its replies are listed; the branch is pruned, but its subtree is served. -/
theorem pruned_posts_served : prunedThread.getThread prunedStore .trust none = .error .threadNotFound ∧
    (∃ answer post, prunedThread.answer prunedStore (.replies .trust 0) = .ok answer ∧ answer.Shows post ∧
      post.body = "reply") ∧
    (∃ answer post, prunedBranch.answer prunedStore (.subtree .trust 3) = .ok answer ∧ answer.Shows post ∧
      post.body = "nested") ∧
    ¬ (ThreadViewRequest.replies .trust 0).Discreet prunedThread ∧
    ¬ (ThreadViewRequest.subtree .trust 3).Discreet prunedBranch := by
  have missing : prunedThread.getThread prunedStore .trust none = .error .threadNotFound := rfl
  have listed : ∃ answer post, prunedThread.answer prunedStore (.replies .trust 0) = .ok answer ∧ answer.Shows post ∧
      post.body = "reply" := by
    refine ⟨_, _, rfl, ⟨_, mem_map.mpr ⟨⟨1, by decide⟩, by decide +kernel, rfl⟩, .self⟩, ?_⟩
    decide +kernel
  have served : ∃ answer post, prunedBranch.answer prunedStore (.subtree .trust 3) = .ok answer ∧ answer.Shows post ∧
      post.body = "nested" := by
    have answered := @answer_subtree _ prunedBranch _ .trust 3 ⟨2, by decide⟩ rfl rfl (by decide +kernel)
      prunedStore
    refine ⟨_, _, answered, PostResponse.Shows.self, ?_⟩
    decide +kernel
  refine ⟨missing, listed, served, ?_, ?_⟩
  · intro discreet
    obtain ⟨answer, post, answered, shows, -⟩ := listed
    exact discreet.hidden _ _ missing _ _ _ answered shows
  · rw [getThreadSubtree_discreet]
    intro enters
    obtain ⟨info, ctx, prepared, idx, shown, named⟩ := enters _ _ ⟨2, by decide⟩ rfl rfl (by decide +kernel)
    have nested : idx = ⟨2, by decide⟩ := index_unique prunedBranch.distinct named
    subst nested
    have above := (@TreeCtx.Shown.above _ _ _ ⟨1, by decide⟩ shown rfl).1
    have isVisible := (@TreeCtx.Shown.above _ _ _ ⟨0, by decide⟩ above rfl).2
    cases prepared
    revert isVisible
    decide +kernel

end Prismoire
