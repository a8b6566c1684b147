import Prismoire.Lib.Preorder
import Prismoire.ThreadPruning

namespace Prismoire

open Lib List TreeCtx ThreadView

def postsOf : List PostResponse → List PostView
  | [] => []
  | .mk post children _ :: rest => post :: postsOf children ++ postsOf rest

inductive PostResponse.Within : PostResponse → PostResponse → Prop
  | self {response} : Within response response
  | child {response post children more child} :
      child ∈ children → Within response child → Within response (.mk post children more)

def PostResponse.post : PostResponse → PostView
  | .mk post _ _ => post

def PostResponse.children : PostResponse → List PostResponse
  | .mk _ children _ => children

structure LoadedThread where
  post : PostResponse
  hasMoreReplies : Bool

section Reader

variable (view : ThreadView) (store : PostStore) (sort : PostSort)

/-- A post that announces more gives way to its subtree. -/
inductive Expands : PostResponse → PostResponse → Prop
  | here {post children fresh} :
      view.getThreadSubtree store sort post.id = .ok fresh → Expands (.mk post children true) fresh
  | inside {post above child child' after more} : Expands child child' →
      Expands (.mk post (above ++ child :: after) more) (.mk post (above ++ child' :: after) more)

/-- One request of the reader; they come in any order. -/
inductive LoadStep : LoadedThread → LoadedThread → Prop
  | replies {post children more replies hasMore} :
      view.getThreadReplies store sort children.length = .ok (replies, hasMore) →
      LoadStep ⟨.mk post children more, true⟩ ⟨.mk post (children ++ replies) more, hasMore⟩
  | subtree {post post' hasMore} : Expands view store sort post post' → LoadStep ⟨post, hasMore⟩ ⟨post', hasMore⟩

inductive LoadRun : Nat → LoadedThread → LoadedThread → Prop
  | start {loaded} : LoadRun 0 loaded loaded
  | step {count start middle loaded} :
      LoadRun count start middle → LoadStep view store sort middle loaded → LoadRun (count + 1) start loaded

end Reader

/-- Nothing that the reader has loaded announces more. -/
structure LoadedThread.Done (loaded : LoadedThread) : Prop where
  replies : loaded.hasMoreReplies = false
  subtrees : ∀ post children, ¬ (PostResponse.mk post children true).Within loaded.post

variable {rows : List PostMeta}

namespace TreeCtx

variable (ctx : TreeCtx rows) (store : PostStore)

/-- A post with its latest texts. -/
def fullView (idx : Fin rows.length) : PostView :=
  ctx.postView store.bodies store.attachments idx

inductive Partly : Fin rows.length → PostResponse → Prop
  | cut {idx} : ctx.visibleSortedChildren idx ≠ [] → Partly idx (.mk (ctx.fullView store idx) [] true)
  | grown {idx children} : (ctx.visibleSortedChildren idx).length = children.length →
      (∀ pair ∈ (ctx.visibleSortedChildren idx).zip children, Partly pair.1 pair.2) →
      Partly idx (.mk (ctx.fullView store idx) children false)

/-- What is below a post, to the end. -/
def grownTree : Nat → Fin rows.length → PostResponse
  | 0, idx => .mk (ctx.fullView store idx) [] false
  | fuel + 1, idx => .mk (ctx.fullView store idx) ((ctx.visibleSortedChildren idx).map (grownTree fuel)) false

/-- All that is shown of the thread from the opening post on, each post once and under its parent. -/
structure Complete (post : PostResponse) : Prop where
  once : ((postsOf [post]).map (·.id)).Nodup
  reached : ∀ idx, (rows.get idx).id ∈ (postsOf [post]).map (·.id) ↔
    ∃ depth, Descends ctx.visibleSortedChildren ctx.tree.rootIdx depth idx
  whole : ∀ seen ∈ postsOf [post], ∃ idx, seen = ctx.fullView store idx
  ordered : ∀ response : PostResponse, response.Within post → ∃ idx, response.post = ctx.fullView store idx ∧
    response.children.map (·.post) = (ctx.visibleSortedChildren idx).map (ctx.fullView store)
  parents : ∀ response : PostResponse, response.Within post → ∀ child ∈ response.children,
    child.post.parentId = some response.post.id

end TreeCtx

variable {depth fuel : Nat} {response : PostResponse} {seen : PostView}

section Trees

variable {ctx : TreeCtx rows} {idx : Fin rows.length}

theorem TreeCtx.rooted (ctx : TreeCtx rows) : Rooted ctx.visibleSortedChildren ctx.tree.rootIdx where
  apart idx := by
    refine List.Nodup.filter _ ((perm_insertionSort _ _).nodup_iff.mpr ?_)
    exact (nodup_finRange _).filter _
  single inA inB := Option.some.inj ((mem_visibleSortedChildren.mp inA).1.symm.trans (mem_visibleSortedChildren.mp inB).1)
  top idx mem := by
    have isParent := (mem_visibleSortedChildren.mp mem).1
    simp only [parentIdx, ctx.tree.opening, Option.bind_none] at isParent
    cases isParent

theorem TreeCtx.below_of_descends (descends : Descends ctx.visibleSortedChildren ctx.tree.rootIdx depth idx) :
    ctx.Below depth idx := by
  induction descends with
  | here => exact .opening
  | child _ mem ih => exact .reply ih (mem_visibleSortedChildren.mp mem).1

theorem TreeCtx.shown_iff_descends (isVisible : ctx.isVisible ctx.tree.rootIdx true = true) :
    ctx.Shown idx ↔ ∃ depth, Descends ctx.visibleSortedChildren ctx.tree.rootIdx depth idx := by
  constructor
  · intro shown
    induction shown with
    | opening _ => exact ⟨0, .here⟩
    | reply _ parent leaf visible ih =>
      obtain ⟨depth, descends⟩ := ih
      exact ⟨depth + 1, descends.child (mem_visibleSortedChildren.mpr ⟨parent, leaf, visible⟩)⟩
  · rintro ⟨depth, descends⟩
    induction descends with
    | here => exact .opening isVisible
    | child _ mem ih => exact ih.child mem

theorem TreeCtx.mem_preorder_root (enough : rows.length ≤ fuel) :
    idx ∈ preorder ctx.visibleSortedChildren fuel ctx.tree.rootIdx ↔
      ∃ depth, Descends ctx.visibleSortedChildren ctx.tree.rootIdx depth idx := by
  rw [mem_preorder]
  constructor
  · rintro ⟨depth, -, descends⟩
    exact ⟨depth, descends⟩
  · rintro ⟨depth, descends⟩
    exact ⟨depth, by have := (below_of_descends descends).lt_length; omega, descends⟩

theorem TreeCtx.countVisibleReplies_eq (ctx : TreeCtx rows) (idx : Fin rows.length) :
    ctx.countVisibleReplies fuel idx + 1 = (preorder ctx.visibleSortedChildren (fuel + 1) idx).length := by
  induction fuel generalizing idx with
  | zero => simp [countVisibleReplies, preorder]
  | succ fuel ih =>
    rw [length_preorder, countVisibleReplies]
    have each : ((ctx.visibleSortedChildren idx).map fun kid =>
        (preorder ctx.visibleSortedChildren (fuel + 1) kid).length).sum =
          ((ctx.visibleSortedChildren idx).map fun kid => ctx.countVisibleReplies fuel kid + 1).sum :=
      congrArg List.sum (map_congr_left fun kid _ => (ih kid).symm)
    have ones : ((ctx.visibleSortedChildren idx).map fun _ => 1).sum = (ctx.visibleSortedChildren idx).length := by simp
    rw [each, sum_map_add, ones]
    omega

end Trees

section Responses

theorem postsOf_nil : postsOf [] = [] := by
  rw [postsOf]

theorem postsOf_append (left right : List PostResponse) : postsOf (left ++ right) = postsOf left ++ postsOf right := by
  induction left with
  | nil => rw [nil_append, postsOf_nil, nil_append]
  | cons response left ih =>
    obtain ⟨post, children, more⟩ := response
    simp only [cons_append, postsOf, ih, append_assoc]

theorem postsOf_map {α : Type} (items : List α) (build : α → PostResponse) :
    postsOf (items.map build) = items.flatMap fun item => postsOf [build item] := by
  induction items with
  | nil => exact postsOf_nil
  | cons item items ih => rw [map_cons, ← singleton_append, postsOf_append, ih, flatMap_cons]

theorem postsOf_mk (post : PostView) (children : List PostResponse) (more : Bool) :
    postsOf [.mk post children more] = post :: postsOf children := by
  simp [postsOf]

variable {ctx : TreeCtx rows} {store : PostStore} {idx : Fin rows.length} {focusPath starts : List (Fin rows.length)}

theorem TreeCtx.collectTruncated_eq {bodies : Uuid → Option BodyInfo} {attachments : Uuid → List AttachmentResponse}
    (bounded : ctx.Bounded focusPath fuel idx depth) :
    ctx.collectTruncated focusPath fuel idx depth =
      (postsOf [ctx.buildTree bodies attachments focusPath fuel idx depth]).map (·.id) := by
  induction fuel generalizing idx depth with
  | zero => exact absurd rfl bounded.positive
  | succ fuel ih =>
    rw [collectTruncated_succ, buildTree_succ, postsOf_mk, map_cons]
    congr 1
    cases uncut : cutOff focusPath idx depth with
    | true => rw [if_pos rfl, if_pos rfl, postsOf_nil, map_nil]
    | false =>
      rw [if_neg Bool.false_ne_true, if_neg Bool.false_ne_true, postsOf_map, map_flatMap]
      exact flatMap_congr fun ci mem => ih (bounded.child uncut mem)

variable {postIds : List Uuid}

theorem collectAll_eq (bounded : ∀ idx ∈ starts, ctx.Bounded focusPath (TreeCtx.depthBound rows) idx depth) :
    collectAll ctx focusPath starts depth =
      (postsOf (buildAll ctx store postIds focusPath starts depth)).map (·.id) := by
  unfold collectAll buildAll
  rw [postsOf_map, map_flatMap]
  exact flatMap_congr fun idx isStart => collectTruncated_eq (bounded idx isStart)

theorem TreeCtx.postView_fetched (fetched : (rows.get idx).id ∈ postIds) :
    ctx.postView (fetchBodies store postIds) (fetchLatestAttachments store postIds) idx = ctx.fullView store idx := by
  have known : postIds.contains (rows.get idx).id = true := contains_iff_mem.mpr fetched
  refine postView_agree ?_ ?_
  · rw [fetchBodies, if_pos known]
  · rw [fetchLatestAttachments, if_pos known]

theorem TreeCtx.buildTree_fetched (bounded : ctx.Bounded focusPath fuel idx depth)
    (fetched : ∀ id ∈ ctx.collectTruncated focusPath fuel idx depth, id ∈ postIds) :
    ctx.buildTree (fetchBodies store postIds) (fetchLatestAttachments store postIds) focusPath fuel idx depth =
      ctx.buildTree store.bodies store.attachments focusPath fuel idx depth := by
  induction fuel generalizing idx depth with
  | zero => exact absurd rfl bounded.positive
  | succ fuel ih =>
    rw [collectTruncated_succ] at fetched
    rw [buildTree_succ, buildTree_succ, postView_fetched (fetched _ mem_cons_self)]
    cases uncut : cutOff focusPath idx depth with
    | true => rfl
    | false =>
      rw [uncut, if_neg Bool.false_ne_true] at fetched
      congr 1
      refine map_congr_left fun ci mem => ih (bounded.child uncut mem) fun id below => ?_
      exact fetched id (mem_cons_of_mem _ (mem_flatMap.mpr ⟨ci, mem, below⟩))

theorem buildAll_fetched (bounded : ∀ idx ∈ starts, ctx.Bounded focusPath (TreeCtx.depthBound rows) idx depth)
    (fetched : ∀ id ∈ collectAll ctx focusPath starts depth, id ∈ postIds) :
    buildAll ctx store postIds focusPath starts depth = starts.map fun idx =>
      ctx.buildTree store.bodies store.attachments focusPath (TreeCtx.depthBound rows) idx depth := by
  refine map_congr_left fun idx isStart => buildTree_fetched (bounded idx isStart) fun id below => ?_
  exact fetched id (mem_flatMap.mpr ⟨idx, isStart, below⟩)

theorem TreeCtx.buildTree_views
    (mem : seen ∈ postsOf [ctx.buildTree store.bodies store.attachments focusPath fuel idx depth]) :
    ∃ i, seen = ctx.fullView store i := by
  induction fuel generalizing idx depth with
  | zero =>
    rw [buildTree, postsOf_mk] at mem
    exact ⟨idx, by simpa [postsOf, fullView] using mem⟩
  | succ fuel ih =>
    rw [buildTree_succ, postsOf_mk] at mem
    rcases mem_cons.mp mem with rfl | below
    · exact ⟨idx, rfl⟩
    · split at below
      · simp [postsOf] at below
      · rw [postsOf_map] at below
        obtain ⟨ci, -, below⟩ := mem_flatMap.mp below
        exact ih below

end Responses

section Growing

variable {ctx : TreeCtx rows} {store : PostStore} {idx : Fin rows.length} {post : PostView}
    {children : List PostResponse}

theorem TreeCtx.partly_mk : ctx.Partly store idx (.mk post children false) ↔
    post = ctx.fullView store idx ∧ List.Forall₂ (ctx.Partly store) (ctx.visibleSortedChildren idx) children := by
  rw [forall₂_iff_zip]
  constructor
  · intro partly
    cases partly with
    | grown length each => exact ⟨rfl, length, fun mem => each _ mem⟩
  · rintro ⟨rfl, length, each⟩
    exact .grown length fun pair mem => each mem

theorem TreeCtx.partly_buildTree (bounded : ctx.Bounded [] fuel idx depth) :
    ctx.Partly store idx (ctx.buildTree store.bodies store.attachments [] fuel idx depth) := by
  induction fuel generalizing idx depth with
  | zero => exact absurd rfl bounded.positive
  | succ fuel ih =>
    rw [buildTree_succ]
    cases uncut : cutOff [] idx depth with
    | false =>
      rw [if_neg Bool.false_ne_true, Bool.false_and, partly_mk, forall₂_map_right_iff]
      exact ⟨rfl, forall₂_same.mpr fun ci mem => ih (bounded.child uncut mem)⟩
    | true =>
      rw [if_pos rfl, Bool.true_and]
      cases kids : ctx.visibleSortedChildren idx with
      | nil => exact partly_mk.mpr ⟨rfl, kids ▸ .nil⟩
      | cons => exact .cut (by simp [kids])

theorem forall₂_replace {α β : Type} {r : α → β → Prop} {items : List α} {above after : List β} {old new : β}
    (related : List.Forall₂ r items (above ++ old :: after)) (keeps : ∀ item ∈ items, r item old → r item new) :
    List.Forall₂ r items (above ++ new :: after) := by
  have front := forall₂_take_append items above (old :: after) related
  have back := forall₂_drop_append items above (old :: after) related
  obtain ⟨item, rest, here, later, split⟩ := forall₂_cons_right_iff.mp back
  have mem : item ∈ items := mem_of_mem_drop (split ▸ mem_cons_self)
  rw [← take_append_drop above.length items, split]
  exact rel_append front (.cons (keeps item mem here) later)

theorem TreeCtx.bounded_subtree (ctx : TreeCtx rows) (idx : Fin rows.length) : ctx.Bounded [] (depthBound rows) idx 0 :=
  (@bounded_start rows _ ctx [] le_rfl).2 idx

def TreeCtx.subtree (ctx : TreeCtx rows) (store : PostStore) (idx : Fin rows.length) : PostResponse :=
  ctx.buildTree store.bodies store.attachments [] (depthBound rows) idx 0

theorem TreeCtx.partly_subtree : ctx.Partly store idx (ctx.subtree store idx) :=
  partly_buildTree (ctx.bounded_subtree idx)

theorem TreeCtx.subtree_grows (kids : ctx.visibleSortedChildren idx ≠ []) : 1 <
    (postsOf [ctx.subtree store idx]).length := by
  obtain ⟨first, rest, split⟩ := exists_cons_of_ne_nil kids
  rw [subtree, depthBound, buildTree_succ, postsOf_mk, split, if_neg (by simp [cutOff, maxDepth]), map_cons]
  obtain ⟨post, children, more⟩ := ctx.buildTree store.bodies store.attachments [] (rows.length + maxDepth) first
    (childDepth [] idx first 0)
  simp only [postsOf, length_cons, length_append]
  omega

theorem length_postsOf_le {α : Type} {items : List α} {size : α → Nat}
    (related : List.Forall₂ (fun item child => (postsOf [child]).length ≤ size item) items children) :
    (postsOf children).length ≤ (items.map size).sum := by
  induction related with
  | nil => simp [postsOf_nil]
  | cons first _ rest =>
    rw [← singleton_append, postsOf_append, length_append, map_cons, sum_cons]
    exact Nat.add_le_add first rest

theorem TreeCtx.Partly.length_le (partly : ctx.Partly store idx response)
    (below : ctx.Below depth idx) (enough : rows.length ≤ fuel + depth) :
    (postsOf [response]).length ≤ (preorder ctx.visibleSortedChildren fuel idx).length := by
  induction partly generalizing fuel depth with
  | cut kids =>
    have := below.lt_length
    obtain ⟨fuel, rfl⟩ : ∃ less, fuel = less + 1 := ⟨fuel - 1, by omega⟩
    simp [postsOf_mk, postsOf_nil, preorder]
  | @grown idx children length each ih =>
    have := below.lt_length
    obtain ⟨fuel, rfl⟩ : ∃ less, fuel = less + 1 := ⟨fuel - 1, by omega⟩
    have related : List.Forall₂ (fun kid child => (postsOf [child]).length ≤
        (preorder ctx.visibleSortedChildren fuel kid).length) (ctx.visibleSortedChildren idx) children := by
      refine forall₂_iff_zip.mpr ⟨length, fun {kid child} mem => ?_⟩
      have hangs := mem_visibleSortedChildren.mp (of_mem_zip mem).1
      exact ih (kid, child) mem (.reply below hangs.1) (by omega)
    rw [postsOf_mk, length_cons, length_preorder, Nat.add_comm]
    exact Nat.add_le_add_left (length_postsOf_le related) 1

theorem TreeCtx.Partly.grown_eq (partly : ctx.Partly store idx response)
    (silent : ∀ post children, ¬ (PostResponse.mk post children true).Within response)
    (below : ctx.Below depth idx) (enough : rows.length ≤ fuel + depth) : response = ctx.grownTree store fuel idx := by
  induction partly generalizing fuel depth with
  | cut kids => exact absurd .self (silent _ _)
  | @grown idx children length each ih =>
    have := below.lt_length
    obtain ⟨fuel, rfl⟩ : ∃ less, fuel = less + 1 := ⟨fuel - 1, by omega⟩
    have related : List.Forall₂ (fun kid child => ctx.grownTree store fuel kid = child)
        (ctx.visibleSortedChildren idx) children := by
      refine forall₂_iff_zip.mpr ⟨length, fun {kid child} mem => ?_⟩
      obtain ⟨isKid, isChild⟩ := of_mem_zip mem
      refine (ih (kid, child) mem (fun post grandchildren within => ?_)
        (.reply below (mem_visibleSortedChildren.mp isKid).1) (by omega)).symm
      exact silent post grandchildren (.child isChild within)
    have same := forall₂_map_left_iff.mpr related
    rw [forall₂_eq_eq_eq] at same
    rw [grownTree, same]

end Growing

variable {info : ThreadInfo}

section Requests

variable {view : ThreadView} {store : PostStore} {sort : PostSort} {ctx : TreeCtx view.rows}
    {idx : Fin view.rows.length}

theorem idToIndex_get {rows : List PostMeta} (distinct : (rows.map (·.id)).Nodup) (idx : Fin rows.length) :
    idToIndex rows (rows.get idx).id = some idx := by
  cases found : idToIndex rows (rows.get idx).id with
  | none =>
    have missing := find?_eq_none.mp found idx (by simp)
    simp at missing
  | some other => rw [index_unique distinct (idToIndex_id found)]

theorem ThreadView.getThreadSubtree_eq (prepared : view.prepare sort = .ok (info, ctx)) {parent : Fin view.rows.length}
    (hangs : idx ∈ ctx.visibleSortedChildren parent) :
    view.getThreadSubtree store sort (view.rows.get idx).id = .ok (ctx.subtree store idx) := by
  have isVisible := (mem_visibleSortedChildren.mp hangs).2.2
  have notRoot : idx ≠ ctx.tree.rootIdx := by
    rintro rfl
    exact ctx.rooted.top parent hangs
  have fetched : ctx.buildTree (fetchBodies store (ctx.collectTruncated [] (TreeCtx.depthBound view.rows) idx 0))
      (fetchLatestAttachments store (ctx.collectTruncated [] (TreeCtx.depthBound view.rows) idx 0)) []
      (TreeCtx.depthBound view.rows) idx 0 = ctx.subtree store idx :=
    buildTree_fetched (ctx.bounded_subtree idx) fun _ mem => mem
  simp only [getThreadSubtree, prepared, bind, Except.bind, idToIndex_get view.distinct idx, notRoot, decide_false, isVisible,
    Bool.not_true, Bool.false_eq_true, if_false, pure, Except.pure, fetched]

theorem ThreadView.getThreadReplies_eq (prepared : view.prepare sort = .ok (info, ctx)) (offset : Nat) :
    view.getThreadReplies store sort offset = .ok
      ((((ctx.visibleSortedChildren ctx.tree.rootIdx).drop offset).take repliesPageSize).map fun idx =>
        ctx.buildTree store.bodies store.attachments [] (TreeCtx.depthBound view.rows) idx 1,
      decide (offset + repliesPageSize < (ctx.visibleSortedChildren ctx.tree.rootIdx).length)) := by
  have page : (((ctx.visibleSortedChildren ctx.tree.rootIdx).drop offset).take (repliesPageSize + 1)).take repliesPageSize =
      ((ctx.visibleSortedChildren ctx.tree.rootIdx).drop offset).take repliesPageSize := by
    rw [take_take, min_eq_left (Nat.le_succ _)]
  have more : (repliesPageSize < (((ctx.visibleSortedChildren ctx.tree.rootIdx).drop offset).take
      (repliesPageSize + 1)).length) = (offset + repliesPageSize < (ctx.visibleSortedChildren ctx.tree.rootIdx).length) := by
    rw [length_take, length_drop, repliesPageSize]
    exact propext ⟨fun _ => by omega, fun _ => by omega⟩
  simp only [getThreadReplies, prepared, bind, Except.bind, pure, Except.pure, page, more]
  congr 2
  refine buildAll_fetched (fun idx mem => ?_) fun _ mem => mem
  exact (bounded_start le_rfl).1 idx (mem_of_mem_drop (mem_of_mem_take mem))

theorem ThreadView.getThread_eq {response : ThreadDetailResponse}
    (answered : view.getThread store sort none = .ok response) :
    ∃ info ctx, view.prepare sort = .ok (info, ctx) ∧ ctx.isVisible ctx.tree.rootIdx true = true ∧
      response.post = .mk (ctx.fullView store ctx.tree.rootIdx)
        (((ctx.visibleSortedChildren ctx.tree.rootIdx).take topLevelLimit).map fun idx =>
          ctx.buildTree store.bodies store.attachments [] (TreeCtx.depthBound view.rows) idx 1) false ∧
      response.hasMoreReplies = decide (topLevelLimit < (ctx.visibleSortedChildren ctx.tree.rootIdx).length) ∧
      response.totalReplyCount = ctx.countVisibleReplies (TreeCtx.depthBound view.rows) ctx.tree.rootIdx := by
  cases prepared : view.prepare sort with
  | error error => cases (getThread_unprepared prepared none).symm.trans answered
  | ok loaded =>
    obtain ⟨info, ctx⟩ := loaded
    rw [getThread_prepared prepared] at answered
    cases isVisible : ctx.isVisible ctx.tree.rootIdx true with
    | false =>
      rw [isVisible] at answered
      cases answered
    | true =>
      rw [isVisible] at answered
      cases answered
      refine ⟨info, ctx, rfl, isVisible, ?_, rfl, rfl⟩
      unfold detailResponse
      dsimp only
      rw [postView_fetched mem_cons_self]
      congr 1
      refine buildAll_fetched (fun idx mem => ?_) fun _ mem => mem_cons_of_mem _ mem
      exact (bounded_start le_rfl).1 idx (mem_of_mem_take mem)

end Requests

section Runs

variable {view : ThreadView} {store : PostStore} {sort : PostSort} {ctx : TreeCtx view.rows}
    {idx : Fin view.rows.length} {loaded next start : LoadedThread} {count : Nat}

theorem TreeCtx.expand_inside {rows : List PostMeta} {ctx : TreeCtx rows} {kids : List (Fin rows.length)}
    {above after : List PostResponse} {child child' : PostResponse}
    (related : List.Forall₂ (ctx.Partly store) kids (above ++ child :: after))
    (grows : ∀ kid ∈ kids, ctx.Partly store kid child →
      ctx.Partly store kid child' ∧ (postsOf [child]).length < (postsOf [child']).length) :
    List.Forall₂ (ctx.Partly store) kids (above ++ child' :: after) ∧
      (postsOf (above ++ child :: after)).length < (postsOf (above ++ child' :: after)).length := by
  refine ⟨forall₂_replace related fun kid mem old => (grows kid mem old).1, ?_⟩
  have back := forall₂_drop_append _ above (child :: after) related
  obtain ⟨kid, rest, here, -, split⟩ := forall₂_cons_right_iff.mp back
  have longer := (grows kid (mem_of_mem_drop (split ▸ mem_cons_self)) here).2
  rw [← singleton_append, ← @singleton_append _ child']
  simp only [postsOf_append, length_append]
  omega

theorem TreeCtx.Partly.expand (prepared : view.prepare sort = .ok (info, ctx)) {response fresh : PostResponse}
    {parent : Fin view.rows.length} (partly : ctx.Partly store idx response)
    (hangs : idx ∈ ctx.visibleSortedChildren parent) (expands : Expands view store sort response fresh) :
    ctx.Partly store idx fresh ∧ (postsOf [response]).length < (postsOf [fresh]).length := by
  induction expands generalizing idx parent with
  | here answered =>
    cases partly with
    | cut kids =>
      cases (getThreadSubtree_eq prepared hangs).symm.trans answered
      refine ⟨partly_subtree, ?_⟩
      rw [postsOf_mk, postsOf_nil]
      exact subtree_grows kids
  | @inside post above child child' after more _ ih =>
    generalize split : above ++ child :: after = children at partly
    cases partly with
    | cut => simp at split
    | grown length each =>
      subst split
      have related := forall₂_iff_zip.mpr ⟨length, fun {_ _} mem => each _ mem⟩
      obtain ⟨kept, longer⟩ := expand_inside related fun kid mem old => ih old mem
      refine ⟨partly_mk.mpr ⟨rfl, kept⟩, ?_⟩
      simp only [postsOf_mk, length_cons]
      omega

/-- What is loaded of a thread: the first replies to the opening post, as far as they have been asked for. -/
structure TreeCtx.Loaded (ctx : TreeCtx view.rows) (store : PostStore) (loaded : LoadedThread) : Prop where
  opening : ∃ children, loaded.post = .mk (ctx.fullView store ctx.tree.rootIdx) children false
  replies : List.Forall₂ (ctx.Partly store)
    ((ctx.visibleSortedChildren ctx.tree.rootIdx).take loaded.post.children.length) loaded.post.children
  more : loaded.hasMoreReplies = true ↔
    loaded.post.children.length < (ctx.visibleSortedChildren ctx.tree.rootIdx).length

theorem TreeCtx.Loaded.page {children : List PostResponse} {offset limit : Nat} {hasMore : Bool}
    (replies : List.Forall₂ (ctx.Partly store) ((ctx.visibleSortedChildren ctx.tree.rootIdx).take offset) children)
    (size : children.length = offset)
    (more : hasMore = true ↔ offset + limit < (ctx.visibleSortedChildren ctx.tree.rootIdx).length) :
    ctx.Loaded store ⟨.mk (ctx.fullView store ctx.tree.rootIdx)
      (children ++ (((ctx.visibleSortedChildren ctx.tree.rootIdx).drop offset).take limit).map fun idx =>
        ctx.buildTree store.bodies store.attachments [] (depthBound view.rows) idx 1) false, hasMore⟩ := by
  let page := ((ctx.visibleSortedChildren ctx.tree.rootIdx).drop offset).take limit
  have length : page.length = min limit ((ctx.visibleSortedChildren ctx.tree.rootIdx).length - offset) := by
    rw [length_take, length_drop]
  have whole : (children ++ page.map fun idx => ctx.buildTree store.bodies store.attachments [] (depthBound view.rows) idx 1).length
      = offset + page.length := by
    rw [length_append, length_map, size]
  refine ⟨⟨_, rfl⟩, ?_, ?_⟩
  · have together : (ctx.visibleSortedChildren ctx.tree.rootIdx).take (offset + page.length) =
        (ctx.visibleSortedChildren ctx.tree.rootIdx).take offset ++ page := by
      rw [take_add, length, ← length_drop, ← take_eq_take_min]
    dsimp only [PostResponse.children]
    rw [whole, together]
    refine rel_append replies (forall₂_map_right_iff.mpr (forall₂_same.mpr fun kid mem => ?_))
    have inKids := mem_of_mem_drop (mem_of_mem_take mem)
    exact partly_buildTree ((bounded_start le_rfl).1 kid inKids)
  · dsimp only [PostResponse.children]
    rw [whole, more, length]
    exact ⟨fun _ => by omega, fun _ => by omega⟩

theorem length_le_postsOf (responses : List PostResponse) : responses.length ≤ (postsOf responses).length := by
  induction responses with
  | nil => exact Nat.zero_le _
  | cons response rest ih =>
    obtain ⟨post, children, more⟩ := response
    simp only [postsOf, length_cons, length_append]
    omega

section

variable (prepared : view.prepare sort = .ok (info, ctx))
include prepared

theorem TreeCtx.Loaded.step (before : ctx.Loaded store loaded) (step : LoadStep view store sort loaded next) :
    ctx.Loaded store next ∧ (postsOf [loaded.post]).length < (postsOf [next.post]).length := by
  obtain ⟨⟨top, isOpening⟩, partlies, announced⟩ := before
  cases step with
  | @replies post _ more replies hasMore answered =>
    cases isOpening
    have unfinished : top.length < (ctx.visibleSortedChildren ctx.tree.rootIdx).length :=
      announced.mp rfl
    rw [getThreadReplies_eq prepared] at answered
    cases answered
    refine ⟨.page partlies rfl decide_eq_true_iff, ?_⟩
    have some_ : 0 < (((ctx.visibleSortedChildren ctx.tree.rootIdx).drop top.length).take repliesPageSize).length := by
      rw [length_take, length_drop, repliesPageSize]
      omega
    have longer := length_le_postsOf ((((ctx.visibleSortedChildren ctx.tree.rootIdx).drop top.length).take
      repliesPageSize).map fun idx => ctx.buildTree store.bodies store.attachments [] (depthBound view.rows) idx 1)
    rw [length_map] at longer
    simp only [postsOf_mk, postsOf_append, length_cons, length_append]
    omega
  | subtree expands =>
    cases expands with
    | here => cases isOpening
    | @inside post above child child' after more expands =>
      cases isOpening
      obtain ⟨kept, longer⟩ := expand_inside partlies fun kid mem old =>
        old.expand prepared (mem_of_mem_take mem) expands
      have same : (above ++ child' :: after).length = (above ++ child :: after).length := by simp
      refine ⟨⟨⟨_, rfl⟩, ?_, ?_⟩, ?_⟩
      · dsimp only [PostResponse.children] at kept ⊢
        rwa [same]
      · dsimp only [PostResponse.children] at announced ⊢
        rwa [same]
      · simp only [postsOf_mk, length_cons]
        exact Nat.succ_lt_succ longer

theorem TreeCtx.Loaded.initial {response : ThreadDetailResponse}
    (answered : view.getThread store sort none = .ok response) : ctx.Loaded store ⟨response.post, response.hasMoreReplies⟩ := by
  obtain ⟨_, _, prepared', _, post, more, _⟩ := getThread_eq answered
  cases prepared.symm.trans prepared'
  have announced : response.hasMoreReplies = true ↔ 0 + topLevelLimit < (ctx.visibleSortedChildren ctx.tree.rootIdx).length := by
    rw [more, decide_eq_true_iff, Nat.zero_add]
  have page := @Loaded.page view store ctx [] 0 topLevelLimit _ .nil rfl announced
  rwa [drop_zero, nil_append, ← post] at page

theorem TreeCtx.Loaded.run (before : ctx.Loaded store start) (run : LoadRun view store sort count start loaded) :
    ctx.Loaded store loaded ∧ count + (postsOf [start.post]).length ≤ (postsOf [loaded.post]).length := by
  induction run with
  | start => exact ⟨before, by omega⟩
  | step _ step ih =>
    obtain ⟨kept, longer⟩ := ih before
    obtain ⟨after, more⟩ := kept.step prepared step
    exact ⟨after, by omega⟩

end

theorem TreeCtx.Loaded.length_le (holds : ctx.Loaded store loaded) : (postsOf [loaded.post]).length ≤ view.rows.length := by
  obtain ⟨⟨children, isOpening⟩, partlies, -⟩ := holds
  rw [isOpening] at partlies ⊢
  dsimp only [PostResponse.children] at partlies
  have related : List.Forall₂ (fun kid child => (postsOf [child]).length ≤
      (preorder ctx.visibleSortedChildren view.rows.length kid).length)
      ((ctx.visibleSortedChildren ctx.tree.rootIdx).take children.length) children := by
    obtain ⟨length, each⟩ := forall₂_iff_zip.mp partlies
    refine forall₂_iff_zip.mpr ⟨length, fun {kid child} mem => ?_⟩
    have inKids := mem_of_mem_take (of_mem_zip mem).1
    exact (each mem).length_le (.reply .opening (mem_visibleSortedChildren.mp inKids).1) (Nat.le_add_right _ _)
  have shorter : ((ctx.visibleSortedChildren ctx.tree.rootIdx).take children.length).Sublist
      (ctx.visibleSortedChildren ctx.tree.rootIdx) := take_sublist _ _
  have nodup : (preorder ctx.visibleSortedChildren (view.rows.length + 1) ctx.tree.rootIdx).Nodup :=
    ctx.rooted.nodup_preorder .here
  calc (postsOf [.mk _ children false]).length = 1 + (postsOf children).length := by
        rw [postsOf_mk, length_cons, Nat.add_comm]
    _ ≤ 1 + (((ctx.visibleSortedChildren ctx.tree.rootIdx).take children.length).map fun kid =>
          (preorder ctx.visibleSortedChildren view.rows.length kid).length).sum :=
        Nat.add_le_add_left (length_postsOf_le related) 1
    _ ≤ (preorder ctx.visibleSortedChildren (view.rows.length + 1) ctx.tree.rootIdx).length := by
        rw [length_preorder]
        exact Nat.add_le_add_left ((shorter.map _).sum_le_sum fun _ _ => Nat.zero_le _) 1
    _ ≤ view.rows.length := by
        have := nodup.length_le_card
        rwa [Fintype.card_fin] at this

theorem TreeCtx.Loaded.done (holds : ctx.Loaded store loaded) (done : loaded.Done) :
    loaded.post = ctx.grownTree store (depthBound view.rows) ctx.tree.rootIdx := by
  obtain ⟨⟨children, isOpening⟩, partlies, more⟩ := holds
  have allLoaded : (ctx.visibleSortedChildren ctx.tree.rootIdx).length ≤ loaded.post.children.length := by
    by_contra beyond
    have announced := more.mpr (by omega)
    rw [done.replies] at announced
    cases announced
  rw [take_of_length_le allLoaded] at partlies
  have partly : ctx.Partly store ctx.tree.rootIdx loaded.post := by
    rw [isOpening] at partlies ⊢
    exact partly_mk.mpr ⟨rfl, partlies⟩
  exact partly.grown_eq done.subtrees .opening (by rw [depthBound]; omega)

theorem TreeCtx.Partly.answered (prepared : view.prepare sort = .ok (info, ctx))
    {parent : Fin view.rows.length} (partly : ctx.Partly store idx response)
    (hangs : idx ∈ ctx.visibleSortedChildren parent) {post : PostView} {children : List PostResponse}
    (within : (PostResponse.mk post children true).Within response) :
    ∃ fresh, view.getThreadSubtree store sort post.id = .ok fresh := by
  induction partly generalizing parent with
  | cut kids =>
    cases within with
    | self => exact ⟨_, getThreadSubtree_eq prepared hangs⟩
    | child mem _ => cases mem
  | @grown idx kids length each ih =>
    cases within with
    | child mem within =>
      obtain ⟨place, bound, rfl⟩ := getElem_of_mem mem
      have paired : ((ctx.visibleSortedChildren idx)[place], kids[place]) ∈ (ctx.visibleSortedChildren idx).zip kids := by
        rw [mem_iff_getElem]
        exact ⟨place, by simp; omega, by simp⟩
      exact ih _ paired (of_mem_zip paired).1 within

end Runs

section Whole

variable {ctx : TreeCtx rows} {store : PostStore} {idx : Fin rows.length}

theorem TreeCtx.postsOf_grownTree : postsOf [ctx.grownTree store fuel idx] =
    (preorder ctx.visibleSortedChildren (fuel + 1) idx).map (ctx.fullView store) := by
  induction fuel generalizing idx with
  | zero => simp [grownTree, postsOf_mk, postsOf_nil, preorder]
  | succ fuel ih =>
    rw [grownTree, postsOf_mk, preorder, map_cons, postsOf_map, map_flatMap]
    exact congrArg _ (flatMap_congr fun ci _ => ih)

theorem TreeCtx.grownTree_mk : ∃ children, ctx.grownTree store fuel idx = .mk (ctx.fullView store idx) children false := by
  cases fuel <;> exact ⟨_, rfl⟩

theorem TreeCtx.grownTree_within (within : response.Within (ctx.grownTree store fuel idx))
    (below : ctx.Below depth idx) (enough : rows.length ≤ fuel + depth) :
    ∃ i, response.post = ctx.fullView store i ∧
      response.children.map (·.post) = (ctx.visibleSortedChildren i).map (ctx.fullView store) := by
  induction fuel generalizing idx depth with
  | zero =>
    have := below.lt_length
    omega
  | succ fuel ih =>
    rw [grownTree] at within
    cases within with
    | self =>
      refine ⟨idx, rfl, ?_⟩
      dsimp only [PostResponse.children]
      rw [map_map]
      refine map_congr_left fun ci _ => ?_
      obtain ⟨children, shape⟩ := @grownTree_mk rows fuel ctx store ci
      rw [Function.comp, shape]
      rfl
    | child mem within =>
      obtain ⟨ci, isChild, rfl⟩ := mem_map.mp mem
      exact ih within (.reply below (mem_visibleSortedChildren.mp isChild).1) (by omega)

theorem TreeCtx.complete_grownTree (ctx : TreeCtx rows) (store : PostStore) (distinct : (rows.map (·.id)).Nodup) :
    ctx.Complete store (ctx.grownTree store (depthBound rows) ctx.tree.rootIdx) := by
  have ids : (postsOf [ctx.grownTree store (depthBound rows) ctx.tree.rootIdx]).map (·.id) =
      (preorder ctx.visibleSortedChildren (depthBound rows + 1) ctx.tree.rootIdx).map fun i => (rows.get i).id := by
    rw [postsOf_grownTree, map_map]
    rfl
  have enough : rows.length ≤ depthBound rows := by rw [depthBound]; omega
  have ordered : ∀ response : PostResponse, response.Within (ctx.grownTree store (depthBound rows) ctx.tree.rootIdx) →
      ∃ i, response.post = ctx.fullView store i ∧
        response.children.map (·.post) = (ctx.visibleSortedChildren i).map (ctx.fullView store) :=
    fun response within => grownTree_within within .opening enough
  refine ⟨?_, fun idx => ?_, fun seen mem => ?_, ordered, fun response within child mem => ?_⟩
  · rw [ids]
    exact (ctx.rooted.nodup_preorder .here).map_on fun i _ j _ same => index_unique distinct same
  · rw [ids, ← mem_preorder_root (Nat.le_succ_of_le enough)]
    refine ⟨fun mem => ?_, fun mem => mem_map_of_mem mem⟩
    obtain ⟨i, inWalk, same⟩ := mem_map.mp mem
    exact index_unique distinct same ▸ inWalk
  · rw [postsOf_grownTree] at mem
    obtain ⟨i, -, rfl⟩ := mem_map.mp mem
    exact ⟨i, rfl⟩
  · obtain ⟨i, here, kids⟩ := ordered response within
    have isKid : child.post ∈ (ctx.visibleSortedChildren i).map (ctx.fullView store) := kids ▸ mem_map_of_mem mem
    obtain ⟨ci, hangs, same⟩ := mem_map.mp isKid
    have isParent := (mem_visibleSortedChildren.mp hangs).1
    obtain ⟨parentId, named, found⟩ := Option.bind_eq_some_iff.mp isParent
    rw [← same, here]
    show (rows.get ci).parentId = some (rows.get i).id
    rw [named, idToIndex_id found]

end Whole

section Answers

variable {view : ThreadView} {store : PostStore} {sort : PostSort} {ctx : TreeCtx view.rows}

def ThreadViewRequest.Fetches (view : ThreadView) (store : PostStore) (ctx : TreeCtx view.rows)
    (request : ThreadViewRequest) : Prop :=
  ∀ answer seen, view.answer store request = .ok answer → answer.Shows seen → ∃ idx, seen = ctx.fullView store idx

theorem PostResponse.Shows.mem_postsOf (shows : response.Shows seen) :
    seen ∈ postsOf [response] := by
  induction shows with
  | self => simp [postsOf_mk]
  | @reply post children more child seen mem _ ih =>
    rw [postsOf_mk]
    obtain ⟨above, after, rfl⟩ := append_of_mem mem
    rw [postsOf_append, show child :: after = [child] ++ after from rfl, postsOf_append]
    simp [ih]

variable (prepared : view.prepare sort = .ok (info, ctx))
include prepared

theorem ThreadView.subtree_fetches (postId : Uuid) :
    (ThreadViewRequest.subtree sort postId).Fetches view store ctx := by
  intro answer seen answered shows
  simp only [ThreadView.answer, ThreadView.getThreadSubtree, prepared, bind, Except.bind] at answered
  cases known : idToIndex view.rows postId with
  | none =>
    rw [known] at answered
    cases answered
  | some idx =>
    rw [known] at answered
    dsimp only at answered
    split at answered
    · cases answered
    · cases answered
      rw [buildTree_fetched (ctx.bounded_subtree idx) fun _ mem => mem] at shows
      exact buildTree_views shows.mem_postsOf

theorem ThreadView.replies_fetches (offset : Nat) : (ThreadViewRequest.replies sort offset).Fetches view store ctx := by
  intro answer seen answered shows
  rw [ThreadView.answer, getThreadReplies_eq prepared] at answered
  cases answered
  obtain ⟨response, mem, shows⟩ := shows
  obtain ⟨idx, -, rfl⟩ := mem_map.mp mem
  exact buildTree_views shows.mem_postsOf

theorem ThreadView.thread_fetches (focus : Option Uuid) :
    (ThreadViewRequest.thread sort focus).Fetches view store ctx := by
  intro answer seen answered shows
  obtain ⟨plan, planned, sane⟩ := getThread_plan prepared focus
  rw [ThreadView.answer, planned store] at answered
  cases plan with
  | error error => cases answered
  | ok p =>
    cases answered
    obtain ⟨-, replies⟩ := sane p rfl
    cases shows with
    | self => exact ⟨_, postView_fetched mem_cons_self⟩
    | reply mem shows =>
      rw [buildAll_fetched (fun idx isStart => (bounded_start le_rfl).1 idx (replies idx isStart))
        fun _ below => mem_cons_of_mem _ below] at mem
      obtain ⟨idx, -, rfl⟩ := mem_map.mp mem
      exact buildTree_views shows.mem_postsOf

end Answers

/-- A reader who follows everything that is announced, in any order, comes to an end with the whole of what is shown of the
thread, and every answer on the way has the texts of all of its posts. -/
theorem expansion_complete (view : ThreadView) (store : PostStore) (sort : PostSort) {response : ThreadDetailResponse}
    (answered : view.getThread store sort none = .ok response) :
    ∃ info ctx, view.prepare sort = .ok (info, ctx) ∧
      (∀ count loaded, LoadRun view store sort count ⟨response.post, response.hasMoreReplies⟩ loaded →
        count < view.rows.length ∧
        (∃ page, view.getThreadReplies store sort loaded.post.children.length = .ok page) ∧
        (∀ post children, (PostResponse.mk post children true).Within loaded.post →
          ∃ fresh, view.getThreadSubtree store sort post.id = .ok fresh) ∧
        (loaded.Done → ctx.Complete store loaded.post ∧
          (postsOf loaded.post.children).length = response.totalReplyCount)) ∧
      (∀ focusPath starts, (∀ idx ∈ starts, idx ∈ ctx.visibleSortedChildren ctx.tree.rootIdx) → ∀ postIds,
        collectAll ctx focusPath starts 1 = (postsOf (buildAll ctx store postIds focusPath starts 1)).map (·.id)) ∧
      (∀ idx bodies attachments, ctx.collectTruncated [] (TreeCtx.depthBound view.rows) idx 0 =
        (postsOf [ctx.buildTree bodies attachments [] (TreeCtx.depthBound view.rows) idx 0]).map (·.id)) ∧
      (∀ focus, (ThreadViewRequest.thread sort focus).Fetches view store ctx) ∧
      (∀ offset, (ThreadViewRequest.replies sort offset).Fetches view store ctx) ∧
      ∀ postId, (ThreadViewRequest.subtree sort postId).Fetches view store ctx := by
  obtain ⟨info, ctx, prepared, -, post, -, total⟩ := getThread_eq answered
  have initial := TreeCtx.Loaded.initial prepared answered
  refine ⟨info, ctx, prepared, fun count loaded run => ?_, fun focusPath starts replies postIds => ?_,
    fun idx bodies attachments => collectTruncated_eq (ctx.bounded_subtree idx),
    thread_fetches prepared, replies_fetches prepared, subtree_fetches prepared⟩
  · obtain ⟨kept, longer⟩ := initial.run prepared run
    have some_ : 0 < (postsOf [response.post]).length := by
      rw [post, postsOf_mk]
      exact Nat.succ_pos _
    refine ⟨?_, ⟨_, getThreadReplies_eq prepared _⟩, fun post children within => ?_, fun done => ?_⟩
    · dsimp only at longer
      have := kept.length_le
      omega
    · obtain ⟨⟨top, isOpening⟩, partlies, -⟩ := kept
      rw [isOpening] at within partlies
      cases within with
      | child mem within =>
        obtain ⟨length, each⟩ := forall₂_iff_zip.mp partlies
        dsimp only [PostResponse.children] at length each
        obtain ⟨place, bound, rfl⟩ := getElem_of_mem mem
        have paired : (((ctx.visibleSortedChildren ctx.tree.rootIdx).take top.length)[place], top[place]) ∈
            ((ctx.visibleSortedChildren ctx.tree.rootIdx).take top.length).zip top := by
          rw [mem_iff_getElem]
          exact ⟨place, by rw [length_zip]; omega, by simp⟩
        exact (each paired).answered prepared (mem_of_mem_take (of_mem_zip paired).1) within
    · have whole := kept.done done
      refine ⟨whole ▸ ctx.complete_grownTree store view.distinct, ?_⟩
      obtain ⟨children, shape⟩ := @grownTree_mk _ (TreeCtx.depthBound view.rows) ctx store ctx.tree.rootIdx
      have counted := congrArg List.length
        (@postsOf_grownTree _ (TreeCtx.depthBound view.rows) ctx store ctx.tree.rootIdx)
      rw [length_map, ← countVisibleReplies_eq, ← total, shape, postsOf_mk, length_cons] at counted
      rw [whole, shape]
      exact Nat.succ.inj counted
  · exact collectAll_eq fun idx isStart => (bounded_start le_rfl).1 idx (replies idx isStart)

/-- A chain of seven replies, too deep for one answer. -/
def deepThread : ThreadView where
  info := some prunedInfo
  rows := [plainPost 1 11 none, plainPost 2 11 (some 1), plainPost 3 11 (some 2), plainPost 4 11 (some 3),
    plainPost 5 11 (some 4), plainPost 6 11 (some 5), plainPost 7 11 (some 6), plainPost 8 11 (some 7)]
  viewer := prunedViewer
  distinct := by decide

/-- All seven replies are loaded in the end, by fewer than eight requests. -/
theorem expansion_complete_deep : ∃ response info ctx,
    deepThread.getThread prunedStore .trust none = .ok response ∧ deepThread.prepare .trust = .ok (info, ctx) ∧
    response.totalReplyCount = 7 ∧
    ∀ count loaded, LoadRun deepThread prunedStore .trust count ⟨response.post, response.hasMoreReplies⟩ loaded →
      count < 8 ∧ (loaded.Done → ctx.Complete prunedStore loaded.post ∧ (postsOf loaded.post.children).length = 7) := by
  obtain ⟨response, answered, total⟩ : ∃ response, deepThread.getThread prunedStore .trust none = .ok response ∧
      response.totalReplyCount = 7 := by
    have counted : (deepThread.getThread prunedStore .trust none).toOption.map (·.totalReplyCount) = some 7 := by
      decide +kernel
    cases answered : deepThread.getThread prunedStore .trust none with
    | error error =>
      rw [answered] at counted
      cases counted
    | ok response =>
      rw [answered] at counted
      exact ⟨response, rfl, Option.some.inj counted⟩
  obtain ⟨info, ctx, prepared, runs, -⟩ := expansion_complete deepThread prunedStore .trust answered
  refine ⟨response, info, ctx, answered, prepared, total, fun count loaded run => ?_⟩
  obtain ⟨short, -, -, done⟩ := runs count loaded run
  exact ⟨short, fun isDone => total ▸ done isDone⟩

end Prismoire
