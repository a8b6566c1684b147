import Prismoire.ThreadExpansion
import Prismoire.ThreadListing

namespace Prismoire

open Lib List Option TreeCtx ThreadView Tables

section

variable (tables : Tables) (reader : Reader) (threadId : Uuid) (post : PostEntry)

def Tables.repliesOf : List PostEntry :=
  tables.posts.filter fun post => post.thread = threadId ∧ post.parent.isSome

/-- The second post replies to the first, in one thread. -/
def Tables.Answers (above post : PostEntry) : Prop :=
  above ∈ tables.posts ∧ post ∈ tables.posts ∧ above.thread = post.thread ∧ post.parent = some above.id

/-- The second post is the first, or a reply to it or to its replies. -/
def Tables.Under : PostEntry → PostEntry → Prop :=
  Relation.ReflTransGen tables.Answers

/-- The last in order of creation of the thread's posts without a parent. -/
def Tables.openingPost : Option PostEntry :=
  (((tables.posts.filter (·.thread = threadId)).insertionSort fun a b => a.createdAt ≤ b.createdAt).filter
    (·.parent.isNone)).getLast?

def Tables.InTree : Prop :=
  ∃ opening, tables.openingPost post.thread = some opening ∧ tables.Under opening post

/-- Retracted, and nobody replied to it. -/
def Tables.BareRetraction : Prop :=
  post.retractedAt.isSome = true ∧ ∀ answer, ¬ tables.Answers post answer

/-- The reader wrote the post or something below it. -/
def Tables.CarriesReader : Prop :=
  ∃ own, tables.Under post own ∧ own.author = reader.id

def Reader.Distrusts : Prop :=
  post.author ≠ reader.id ∧ post.author ∈ reader.distrustSet

/-- The reply stays out with all that is below it: a distrusted author's that carries nothing of the reader, or one of an author
without enough trust that does not answer the reader. -/
def Tables.Bars : Prop :=
  (reader.Distrusts post ∧ ¬ tables.CarriesReader reader post) ∨
    (post.author ≠ reader.id ∧ post.author ∉ reader.distrustSet ∧ reader.trustedBy post.author = false ∧
      parentAuthor tables post ≠ some reader.id)

def Tables.BarredAbove : Prop :=
  ∃ above, above.parent.isSome = true ∧ tables.Under above post ∧ tables.Bars reader above

/-- The replies that the view keeps. -/
def Tables.Kept : Prop :=
  tables.InTree post ∧ ¬ tables.BareRetraction post ∧ ¬ tables.BarredAbove reader post

/-- A reply that the reader may see by itself, and that the view leaves out: a retraction that nobody answered, what is below
a barred reply, and what hangs on no opening post. -/
def Tables.ListedOnly : Prop :=
  ¬ reader.Distrusts post ∧ ¬ tables.Bars reader post ∧
    (tables.BareRetraction post ∨ tables.BarredAbove reader post ∨ ¬ tables.InTree post)

/-- A distrusted author's reply that the view keeps above a post of the reader. -/
def Tables.Scaffold : Prop :=
  reader.Distrusts post ∧ tables.CarriesReader reader post ∧ ¬ tables.BarredAbove reader post ∧ tables.InTree post

end

variable {info : ThreadInfo} {sort : PostSort} {summary : ThreadSummary}

section Descendants

open Classical in
/-- A walk that marks what is below each node that it visits. -/
theorem foldl_marks {α : Type} (holds : α → Prop) (below : α → α → Prop) {kids : List α}
    {step : Bool × (α → Bool) → α → Bool × (α → Bool)}
    (steps : ∀ found, ∀ kid ∈ kids, step found kid =
      (found.1 || decide (holds kid), fun i => if below kid i then decide (holds i) else found.2 i))
    (found : Bool × (α → Bool)) : kids.foldl step found = (found.1 || decide (∃ kid ∈ kids, holds kid),
      fun i => if ∃ kid ∈ kids, below kid i then decide (holds i) else found.2 i) := by
  induction kids generalizing found with
  | nil => simp
  | cons kid kids ih =>
    rw [foldl_cons, steps found kid mem_cons_self, ih fun found kid later => steps found kid (.tail _ later)]
    refine Prod.ext (by simp [Bool.or_assoc]) (funext fun i => ?_)
    by_cases here : below kid i <;> by_cases later : ∃ kid ∈ kids, below kid i <;> simp_all

variable {rows : List PostMeta} {reader : Uuid} {fuel depth : Nat} {idx : Fin rows.length}

theorem mem_childrenMap {ci : Fin rows.length} : ci ∈ childrenMap rows idx ↔ parentIdx rows ci = some idx := by
  simp [childrenMap]

def HasDescendant (rows : List PostMeta) (reader : Uuid) (idx : Fin rows.length) : Prop :=
  ∃ node, (∃ depth, Descends (childrenMap rows) idx depth node) ∧ authorOf rows node = reader

theorem hasDescendant_iff : HasDescendant rows reader idx ↔
    authorOf rows idx = reader ∨ ∃ ci ∈ childrenMap rows idx, HasDescendant rows reader ci := by
  unfold HasDescendant
  simp only [@descends_iff _ _ idx]
  constructor
  · rintro ⟨node, rfl | ⟨ci, hangs, below⟩, own⟩
    · exact .inl own
    · exact .inr ⟨ci, hangs, node, below, own⟩
  · rintro (own | ⟨ci, hangs, node, below, own⟩)
    · exact ⟨idx, .inl rfl, own⟩
    · exact ⟨node, .inr ⟨ci, hangs, below⟩, own⟩

open Classical in
theorem visitReaderDescendants_eq (bounded : ∀ depth node, Descends (childrenMap rows) idx depth node → depth < fuel)
    (result : Fin rows.length → Bool) : visitReaderDescendants rows reader fuel idx result =
      (decide (HasDescendant rows reader idx), fun i =>
        if ∃ depth, Descends (childrenMap rows) idx depth i then decide (HasDescendant rows reader i) else result i) := by
  induction fuel generalizing idx result with
  | zero => exact absurd (bounded 0 idx .here) (Nat.not_lt_zero 0)
  | succ fuel ih =>
    have below : ∀ ci ∈ childrenMap rows idx, ∀ depth node, Descends (childrenMap rows) ci depth node → depth < fuel :=
      fun ci hangs depth node descends => Nat.lt_of_succ_lt_succ (bounded _ node (descends.under hangs))
    rw [visitReaderDescendants, foldl_marks (HasDescendant rows reader)
      (fun ci i => ∃ depth, Descends (childrenMap rows) ci depth i) (fun found ci hangs => by
        obtain ⟨has, result⟩ := found
        dsimp only
        rw [ih (below ci hangs)])]
    dsimp only
    refine Prod.ext (Bool.eq_iff_iff.mpr (by simp [@hasDescendant_iff rows reader idx])) (funext fun i => ?_)
    by_cases here : i = idx
    · subst here
      exact Bool.eq_iff_iff.mpr (by simp [@hasDescendant_iff rows reader i, @descends_iff _ _ i])
    · simp [@descends_iff _ _ idx, here]

variable {view : ThreadView} {ctx : TreeCtx view.rows}

theorem ThreadView.prepare_ctx (prepared : view.prepare sort = .ok (info, ctx)) :
    buildMetaTree view.rows = .ok ctx.tree ∧ ctx.viewer = view.viewer ∧ ctx.hasReaderDescendant =
      computeReaderDescendants view.rows ctx.tree view.viewer.readerId view.viewer.distrustSet := by
  unfold prepare at prepared
  split at prepared
  · cases prepared
  · split at prepared
    · cases prepared
    · split at prepared
      · cases prepared
      · rename_i built
        cases prepared
        exact ⟨built, rfl, rfl⟩

open Classical in
theorem ThreadView.hasReaderDescendant_iff {idx : Fin view.rows.length} (prepared : view.prepare sort = .ok (info, ctx))
    (isReader : view.viewer.readerId = some reader) (distrusted : authorOf view.rows idx ∈ view.viewer.distrustSet)
    (inTree : ∃ depth, Descends (childrenMap view.rows) ctx.tree.rootIdx depth idx) :
    ctx.hasReaderDescendant idx = true ↔ HasDescendant view.rows reader idx := by
  have bounded : ∀ depth node, Descends (childrenMap view.rows) ctx.tree.rootIdx depth node → depth < view.rows.length := by
    intro depth node descends
    refine (show ctx.Below _ node from ?_).lt_length
    induction descends with
    | here => exact .opening
    | child _ hangs ih => exact .reply ih (mem_childrenMap.mp hangs)
  have needed : ¬ (view.viewer.distrustSet.isEmpty ||
      !view.rows.any fun row => view.viewer.distrustSet.contains row.authorId) = true := by
    simp only [Bool.or_eq_true, List.isEmpty_iff, Bool.not_eq_true', List.any_eq_false]
    rintro (empty | nobody)
    · rw [empty] at distrusted
      cases distrusted
    · exact nobody _ (get_mem view.rows idx) (contains_iff_mem.mpr distrusted)
  rw [(prepare_ctx prepared).2.2, isReader, computeReaderDescendants, if_neg needed, visitReaderDescendants_eq bounded]
  dsimp only
  rw [if_pos inTree, decide_eq_true_eq]

end Descendants

section Rows

theorem buildMetaTree_root {rows : List PostMeta} {tree : MetaTree rows} (built : buildMetaTree rows = .ok tree) :
    (rows.filter (·.parentId.isNone)).getLast? = some (rows.get tree.rootIdx) := by
  unfold buildMetaTree at built
  split at built
  · cases built
  · rename_i rootIdx found
    cases built
    have mapped : rows.reverse = (finRange rows.length).reverse.map rows.get := by
      rw [map_reverse, map_get_finRange]
    rw [getLast?_filter, mapped, find?_map]
    exact congrArg (Option.map rows.get) found

variable {tables : Tables} {reader : Reader} {threadId : Uuid}

theorem Tables.row_post {row : PostMeta} (mem : row ∈ tables.fetchPostMetadata threadId) :
    ∃ post ∈ tables.posts, post.thread = threadId ∧ post.id = row.id ∧ post.parent = row.parentId ∧
      post.author = row.authorId := by
  obtain ⟨post, inPosts, inThread, joined⟩ := tables.mem_fetchPostMetadata.mp mem
  obtain ⟨id, parent, author⟩ := tables.postMeta_id joined
  exact ⟨post, inPosts, inThread, id.symm, parent.symm, author.symm⟩

theorem Tables.exists_meta {post : PostEntry} (stored : post ∈ tables.posts) :
    ∃ row, tables.postMeta post = some row ∧ row.parentId = post.parent ∧ row.createdAt = post.createdAt := by
  obtain ⟨user, isUser, author⟩ := tables.postAuthors post stored
  cases joined : tables.user? post.author with
  | none => exact absurd (decide_eq_true author) (find?_eq_none.mp joined user isUser)
  | some user => exact ⟨_, by rw [postMeta, joined]; rfl, rfl, rfl⟩

theorem Tables.opening_row {opening : PostMeta}
    (root : ((tables.fetchPostMetadata threadId).filter (·.parentId.isNone)).getLast? = some opening) :
    ∃ post, tables.openingPost threadId = some post ∧ tables.postMeta post = some opening := by
  have : Inhabited PostMeta := ⟨opening⟩
  choose! row joined parent created using fun post (mem : post ∈ tables.posts) => exists_meta mem
  have rows : tables.fetchPostMetadata threadId =
      ((tables.posts.filter (·.thread = threadId)).insertionSort fun a b => a.createdAt ≤ b.createdAt).map row := by
    rw [fetchPostMetadata, filterMap_congr fun post mem => joined post (mem_of_mem_filter mem), filterMap_eq_map']
    refine (map_insertionSort _ _ _ _ fun a isA b isB => ?_).symm
    rw [created a (mem_of_mem_filter isA), created b (mem_of_mem_filter isB)]
  rw [rows, List.filter_map, getLast?_map] at root
  obtain ⟨post, isLast, rfl⟩ := map_eq_some_iff.mp root
  have stored : ∀ other ∈ (tables.posts.filter (·.thread = threadId)).insertionSort fun a b => a.createdAt ≤ b.createdAt,
      other ∈ tables.posts := fun _ mem => mem_of_mem_filter ((mem_insertionSort _).mp mem)
  refine ⟨post, isLast ▸ ?_, joined post (stored _ (mem_of_mem_filter (mem_of_getLast? isLast)))⟩
  rw [openingPost, filter_congr fun other mem => ?_]
  simp [parent other (stored other mem)]

theorem Tables.post?_of_mem {post : PostEntry} (mem : post ∈ tables.posts) : tables.post? post.id = some post := by
  cases found : tables.post? post.id with
  | none =>
    have missing := find?_eq_none.mp found post mem
    simp at missing
  | some other =>
    have same : other.id = post.id := by simpa using find?_some found
    rw [tables.postsUnique.eq (mem_of_find?_eq_some found) mem same]

theorem Tables.row_eq {post : PostEntry} {idx : Fin (tables.fetchPostMetadata threadId).length} (mem : post ∈ tables.posts)
    (named : ((tables.fetchPostMetadata threadId).get idx).id = post.id) :
    ((tables.fetchPostMetadata threadId).get idx).parentId = post.parent ∧
      authorOf (tables.fetchPostMetadata threadId) idx = post.author := by
  obtain ⟨other, inPosts, -, id, parent, author⟩ := tables.row_post (get_mem _ idx)
  rw [tables.postsUnique.eq inPosts mem (id.trans named)] at parent author
  exact ⟨parent.symm, author.symm⟩

/-- The row of a post. -/
structure Tables.At (tables : Tables) (threadId : Uuid) (idx : Fin (tables.fetchPostMetadata threadId).length)
    (post : PostEntry) : Prop where
  stored : post ∈ tables.posts
  inThread : post.thread = threadId
  named : ((tables.fetchPostMetadata threadId).get idx).id = post.id

namespace Tables.At

theorem exists_post (idx : Fin (tables.fetchPostMetadata threadId).length) : ∃ post, tables.At threadId idx post := by
  obtain ⟨post, stored, inThread, named, -⟩ := tables.row_post (get_mem _ idx)
  exact ⟨post, stored, inThread, named.symm⟩

theorem exists_row {post : PostEntry} (stored : post ∈ tables.posts) (inThread : post.thread = threadId) :
    ∃ idx, tables.At threadId idx post := by
  obtain ⟨row, joined, -⟩ := exists_meta stored
  obtain ⟨idx, isRow⟩ := mem_iff_get.mp (tables.mem_fetchPostMetadata.mpr ⟨post, stored, inThread, joined⟩)
  exact ⟨idx, stored, inThread, isRow ▸ (tables.postMeta_id joined).1⟩

variable {i j : Fin (tables.fetchPostMetadata threadId).length} {a b : PostEntry} (above : tables.At threadId i a)
include above

theorem row_unique (same : tables.At threadId j a) : i = j :=
  index_unique (tables.fetchPostMetadata_distinct threadId) (above.named.trans same.named.symm)

theorem post_unique (same : tables.At threadId i b) : a = b :=
  tables.postsUnique.eq above.stored same.stored (above.named.symm.trans same.named)

theorem answers (here : tables.At threadId j b) :
    parentIdx (tables.fetchPostMetadata threadId) j = some i ↔ tables.Answers a b := by
  obtain ⟨parentId, -⟩ := row_eq here.stored here.named
  constructor
  · intro isParent
    obtain ⟨aboveId, hasParent, found⟩ := bind_eq_some_iff.mp isParent
    refine ⟨above.stored, here.stored, above.inThread.trans here.inThread.symm, ?_⟩
    rw [← parentId, hasParent, ← idToIndex_id found, above.named]
  · rintro ⟨-, -, -, parent⟩
    rw [parentIdx, parentId, parent, bind_some, ← above.named]
    exact idToIndex_get (tables.fetchPostMetadata_distinct threadId) i

theorem under {depth : Nat} (descends : Descends (childrenMap (tables.fetchPostMetadata threadId)) i depth j)
    (here : tables.At threadId j b) : tables.Under a b := by
  induction descends generalizing b with
  | here => exact above.post_unique here ▸ .refl
  | @child depth node kid _ hangs ih =>
    obtain ⟨p, atNode⟩ := exists_post node
    exact (ih atNode).tail ((atNode.answers here).mp (mem_childrenMap.mp hangs))

theorem descends (under : tables.Under a b) : ∃ j, tables.At threadId j b ∧
    ∃ depth, Descends (childrenMap (tables.fetchPostMetadata threadId)) i depth j := by
  induction under with
  | refl => exact ⟨i, above, 0, .here⟩
  | @tail p b _ step ih =>
    obtain ⟨k, atNode, depth, descends⟩ := ih
    obtain ⟨j, here⟩ := exists_row step.2.1 (step.2.2.1.symm.trans atNode.inThread)
    exact ⟨j, here, depth + 1, descends.child (mem_childrenMap.mpr ((atNode.answers here).mpr step))⟩

theorem hasDescendant_iff : HasDescendant (tables.fetchPostMetadata threadId) reader.id i ↔ tables.CarriesReader reader a := by
  constructor
  · rintro ⟨j, ⟨depth, descends⟩, own⟩
    obtain ⟨b, here⟩ := exists_post j
    exact ⟨b, above.under descends here, (row_eq here.stored here.named).2.symm.trans own⟩
  · rintro ⟨b, under, own⟩
    obtain ⟨j, here, descends⟩ := above.descends under
    exact ⟨j, descends, (row_eq here.stored here.named).2.trans own⟩

theorem retractedLeaf_iff : retractedLeaf (tables.fetchPostMetadata threadId) i = true ↔ tables.BareRetraction a := by
  obtain ⟨post, inPosts, -, joined⟩ := tables.mem_fetchPostMetadata.mp (get_mem (tables.fetchPostMetadata threadId) i)
  have same : post = a :=
    tables.postsUnique.eq inPosts above.stored ((tables.postMeta_id joined).1.symm.trans above.named)
  have retracted : ((tables.fetchPostMetadata threadId).get i).retractedAt = a.retractedAt := by
    obtain ⟨user, -, row⟩ := map_eq_some_iff.mp joined
    rw [← row, same]
  rw [retractedLeaf, retracted, Bool.and_eq_true, List.isEmpty_iff, eq_nil_iff_forall_not_mem, BareRetraction]
  refine and_congr_right fun _ => ⟨fun alone b answers => ?_, fun alone ci hangs => ?_⟩
  · obtain ⟨j, here⟩ := exists_row answers.2.1 (answers.2.2.1.symm.trans above.inThread)
    exact alone j (mem_childrenMap.mpr ((above.answers here).mpr answers))
  · obtain ⟨b, here⟩ := exists_post ci
    exact alone b ((above.answers here).mp (mem_childrenMap.mp hangs))

end Tables.At

section

variable {ctx : TreeCtx (tables.fetchPostMetadata threadId)}
    (prepared : (tables.threadView reader.ctx threadId).prepare sort = .ok (info, ctx))
include prepared

theorem Tables.openingPost_eq : ∃ opening, tables.openingPost threadId = some opening ∧
    tables.At threadId ctx.tree.rootIdx opening ∧ opening.parent = none := by
  obtain ⟨opening, isLast, joined⟩ := opening_row (buildMetaTree_root (prepare_ctx prepared).1)
  have mem := mem_of_mem_filter (mem_of_getLast? isLast)
  have inThread := (mem_insertionSort _).mp mem
  refine ⟨opening, isLast, ⟨mem_of_mem_filter inThread, of_decide_eq_true (mem_filter.mp inThread).2,
    (tables.postMeta_id joined).1⟩, ?_⟩
  exact (tables.postMeta_id joined).2.1.symm.trans ctx.tree.opening

theorem Tables.At.inTree_iff {idx : Fin (tables.fetchPostMetadata threadId).length} {post : PostEntry}
    (here : tables.At threadId idx post) : tables.InTree post ↔
      ∃ depth, Descends (childrenMap (tables.fetchPostMetadata threadId)) ctx.tree.rootIdx depth idx := by
  obtain ⟨opening, isOpening, root, -⟩ := openingPost_eq prepared
  rw [InTree, here.inThread, isOpening]
  constructor
  · rintro ⟨start, isStart, under⟩
    cases isStart
    obtain ⟨j, there, descends⟩ := root.descends under
    exact there.row_unique here ▸ descends
  · rintro ⟨depth, descends⟩
    exact ⟨opening, rfl, root.under descends here⟩

/-- The tree of the view keeps a reply exactly if nothing bars it. -/
theorem Tables.At.isVisible_iff {above idx : Fin (tables.fetchPostMetadata threadId).length} {post : PostEntry}
    (here : tables.At threadId idx post) (isParent : parentIdx (tables.fetchPostMetadata threadId) idx = some above)
    (inTree : tables.InTree post) : ctx.isVisible idx false = true ↔ ¬ tables.Bars reader post := by
  obtain ⟨abovePost, atParent⟩ := At.exists_post above
  have parent : parentAuthor tables post = parentAuthorOf (tables.fetchPostMetadata threadId) idx := by
    rw [parentAuthor, ((atParent.answers here).mp isParent).2.2.2, bind_some, post?_of_mem atParent.stored,
      parentAuthorOf, isParent, map_some, map_some, ← (row_eq atParent.stored atParent.named).2]
  have author := (row_eq here.stored here.named).2
  have isViewer : ctx.viewer = reader.ctx := (prepare_ctx prepared).2.1
  unfold TreeCtx.isVisible Bars Reader.Distrusts Reader.trustedBy
  rw [isViewer]
  simp only [Reader.ctx, author, parent]
  by_cases self : post.author = reader.id
  · simp [self]
  · by_cases distrusted : post.author ∈ reader.distrustSet
    · have carries := (hasReaderDescendant_iff prepared rfl (by rwa [← author] at distrusted)
        ((here.inTree_iff prepared).mp inTree)).trans here.hasDescendant_iff
      simp [self, distrusted, carries]
    · simp [self, distrusted, or_iff_not_imp_left]

theorem Tables.At.shown_iff {idx : Fin (tables.fetchPostMetadata threadId).length} {post : PostEntry}
    (here : tables.At threadId idx post) (isVisible : ctx.isVisible ctx.tree.rootIdx true = true) :
    ctx.Shown idx ↔ tables.InTree post ∧ (post.parent.isSome = true → ¬ tables.BareRetraction post) ∧
      ¬ tables.BarredAbove reader post := by
  obtain ⟨opening, isOpening, root, parentless⟩ := openingPost_eq prepared
  have onlyOpening : ∀ above, tables.Under above opening → above = opening := by
    intro above under
    cases under with
    | refl => rfl
    | tail _ step => cases parentless.symm.trans step.2.2.2
  constructor
  · intro shown
    induction shown generalizing post with
    | opening =>
      obtain rfl := here.post_unique root
      refine ⟨⟨post, here.inThread ▸ isOpening, .refl⟩, by simp [parentless], ?_⟩
      rintro ⟨above, isReply, under, -⟩
      rw [onlyOpening above under, parentless] at isReply
      cases isReply
    | @reply above idx _ isParent leaf isVisible ih =>
      obtain ⟨abovePost, atParent⟩ := At.exists_post above
      have step := (atParent.answers here).mp isParent
      obtain ⟨⟨start, isStart, under⟩, -, unbarred⟩ := ih atParent
      have inTree : tables.InTree post := ⟨start, step.2.2.1 ▸ isStart, under.tail step⟩
      refine ⟨inTree, fun _ => ?_, ?_⟩
      · rw [← here.retractedLeaf_iff, leaf]
        exact Bool.false_ne_true
      · rintro ⟨top, isReply, under, bars⟩
        cases under with
        | refl => exact (here.isVisible_iff prepared isParent inTree).mp isVisible bars
        | @tail other _ under last =>
          have same : other = abovePost :=
            tables.postsUnique.eq last.1 step.1 (some.inj (last.2.2.2.symm.trans step.2.2.2))
          exact unbarred ⟨top, isReply, same ▸ under, bars⟩
  · rintro ⟨⟨start, isStart, under⟩, kept, unbarred⟩
    rw [here.inThread, isOpening] at isStart
    cases isStart
    induction under generalizing idx with
    | refl => exact root.row_unique here ▸ .opening isVisible
    | @tail above post under step ih =>
      obtain ⟨parent, atParent⟩ := At.exists_row step.1 (step.2.2.1.trans here.inThread)
      have isParent := (atParent.answers here).mpr step
      have isReply : post.parent.isSome = true := by rw [step.2.2.2]; rfl
      have shown := ih atParent (fun _ bare => bare.2 post step) fun barred =>
        unbarred (barred.imp fun _ => .imp_right (.imp_left (·.tail step)))
      refine .reply shown isParent (Bool.eq_false_iff.mpr fun leaf => kept isReply (here.retractedLeaf_iff.mp leaf)) ?_
      refine (here.isVisible_iff prepared isParent ⟨opening, here.inThread ▸ isOpening, under.tail step⟩).mpr fun bars => ?_
      exact unbarred ⟨post, isReply, .refl, bars⟩

end

theorem countsAsReply_iff {post : PostEntry} :
    countsAsReply tables reader post = true ↔ ¬ reader.Distrusts post ∧ ¬ tables.Bars reader post := by
  unfold countsAsReply Tables.Bars Reader.Distrusts
  by_cases self : post.author = reader.id
  · simp [self]
  · by_cases distrusted : post.author ∈ reader.distrustSet
    · simp [self, distrusted]
    · simp [self, distrusted, or_iff_not_imp_left]

end Rows

section Totals

variable {tables : Tables} {reader : Reader} {threadId : Uuid} {store : PostStore} {focus : Option Uuid}
    {ctx : TreeCtx (tables.fetchPostMetadata threadId)} {response : ThreadDetailResponse}

theorem ThreadView.getThread_total {view : ThreadView} (answered : view.getThread store sort focus = .ok response) :
    ∃ info ctx, view.prepare sort = .ok (info, ctx) ∧ ctx.isVisible ctx.tree.rootIdx true = true ∧
      response.totalReplyCount = ctx.countVisibleReplies (depthBound view.rows) ctx.tree.rootIdx := by
  cases prepared : view.prepare sort with
  | error error => cases (getThread_unprepared prepared focus).symm.trans answered
  | ok loaded =>
    obtain ⟨info, ctx⟩ := loaded
    obtain ⟨plan, planned, sane⟩ := getThread_plan prepared focus
    rw [planned store] at answered
    cases plan with
    | error error => cases answered
    | ok p =>
      cases answered
      exact ⟨info, ctx, rfl, (sane p rfl).1, rfl⟩

open Classical in
theorem Tables.total_eq (prepared : (tables.threadView reader.ctx threadId).prepare sort = .ok (info, ctx))
    (isVisible : ctx.isVisible ctx.tree.rootIdx true = true) :
    ctx.countVisibleReplies (depthBound (tables.fetchPostMetadata threadId)) ctx.tree.rootIdx =
      (tables.repliesOf threadId).countP fun post => tables.Kept reader post := by
  let rows := tables.fetchPostMetadata threadId
  let walk := preorder ctx.visibleSortedChildren (depthBound rows + 1) ctx.tree.rootIdx
  have enough : rows.length ≤ depthBound rows + 1 := by rw [depthBound]; omega
  have split : walk = ctx.tree.rootIdx :: walk.tail := rfl
  have nodup : walk.Nodup := ctx.rooted.nodup_preorder .here
  obtain ⟨apart, tailNodup⟩ := nodup_cons.mp (split ▸ nodup)
  have inTail : ∀ idx, idx ∈ walk.tail ↔ ctx.Shown idx ∧ idx ≠ ctx.tree.rootIdx := by
    intro idx
    rw [shown_iff_descends isVisible, ← mem_preorder_root enough]
    change _ ↔ idx ∈ walk ∧ _
    rw [split, mem_cons]
    exact ⟨fun mem => ⟨.inr mem, fun same => apart (same ▸ mem)⟩, fun found => found.1.resolve_left found.2⟩
  obtain ⟨opening, -, root, parentless⟩ := openingPost_eq prepared
  have isReply : ∀ idx post, tables.At threadId idx post → ctx.Shown idx →
      (idx ≠ ctx.tree.rootIdx ↔ post.parent.isSome = true) := by
    intro idx post here shown
    constructor
    · intro notRoot
      cases shown with
      | opening => exact absurd rfl notRoot
      | reply _ isParent _ _ =>
        obtain ⟨aboveId, hasParent, -⟩ := bind_eq_some_iff.mp isParent
        rw [← (row_eq here.stored here.named).1, hasParent]
        rfl
    · rintro replies rfl
      rw [here.post_unique root, parentless] at replies
      cases replies
  have perm : (walk.tail.map fun idx => (rows.get idx).id).Perm
      (((tables.repliesOf threadId).filter fun post => tables.Kept reader post).map (·.id)) := by
    refine (perm_ext_iff_of_nodup ?_ ?_).mpr fun id => ?_
    · exact tailNodup.map_on fun i _ j _ same => index_unique (tables.fetchPostMetadata_distinct threadId) same
    · exact tables.postsUnique.sublist ((filter_sublist.trans filter_sublist).map _)
    · constructor
      · intro mem
        obtain ⟨idx, isIn, rfl⟩ := mem_map.mp mem
        obtain ⟨shown, notRoot⟩ := (inTail idx).mp isIn
        obtain ⟨post, here⟩ := At.exists_post idx
        have replies := (isReply idx post here shown).mp notRoot
        obtain ⟨inTree, leaf, unbarred⟩ := (here.shown_iff prepared isVisible).mp shown
        refine mem_map.mpr ⟨post, mem_filter.mpr ⟨mem_filter.mpr ⟨here.stored, ?_⟩, ?_⟩, here.named.symm⟩
        · exact decide_eq_true ⟨here.inThread, replies⟩
        · exact decide_eq_true ⟨inTree, leaf replies, unbarred⟩
      · intro mem
        obtain ⟨post, isKept, rfl⟩ := mem_map.mp mem
        obtain ⟨replies, kept⟩ := mem_filter.mp isKept
        obtain ⟨stored, conditions⟩ := mem_filter.mp replies
        obtain ⟨inThread, hasParent⟩ := of_decide_eq_true conditions
        obtain ⟨inTree, leaf, unbarred⟩ := of_decide_eq_true kept
        obtain ⟨idx, here⟩ := At.exists_row stored inThread
        have shown := (here.shown_iff prepared isVisible).mpr ⟨inTree, fun _ => leaf, unbarred⟩
        exact mem_map.mpr ⟨idx, (inTail idx).mpr ⟨shown, (isReply idx post here shown).mpr hasParent⟩, here.named⟩
  have counted := @countVisibleReplies_eq _ (depthBound rows) ctx ctx.tree.rootIdx
  rw [show preorder ctx.visibleSortedChildren (depthBound rows + 1) ctx.tree.rootIdx = walk from rfl, split,
    length_cons] at counted
  rw [countP_eq_length_filter, ← length_map, ← perm.length_eq, length_map]
  exact Nat.succ.inj counted

theorem applyVisibleReplyCounts_eq {threads : List ThreadSummary}
    (mem : summary ∈ applyVisibleReplyCounts tables reader threads) :
    summary.replyCount = (tables.repliesOf summary.id).countP (countsAsReply tables reader) := by
  obtain ⟨listed, inThreads, rfl⟩ := mem_map.mp mem
  dsimp only
  have known : (threads.map (·.id)).contains listed.id = true :=
    contains_iff_mem.mpr (mem_map_of_mem inThreads)
  rw [visibleReplyRows, repliesOf, countP_filter, countP_filter, countP_filter]
  refine countP_congr fun post _ => ?_
  by_cases inThread : post.thread = listed.id
  · rw [inThread, known]
    simp [and_comm]
  · simp [inThread]

theorem Tables.listedOnly_iff {post : PostEntry} :
    countsAsReply tables reader post = true ∧ ¬ tables.Kept reader post ↔ tables.ListedOnly reader post := by
  rw [countsAsReply_iff, Kept, ListedOnly]
  tauto

theorem Tables.scaffold_iff {post : PostEntry} (isReply : post.parent.isSome = true) :
    tables.Kept reader post ∧ ¬ countsAsReply tables reader post = true ↔ tables.Scaffold reader post := by
  have unbarred : ¬ tables.BarredAbove reader post → ¬ tables.Bars reader post :=
    fun above bars => above ⟨post, isReply, .refl, bars⟩
  have answered : tables.CarriesReader reader post → reader.Distrusts post → ¬ tables.BareRetraction post := by
    rintro ⟨own, under, isOwn⟩ distrusts bare
    rcases Relation.ReflTransGen.cases_head under with rfl | ⟨answer, step, -⟩
    · exact distrusts.1 isOwn
    · exact bare.2 answer step
  have carries : reader.Distrusts post → ¬ tables.Bars reader post → tables.CarriesReader reader post :=
    fun distrusts unbarred => by_contra fun nothing => unbarred (.inl ⟨distrusts, nothing⟩)
  rw [countsAsReply_iff, Kept, Scaffold]
  tauto

end Totals

open Classical in
/-- The count of a listing is the count of the view if and only if as many replies are only listed as are only scaffolds. -/
theorem reply_counts_agree_iff (tables : Tables) (reader : Reader) (store : PostStore) (sort : PostSort)
    (focus : Option Uuid) (threads : List ThreadSummary) {response : ThreadDetailResponse}
    (listed : summary ∈ applyVisibleReplyCounts tables reader threads)
    (shown : (tables.threadView reader.ctx summary.id).getThread store sort focus = .ok response) :
    summary.replyCount = response.totalReplyCount ↔
      (tables.repliesOf summary.id).countP (fun post => tables.ListedOnly reader post) =
        (tables.repliesOf summary.id).countP fun post => tables.Scaffold reader post := by
  obtain ⟨info, ctx, prepared, isVisible, total⟩ := getThread_total shown
  have whole : response.totalReplyCount = (tables.repliesOf summary.id).countP fun post => tables.Kept reader post :=
    total.trans (total_eq prepared isVisible)
  let replies := tables.repliesOf summary.id
  have flat := countP_eq_countP_filter_add replies (countsAsReply tables reader) fun post => tables.Kept reader post
  have tree := countP_eq_countP_filter_add replies (fun post => tables.Kept reader post)
    (countsAsReply tables reader)
  have both : (replies.filter fun post => tables.Kept reader post).countP (countsAsReply tables reader) =
      (replies.filter (countsAsReply tables reader)).countP fun post => tables.Kept reader post := by
    rw [countP_filter, countP_filter]
    exact countP_congr fun post _ => by rw [Bool.and_comm]
  have onlyListed : (replies.filter fun post => !decide (tables.Kept reader post)).countP (countsAsReply tables reader) =
      replies.countP fun post => tables.ListedOnly reader post := by
    rw [countP_filter]
    exact countP_congr fun post _ => by simp [← listedOnly_iff]
  have onlyShown : (replies.filter fun post => !countsAsReply tables reader post).countP
      (fun post => tables.Kept reader post) = replies.countP fun post => tables.Scaffold reader post := by
    rw [countP_filter]
    refine countP_congr fun post mem => ?_
    simp [← scaffold_iff (of_decide_eq_true (mem_filter.mp mem).2).2]
  rw [applyVisibleReplyCounts_eq listed, whole, flat, tree, both, onlyListed, onlyShown, Nat.add_left_cancel_iff]

theorem leafRooms_unique : UniqueBy (·.id) [(⟨8, "room", none, none⟩ : RoomEntry)] := by
  unfold UniqueBy
  decide

def leafTables : Tables where
  users := [⟨11, "name", 0, .active⟩]
  rooms := [⟨8, "room", none, none⟩]
  threads := [⟨7, "title", 11, 8, "2026", false, none, 1, none⟩]
  posts := [⟨1, 11, 7, none, "2026", none, none⟩, ⟨2, 11, 7, some 1, "2026", some "2027", none⟩]
  roomsUnique := leafRooms_unique
  threadsUnique := by unfold UniqueBy; decide
  postsUnique := by unfold UniqueBy; decide
  threadAuthors := by decide
  threadRooms := by decide
  postAuthors := by decide

def leafReader : Reader where
  id := 20
  trustMap _ := none
  reverseMap author := if author = 11 then some 1 else none
  distrustSet := []
  tagMap _ := none

def leafSummary : ThreadSummary :=
  ⟨7, "title", 11, "name", 0, 8, "room", "2026", false, false, 1, none, ⟨none, false, .active, none⟩, none⟩

def leafStore : PostStore :=
  ⟨fun _ => none, fun _ => []⟩

theorem leaf_counts : ∃ summary ∈ applyVisibleReplyCounts leafTables leafReader [leafSummary], ∃ response,
    (leafTables.threadView leafReader.ctx summary.id).getThread leafStore .trust none = .ok response ∧
      summary.id = 7 ∧ summary.replyCount = 1 ∧ response.totalReplyCount = 0 := by
  refine ⟨_, mem_singleton.mpr rfl, ?_⟩
  have counted : ((leafTables.threadView leafReader.ctx 7).getThread leafStore .trust none).toOption.map
      (·.totalReplyCount) = some 0 := by
    decide +kernel
  dsimp only
  rw [show leafSummary.id = 7 from rfl]
  cases answered : (leafTables.threadView leafReader.ctx 7).getThread leafStore .trust none with
  | error error =>
    rw [answered] at counted
    cases counted
  | ok response =>
    rw [answered] at counted
    exact ⟨response, rfl, rfl, by decide +kernel, some.inj counted⟩

/-- The listing counts a retracted leaf that the view drops. -/
theorem listed_count_differs : ∃ summary ∈ applyVisibleReplyCounts leafTables leafReader [leafSummary], ∃ response,
    (leafTables.threadView leafReader.ctx summary.id).getThread leafStore .trust none = .ok response ∧
      summary.replyCount ≠ response.totalReplyCount := by
  obtain ⟨summary, listed, response, shown, -, one, zero⟩ := leaf_counts
  exact ⟨summary, listed, response, shown, by rw [one, zero]; decide⟩

open Classical in
theorem leaf_only_listed : (leafTables.repliesOf 7).countP (fun post => leafTables.ListedOnly leafReader post) ≠
    (leafTables.repliesOf 7).countP fun post => leafTables.Scaffold leafReader post := by
  obtain ⟨summary, listed, response, shown, named, one, zero⟩ := leaf_counts
  have agree := reply_counts_agree_iff leafTables leafReader leafStore .trust none [leafSummary] listed shown
  rw [named, one, zero] at agree
  exact fun same => absurd (agree.mpr same) (by decide)

end Prismoire
