import Prismoire.ThreadExpansion

namespace Prismoire

open Lib List Option TreeCtx ThreadView

section

variable {rows : List PostMeta} (ctx : TreeCtx rows) (store : PostStore)

/-- The part of a response for a post, below the parts for all its ancestors. -/
inductive TreeCtx.Leads (response : PostResponse) : Fin rows.length → PostResponse → Prop
  | opening : response.post = ctx.fullView store ctx.tree.rootIdx → Leads response ctx.tree.rootIdx response
  | reply {parent idx above child} : Leads response parent above → parentIdx rows idx = some parent →
      child ∈ above.children → child.post = ctx.fullView store idx → Leads response idx child

end

/-- How far a reader has the top-level replies in order, and where the next page starts. -/
def ThreadDetailResponse.loaded (response : ThreadDetailResponse) : Nat :=
  response.topLevelLoaded.getD response.post.children.length

/-- A focused answer shows its post. -/
structure Permalink (view : ThreadView) (store : PostStore) (sort : PostSort) (ctx : TreeCtx view.rows)
    (idx : Fin view.rows.length) (response : ThreadDetailResponse) : Prop where
  focused : ∃ part, ctx.Leads store response.post idx part
  once : ((postsOf [response.post]).map (·.id)).Nodup
  first : (response.post.children.take response.loaded).map (·.post) =
    ((ctx.visibleSortedChildren ctx.tree.rootIdx).take response.loaded).map (ctx.fullView store)
  continues : ∀ page more, view.getThreadReplies store sort response.loaded = .ok (page, more) →
    (response.post.children.take response.loaded ++ page).map (·.post) =
      ((ctx.visibleSortedChildren ctx.tree.rootIdx).take (response.loaded + repliesPageSize)).map (ctx.fullView store)

variable {response : ThreadDetailResponse}

section

variable {rows : List PostMeta} {ctx : TreeCtx rows} {store : PostStore} {idx : Fin rows.length}
  {focusPath starts : List (Fin rows.length)} {fuel depth : Nat} {info : ThreadInfo}

theorem TreeCtx.Below.path_closed (below : ctx.Below depth idx) (enough : depth ≤ fuel) :
    idx ∈ focusPathFrom rows fuel idx ∧ ∀ i ∈ focusPathFrom rows fuel idx, ∀ parent, parentIdx rows i = some parent →
      parent ∈ focusPathFrom rows fuel idx := by
  induction below generalizing fuel with
  | opening =>
    have parentless : parentIdx rows ctx.tree.rootIdx = none := by
      simp only [parentIdx, ctx.tree.opening, bind_none]
    have alone : focusPathFrom rows fuel ctx.tree.rootIdx = [ctx.tree.rootIdx] := by
      cases fuel <;> simp [focusPathFrom, parentless]
    rw [alone]
    simp [parentless]
  | @reply depth parent idx _ isParent ih =>
    obtain ⟨fuel, rfl⟩ : ∃ less, fuel = less + 1 := ⟨fuel - 1, by omega⟩
    obtain ⟨onPath, closed⟩ := ih (Nat.le_of_succ_le_succ enough)
    rw [focusPathFrom, isParent]
    refine ⟨mem_cons_self, fun i mem other above => mem_cons_of_mem _ ?_⟩
    rcases mem_cons.mp mem with rfl | later
    · cases isParent.symm.trans above
      exact onPath
    · exact closed i later other above

theorem focusPath_single {a b : Fin rows.length} (inA : a ∈ focusPathFrom rows fuel idx)
    (inB : b ∈ focusPathFrom rows fuel idx) (hangsA : parentIdx rows a = some ctx.tree.rootIdx)
    (hangsB : parentIdx rows b = some ctx.tree.rootIdx) : a = b := by
  have parentless : parentIdx rows ctx.tree.rootIdx = none := by
    simp only [parentIdx, ctx.tree.opening, bind_none]
  -- above such a reply comes the opening post, and nothing above that
  have last {c d : Fin rows.length} {fuel : Nat} (above : parentIdx rows c = some ctx.tree.rootIdx)
      (later : d ∈ focusPathFrom rows fuel ctx.tree.rootIdx) (hangs : parentIdx rows d = some ctx.tree.rootIdx) : c = d := by
    have alone : focusPathFrom rows fuel ctx.tree.rootIdx = [ctx.tree.rootIdx] := by
      cases fuel <;> simp [focusPathFrom, parentless]
    rw [alone, mem_singleton] at later
    cases (later ▸ hangs).symm.trans parentless
  induction fuel generalizing idx with
  | zero => exact (mem_singleton.mp inA).trans (mem_singleton.mp inB).symm
  | succ fuel ih =>
    unfold focusPathFrom at inA inB
    cases isParent : parentIdx rows idx with
    | none =>
      rw [isParent] at inA inB
      exact (mem_singleton.mp inA).trans (mem_singleton.mp inB).symm
    | some parent =>
      rw [isParent] at inA inB
      rcases mem_cons.mp inA with rfl | laterA <;> rcases mem_cons.mp inB with rfl | laterB
      · rfl
      · cases isParent.symm.trans hangsA
        exact last hangsA laterB hangsB
      · cases isParent.symm.trans hangsB
        exact (last hangsB laterA hangsA).symm
      · exact ih laterA laterB

theorem TreeCtx.collectTruncated_sublist : (ctx.collectTruncated focusPath fuel idx depth).Sublist
    ((preorder ctx.visibleSortedChildren fuel idx).map fun i => (rows.get i).id) := by
  induction fuel generalizing idx depth with
  | zero => exact List.Sublist.refl _
  | succ fuel ih =>
    rw [collectTruncated_succ, preorder, map_cons, map_flatMap]
    refine List.Sublist.cons_cons _ ?_
    split
    · exact nil_sublist _
    · exact List.Sublist.flatMap_right _ fun ci _ => ih

theorem TreeCtx.buildTree_post (bodies : Uuid → Option BodyInfo) (attachments : Uuid → List AttachmentResponse) :
    (ctx.buildTree bodies attachments focusPath fuel idx depth).post = ctx.postView bodies attachments idx := by
  cases fuel <;> rfl

theorem TreeCtx.map_buildTree_post : (starts.map fun i =>
    ctx.buildTree store.bodies store.attachments focusPath fuel i depth).map (·.post) = starts.map (ctx.fullView store) := by
  simp only [List.map_map, Function.comp_def, buildTree_post]
  rfl

theorem detailResponse_post {focused : Option Uuid} {loaded : Option Nat}
    (replies : ∀ i ∈ starts, i ∈ ctx.visibleSortedChildren ctx.tree.rootIdx) :
    (detailResponse ctx store info focusPath starts focused loaded).post = .mk (ctx.fullView store ctx.tree.rootIdx)
      (starts.map fun i => ctx.buildTree store.bodies store.attachments focusPath (TreeCtx.depthBound rows) i 1) false := by
  unfold detailResponse
  dsimp only
  rw [postView_fetched mem_cons_self]
  congr 1
  refine buildAll_fetched (fun i mem => ?_) fun _ mem => mem_cons_of_mem _ mem
  exact (bounded_start le_rfl).1 i (replies i mem)

theorem TreeCtx.Shown.leads (shown : ctx.Shown idx) (onPath : idx ∈ focusPath)
    (closed : ∀ i ∈ focusPath, ∀ parent, parentIdx rows i = some parent → parent ∈ focusPath)
    (entered : ∀ i ∈ ctx.visibleSortedChildren ctx.tree.rootIdx, i ∈ focusPath → i ∈ starts) :
    let response := PostResponse.mk (ctx.fullView store ctx.tree.rootIdx)
      (starts.map fun i => ctx.buildTree store.bodies store.attachments focusPath (depthBound rows) i 1) false
    ctx.Leads store response idx response ∧ idx = ctx.tree.rootIdx ∨
      ∃ fuel depth, ctx.Bounded focusPath fuel idx depth ∧ ctx.Leads store response idx
        (ctx.buildTree store.bodies store.attachments focusPath fuel idx depth) := by
  induction shown with
  | opening _ => exact .inl ⟨.opening rfl, rfl⟩
  | @reply parent idx _ isParent leaf isVisible ih =>
    have hangs : idx ∈ ctx.visibleSortedChildren parent := mem_visibleSortedChildren.mpr ⟨isParent, leaf, isVisible⟩
    have above : parent ∈ focusPath := closed idx onPath parent isParent
    rcases ih above with ⟨leads, rfl⟩ | ⟨fuel, depth, bounded, leads⟩
    · refine .inr ⟨depthBound rows, 1, (bounded_start le_rfl).1 idx hangs, leads.reply isParent ?_ (buildTree_post _ _)⟩
      exact List.mem_map.mpr ⟨idx, entered idx hangs onPath, rfl⟩
    · obtain ⟨fuel, rfl⟩ : ∃ less, fuel = less + 1 := ⟨fuel - 1, by have := bounded.positive; omega⟩
      have uncut : cutOff focusPath parent depth = false := by simp [cutOff, above]
      refine .inr ⟨fuel, _, bounded.child uncut hangs, leads.reply isParent ?_ (buildTree_post _ _)⟩
      rw [buildTree_succ, uncut]
      exact List.mem_map.mpr ⟨idx, hangs, rfl⟩

theorem TreeCtx.Leads.shows {response part : PostResponse} {seen : PostView} (leads : ctx.Leads store response idx part)
    (shows : part.Shows seen) : response.Shows seen := by
  induction leads with
  | opening _ => exact shows
  | @reply _ _ above _ _ _ mem _ ih =>
    obtain ⟨post, children, more⟩ := above
    exact ih (.reply mem shows)

theorem PostResponse.shows_post : (part : PostResponse) → part.Shows part.post
  | .mk _ _ _ => .self

theorem TreeCtx.Leads.post {response part : PostResponse} (leads : ctx.Leads store response idx part) :
    part.post = ctx.fullView store idx := by
  cases leads with
  | opening same => exact same
  | reply _ _ _ same => exact same

theorem buildFocusedResponse_eq {focusId : Uuid}
    (answered : buildFocusedResponse ctx store info focusId = .ok response) :
    ∃ focusIdx starts loaded, idToIndex rows focusId = some focusIdx ∧
      response = detailResponse ctx store info (focusPathFrom rows (TreeCtx.depthBound rows) focusIdx) starts
        (some focusId) loaded ∧
      starts.Sublist (ctx.visibleSortedChildren ctx.tree.rootIdx) ∧
      starts.take (loaded.getD starts.length) =
        (ctx.visibleSortedChildren ctx.tree.rootIdx).take (loaded.getD starts.length) ∧
      ∀ i ∈ ctx.visibleSortedChildren ctx.tree.rootIdx,
        i ∈ focusPathFrom rows (TreeCtx.depthBound rows) focusIdx → i ∈ starts := by
  unfold buildFocusedResponse at answered
  cases known : idToIndex rows focusId with
  | none =>
    rw [known] at answered
    cases answered
  | some focusIdx =>
    rw [known] at answered
    dsimp only at answered
    split at answered
    · cases answered
    · let kids := ctx.visibleSortedChildren ctx.tree.rootIdx
      have limited : kids.take topLevelLimit = kids.take (kids.take topLevelLimit).length := by
        rw [length_take, ← take_eq_take_min]
      split at answered
      · rename_i absent
        cases answered
        refine ⟨focusIdx, _, none, rfl, rfl, take_sublist _ _, take_length.trans limited, fun i mem onPath => ?_⟩
        exact absurd (contains_iff_mem.mpr onPath) (find?_eq_none.mp absent i mem)
      · rename_i ftl found
        have isKid : ftl ∈ kids := mem_of_find?_eq_some found
        have only : ∀ i ∈ kids, i ∈ focusPathFrom rows (TreeCtx.depthBound rows) focusIdx → i = ftl := by
          intro i mem onPath
          exact focusPath_single onPath (contains_iff_mem.mp (find?_some found))
            (mem_visibleSortedChildren.mp mem).1 (mem_visibleSortedChildren.mp isKid).1
        split at answered
        · rename_i early
          cases answered
          refine ⟨focusIdx, _, none, rfl, rfl, take_sublist _ _, take_length.trans limited, fun i mem onPath => ?_⟩
          rw [only i mem onPath]
          exact contains_iff_mem.mp early
        · rename_i late
          cases answered
          refine ⟨focusIdx, _, some _, rfl, rfl, ?_, ?_, fun i mem onPath => ?_⟩
          · have beyond : ftl ∈ kids.drop topLevelLimit := by
              rw [← take_append_drop topLevelLimit kids, mem_append] at isKid
              exact isKid.resolve_left fun early => late (contains_iff_mem.mpr early)
            have parts := (List.Sublist.refl (kids.take topLevelLimit)).append (singleton_sublist.mpr beyond)
            rwa [take_append_drop] at parts
          · rw [getD_some, take_left']
            · exact limited
            · rfl
          · rw [only i mem onPath]
            exact mem_append_right _ (mem_singleton_self _)

theorem TreeCtx.once (distinct : (rows.map (·.id)).Nodup)
    (ordered : starts.Sublist (ctx.visibleSortedChildren ctx.tree.rootIdx)) :
    ((postsOf [.mk (ctx.fullView store ctx.tree.rootIdx) (starts.map fun i =>
      ctx.buildTree store.bodies store.attachments focusPath (depthBound rows) i 1) false]).map (·.id)).Nodup := by
  have walks : ∀ i ∈ starts, (postsOf [ctx.buildTree store.bodies store.attachments focusPath (depthBound rows) i 1]).map
      (·.id) = ctx.collectTruncated focusPath (depthBound rows) i 1 :=
    fun i mem => (collectTruncated_eq ((bounded_start le_rfl).1 i (ordered.subset mem))).symm
  have whole : ((preorder ctx.visibleSortedChildren (depthBound rows + 1) ctx.tree.rootIdx).map fun i => (rows.get i).id).Nodup :=
    (ctx.rooted.nodup_preorder .here).map_on fun i _ j _ same => index_unique distinct same
  rw [postsOf_mk, map_cons, postsOf_map, map_flatMap, flatMap_congr walks]
  refine whole.sublist ?_
  rw [preorder, map_cons, map_flatMap]
  exact (((ordered.flatMap _).trans (List.Sublist.flatMap_right _ fun i _ => collectTruncated_sublist))).cons_cons _

end

/-- A focused answer shows its post exactly if the whole path from the opening post to it is shown. -/
theorem permalink_iff_shown (view : ThreadView) (store : PostStore) (sort : PostSort) {focusId : Uuid}
    (answered : view.getThread store sort (some focusId) = .ok response) :
    ∃ info ctx idx, view.prepare sort = .ok (info, ctx) ∧ idToIndex view.rows focusId = some idx ∧
      (Permalink view store sort ctx idx response ↔ ctx.Shown idx) := by
  cases prepared : view.prepare sort with
  | error error => cases (getThread_unprepared prepared _).symm.trans answered
  | ok made =>
    obtain ⟨info, ctx⟩ := made
    rw [getThread_prepared prepared] at answered
    cases isVisible : ctx.isVisible ctx.tree.rootIdx true with
    | false =>
      rw [isVisible] at answered
      cases answered
    | true =>
      rw [isVisible] at answered
      obtain ⟨idx, starts, loaded, known, rfl, ordered, prefixed, entered⟩ := buildFocusedResponse_eq answered
      have replies : ∀ i ∈ starts, i ∈ ctx.visibleSortedChildren ctx.tree.rootIdx := fun i mem => ordered.subset mem
      have post := @detailResponse_post _ ctx store (focusPathFrom view.rows (TreeCtx.depthBound view.rows) idx) starts info
        (some focusId) loaded replies
      refine ⟨info, ctx, idx, rfl, known, fun permalink => ?_, fun shown => ?_⟩
      · obtain ⟨part, leads⟩ := permalink.focused
        obtain ⟨i, seen, same⟩ := detailResponse_shows isVisible replies (leads.shows part.shows_post)
        rw [leads.post] at same
        exact index_unique view.distinct same ▸ seen
      · have first : ((detailResponse ctx store info (focusPathFrom view.rows (TreeCtx.depthBound view.rows) idx) starts
            (some focusId) loaded).post.children.take (loaded.getD starts.length)).map (·.post) =
            ((ctx.visibleSortedChildren ctx.tree.rootIdx).take (loaded.getD starts.length)).map (ctx.fullView store) := by
          rw [post, PostResponse.children, ← map_take, prefixed, map_buildTree_post]
        have count : ThreadDetailResponse.loaded (detailResponse ctx store info
            (focusPathFrom view.rows (TreeCtx.depthBound view.rows) idx) starts (some focusId) loaded) =
              loaded.getD starts.length := by
          rw [ThreadDetailResponse.loaded, post, PostResponse.children, length_map]
          rfl
        refine ⟨?_, ?_, ?_, fun page more asked => ?_⟩
        · obtain ⟨depth, descends⟩ := (shown_iff_descends isVisible).mp shown
          have below := below_of_descends descends
          have deep : depth ≤ TreeCtx.depthBound view.rows := by
            have := below.lt_length
            unfold TreeCtx.depthBound
            omega
          obtain ⟨onPath, closed⟩ := below.path_closed deep
          rw [post]
          obtain ⟨leads, -⟩ | ⟨fuel, depth, -, leads⟩ := shown.leads onPath closed entered
          · exact ⟨_, leads⟩
          · exact ⟨_, leads⟩
        · rw [post]
          exact TreeCtx.once view.distinct ordered
        · rw [count]
          exact first
        · rw [count] at asked ⊢
          rw [getThreadReplies_eq prepared] at asked
          cases asked
          rw [map_append, first, take_add, map_append, map_buildTree_post]

/-- The end of a chain of replies that is too deep for an answer without a focus. -/
theorem permalink_deep : ∃ response info ctx idx, deepThread.getThread prunedStore .trust (some 8) = .ok response ∧
    deepThread.prepare .trust = .ok (info, ctx) ∧ idToIndex deepThread.rows 8 = some idx ∧
    Permalink deepThread prunedStore .trust ctx idx response := by
  have isOk : (deepThread.getThread prunedStore .trust (some 8)).isOk = true := by decide +kernel
  cases answered : deepThread.getThread prunedStore .trust (some 8) with
  | error error =>
    rw [answered] at isOk
    cases isOk
  | ok response =>
    obtain ⟨info, ctx, idx, prepared, known, shows⟩ := permalink_iff_shown deepThread prunedStore .trust answered
    refine ⟨response, info, ctx, idx, rfl, prepared, known, shows.mpr ?_⟩
    cases prepared
    cases known
    iterate 7 refine .reply ?_ rfl rfl (by decide +kernel)
    exact .opening (by decide +kernel)

/-- A post below a reply that the reader does not see is answered for, but not shown. -/
theorem permalink_pruned : ∃ response info ctx idx, prunedBranch.getThread prunedStore .trust (some 3) = .ok response ∧
    prunedBranch.prepare .trust = .ok (info, ctx) ∧ idToIndex prunedBranch.rows 3 = some idx ∧
    response.post.post.id = 1 ∧ response.post.children = [] ∧ ¬ Permalink prunedBranch prunedStore .trust ctx idx response := by
  have seen : (prunedBranch.getThread prunedStore .trust (some 3)).toOption.map
      (fun response => (response.post.post.id, response.post.children.length)) = some (1, 0) := by decide +kernel
  cases answered : prunedBranch.getThread prunedStore .trust (some 3) with
  | error error =>
    rw [answered] at seen
    cases seen
  | ok response =>
    rw [answered] at seen
    obtain ⟨opening, none_⟩ := Prod.mk.inj (some.inj seen)
    have alone := length_eq_zero_iff.mp none_
    refine ⟨response, _, _, _, rfl, rfl, rfl, opening, alone, fun permalink => ?_⟩
    obtain ⟨part, leads⟩ := permalink.focused
    have shows := leads.shows part.shows_post
    rw [leads.post] at shows
    generalize response.post = shown at shows opening alone
    cases shows with
    | self =>
      dsimp only [PostResponse.post] at opening
      revert opening
      decide +kernel
    | reply mem _ =>
      rw [PostResponse.children] at alone
      rw [alone] at mem
      cases mem

end Prismoire
