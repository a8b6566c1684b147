import Mathlib.Data.List.Pairwise
import Mathlib.Data.List.Infix

namespace Prismoire.Lib

open List Option

section

variable {α : Type} (passes : α → α → Bool) (vis : α → Bool) (limit : Nat) (rows : List α)

/-- What a query finds behind a cursor. -/
def rowsPast : Option α → List α
  | none => rows
  | some last => rows.filter (passes last)

/-- A page is cut before hidden rows are taken out of it, and its cursor is the last row that is left. -/
def filteredPage (since : Option α) : List α × Option α :=
  let found := rowsPast passes rows since
  let page := (found.take limit).filter vis
  (page, if limit < found.length then page.getLast? else none)

def filteredWalk : Nat → Option α → Option (List α)
  | 0, _ => none
  | requests + 1, since =>
    let (page, next) := filteredPage passes vis limit rows since
    match next with
    | none => some page
    | some last => (filteredWalk requests (some last)).map (page ++ ·)

/-- The places between pages: the start, and the last visible row of a page that is not all there is. -/
inductive PageEnd : Option α → Prop
  | start : PageEnd none
  | next {since last} : PageEnd since → limit < (rowsPast passes rows since).length →
      (((rowsPast passes rows since).take limit).filter vis).getLast? = some last → PageEnd (some last)

variable (before : α → α → Bool)

def visibleBehind : Option α → List α
  | none => rows.filter vis
  | some last => (rows.filter (before last)).filter vis

/-- What a place has to be for the pages behind it to go on with the visible rows that are left. -/
structure PageFollows (since : Option α) : Prop where
  kept : ∀ row ∈ visibleBehind vis rows before since, row ∈ rowsPast passes rows since
  fresh : ∀ row ∈ (rowsPast passes rows since).take limit, vis row = true → row ∈ visibleBehind vis rows before since
  goesOn : visibleBehind vis rows before since ≠ [] → ∃ row ∈ (rowsPast passes rows since).take limit, vis row = true

/-- A test that is a strict order. -/
structure Strict : Prop where
  irrefl : ∀ row, before row row = false
  trans : ∀ a b c, before a b = true → before b c = true → before a c = true

/-- No visible row comes after so many hidden rows in succession that they fill a page. -/
def NoHiddenPage : Prop :=
  ∀ front hidden rest, rows = front ++ hidden ++ rest → hidden.length = limit → (∀ row ∈ hidden, vis row = false) →
    ∀ row ∈ rest, vis row = false

end

variable {α : Type} {passes before : α → α → Bool} {vis : α → Bool} {limit requests : Nat} {rows : List α}
  {since : Option α} {last : α}

theorem mem_rowsPast {row : α} : row ∈ rowsPast passes rows since ↔ row ∈ rows ∧ ∀ place ∈ since, passes place row = true := by
  cases since <;> simp [rowsPast]

theorem filteredPage_eq : filteredPage passes vis limit rows since =
    (((rowsPast passes rows since).take limit).filter vis,
      if limit < (rowsPast passes rows since).length then
        (((rowsPast passes rows since).take limit).filter vis).getLast?
      else none) :=
  rfl

/-- A place inside what is left leaves a part of it. -/
theorem rowsPast_narrow (past : Strict passes) (mem : last ∈ rowsPast passes rows since) :
    rowsPast passes rows (some last) = (rowsPast passes rows since).filter (passes last) := by
  cases since with
  | none => rfl
  | some place =>
    rw [rowsPast, rowsPast, List.filter_filter]
    refine filter_congr fun row _ => ?_
    have after := (mem_rowsPast.mp mem).2 place rfl
    cases further : passes last row with
    | false => rfl
    | true => simp [past.trans _ _ _ after further]

theorem mem_rowsPast_of_last (atEnd : (((rowsPast passes rows since).take limit).filter vis).getLast? = some last) :
    last ∈ rowsPast passes rows since :=
  mem_of_mem_take (mem_of_mem_filter (mem_of_getLast? atEnd))

/-- The last row of a page lets fewer rows pass than the place before the page. -/
theorem length_rowsPast_lt (past : Strict passes)
    (atEnd : (((rowsPast passes rows since).take limit).filter vis).getLast? = some last) :
    (rowsPast passes rows (some last)).length < (rowsPast passes rows since).length := by
  rw [rowsPast_narrow past (mem_rowsPast_of_last atEnd), length_filter_lt_length_iff_exists]
  exact ⟨last, mem_rowsPast_of_last atEnd, by simp [past.irrefl]⟩

theorem filter_behind {front back : List α} (order : Strict before)
    (sorted : (front ++ last :: back).Pairwise fun a b => before a b = true) :
    (front ++ last :: back).filter (before last) = back := by
  obtain ⟨-, rest, across⟩ := pairwise_append.mp sorted
  have earlier : ∀ row ∈ front, ¬ before last row = true := by
    intro row inFront back
    have circle := order.trans _ _ _ back (across row inFront last mem_cons_self)
    rw [order.irrefl] at circle
    cases circle
  rw [filter_append, filter_eq_nil_iff.mpr earlier, nil_append,
    filter_cons_of_neg (by simp [order.irrefl]), filter_eq_self.mpr (pairwise_cons.mp rest).1]

theorem visibleBehind_split (sorted : rows.Pairwise fun a b => before a b = true) (order : Strict before)
    {page rest : List α}
    (whole : visibleBehind vis rows before since = page ++ rest) (atEnd : page.getLast? = some last) :
    visibleBehind vis rows before (some last) = rest := by
  have isBehind : visibleBehind vis rows before since = (rowsPast before rows since).filter vis := by
    cases since <;> rfl
  have mem : last ∈ rowsPast before rows since :=
    mem_of_mem_filter (isBehind ▸ whole ▸ mem_append_left _ (mem_of_getLast? atEnd))
  have ordered : (page ++ rest).Pairwise fun a b => before a b = true := by
    rw [← whole, isBehind]
    refine List.Pairwise.filter _ ?_
    cases since with
    | none => exact sorted
    | some place => exact sorted.filter _
  obtain ⟨front, isPage⟩ := getLast?_eq_some_iff.mp atEnd
  rw [isPage, append_assoc, singleton_append] at ordered whole
  calc visibleBehind vis rows before (some last) = (rowsPast before rows (some last)).filter vis := rfl
    _ = ((rowsPast before rows since).filter vis).filter (before last) := by
        rw [rowsPast_narrow order mem, List.filter_filter, List.filter_filter]
        simp only [Bool.and_comm]
    _ = rest := by rw [← isBehind, whole, filter_behind order ordered]

theorem PageFollows.split (follows : PageFollows passes vis limit rows before since) :
    visibleBehind vis rows before since = ((rowsPast passes rows since).take limit).filter vis ++
      (((rowsPast passes rows since).drop limit).filter vis).filter fun row => since.all (before · row) := by
  have isBehind : visibleBehind vis rows before since =
      ((rowsPast passes rows since).filter vis).filter fun row => since.all (before · row) := by
    cases since with
    | none => simp [visibleBehind, rowsPast]
    | some place =>
      simp only [visibleBehind, rowsPast, List.filter_filter, all_some]
      refine filter_congr fun row mem => ?_
      cases behind : before place row with
      | false => simp
      | true =>
        cases shown : vis row with
        | false => simp
        | true =>
          have left : row ∈ visibleBehind vis rows before (some place) := by simp [visibleBehind, mem, behind, shown]
          simp [(mem_rowsPast.mp (follows.kept row left)).2 place rfl]
  have onPage : ∀ row ∈ ((rowsPast passes rows since).take limit).filter vis, since.all (before · row) = true := by
    intro row mem
    obtain ⟨early, shown⟩ := mem_filter.mp mem
    have left := follows.fresh row early shown
    rw [isBehind] at left
    exact (mem_filter.mp left).2
  conv_lhs => rw [isBehind, ← take_append_drop limit (rowsPast passes rows since)]
  rw [filter_append, filter_append, filter_eq_self.mpr onPage]

theorem filteredWalk_of_follows (sorted : rows.Pairwise fun a b => before a b = true) (order : Strict before)
    (past : Strict passes)
    (follows : ∀ since, PageEnd passes vis limit rows since → PageFollows passes vis limit rows before since)
    (reached : PageEnd passes vis limit rows since) (enough : (rowsPast passes rows since).length < requests) :
    filteredWalk passes vis limit rows requests since = some (visibleBehind vis rows before since) := by
  induction requests generalizing since with
  | zero => omega
  | succ requests ih =>
    have here := follows since reached
    rw [filteredWalk, filteredPage_eq]
    by_cases more : limit < (rowsPast passes rows since).length
    · rw [if_pos more]
      cases atEnd : (((rowsPast passes rows since).take limit).filter vis).getLast? with
      | none =>
        have empty := getLast?_eq_none_iff.mp atEnd
        have nothing : visibleBehind vis rows before since = [] := by
          by_contra left
          obtain ⟨row, early, shown⟩ := here.goesOn left
          exact filter_eq_nil_iff.mp empty row early shown
        simp only [empty, nothing]
      | some last =>
        have shorter := length_rowsPast_lt past atEnd
        have later := ih (.next reached more atEnd) (by omega)
        simp only [later, map_some, visibleBehind_split sorted order here.split atEnd, here.split]
    · have nothing := drop_eq_nil_of_le (Nat.le_of_not_lt more)
      have all := here.split
      rw [nothing] at all
      simp only [if_neg more, all, filter_nil, append_nil]

theorem mem_of_filteredWalk (past : Strict passes)
    {sent : List α} (walked : filteredWalk passes vis limit rows requests since = some sent) :
    ∀ row ∈ sent, row ∈ rowsPast passes rows since := by
  induction requests generalizing since sent with
  | zero => cases walked
  | succ requests ih =>
    rw [filteredWalk, filteredPage_eq] at walked
    dsimp only at walked
    have onPage : ∀ row ∈ ((rowsPast passes rows since).take limit).filter vis, row ∈ rowsPast passes rows since :=
      fun row mem => mem_of_mem_take (mem_of_mem_filter mem)
    split at walked
    · cases walked
      exact onPage
    · rename_i last next
      have atEnd : (((rowsPast passes rows since).take limit).filter vis).getLast? = some last := by
        split at next
        · exact next
        · cases next
      obtain ⟨later, walkedLater, rfl⟩ := map_eq_some_iff.mp walked
      intro row mem
      rcases mem_append.mp mem with early | late
      · exact onPage row early
      · have passed := ih walkedLater row late
        rw [rowsPast_narrow past (mem_rowsPast_of_last atEnd)] at passed
        exact mem_of_mem_filter passed

section

variable (sorted : rows.Pairwise fun a b => before a b = true) (order : Strict before) (past : Strict passes)
include sorted order past

theorem PageFollows.of_walk
    (walked : ∃ requests, filteredWalk passes vis limit rows requests since = some (visibleBehind vis rows before since)) :
    PageFollows passes vis limit rows before since ∧ ∀ last, limit < (rowsPast passes rows since).length →
        (((rowsPast passes rows since).take limit).filter vis).getLast? = some last →
        ∃ requests, filteredWalk passes vis limit rows requests (some last) =
          some (visibleBehind vis rows before (some last)) := by
  obtain ⟨requests, walked⟩ := walked
  have kept := mem_of_filteredWalk past walked
  cases requests with
  | zero => cases walked
  | succ requests =>
    obtain ⟨rest, whole, next⟩ : ∃ rest, visibleBehind vis rows before since =
        ((rowsPast passes rows since).take limit).filter vis ++ rest ∧
          ((((rowsPast passes rows since).take limit).filter vis = [] → rest = []) ∧
            ∀ last, limit < (rowsPast passes rows since).length →
              (((rowsPast passes rows since).take limit).filter vis).getLast? = some last →
              filteredWalk passes vis limit rows requests (some last) = some rest) := by
      rw [filteredWalk, filteredPage_eq] at walked
      dsimp only at walked
      split at walked
      · rename_i isLast
        refine ⟨[], ?_, fun _ => rfl, fun last more atEnd => ?_⟩
        · rw [append_nil, some.inj walked]
        · rw [if_pos more, atEnd] at isLast
          cases isLast
      · rename_i last isNext
        obtain ⟨later, walkedLater, whole⟩ := map_eq_some_iff.mp walked
        have atEnd : (((rowsPast passes rows since).take limit).filter vis).getLast? = some last := by
          split at isNext
          · exact isNext
          · cases isNext
        refine ⟨later, whole.symm, fun empty => ?_, fun other _ found => ?_⟩
        · rw [empty] at atEnd
          cases atEnd
        · cases atEnd.symm.trans found
          exact walkedLater
    refine ⟨⟨kept, fun row early shown => ?_, fun left => ?_⟩, fun last more atEnd => ⟨requests, ?_⟩⟩
    · rw [whole]
      exact mem_append_left _ (mem_filter.mpr ⟨early, shown⟩)
    · by_contra none_
      have empty : ((rowsPast passes rows since).take limit).filter vis = [] :=
        filter_eq_nil_iff.mpr fun row early shown => none_ ⟨row, early, shown⟩
      exact left (by rw [whole, empty, next.1 empty, nil_append])
    · rw [next.2 last more atEnd, visibleBehind_split sorted order whole atEnd]

theorem filteredWalk_whole_iff :
    (∃ requests, filteredWalk passes vis limit rows requests none = some (rows.filter vis)) ↔
      ∀ since, PageEnd passes vis limit rows since → PageFollows passes vis limit rows before since := by
  constructor
  · intro whole since reached
    have walked : ∃ requests, filteredWalk passes vis limit rows requests since =
        some (visibleBehind vis rows before since) := by
      induction reached with
      | start => exact whole
      | next _ more atEnd ih => exact (PageFollows.of_walk sorted order past ih).2 _ more atEnd
    exact (PageFollows.of_walk sorted order past walked).1
  · intro follows
    exact ⟨rows.length + 1, filteredWalk_of_follows sorted order past follows .start (Nat.lt_succ_self _)⟩

end

theorem filteredWalk_ends (past : Strict passes)
    (enough : (rowsPast passes rows since).length < requests) :
    ∃ sent, filteredWalk passes vis limit rows requests since = some sent := by
  induction requests generalizing since with
  | zero => omega
  | succ requests ih =>
    rw [filteredWalk, filteredPage_eq]
    dsimp only
    split
    · exact ⟨_, rfl⟩
    · rename_i last next
      have atEnd : (((rowsPast passes rows since).take limit).filter vis).getLast? = some last := by
        split at next
        · exact next
        · cases next
      have shorter := length_rowsPast_lt past atEnd
      obtain ⟨sent, later⟩ := @ih (some last) (by omega)
      rw [later]
      exact ⟨_, rfl⟩

theorem follows_iff_noHiddenPage (sorted : rows.Pairwise fun a b => before a b = true) (order : Strict before) :
    (∀ since, PageEnd before vis limit rows since → PageFollows before vis limit rows before since) ↔
      NoHiddenPage vis limit rows := by
  have isBehind : ∀ since, visibleBehind vis rows before since = (rowsPast before rows since).filter vis := by
    intro since
    cases since <;> rfl
  have ordered : ∀ since, (rowsPast before rows since).Pairwise fun a b => before a b = true := by
    intro since
    cases since with
    | none => exact sorted
    | some place => exact sorted.filter _
  constructor
  · intro follows front hidden rest split filled allHidden row inRest
    by_contra isVisible
    -- by the rows that are still left before the hidden ones
    have stuck : ∀ size since middle, middle.length = size → PageEnd before vis limit rows since →
        rowsPast before rows since = middle ++ hidden ++ rest → False := by
      intro size
      induction size using Nat.strong_induction_on with
      | _ size ih =>
        intro since middle size_ reached left
        have more : limit < (rowsPast before rows since).length := by
          have := length_pos_of_mem inRest
          rw [left, length_append, length_append]
          omega
        have behind : visibleBehind vis rows before since ≠ [] := by
          intro empty
          rw [isBehind, filter_eq_nil_iff] at empty
          exact empty row (left ▸ mem_append_right _ inRest) (by simpa using isVisible)
        obtain ⟨first, early, firstShown⟩ := (follows since reached).goesOn behind
        cases atEnd : (((rowsPast before rows since).take limit).filter vis).getLast? with
        | none => exact filter_eq_nil_iff.mp (getLast?_eq_none_iff.mp atEnd) first early firstShown
        | some last =>
          obtain ⟨onPage, shown⟩ := mem_filter.mp (mem_of_getLast? atEnd)
          have inMiddle : last ∈ middle := by
            have early : last ∈ (middle ++ hidden).take limit := by
              have within : limit ≤ (middle ++ hidden).length := by
                rw [length_append]
                omega
              rwa [left, take_append_of_le_length within] at onPage
            rcases mem_append.mp (mem_of_mem_take early) with earlier | isHidden
            · exact earlier
            · rw [allHidden last isHidden] at shown
              cases shown
          obtain ⟨front', back, rfl⟩ := append_of_mem inMiddle
          refine ih back.length (by simp at size_; omega) (some last) back rfl (.next reached more atEnd) ?_
          have sorted' := ordered since
          have spelled : front' ++ last :: back ++ hidden ++ rest = front' ++ last :: (back ++ hidden ++ rest) := by simp
          rw [rowsPast_narrow order (mem_rowsPast_of_last atEnd), left, spelled]
          rw [left, spelled] at sorted'
          exact filter_behind order sorted'
    exact stuck front.length none front rfl .start split
  · intro noPage since reached
    refine ⟨fun row mem => ?_, fun row early shown => ?_, fun left => ?_⟩
    · exact mem_of_mem_filter (isBehind since ▸ mem)
    · rw [isBehind]
      exact mem_filter.mpr ⟨mem_of_mem_take early, shown⟩
    · by_contra none_
      have hidden : ∀ row ∈ (rowsPast before rows since).take limit, vis row = false := fun row early =>
        Bool.not_eq_true _ ▸ fun shown => none_ ⟨row, early, shown⟩
      obtain ⟨front, split⟩ : ∃ front, rows = front ++ rowsPast before rows since := by
        cases reached with
        | start => exact ⟨[], rfl⟩
        | @next since last _ _ atEnd =>
          have mem : last ∈ rows := (mem_rowsPast.mp (mem_rowsPast_of_last atEnd)).1
          obtain ⟨front, back, rfl⟩ := append_of_mem mem
          refine ⟨front ++ [last], ?_⟩
          rw [rowsPast, filter_behind order sorted, append_assoc, singleton_append]
      refine left ?_
      rw [isBehind, filter_eq_nil_iff]
      intro row mem
      rw [← take_append_drop limit (rowsPast before rows since)] at mem
      rcases mem_append.mp mem with early | late
      · simp [hidden row early]
      · have filled : limit ≤ (rowsPast before rows since).length := by
          by_contra short
          rw [drop_eq_nil_of_le (by omega)] at late
          cases late
        have later := noPage front ((rowsPast before rows since).take limit) ((rowsPast before rows since).drop limit)
          (by rw [append_assoc, take_append_drop, ← split]) (length_take_of_le filled) hidden
        simp [later row late]

section

variable (agree : ∀ a ∈ rows, ∀ b ∈ rows, passes a b = before a b)
include agree

theorem rowsPast_congr (place : ∀ last ∈ since, last ∈ rows) : rowsPast passes rows since = rowsPast before rows since := by
  cases since with
  | none => rfl
  | some last => exact filter_congr (agree last (place last rfl))

theorem PageEnd.congr (reached : PageEnd passes vis limit rows since) :
    PageEnd before vis limit rows since ∧ ∀ last ∈ since, last ∈ rows := by
  induction reached with
  | start => exact ⟨.start, by simp⟩
  | next _ more atEnd ih =>
    have same := rowsPast_congr agree ih.2
    refine ⟨.next ih.1 (same ▸ more) (same ▸ atEnd), ?_⟩
    rintro _ ⟨⟩
    exact (mem_rowsPast.mp (mem_rowsPast_of_last atEnd)).1

theorem follows_of_noHiddenPage (sorted : rows.Pairwise fun a b => before a b = true) (order : Strict before)
    (shown : NoHiddenPage vis limit rows) (reached : PageEnd passes vis limit rows since) :
    PageFollows passes vis limit rows before since := by
  obtain ⟨there, place⟩ := reached.congr agree
  obtain ⟨kept, fresh, goesOn⟩ := (follows_iff_noHiddenPage sorted order).mpr shown since there
  rw [← rowsPast_congr agree place] at kept fresh goesOn
  exact ⟨kept, fresh, goesOn⟩

end

end Prismoire.Lib
