import Prismoire.Lib.Keyset
import Prismoire.Lib.Rows

namespace Prismoire.Lib

open List Option

/-- An answer to a request for rows. -/
structure Page (α τ : Type) where
  objects : List α
  next : Option τ
  complete : Bool

inductive WalkFault (ε : Type) where
  | refused (refusal : ε)
  /-- A page that is not the last one, and names no next one. -/
  | stuck
  /-- No request is left. -/
  | unfinished
  deriving DecidableEq

/-- A walk asks again from the token of each page, one request after another, until a page is the last. -/
def walk {α τ ε : Type} : List (Option τ → Except ε (Page α τ)) → Option τ → Except (WalkFault ε) (List α)
  | [], _ => .error .unfinished
  | ask :: asks, since =>
    match ask since with
    | .error refusal => .error (.refused refusal)
    | .ok page =>
      if page.complete then
        .ok page.objects
      else
        match page.next with
        | none => .error .stuck
        | some token => (walk asks (some token)).map (page.objects ++ ·)

variable {α ε ι κ σ τ : Type}

section

variable (before : κ → κ → Prop) [DecidableRel before] (key : α → κ) (mint : κ → Option τ)

def keysetPage (fault : ε) (limit : Nat) (rows : List α) (since : Option κ) : Except ε (Page α τ) :=
  let fetched := (rowsAfter before key rows since).take (limit + 1)
  let hasMore := decide (limit < fetched.length)
  let page := fetched.take limit
  let next := if hasMore then page.getLast?.bind fun row => mint (key row) else none
  if hasMore && next.isNone then .error fault else .ok ⟨page, next, !hasMore⟩

/-- A request and the place that its token stands for. -/
inductive Places : Option τ → Option κ → Prop
  | start : Places none none
  | after {token place} : mint place = some token → Places (some token) (some place)

/-- A surface that in valid states pages through its rows, as long as it is open at the place. -/
structure Serves (limit : Nat) (ask : σ → Option τ → Except ε (Page α τ)) (rows : σ → List α)
    (opens : σ → Option κ → Prop) (valid : σ → Prop) : Prop where
  answers : ∀ {state since place}, valid state → Places mint since place → opens state place →
    ∃ fault, ask state since = keysetPage before key mint fault limit (rows state) place
  refuses : ∀ {state since place}, valid state → Places mint since place → ¬opens state place →
    ∃ refusal, ask state since = .error refusal

/-- Every request of a walk finds the surface open, and each page but the last ends on a key with a token. -/
def PagesEnd (fits : κ → Prop) (limit : Nat) (rows : σ → List α) (opens : σ → Option κ → Prop) :
    List σ → Option κ → Prop
  | [], _ => True
  | state :: states, place => opens state place ∧
    (limit < (rowsAfter before key (rows state) place).length →
      match ((rowsAfter before key (rows state) place).take limit).getLast? with
      | none => False
      | some last => fits (key last) ∧ PagesEnd fits limit rows opens states (some (key last)))

def PagesEnd.decidableLast (found : Option α) (cond : α → Prop) [∀ last, Decidable (cond last)] :
    Decidable (match found with
      | none => False
      | some last => cond last) :=
  match found with
  | none => isFalse id
  | some _ => inferInstance

instance PagesEnd.decidable {fits : κ → Prop} [∀ place, Decidable (fits place)] {limit : Nat} {rows : σ → List α}
    {opens : σ → Option κ → Prop} [∀ state place, Decidable (opens state place)] :
    (states : List σ) → (place : Option κ) → Decidable (PagesEnd before key fits limit rows opens states place)
  | [], _ => isTrue trivial
  | state :: states, place =>
    have : ∀ last : α, Decidable (fits (key last) ∧ PagesEnd before key fits limit rows opens states (some (key last))) :=
      fun last => @instDecidableAnd _ _ inferInstance (PagesEnd.decidable states (some (key last)))
    have := PagesEnd.decidableLast ((rowsAfter before key (rows state) place).take limit).getLast?
      fun last => fits (key last) ∧ PagesEnd before key fits limit rows opens states (some (key last))
    inferInstanceAs (Decidable (opens state place ∧ (_ → _)))

/-- A walk over the states that its requests find: it fails only for want of requests, and what it has
sent at its end is sorted, known, and has each row once that was there all the time. -/
structure Paged [DecidableEq ι] (ident : α → ι) (ask : σ → Option τ → Except ε (Page α τ)) (rows : σ → List α)
    (states : List σ) : Prop where
  faultless : ∀ fault, walk (states.map ask) none = .error fault → fault = .unfinished
  sorted : ∀ sent, walk (states.map ask) none = .ok sent → sent.Pairwise fun a b => before (key a) (key b)
  known : ∀ sent, walk (states.map ask) none = .ok sent → ∀ row ∈ sent, ∃ state ∈ states, row ∈ rows state
  once : ∀ sent, walk (states.map ask) none = .ok sent → ∀ row, (∀ state ∈ states, row ∈ rows state) →
    sent.filter (fun other => ident other = ident row) = [row]
  whole : ∀ state count, states = List.replicate count state → (rows state).length < count →
    walk (states.map ask) none = .ok (rowsAfter before key (rows state) none)

end

theorem UniqueBy.filterMap {α β κ : Type} {key : α → κ} {key' : β → κ} {rows : List α} {join : α → Option β}
    (unique : UniqueBy key rows) (same : ∀ row joined, join row = some joined → key' joined = key row) :
    UniqueBy key' (rows.filterMap join) := by
  have shorter : List.Sublist ((rows.filterMap join).map key') (rows.map key) := by
    induction rows with
    | nil => exact .slnil
    | cons row rows ih =>
      have rest := ih (nodup_cons.mp unique).2
      cases found : join row with
      | none => simpa [filterMap_cons, found] using rest.cons (key row)
      | some joined => simpa [filterMap_cons, found, same row joined found] using rest.cons_cons (key row)
  exact unique.sublist shorter

theorem UniqueBy.map_inj {α κ : Type} {key : α → κ} {rows some others : List α} (unique : UniqueBy key rows)
    (known : ∀ row ∈ some, row ∈ rows) (knownOther : ∀ row ∈ others, row ∈ rows) (same : some.map key = others.map key) :
    some = others := by
  induction some generalizing others with
  | nil => exact (map_eq_nil_iff.mp same.symm).symm
  | cons row some ih =>
    cases others with
    | nil => cases same
    | cons other others =>
      rw [map_cons, map_cons, List.cons.injEq] at same
      rw [unique.eq (known row mem_cons_self) (knownOther other mem_cons_self) same.1,
        ih (fun row mem => known row (mem_cons_of_mem _ mem))
          (fun row mem => knownOther row (mem_cons_of_mem _ mem)) same.2]

section Rows

variable {before : κ → κ → Prop} [DecidableRel before] {key : α → κ} {rows : List α} {place : Option κ}

theorem nodup_rowsAfter (unique : UniqueBy key rows) : UniqueBy key (rowsAfter before key rows place) := by
  have sorted : (rowsAfter before key rows place).Perm (rows.filter fun row => place.all fun place => before place (key row)) :=
    perm_insertionSort _ _
  exact (sorted.map key).nodup_iff.mpr (unique.sublist (filter_sublist.map key))

theorem strict_rowsAfter [IsStrictTotalOrder κ before] (unique : UniqueBy key rows) :
    (rowsAfter before key rows place).Pairwise fun a b => before (key a) (key b) := by
  have apart := pairwise_map.mp (@nodup_rowsAfter _ _ before _ _ _ place unique)
  refine (pairwise_rowsAfter.and apart).imp ?_
  rintro a b ⟨notBehind, different⟩
  rcases trichotomous_of before (key a) (key b) with less | same | more
  · exact less
  · exact absurd same different
  · exact absurd more notBehind

omit [DecidableRel before] in
theorem nodup_of_strict [IsStrictTotalOrder κ before] {items : List α}
    (sorted : items.Pairwise fun a b => before (key a) (key b)) : items.Nodup := by
  refine sorted.imp ?_
  rintro a b less rfl
  exact irrefl_of before _ less

theorem length_rowsAfter_lt [IsStrictTotalOrder κ before] {last : α} (mem : last ∈ rowsAfter before key rows place) :
    (rowsAfter before key rows (some (key last))).length < (rowsAfter before key rows place).length := by
  obtain ⟨inRows, ahead⟩ := mem_rowsAfter.mp mem
  let later := rows.filter fun row => place.all fun place => decide (before place (key row))
  have shorter : (later.filter fun row => decide (before (key last) (key row))).length < later.length := by
    rw [length_filter_lt_length_iff_exists]
    refine ⟨last, mem_filter.mpr ⟨inRows, ?_⟩, by simp [irrefl_of before (key last)]⟩
    cases place with
    | none => rfl
    | some place => simpa using ahead place rfl
  have same : (rows.filter fun row => (some (key last)).all fun place => decide (before place (key row))) =
      later.filter fun row => decide (before (key last) (key row)) := by
    rw [List.filter_filter]
    refine filter_congr fun row _ => ?_
    rw [all_some, eq_comm, Bool.and_eq_left_iff_imp]
    intro beyond
    cases place with
    | none => rfl
    | some place => simpa using trans_of before (ahead place rfl) (of_decide_eq_true beyond)
  rw [rowsAfter, rowsAfter, length_insertionSort, length_insertionSort, same]
  exact shorter

theorem page_before [IsStrictTotalOrder κ before] {limit : Nat} {last : α} {later : κ}
    (unique : UniqueBy key rows) (atEnd : ((rowsAfter before key rows place).take limit).getLast? = some last)
    (beyond : before (key last) later) : ∀ row ∈ (rowsAfter before key rows place).take limit, before (key row) later := by
  intro row onPage
  have sorted := (@strict_rowsAfter _ _ before _ _ _ place _ unique).sublist (take_sublist limit _)
  obtain ⟨front, isPage⟩ := getLast?_eq_some_iff.mp atEnd
  rw [isPage] at onPage sorted
  rcases mem_concat.mp onPage with earlier | here
  · exact trans_of before ((pairwise_append.mp sorted).2.2 row earlier last (by simp)) beyond
  · exact here ▸ beyond

end Rows

variable {limit : Nat}

section Pages

variable {before : κ → κ → Prop} [DecidableRel before] {key : α → κ} {mint : κ → Option τ} {fault : ε} {rows : List α}
    {place : Option κ}

theorem keysetPage_last (short : (rowsAfter before key rows place).length ≤ limit) :
    keysetPage before key mint fault limit rows place = .ok ⟨rowsAfter before key rows place, none, true⟩ := by
  have fetched : (rowsAfter before key rows place).take (limit + 1) = rowsAfter before key rows place :=
    take_of_length_le (by omega)
  have noMore : decide (limit < (rowsAfter before key rows place).length) = false := by simpa using short
  simp only [keysetPage, fetched, noMore, Bool.false_eq_true, if_false, Bool.false_and, Bool.not_false,
    take_of_length_le short]

theorem keysetPage_more {last : α} (long : limit < (rowsAfter before key rows place).length)
    (atEnd : ((rowsAfter before key rows place).take limit).getLast? = some last) :
    keysetPage before key mint fault limit rows place = match mint (key last) with
      | none => .error fault
      | some token => .ok ⟨(rowsAfter before key rows place).take limit, some token, false⟩ := by
  have more : decide (limit < ((rowsAfter before key rows place).take (limit + 1)).length) = true := by
    rw [decide_eq_true_eq, length_take]
    omega
  have page : ((rowsAfter before key rows place).take (limit + 1)).take limit =
      (rowsAfter before key rows place).take limit := by
    rw [take_take, Nat.min_eq_left (Nat.le_succ _)]
  simp only [keysetPage, more, page, if_true, atEnd, bind_some, Bool.true_and, Bool.not_true]
  cases mint (key last) <;> rfl

theorem exists_last (some_ : 1 ≤ limit) (long : limit < (rowsAfter before key rows place).length) :
    ∃ last, ((rowsAfter before key rows place).take limit).getLast? = some last := by
  rw [← isSome_iff_exists, getLast?_isSome]
  intro nothing
  have short := congrArg List.length nothing
  rw [length_take, length_nil] at short
  omega

end Pages

variable {before : κ → κ → Prop} [DecidableRel before] {key : α → κ} {mint : κ → Option τ}
    {ask : σ → Option τ → Except ε (Page α τ)} {rows : σ → List α} {opens : σ → Option κ → Prop} {valid : σ → Prop}
    {states : List σ} {since : Option τ} {place : Option κ} {sent : List α} {fits : κ → Prop} {ident : α → ι} {state : σ}

theorem pagesEnd_last (short : (rowsAfter before key (rows state) place).length ≤ limit) :
    PagesEnd before key fits limit rows opens (state :: states) place ↔ opens state place := by
  rw [PagesEnd, and_iff_left_iff_imp]
  exact fun _ long => absurd long (by omega)

theorem pagesEnd_more {last : α}
    (long : limit < (rowsAfter before key (rows state) place).length)
    (atEnd : ((rowsAfter before key (rows state) place).take limit).getLast? = some last) :
    PagesEnd before key fits limit rows opens (state :: states) place ↔
      opens state place ∧ fits (key last) ∧ PagesEnd before key fits limit rows opens states (some (key last)) := by
  rw [PagesEnd, atEnd]
  exact and_congr_right fun _ => ⟨fun ends => ends long, fun ends _ => ends⟩

section

variable (some_ : 1 ≤ limit) (first : ∀ state, states.head? = some state → opens state place)
  (onward : ∀ state ∈ states, ∀ at', opens state (some at'))
include some_ first onward

theorem pagesEnd_of_fits (fitting : ∀ state ∈ states, ∀ row ∈ rows state, fits (key row)) :
    PagesEnd before key fits limit rows opens states place := by
  induction states generalizing place with
  | nil => trivial
  | cons state states ih =>
    have here := first state rfl
    by_cases short : (rowsAfter before key (rows state) place).length ≤ limit
    · exact (pagesEnd_last short).mpr here
    · have long : limit < (rowsAfter before key (rows state) place).length := by omega
      obtain ⟨last, atEnd⟩ := exists_last some_ long
      have inRows := (mem_rowsAfter.mp (mem_of_mem_take (mem_of_getLast? atEnd))).1
      refine (pagesEnd_more long atEnd).mpr ⟨here, fitting state mem_cons_self last inRows, ih ?_ ?_ ?_⟩
      · exact fun next isNext => onward next (mem_cons_of_mem _ (mem_of_head? isNext)) _
      · exact fun other later => onward other (mem_cons_of_mem _ later)
      · exact fun other later => fitting other (mem_cons_of_mem _ later)

theorem pagesEnd_open : PagesEnd before key fits limit rows opens states place ↔
      PagesEnd before key fits limit rows (fun _ _ => True) states place := by
  induction states generalizing place with
  | nil => exact Iff.rfl
  | cons state states ih =>
    have here := first state rfl
    by_cases short : (rowsAfter before key (rows state) place).length ≤ limit
    · rw [pagesEnd_last short, pagesEnd_last short]
      exact iff_true_intro here
    · have long : limit < (rowsAfter before key (rows state) place).length := by omega
      obtain ⟨last, atEnd⟩ := exists_last some_ long
      rw [pagesEnd_more long atEnd, pagesEnd_more long atEnd, ih
        (fun next isNext => onward next (mem_cons_of_mem _ (mem_of_head? isNext)) _)
        fun other later => onward other (mem_cons_of_mem _ later)]
      simp [here]

end

section

variable (serves : Serves before key mint limit ask rows opens valid) (some_ : 1 ≤ limit)
include serves some_

theorem Serves.faultless_iff (allValid : ∀ state ∈ states, valid state) (from_ : Places mint since place) :
    (∀ fault, walk (states.map ask) since = .error fault → fault = .unfinished) ↔
      PagesEnd before key (fun key => (mint key).isSome = true) limit rows opens states place := by
  induction states generalizing since place with
  | nil => simp [walk, PagesEnd]
  | cons state states ih =>
    rw [map_cons, walk]
    have here := allValid state mem_cons_self
    by_cases isOpen : opens state place
    · obtain ⟨fault, answer⟩ := serves.answers here from_ isOpen
      by_cases short : (rowsAfter before key (rows state) place).length ≤ limit
      · rw [pagesEnd_last short, answer, keysetPage_last short]
        simp [isOpen]
      · have long : limit < (rowsAfter before key (rows state) place).length := by omega
        obtain ⟨last, atEnd⟩ := exists_last some_ long
        rw [pagesEnd_more long atEnd, answer, keysetPage_more long atEnd]
        cases minted : mint (key last) with
        | none => simp
        | some token =>
          have onward := ih (fun other later => allValid other (mem_cons_of_mem _ later)) (.after minted)
          rw [← onward]
          simp only [Bool.false_eq_true, if_false, isOpen, isSome_some, true_and]
          cases walk (states.map ask) (some token) with
          | error fault => simp [Except.map]
          | ok sent => simp [Except.map]
    · obtain ⟨refusal, refused⟩ := serves.refuses here from_ isOpen
      rw [refused]
      simp [PagesEnd, isOpen]

theorem Serves.walk_ok [IsStrictTotalOrder κ before] (allValid : ∀ state ∈ states, valid state)
    (unique : ∀ state ∈ states, UniqueBy key (rows state)) (from_ : Places mint since place)
    (run : walk (states.map ask) since = .ok sent) :
    (sent.Pairwise fun a b => before (key a) (key b)) ∧
    (∀ row ∈ sent, (∃ state ∈ states, row ∈ rows state) ∧ ∀ at', place = some at' → before at' (key row)) ∧
    ∀ row, (∀ state ∈ states, row ∈ rows state) → (∀ at', place = some at' → before at' (key row)) → row ∈ sent := by
  induction states generalizing since place sent with
  | nil => cases run
  | cons state states ih =>
    rw [map_cons, walk] at run
    have keyed := unique state mem_cons_self
    have here := allValid state mem_cons_self
    by_cases isOpen : opens state place
    · obtain ⟨fault, answer⟩ := serves.answers here from_ isOpen
      by_cases short : (rowsAfter before key (rows state) place).length ≤ limit
      · rw [answer, keysetPage_last short] at run
        cases run
        refine ⟨strict_rowsAfter keyed, fun row mem => ?_, fun row always ahead => ?_⟩
        · obtain ⟨inRows, ahead⟩ := mem_rowsAfter.mp mem
          exact ⟨⟨state, mem_cons_self, inRows⟩, ahead⟩
        · exact mem_rowsAfter.mpr ⟨always state mem_cons_self, ahead⟩
      · have long : limit < (rowsAfter before key (rows state) place).length := by omega
        obtain ⟨last, atEnd⟩ := exists_last some_ long
        rw [answer, keysetPage_more long atEnd] at run
        cases minted : mint (key last) with
        | none =>
          rw [minted] at run
          cases run
        | some token =>
          rw [minted] at run
          dsimp only at run
          rw [if_neg Bool.false_ne_true] at run
          cases rest : walk (states.map ask) (some token) with
          | error fault =>
            rw [rest] at run
            cases run
          | ok later =>
            rw [rest] at run
            cases run
            obtain ⟨sorted, known, complete⟩ := ih (fun other mem => allValid other (mem_cons_of_mem _ mem))
              (fun other mem => unique other (mem_cons_of_mem _ mem)) (.after minted) rest
            have onPage := mem_of_getLast? atEnd
            obtain ⟨-, lastAhead⟩ := mem_rowsAfter.mp (mem_of_mem_take onPage)
            have page := (@strict_rowsAfter _ _ before _ _ _ place _ keyed).sublist (take_sublist limit _)
            refine ⟨pairwise_append.mpr ⟨page, sorted, fun row inPage other inLater => ?_⟩, fun row mem => ?_,
              fun row always ahead => ?_⟩
            · exact page_before keyed atEnd ((known other inLater).2 _ rfl) row inPage
            · rcases mem_append.mp mem with here | later
              · obtain ⟨inRows, ahead⟩ := mem_rowsAfter.mp (mem_of_mem_take here)
                exact ⟨⟨state, mem_cons_self, inRows⟩, ahead⟩
              · obtain ⟨⟨other, inStates, inRows⟩, beyond⟩ := known row later
                refine ⟨⟨other, mem_cons_of_mem _ inStates, inRows⟩, fun at' isPlace => ?_⟩
                exact trans_of before (lastAhead at' isPlace) (beyond _ rfl)
            · have coming := mem_rowsAfter.mpr ⟨always state mem_cons_self, ahead⟩
              rcases page_or_beyond atEnd coming with ⟨other, inPage, same⟩ | beyond
              · have isRow : other = row := keyed.eq (mem_rowsAfter.mp (mem_of_mem_take inPage)).1
                  (always state mem_cons_self) same
                exact mem_append_left _ (isRow ▸ inPage)
              · refine mem_append_right _ (complete row (fun other mem => always other (mem_cons_of_mem _ mem)) ?_)
                rintro at' ⟨rfl⟩
                exact beyond
    · obtain ⟨refusal, refused⟩ := serves.refuses here from_ isOpen
      rw [refused] at run
      cases run

theorem Serves.finishes [IsStrictTotalOrder κ before] {count : Nat} (isValid : valid state)
    (from_ : Places mint since place) (enough : (rowsAfter before key (rows state) place).length < count) :
    walk ((List.replicate count state).map ask) since ≠ .error .unfinished := by
  induction count generalizing since place with
  | zero => omega
  | succ count ih =>
    rw [replicate_succ, map_cons, walk]
    by_cases isOpen : opens state place
    · obtain ⟨fault, answer⟩ := serves.answers isValid from_ isOpen
      by_cases short : (rowsAfter before key (rows state) place).length ≤ limit
      · rw [answer, keysetPage_last short]
        simp
      · have long : limit < (rowsAfter before key (rows state) place).length := by omega
        obtain ⟨last, atEnd⟩ := exists_last some_ long
        rw [answer, keysetPage_more long atEnd]
        cases minted : mint (key last) with
        | none => simp
        | some token =>
          have fewer := length_rowsAfter_lt (mem_of_mem_take (mem_of_getLast? atEnd))
          have onward := ih (.after minted) (by omega)
          dsimp only
          rw [if_neg Bool.false_ne_true]
          cases rest : walk ((List.replicate count state).map ask) (some token) with
          | error fault =>
            rw [rest] at onward
            exact fun same => onward (by cases same; rfl)
          | ok later => exact fun same => by cases same
    · obtain ⟨refusal, refused⟩ := serves.refuses isValid from_ isOpen
      rw [refused]
      simp

end

theorem uniqueBy_of_named {items : List α} (unique : UniqueBy ident items)
    (named : ∀ a b, key a = key b → ident a = ident b) : UniqueBy key items :=
  unique.of_key fun row _ other _ same => named row other same

omit [DecidableRel before] in
theorem filter_once [IsStrictTotalOrder κ before] [DecidableEq ι] {row : α}
    (sorted : sent.Pairwise fun a b => before (key a) (key b)) (mem : row ∈ sent)
    (alone : ∀ other ∈ sent, ident other = ident row → other = row) :
    sent.filter (fun other => ident other = ident row) = [row] := by
  have nodup : sent.Nodup := nodup_of_strict sorted
  have isRow : row ∈ sent.filter (fun other => ident other = ident row) := mem_filter.mpr ⟨mem, by simp⟩
  have all : sent.filter (fun other => ident other = ident row) =
      List.replicate (sent.filter fun other => ident other = ident row).length row :=
    eq_replicate_of_mem fun other found => alone other (mem_of_mem_filter found)
      (by simpa using (mem_filter.mp found).2)
  have short := nodup.filter fun other => decide (ident other = ident row)
  rw [all, nodup_replicate] at short
  have some_ := length_pos_of_mem isRow
  rw [all, show (sent.filter fun other => ident other = ident row).length = 1 by omega]
  rfl

variable (serves : Serves before key mint limit ask rows opens valid) (some_ : 1 ≤ limit)
include serves some_

theorem Serves.whole_iff [IsStrictTotalOrder κ before] {count : Nat} (isValid : valid state)
    (unique : UniqueBy key (rows state)) (enough : (rows state).length < count) :
    walk ((List.replicate count state).map ask) none = .ok (rowsAfter before key (rows state) none) ↔
      PagesEnd before key (fun key => (mint key).isSome = true) limit rows opens (List.replicate count state) none := by
  rw [← serves.faultless_iff some_ (fun other mem => eq_of_mem_replicate mem ▸ isValid) .start]
  constructor
  · intro run fault failed
    rw [run] at failed
    cases failed
  · intro faultless
    have all : (rowsAfter before key (rows state) none).length < count := by
      rw [rowsAfter, length_insertionSort]
      exact (length_filter_le _ _).trans_lt enough
    cases run : walk ((List.replicate count state).map ask) none with
    | error fault => exact absurd (faultless fault run ▸ run) (serves.finishes some_ isValid .start all)
    | ok sent =>
      obtain ⟨sorted, known, complete⟩ := serves.walk_ok some_
        (fun other mem => eq_of_mem_replicate mem ▸ isValid)
        (fun other mem => eq_of_mem_replicate mem ▸ unique) .start run
      have whole := @strict_rowsAfter _ _ before _ _ _ none _ unique
      have same : ∀ row, row ∈ sent ↔ row ∈ rowsAfter before key (rows state) none := by
        intro row
        rw [mem_rowsAfter]
        constructor
        · intro mem
          obtain ⟨⟨other, inStates, inRows⟩, -⟩ := known row mem
          exact ⟨eq_of_mem_replicate inStates ▸ inRows, by simp⟩
        · rintro ⟨inRows, -⟩
          exact complete row (fun other mem => eq_of_mem_replicate mem ▸ inRows) (by simp)
      have perm := (perm_ext_iff_of_nodup (nodup_of_strict sorted) (nodup_of_strict whole)).mpr same
      rw [perm.eq_of_pairwise (fun a b _ _ less more => absurd more (asymm less)) sorted whole]

theorem Serves.paged_iff [IsStrictTotalOrder κ before] [DecidableEq ι]
    (allValid : ∀ state ∈ states, valid state) (unique : ∀ state ∈ states, UniqueBy ident (rows state))
    (named : ∀ a b, key a = key b → ident a = ident b) :
    Paged before key ident ask rows states ↔
      PagesEnd before key (fun key => (mint key).isSome = true) limit rows opens states none := by
  rw [← serves.faultless_iff some_ allValid .start]
  refine ⟨fun paged => paged.faultless, fun faultless => ?_⟩
  have ended : ∀ sent, walk (states.map ask) none = .ok sent → _ := fun sent run =>
    serves.walk_ok some_ allValid (fun state mem => uniqueBy_of_named (unique state mem) named) .start run
  refine ⟨faultless, fun sent run => (ended sent run).1, fun sent run row mem => ((ended sent run).2.1 row mem).1,
    fun sent run row always => ?_, ?_⟩
  · obtain ⟨sorted, known, complete⟩ := ended sent run
    refine filter_once sorted (complete row always nofun) fun other mem same => ?_
    obtain ⟨⟨state, inStates, inRows⟩, -⟩ := known other mem
    exact (unique state inStates).eq inRows (always state inStates) same
  · rintro state count rfl enough
    have mem : state ∈ List.replicate count state := mem_replicate.mpr ⟨by omega, rfl⟩
    refine (serves.whole_iff some_ (allValid state mem) (uniqueBy_of_named (unique state mem) named) enough).mpr ?_
    exact (serves.faultless_iff some_ allValid .start).mp faultless

end Prismoire.Lib
