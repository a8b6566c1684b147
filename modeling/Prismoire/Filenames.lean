import Mathlib.Algebra.Order.BigOperators.Group.List
import Prismoire.SignedCanonical

namespace Prismoire

open List Option

def textLength (length : Char → Nat) (text : List Char) : Nat :=
  (text.map length).sum

def Normal (nfc : Text → Text) (text : List Char) : Prop :=
  nfc (String.ofList text) = String.ofList text

/-- What the standard says of normalization: it keeps the canonical decomposition of a text up to its order, and no character
decomposes into nothing; normalizing again changes nothing; a part of a normal text is normal; and what stands before a
boundary, a character of class 0 that never joins the one before it, is normalized by itself. -/
structure Normalizes (nfc : Text → Text) (decomposition : Char → Nat) (boundary : Char → Prop) : Prop where
  positive : ∀ c, 0 < decomposition c
  keeps : ∀ text, textLength decomposition (nfc text).toList = textLength decomposition text.toList
  idempotent : ∀ text, nfc (nfc text) = nfc text
  part : ∀ front text back, Normal nfc (front ++ text ++ back) → Normal nfc text
  splits : ∀ front c back, boundary c →
    nfc (String.ofList (front ++ c :: back)) = nfc (String.ofList front) ++ nfc (String.ofList (c :: back))

/-- The characters that a filename may keep, from the first one that is no dot. -/
def undotted (text : List Char) : List Char :=
  (text.filter keepsChar).dropWhile (· == '.')

def survivors (text : List Char) : List Char :=
  truncateBytes maxAttachmentFilenameLen (undotted text)

def remaining (text : Text) : Text :=
  String.ofList (survivors text.toList)

/-- Taking characters out of a stretch of the text brings none together that join or change places: the stretch comes after
the leading dots and ends within the bytes of a filename, and what it keeps has no boundary but at its front. -/
def ClosesUp (nfc : Text → Text) (boundary : Char → Prop) (text : List Char) : Prop :=
  ∀ front stretch back, text = front ++ stretch ++ back → (∃ c ∈ stretch, keepsChar c = false) →
    (∀ c ∈ (stretch.filter keepsChar).tail, ¬ boundary c) →
    stretch.filter keepsChar <:+ undotted (front ++ stretch) →
    textLength Char.utf8Size (undotted (front ++ stretch)) ≤ maxAttachmentFilenameLen →
    Normal nfc (stretch.filter keepsChar)

structure SafeFilename (f : List Char) : Prop where
  kept : ∀ c ∈ f, keepsChar c = true
  visible : f.head? ≠ some '.'
  short : textLength Char.utf8Size f ≤ maxAttachmentFilenameLen

section Remaining

variable {text front back : List Char} {max : Nat} {length : Char → Nat}

theorem truncateBytes_starts (max : Nat) (text : List Char) : truncateBytes max text <+: text := by
  induction text generalizing max with
  | nil => exact prefix_refl _
  | cons c text ih =>
    rw [truncateBytes]
    split
    · exact (prefix_cons_inj c).mpr (ih _)
    · exact nil_prefix

theorem truncateBytes_short (max : Nat) (text : List Char) : textLength Char.utf8Size (truncateBytes max text) ≤ max := by
  induction text generalizing max with
  | nil => exact Nat.zero_le _
  | cons c text ih =>
    rw [truncateBytes]
    split
    · have rest := ih (max - c.utf8Size)
      rw [textLength] at rest ⊢
      rw [map_cons, sum_cons]
      omega
    · exact Nat.zero_le _

theorem truncateBytes_append (short : textLength Char.utf8Size front ≤ max) :
    truncateBytes max (front ++ back) = front ++ truncateBytes (max - textLength Char.utf8Size front) back := by
  induction front generalizing max with
  | nil => rfl
  | cons c front ih =>
    rw [textLength, map_cons, sum_cons] at short
    rw [cons_append, truncateBytes, if_pos (by omega), ih (by rw [textLength]; omega), textLength, textLength,
      map_cons, sum_cons, Nat.sub_add_eq, cons_append]

theorem truncateBytes_whole (short : textLength Char.utf8Size text ≤ max) : truncateBytes max text = text := by
  have whole := @truncateBytes_append text [] max short
  rwa [append_nil, truncateBytes, append_nil] at whole

theorem remaining_sublist (text : Text) : (remaining text).toList.Sublist text.toList := by
  rw [remaining, String.toList_ofList]
  exact (truncateBytes_starts _ _).sublist.trans ((dropWhile_sublist _).trans filter_sublist)

theorem survivors_safe (text : List Char) : SafeFilename (survivors text) := by
  have front := truncateBytes_starts maxAttachmentFilenameLen (undotted text)
  constructor
  case kept =>
    intro c mem
    exact of_mem_filter ((dropWhile_sublist _).subset (front.subset mem))
  case visible =>
    intro isDot
    obtain ⟨rest, same⟩ := head?_eq_some_iff.mp isDot
    obtain ⟨back, whole⟩ := front
    rw [survivors] at same
    rw [same] at whole
    have notDot := head?_dropWhile_not (fun c : Char => c == '.') (text.filter keepsChar)
    rw [← undotted, ← whole] at notDot
    simp at notDot
  case short => exact truncateBytes_short _ _

theorem utf8ByteSize_eq (text : List Char) : (String.ofList text).utf8ByteSize = textLength Char.utf8Size text := by
  induction text with
  | nil => rfl
  | cons c text ih =>
    rw [String.ofList_cons, String.utf8ByteSize_append, String.utf8ByteSize_singleton, ih]
    rfl

theorem SafeFilename.survivors (safe : SafeFilename text) : survivors text = text := by
  have undotted : text.dropWhile (· == '.') = text := by
    cases text with
    | nil => rfl
    | cons c rest =>
      have notDot : c ≠ '.' := fun isDot => safe.visible (congrArg some isDot)
      rw [dropWhile_cons_of_neg (by simpa using notDot)]
  rw [Prismoire.survivors, Prismoire.undotted, filter_eq_self.mpr safe.kept, undotted, truncateBytes_whole safe.short]

theorem eq_of_sublist_length (positive : ∀ c, 0 < length c) (sub : front.Sublist back)
    (same : textLength length front = textLength length back) : front = back := by
  induction sub with
  | slnil => rfl
  | @cons front back c sub ih =>
    have less : textLength length front ≤ textLength length back := (sub.map length).sum_le_sum (by simp)
    have more := positive c
    rw [textLength, textLength, map_cons, sum_cons] at same
    rw [textLength, textLength] at less
    omega
  | cons_cons c sub ih =>
    simp only [textLength, map_cons, sum_cons, Nat.add_left_cancel_iff] at same
    rw [ih same]

theorem SafeFilename.undotted_append (safe : SafeFilename text) (whole : text = front ++ back) :
    front.dropWhile (· == '.') = front := by
  cases front with
  | nil => rfl
  | cons c rest =>
    have notDot : c ≠ '.' := fun isDot => safe.visible (by rw [whole, isDot]; rfl)
    rw [dropWhile_cons_of_neg (by simpa using notDot)]

/-- Where a part of what survives comes from. -/
theorem survivors_part {part rest : List Char} (whole : survivors text = front ++ part ++ rest) :
    ∃ before stretch after, text = before ++ stretch ++ after ∧ stretch.filter keepsChar = part ∧
      undotted (before ++ stretch) = front ++ part := by
  obtain ⟨cut, isPrefix⟩ := truncateBytes_starts maxAttachmentFilenameLen (undotted text)
  have dots := @takeWhile_append_dropWhile _ (· == '.') (text.filter keepsChar)
  rw [← undotted, ← isPrefix, ← survivors, whole, ← append_assoc, ← append_assoc, append_assoc _ rest,
    ← append_assoc _ front] at dots
  obtain ⟨start, after, rfl, isStart, -⟩ := filter_eq_append_iff.mp dots.symm
  obtain ⟨before, stretch, rfl, isBefore, isStretch⟩ := filter_eq_append_iff.mp isStart
  refine ⟨before, stretch, after, rfl, isStretch, ?_⟩
  rw [undotted, filter_append, isBefore, isStretch, append_assoc, dropWhile_append_of_pos]
  · exact (survivors_safe _).undotted_append whole
  · exact List.all_eq_true.mp all_takeWhile

theorem part_survives {before stretch after : List Char} (whole : text = before ++ stretch ++ after)
    (ends : stretch.filter keepsChar <:+ undotted (before ++ stretch))
    (short : textLength Char.utf8Size (undotted (before ++ stretch)) ≤ maxAttachmentFilenameLen) :
    stretch.filter keepsChar <:+: survivors text := by
  by_cases none : undotted (before ++ stretch) = []
  · rw [none, suffix_nil] at ends
    rw [ends]
    exact nil_infix
  · have grows : undotted text = undotted (before ++ stretch) ++ after.filter keepsChar := by
      rw [undotted, whole, filter_append, dropWhile_append, ← undotted, if_neg (by simpa using none)]
    rw [survivors, grows, truncateBytes_append short]
    exact ends.isInfix.trans (prefix_append _ _).isInfix

end Remaining

variable {nfc : Text → Text} {decomposition : Char → Nat} {boundary : Char → Prop} {raw f : Text}

theorem sanitize_iff : sanitizeAttachmentFilename nfc raw = some f ↔ f ≠ "" ∧ remaining (nfc raw) = f := by
  rw [sanitizeAttachmentFilename, ite_none_left_eq_some, some.injEq]
  constructor
  · rintro ⟨some_, rfl⟩
    exact ⟨by simpa using some_, rfl⟩
  · rintro ⟨some_, rfl⟩
    exact ⟨by simpa [remaining, survivors, undotted] using some_, rfl⟩

/-- A text is normal where each of its parts without an inner boundary is. -/
theorem Normalizes.of_parts (rules : Normalizes nfc decomposition boundary) {text : List Char}
    (parts : ∀ front part back, text = front ++ part ++ back → (∀ c ∈ part.tail, ¬ boundary c) → Normal nfc part) :
    Normal nfc text := by
  induction size : text.length using Nat.strong_induction_on generalizing text with
  | _ size ih =>
    by_cases inner : ∃ c ∈ text.tail, boundary c
    · obtain ⟨c, inTail, isBoundary⟩ := inner
      obtain ⟨front, back, split⟩ := append_of_mem inTail
      cases text with
      | nil => cases inTail
      | cons d text =>
        rw [tail_cons] at split
        subst split
        have left : Normal nfc (d :: front) := ih (d :: front).length (by simp [← size]) (fun before part after whole =>
          parts before part (after ++ c :: back) (by rw [← cons_append, whole]; simp)) rfl
        have shorter : (c :: back).length < (d :: (front ++ c :: back)).length := by
          rw [length_cons, length_cons, length_append, length_cons]
          omega
        have right : Normal nfc (c :: back) := ih _ (size ▸ shorter) (fun before part after whole =>
          parts (d :: front ++ before) part after (by rw [whole]; simp)) rfl
        rw [Normal, ← cons_append, rules.splits _ _ _ isBoundary, left, right, ← String.ofList_append]
    · exact parts [] text [] (by simp) fun c mem isBoundary => inner ⟨c, mem, isBoundary⟩

theorem Normalizes.survivors_normal_iff (rules : Normalizes nfc decomposition boundary) {text : List Char}
    (normal : Normal nfc text) : Normal nfc (survivors text) ↔ ClosesUp nfc boundary text := by
  constructor
  · intro kept front stretch back whole _ _ ends short
    obtain ⟨before, after, found⟩ := part_survives whole ends short
    exact rules.part before _ after (found ▸ kept)
  · intro closes
    refine rules.of_parts fun front part back whole inner => ?_
    obtain ⟨before, stretch, after, rfl, rfl, found⟩ := survivors_part whole
    by_cases stripped : ∃ c ∈ stretch, keepsChar c = false
    · refine closes before stretch after rfl stripped inner ?_ ?_ <;> rw [found]
      · exact suffix_append _ _
      · have short := (survivors_safe (before ++ stretch ++ after)).short
        rw [whole, textLength, map_append, sum_append] at short
        exact Nat.le_trans (Nat.le_add_right _ _) short
    · rw [filter_eq_self.mpr fun c mem => by simpa using fun cut => stripped ⟨c, mem, cut⟩]
      exact rules.part before stretch after normal

/-- A sanitized filename is safe whatever the normalization. It passes the sanitizer and the parser again exactly where
taking characters out of the normal form of the raw name brings none together that join or change places. -/
theorem filename_accepted_iff (rules : Normalizes nfc decomposition boundary)
    (made : sanitizeAttachmentFilename nfc raw = some f) :
    (f ≠ "" ∧ f.utf8ByteSize ≤ 255 ∧ f.toList.head? ≠ some '.' ∧ ∀ c ∈ f.toList, keepsChar c = true) ∧
    (sanitizeAttachmentFilename nfc f = some f ↔ ClosesUp nfc boundary (nfc raw).toList) ∧
    ∀ ref : AttachmentRef, ref.filename = f → ref.mime ∈ allowedMimes →
      (parseAttachmentRef nfc (attachmentRefToCbor ref) = .ok ref ↔ ClosesUp nfc boundary (nfc raw).toList) := by
  obtain ⟨some_, rfl⟩ := sanitize_iff.mp made
  have safe := survivors_safe (nfc raw).toList
  have short : (remaining (nfc raw)).utf8ByteSize ≤ 255 := (utf8ByteSize_eq _).trans_le safe.short
  have normal : Normal nfc (nfc raw).toList := by
    rw [Normal, String.ofList_toList]
    exact rules.idempotent raw
  have again : sanitizeAttachmentFilename nfc (remaining (nfc raw)) = some (remaining (nfc raw)) ↔
      ClosesUp nfc boundary (nfc raw).toList := by
    rw [sanitize_iff, and_iff_right some_, ← rules.survivors_normal_iff normal]
    change _ ↔ nfc (remaining (nfc raw)) = remaining (nfc raw)
    constructor
    · intro same
      have sub := remaining_sublist (nfc (remaining (nfc raw)))
      rw [same] at sub
      exact (String.toList_inj.mp (eq_of_sublist_length rules.positive sub (rules.keeps _).symm)).symm
    · intro normal
      rw [normal, remaining, remaining, String.toList_ofList, safe.survivors]
  refine ⟨⟨some_, short, ?_⟩, again, ?_⟩
  · rw [remaining, String.toList_ofList]
    exact ⟨safe.visible, safe.kept⟩
  · rintro ref isName allowed
    rw [← again]
    constructor
    · intro parsed
      have wire := (parseAttachmentRef_ok parsed).1 (lt_of_le_of_lt (isName ▸ short) (by decide))
      exact isName ▸ wire.filename
    · intro accepted
      exact parseAttachmentRef_of ⟨isName ▸ accepted, allowed, lt_of_le_of_lt (isName ▸ short) (by decide)⟩

/-- Joins an acute accent to the letter in front of it. -/
def joinAcute (c : Char) (text : List Char) : List Char :=
  if c = 'e' ∧ text.head? = some '\u0301' then 'é' :: text.tail else c :: text

def composeAcute (text : List Char) : List Char :=
  text.foldr joinAcute []

def acuteNfc (text : Text) : Text :=
  String.ofList (composeAcute text.toList)

def acuteDecomposition (c : Char) : Nat :=
  if c = 'é' then 2 else 1

section Acute

variable {c : Char} {text : List Char}

theorem joinAcute_head : (joinAcute c text).head? = some 'é' ∨ (joinAcute c text).head? = some c := by
  unfold joinAcute
  split
  · exact .inl rfl
  · exact .inr rfl

theorem joinAcute_eq : joinAcute c text = c :: text ↔ ¬ (c = 'e' ∧ text.head? = some '\u0301') := by
  unfold joinAcute
  split
  · rename_i joins
    exact ⟨fun same => absurd (head_eq_of_cons_eq same) (by rw [joins.1]; decide), fun apart => absurd joins apart⟩
  · rename_i apart
    simp only [apart, not_false_eq_true]

theorem composeAcute_cons : composeAcute (c :: text) = c :: text ↔
    composeAcute text = text ∧ ¬ (c = 'e' ∧ text.head? = some '\u0301') := by
  rw [composeAcute, foldr_cons, ← composeAcute]
  constructor
  · intro same
    have kept : composeAcute text = text := by
      unfold joinAcute at same
      split at same
      · rename_i joins
        rw [joins.1] at same
        simp at same
      · exact tail_eq_of_cons_eq same
    rw [kept] at same
    exact ⟨kept, joinAcute_eq.mp same⟩
  · rintro ⟨kept, apart⟩
    rw [kept]
    exact joinAcute_eq.mpr apart

theorem composeAcute_idempotent (text : List Char) : composeAcute (composeAcute text) = composeAcute text := by
  induction text with
  | nil => rfl
  | cons c text ih =>
    change composeAcute (joinAcute c (composeAcute text)) = joinAcute c (composeAcute text)
    by_cases joins : c = 'e' ∧ (composeAcute text).head? = some '\u0301'
    · obtain ⟨rest, isRest⟩ := head?_eq_some_iff.mp joins.2
      rw [joinAcute, if_pos joins, isRest, tail_cons]
      rw [isRest] at ih
      exact composeAcute_cons.mpr ⟨(composeAcute_cons.mp ih).1, by simp⟩
    · rw [joinAcute_eq.mpr joins]
      exact composeAcute_cons.mpr ⟨ih, joins⟩

theorem composeAcute_part {front part back : List Char}
    (normal : composeAcute (front ++ part ++ back) = front ++ part ++ back) :
    composeAcute part = part := by
  induction front with
  | cons c front ih => exact ih (composeAcute_cons.mp normal).1
  | nil =>
    induction part with
    | nil => rfl
    | cons c part ih =>
      obtain ⟨kept, apart⟩ := composeAcute_cons.mp normal
      refine composeAcute_cons.mpr ⟨ih kept, fun joins => apart ⟨joins.1, ?_⟩⟩
      obtain ⟨rest, rfl⟩ := head?_eq_some_iff.mp joins.2
      rfl

theorem composeAcute_splits {front back : List Char} (boundary : c ≠ '\u0301') :
    composeAcute (front ++ c :: back) = composeAcute front ++ composeAcute (c :: back) := by
  induction front with
  | nil => rfl
  | cons d front ih =>
    change joinAcute d (composeAcute (front ++ c :: back)) = joinAcute d (composeAcute front) ++ _
    rw [ih]
    cases composed : composeAcute front with
    | nil =>
      have apart : (composeAcute (c :: back)).head? ≠ some '\u0301' := by
        rcases @joinAcute_head c (composeAcute back) with head | head <;> rw [composeAcute, foldr_cons, ← composeAcute, head]
        · decide
        · simpa using boundary
      rw [nil_append, joinAcute_eq.mpr fun joins => apart joins.2]
      simp [joinAcute]
    | cons e rest =>
      unfold joinAcute
      rw [cons_append, head?_cons, head?_cons]
      split <;> rfl

end Acute

theorem acute_normalizes : Normalizes acuteNfc acuteDecomposition (· ≠ '\u0301') := by
  constructor
  case positive =>
    intro c
    rw [acuteDecomposition]
    split <;> decide
  case keeps =>
    intro text
    rw [acuteNfc, String.toList_ofList]
    induction text.toList with
    | nil => rfl
    | cons c text ih =>
      change textLength _ (joinAcute c (composeAcute text)) = _
      unfold joinAcute
      split
      · rename_i joins
        obtain ⟨rest, isRest⟩ := head?_eq_some_iff.mp joins.2
        rw [isRest] at ih
        simp_all [textLength, acuteDecomposition]
        omega
      · simp_all [textLength]
  case idempotent =>
    intro text
    rw [acuteNfc, acuteNfc, String.toList_ofList, composeAcute_idempotent]
  case part =>
    intro front text back normal
    rw [Normal, acuteNfc, String.toList_ofList, String.ofList_inj] at normal ⊢
    exact composeAcute_part normal
  case splits =>
    intro front c back boundary
    simp only [acuteNfc, String.toList_ofList]
    rw [composeAcute_splits boundary, String.ofList_append]

/-- A zero-width space keeps an accent from its letter, and no longer does once it is taken out. -/
theorem filename_accepted_iff_acute : ¬ ClosesUp acuteNfc (· ≠ '\u0301') (acuteNfc "e\u200B\u0301").toList := by
  have exact_ := (@filename_accepted_iff _ _ _ "e\u200B\u0301" "e\u0301" acute_normalizes (by decide +kernel)).2.1
  exact fun closes => absurd (exact_.mpr closes) (by decide +kernel)

/-- An accent that a zero-width space held apart from its letter. -/
theorem filename_refused : ¬ ∀ raw f, sanitizeAttachmentFilename acuteNfc raw = some f →
    sanitizeAttachmentFilename acuteNfc f = some f := by
  intro again
  exact absurd (again "e\u200B\u0301" "e\u0301" (by decide +kernel)) (by decide +kernel)

end Prismoire
