import Mathlib.Data.List.Forall2
import Prismoire.Lib.IpText

namespace Prismoire.Lib

open List Option Function

inductive UrlHost where
  | domain (name : List Char)
  | ipv4 (address : Nat)
  | ipv6 (segments : List Nat)
  deriving DecidableEq

/-- `0x` stands for hexadecimal, another leading zero for octal. -/
def ipv4Radix : List Char → Nat × List Char
  | '0' :: c :: digits => if c = 'x' ∨ c = 'X' then (16, digits) else (8, c :: digits)
  | text => (10, text)

def ipv4Number (text : List Char) : Option Nat :=
  let (radix, digits) := ipv4Radix text
  if text ≠ [] ∧ areDigits radix digits then some (digitsVal radix digits) else none

/-- A final dot does not count. -/
def ipv4Parts (text : List Char) : List (List Char) :=
  let parts := text.splitOn '.'
  if parts.getLast? = some [] ∧ 1 < parts.length then parts.dropLast else parts

def endsInNumber (text : List Char) : Bool :=
  (ipv4Parts text).getLast?.any fun last => (last ≠ [] && areDigits 10 last) || (ipv4Number last).isSome

/-- Each part but the last is a byte, and the last one fills the rest. -/
def ipv4Address (numbers : List Nat) : Option Nat :=
  numbers.getLast?.bind fun last =>
    let front := numbers.dropLast
    let room := 256 ^ (4 - front.length)
    if front.length ≤ 3 ∧ (∀ number ∈ front, number ≤ 255) ∧ last < room then
      some (last + front.foldl (fun value number => 256 * value + number) 0 * room)
    else
      none

def ipv4Parse (text : List Char) : Option Nat :=
  let parts := ipv4Parts text
  if parts.length ≤ 4 then (parts.mapM ipv4Number).bind ipv4Address else none

/-- Up to so many hexadecimal digits, and what is left behind them. -/
def hexRun : Nat → List Char → List Char × List Char
  | 0, text => ([], text)
  | _, [] => ([], [])
  | count + 1, c :: rest =>
    if digitVal c < 16 then
      let (digits, left) := hexRun count rest
      (c :: digits, left)
    else
      ([], c :: rest)

/-- A part of the dotted quad at the end of an address: no zero in front, and no more than a byte. -/
def quadPart : Option Nat → List Char → Option (Nat × List Char)
  | none, [] => none
  | some value, [] => some (value, [])
  | part, c :: rest =>
    if digitVal c < 10 then
      match part with
      | none => quadPart (some (digitVal c)) rest
      | some value =>
        if value = 0 then none
        else if 255 < 10 * value + digitVal c then none
        else quadPart (some (10 * value + digitVal c)) rest
    else
      part.map fun value => (value, c :: rest)

def quadParts : Nat → Bool → List Char → Option (List Nat)
  | 0, _, [] => some []
  | 0, _, _ :: _ => none
  | left + 1, first, text => do
    let text ← if first then some text else
      match text with
      | '.' :: rest => some rest
      | _ => none
    let (part, rest) ← quadPart none text
    return part :: (← quadParts left false rest)

/-- The groups of an address, for as many more as fit, with the place of the compression among the groups so far. -/
def ipv6Groups : Nat → List Nat → Option Nat → List Char → Option (List Nat × Option Nat)
  | _, groups, compress, [] => some (groups, compress)
  | 0, _, _, _ :: _ => none
  | left + 1, groups, compress, text@(c :: rest) =>
    if c = ':' then
      if compress.isSome then none
      else ipv6Groups left (groups ++ [0]) (some (groups.length + 1)) rest
    else
      let (digits, behind) := hexRun 4 text
      match behind with
      | [] => ipv6Groups left (groups ++ [digitsVal 16 digits]) compress []
      | '.' :: _ =>
        if digits = [] ∨ 6 < groups.length then none
        else
          (quadParts 4 true text).bind fun
            | [a, b, c, d] => some (groups ++ [256 * a + b, 256 * c + d], compress)
            | _ => none
      | ':' :: more => if more = [] then none else ipv6Groups left (groups ++ [digitsVal 16 digits]) compress more
      | _ => none

/-- A compression in front counts as a group too. -/
def ipv6Start : List Char → Option (List Nat × Option Nat)
  | ':' :: ':' :: rest => ipv6Groups 7 [0] (some 1) rest
  | ':' :: _ => none
  | text => ipv6Groups 8 [] none text

/-- The groups behind the compression move to the end. -/
def ipv6Fill : List Nat × Option Nat → Option (List Nat)
  | (groups, some place) => some (groups.take place ++ List.replicate (8 - groups.length) 0 ++ groups.drop place)
  | (groups, none) => if groups.length = 8 then some groups else none

def ipv6Parse (text : List Char) : Option (List Nat) :=
  (ipv6Start text).bind ipv6Fill

def urlHost (toAscii : List Char → Option (List Char)) (text : List Char) : Option UrlHost :=
  match text with
  | '[' :: rest => if rest.getLast? = some ']' then (ipv6Parse rest.dropLast).map .ipv6 else none
  | _ => (toAscii text).bind fun domain =>
    if domain = [] then none
    else if endsInNumber domain then (ipv4Parse domain).map .ipv4
    else some (.domain domain)

/-- The host part of an authority: up to the first colon outside brackets. -/
def authorityHost : Bool → List Char → List Char
  | _, [] => []
  | inside, c :: rest =>
    if c = ':' ∧ inside = false then []
    else c :: authorityHost (if c = '[' then true else if c = ']' then false else inside) rest

section Digits

variable {radix value : Nat} {text digits rest : List Char} {c : Char}

theorem areDigits_cons : areDigits radix (c :: text) = true ↔ digitVal c < radix ∧ areDigits radix text = true := by
  simp [areDigits]

theorem digitsVal_from (text : List Char) : ∀ value, value ≤ text.foldl (fun value c => 10 * value + digitVal c) value := by
  induction text with
  | nil => exact fun value => le_rfl
  | cons c text ih =>
    intro value
    exact le_trans (by omega) (ih (10 * value + digitVal c))

/-- What comes behind a number does not go on with it. -/
def Stops (radix : Nat) (rest : List Char) : Prop :=
  ∀ c ∈ rest.head?, radix ≤ digitVal c

theorem hexRun_digits {count : Nat} (hex : areDigits 16 digits = true) (fit : digits.length ≤ count)
    (stops : Stops 16 rest) : hexRun count (digits ++ rest) = (digits, rest) := by
  induction digits generalizing count with
  | nil =>
    cases count with
    | zero => rfl
    | succ count =>
      cases rest with
      | nil => rfl
      | cons c rest => simp [hexRun, Nat.not_lt.mpr (stops c rfl)]
  | cons c digits ih =>
    cases count with
    | zero => cases fit
    | succ count =>
      obtain ⟨here, later⟩ := areDigits_cons.mp hex
      simp [hexRun, here, ih later (Nat.le_of_succ_le_succ fit)]

theorem quadPart_digits (decimal : areDigits 10 digits = true) (stops : Stops 10 rest) (positive : 0 < value)
    (fit : digits.foldl (fun value c => 10 * value + digitVal c) value ≤ 255) :
    quadPart (some value) (digits ++ rest) = some (digits.foldl (fun value c => 10 * value + digitVal c) value, rest) := by
  induction digits generalizing value with
  | nil =>
    cases rest with
    | nil => rfl
    | cons c rest => simp [quadPart, Nat.not_lt.mpr (stops c rfl)]
  | cons c digits ih =>
    obtain ⟨here, later⟩ := areDigits_cons.mp decimal
    have bound : 10 * value + digitVal c ≤ 255 := le_trans (digitsVal_from digits _) fit
    rw [cons_append, quadPart, if_pos here]
    simp only [Nat.ne_of_gt positive, if_false, Nat.not_lt.mpr bound]
    exact ih later (by omega) fit

theorem digitVal_zero (zero : digitVal c = 0) : c = '0' := by
  rw [← Char.toNat_inj]
  have isZero : '0'.toNat = 48 := rfl
  rw [digitVal_eq] at zero
  split_ifs at zero <;> omega

theorem readOctet_eq_some : readOctet text = some value ↔ text ≠ [] ∧ text.length ≤ 3 ∧ areDigits 10 text = true ∧
    (text = ['0'] ∨ text.head? ≠ some '0') ∧ value = digitsVal 10 text ∧ value ≤ 255 := by
  rw [readOctet, ite_none_right_eq_some, some.injEq]
  constructor
  · rintro ⟨⟨some_, short, decimal, plain, small⟩, rfl⟩
    exact ⟨some_, short, decimal, plain, rfl, small⟩
  · rintro ⟨some_, short, decimal, plain, rfl, small⟩
    exact ⟨⟨some_, short, decimal, plain, small⟩, rfl⟩

theorem quadPart_octet (octet : readOctet digits = some value) (stops : Stops 10 rest) :
    quadPart none (digits ++ rest) = some (value, rest) := by
  obtain ⟨some_, -, decimal, plain, rfl, small⟩ := readOctet_eq_some.mp octet
  cases digits with
  | nil => exact absurd rfl some_
  | cons c digits =>
    obtain ⟨here, later⟩ := areDigits_cons.mp decimal
    rw [cons_append, quadPart, if_pos here]
    rcases plain with isZero | noZero
    · cases isZero
      cases rest with
      | nil => rfl
      | cons c rest => simp [quadPart, Nat.not_lt.mpr (stops c rfl), digitsVal]
    · have positive : 0 < digitVal c := Nat.pos_of_ne_zero fun zero => noZero (by rw [digitVal_zero zero]; rfl)
      have whole : digitsVal 10 (c :: digits) = digits.foldl (fun value c => 10 * value + digitVal c) (digitVal c) := by
        simp [digitsVal]
      rw [whole] at small ⊢
      exact quadPart_digits later stops positive small

end Digits

section Agreement

variable {text rest : List Char} {left address value : Nat} {acc values : List Nat} {compress : Option Nat}
  {groups : List (List Char)}

theorem readIpv4_eq_some : readIpv4 text = some address ↔ ∃ a b c d va vb vc vd,
    text = a ++ '.' :: (b ++ '.' :: (c ++ '.' :: d)) ∧ readOctet a = some va ∧ readOctet b = some vb ∧
      readOctet c = some vc ∧ readOctet d = some vd ∧ address = ((256 * va + vb) * 256 + vc) * 256 + vd := by
  constructor
  · intro read
    unfold readIpv4 at read
    split at read
    · rename_i a b c d split
      obtain ⟨va, octetA, read⟩ := bind_eq_some_iff.mp read
      obtain ⟨vb, octetB, read⟩ := bind_eq_some_iff.mp read
      obtain ⟨vc, octetC, read⟩ := bind_eq_some_iff.mp read
      obtain ⟨vd, octetD, read⟩ := bind_eq_some_iff.mp read
      have whole := @intercalate_splitOn _ text _ _ '.'
      rw [split] at whole
      refine ⟨a, b, c, d, va, vb, vc, vd, ?_, octetA, octetB, octetC, octetD, (some.inj read).symm⟩
      simpa using whole.symm
    · cases read
  · rintro ⟨a, b, c, d, va, vb, vc, vd, rfl, octetA, octetB, octetC, octetD, rfl⟩
    have plain : ∀ {text : List Char} {value : Nat}, readOctet text = some value → '.' ∉ text := by
      intro text value octet mem
      have decimal := (readOctet_eq_some.mp octet).2.2.1
      exact absurd (of_decide_eq_true (List.all_eq_true.mp decimal _ mem)) (by decide)
    have split : (a ++ '.' :: (b ++ '.' :: (c ++ '.' :: d))).splitOn '.' = [a, b, c, d] := by
      rw [splitOn_append_cons_self_of_not_mem (plain octetA), splitOn_append_cons_self_of_not_mem (plain octetB),
        splitOn_append_cons_self_of_not_mem (plain octetC), splitOn_eq_singleton (plain octetD)]
    simp [readIpv4, split, octetA, octetB, octetC, octetD]

theorem readGroup_eq_some : readGroup text = some value ↔ text ≠ [] ∧ text.length ≤ 4 ∧ areDigits 16 text = true ∧
    value = digitsVal 16 text := by
  rw [readGroup, ite_none_right_eq_some, some.injEq, @eq_comm _ value, and_assoc, and_assoc]

theorem ipv6Groups_digits {digits : List Char} (some_ : digits ≠ []) (short : digits.length ≤ 4)
    (hex : areDigits 16 digits = true) :
    Stops 16 rest → ipv6Groups (left + 1) acc compress (digits ++ rest) =
      match rest with
      | [] => ipv6Groups left (acc ++ [digitsVal 16 digits]) compress []
      | '.' :: _ =>
        if digits = [] ∨ 6 < acc.length then none
        else
          (quadParts 4 true (digits ++ rest)).bind fun
            | [a, b, c, d] => some (acc ++ [256 * a + b, 256 * c + d], compress)
            | _ => none
      | ':' :: more => if more = [] then none else ipv6Groups left (acc ++ [digitsVal 16 digits]) compress more
      | _ => none := by
  intro stops
  have run := hexRun_digits hex short stops
  cases digits with
  | nil => exact absurd rfl some_
  | cons c digits =>
    have apart : c ≠ ':' := by
      rintro rfl
      exact absurd (areDigits_cons.mp hex).1 (by decide)
    rw [cons_append] at run ⊢
    conv_lhs => rw [ipv6Groups]
    simp only [apart, if_false, run]

theorem ipv6Groups_group {more : List Char} (group : readGroup text = some value) (goesOn : more ≠ []) :
    ipv6Groups (left + 1) acc compress (text ++ ':' :: more) = ipv6Groups left (acc ++ [value]) compress more := by
  obtain ⟨some_, short, hex, rfl⟩ := readGroup_eq_some.mp group
  have stops : Stops 16 (':' :: more) := by
    rintro c isHead
    cases isHead
    decide
  rw [ipv6Groups_digits some_ short hex stops]
  simp only [goesOn, if_false]

theorem ipv6Groups_last (group : readGroup text = some value) :
    ipv6Groups (left + 1) acc compress text = some (acc ++ [value], compress) := by
  obtain ⟨some_, short, hex, rfl⟩ := readGroup_eq_some.mp group
  have step := @ipv6Groups_digits [] left acc compress text some_ short hex nofun
  rw [append_nil] at step
  rw [step]
  cases left <;> rfl

theorem decimal_hex (decimal : areDigits 10 text = true) : areDigits 16 text = true :=
  List.all_eq_true.mpr fun c mem => decide_eq_true
    (lt_trans (of_decide_eq_true (List.all_eq_true.mp decimal c mem)) (by decide))

theorem quadParts_octet {left : Nat} (octet : readOctet text = some value) (stops : Stops 10 rest) :
    quadParts (left + 1) true (text ++ rest) = (quadParts left false rest).map (value :: ·) := by
  simp only [quadParts, if_true, bind_eq_bind, bind_some, quadPart_octet octet stops]
  cases quadParts left false rest <;> rfl

theorem quadParts_dot {left : Nat} : quadParts (left + 1) false ('.' :: text) = quadParts (left + 1) true text := by
  simp [quadParts]

theorem stops_dot : Stops 10 ('.' :: text) := by
  rintro c isHead
  cases isHead
  decide

theorem ipv6Groups_quad (quad : readIpv4 text = some address) (fit : acc.length ≤ 6) :
    ipv6Groups (left + 1) acc compress text = some (acc ++ [address / 65536, address % 65536], compress) := by
  obtain ⟨a, b, c, d, va, vb, vc, vd, rfl, octetA, octetB, octetC, octetD, rfl⟩ := readIpv4_eq_some.mp quad
  obtain ⟨some_, short, decimal, -, -, smallA⟩ := readOctet_eq_some.mp octetA
  have smallB := (readOctet_eq_some.mp octetB).2.2.2.2.2
  have smallC := (readOctet_eq_some.mp octetC).2.2.2.2.2
  have smallD := (readOctet_eq_some.mp octetD).2.2.2.2.2
  have stops : Stops 16 ('.' :: (b ++ '.' :: (c ++ '.' :: d))) := by
    rintro c isHead
    cases isHead
    decide
  have whole : quadParts 4 true (a ++ '.' :: (b ++ '.' :: (c ++ '.' :: d))) = some [va, vb, vc, vd] := by
    have last := @quadParts_octet d [] vd 0 octetD nofun
    rw [append_nil] at last
    rw [quadParts_octet octetA stops_dot, quadParts_dot, quadParts_octet octetB stops_dot, quadParts_dot,
      quadParts_octet octetC stops_dot, quadParts_dot, last]
    rfl
  rw [ipv6Groups_digits some_ (by omega) (decimal_hex decimal) stops]
  simp only [some_, false_or, Nat.not_lt.mpr fit, if_false, whole, bind_some]
  congr 4
  · omega
  · congr 1
    omega

theorem hex_head (hex : areDigits 16 text = true) (some_ : text ≠ []) : ∃ c rest, text = c :: rest ∧ c ≠ ':' := by
  cases text with
  | nil => exact absurd rfl some_
  | cons c rest =>
    refine ⟨c, rest, rfl, ?_⟩
    rintro rfl
    exact absurd (areDigits_cons.mp hex).1 (by decide)

theorem readLastGroups_head (read : readLastGroups groups = some values) :
    ∃ c rest, [':'].intercalate groups = c :: rest ∧ c ≠ ':' := by
  cases groups with
  | nil => cases read
  | cons group groups =>
    have first : ∃ c rest, group = c :: rest ∧ c ≠ ':' := by
      have ofGroup : ∀ {value}, readGroup group = some value → ∃ c rest, group = c :: rest ∧ c ≠ ':' := fun isGroup =>
        hex_head (readGroup_eq_some.mp isGroup).2.2.1 (readGroup_eq_some.mp isGroup).1
      cases groups with
      | nil =>
        rw [readLastGroups] at read
        split at read
        · rename_i isGroup
          exact ofGroup isGroup
        · obtain ⟨address, quad, -⟩ := map_eq_some_iff.mp read
          obtain ⟨a, _, _, _, _, _, _, _, rfl, octet, -⟩ := readIpv4_eq_some.mp quad
          obtain ⟨some_, -, decimal, -⟩ := readOctet_eq_some.mp octet
          obtain ⟨c, rest, rfl, apart⟩ := hex_head (decimal_hex decimal) some_
          exact ⟨c, _, rfl, apart⟩
      | cons next groups =>
        obtain ⟨value, isGroup, -⟩ := bind_eq_some_iff.mp read
        exact ofGroup isGroup
    obtain ⟨c, rest, rfl, apart⟩ := first
    cases groups with
    | nil => exact ⟨c, rest, intercalate_singleton, apart⟩
    | cons next groups =>
      rw [intercalate_cons_cons]
      exact ⟨c, _, rfl, apart⟩

theorem ipv6Groups_readLastGroups (read : readLastGroups groups = some values) (room : acc.length + left = 8)
    (fit : acc.length + values.length ≤ 8) :
    ipv6Groups left acc compress ([':'].intercalate groups) = some (acc ++ values, compress) := by
  induction groups generalizing left acc values with
  | nil => cases read
  | cons group groups ih =>
    cases groups with
    | nil =>
      rw [intercalate_singleton]
      rw [readLastGroups] at read
      split at read
      · rename_i value isGroup
        cases read
        obtain ⟨left, rfl⟩ : ∃ fewer, left = fewer + 1 := ⟨left - 1, by simp at fit; omega⟩
        exact ipv6Groups_last isGroup
      · obtain ⟨address, quad, same⟩ := map_eq_some_iff.mp read
        subst same
        rw [length_cons, length_singleton] at fit
        obtain ⟨left, rfl⟩ : ∃ fewer, left = fewer + 1 := ⟨left - 1, by omega⟩
        exact ipv6Groups_quad quad (by omega)
    | cons next groups =>
      obtain ⟨value, isGroup, read⟩ := bind_eq_some_iff.mp read
      obtain ⟨rest, later, whole⟩ := bind_eq_some_iff.mp read
      cases whole
      rw [length_cons] at fit
      obtain ⟨left, rfl⟩ : ∃ fewer, left = fewer + 1 := ⟨left - 1, by omega⟩
      have goesOn : [':'].intercalate (next :: groups) ≠ [] := by
        obtain ⟨c, rest, whole, -⟩ := readLastGroups_head later
        simp [whole]
      rw [intercalate_cons_cons, append_assoc, singleton_append, ipv6Groups_group isGroup goesOn,
        ih later (by rw [length_append, length_singleton]; omega)
          (by rw [length_append, length_singleton]; omega),
        append_assoc, singleton_append]

theorem ipv6Groups_plain {back : List Char} (read : groups.mapM readGroup = some values) (some_ : groups ≠ [])
    (room : values.length < left) :
    ipv6Groups left acc none ([':'].intercalate groups ++ ':' :: ':' :: back) =
      ipv6Groups (left - values.length - 1) (acc ++ values ++ [0]) (some (acc.length + values.length + 1)) back := by
  induction groups generalizing left acc values with
  | nil => exact absurd rfl some_
  | cons group groups ih =>
    rw [mapM_cons] at read
    obtain ⟨value, isGroup, read⟩ := bind_eq_some_iff.mp read
    obtain ⟨rest, later, whole⟩ := bind_eq_some_iff.mp read
    cases whole
    rw [length_cons] at room ⊢
    obtain ⟨left, rfl⟩ : ∃ fewer, left = fewer + 1 := ⟨left - 1, by omega⟩
    cases groups with
    | nil =>
      cases later
      obtain ⟨left, rfl⟩ : ∃ fewer, left = fewer + 1 := ⟨left - 1, by omega⟩
      rw [intercalate_singleton, ipv6Groups_group isGroup (cons_ne_nil ':' back), ipv6Groups]
      simp
    | cons next groups =>
      have goesOn : [':'].intercalate (next :: groups) ++ ':' :: ':' :: back ≠ [] := by simp
      rw [intercalate_cons_cons, append_assoc, append_assoc, singleton_append,
        ipv6Groups_group isGroup goesOn, ih later nofun (by omega)]
      simp only [length_append, length_singleton, append_assoc, singleton_append]
      congr 2 <;> omega

theorem splitPair_eq_some {front back : List Char} (split : splitPair text = some (front, back)) :
    text = front ++ ':' :: ':' :: back := by
  fun_induction splitPair text generalizing front with
  | case1 rest =>
    cases split
    rfl
  | case2 => cases split
  | case3 c rest _ ih =>
    obtain ⟨⟨before, after⟩, found, same⟩ := map_eq_some_iff.mp split
    cases same
    rw [cons_append, ← ih found]

theorem plainGroups_head (read : (text.splitOn ':').mapM readGroup = some values) (some_ : text ≠ []) :
    ∃ c rest, text = c :: rest ∧ c ≠ ':' := by
  cases text with
  | nil => exact absurd rfl some_
  | cons c rest =>
    refine ⟨c, rest, rfl, ?_⟩
    rintro rfl
    rw [splitOn_cons_eq_if_modifyHead] at read
    simp [readGroup] at read

theorem ipv6Start_plain {c : Char} (whole : text = c :: rest) (apart : c ≠ ':') :
    ipv6Start text = ipv6Groups 8 [] none text := by
  subst whole
  unfold ipv6Start
  split
  · rename_i same
    exact absurd (List.cons.inj same).1 apart
  · rename_i same
    exact absurd (List.cons.inj same).1 apart
  · rfl

theorem ipv6Fill_compressed {head tail : List Nat} (short : head.length + tail.length ≤ 7) :
    ipv6Fill (head ++ [0] ++ tail, some (head.length + 1)) =
      some (head ++ List.replicate (8 - (head.length + tail.length)) 0 ++ tail) := by
  have front : (head ++ [0] ++ tail).take (head.length + 1) = head ++ [0] := take_left' (by simp)
  have behind : (head ++ [0] ++ tail).drop (head.length + 1) = tail := drop_left' (by simp)
  have length : (head ++ [0] ++ tail).length = head.length + 1 + tail.length := by
    simp
    omega
  have zeros : List.replicate (8 - (head.length + tail.length)) (0 : Nat) =
      [0] ++ List.replicate (8 - (head.length + 1 + tail.length)) 0 := by
    rw [singleton_append, ← replicate_succ]
    congr 1
    omega
  rw [ipv6Fill, front, behind, length, zeros, append_assoc head]

theorem ipv6Parse_readIpv6 {segments : List Nat} (read : readIpv6 text = some segments) : ipv6Parse text = some segments := by
  unfold readIpv6 at read
  split at read
  · obtain ⟨isGroups, eight⟩ := filter_eq_some_iff.mp read
    have eight := of_decide_eq_true eight
    unfold readGroups at isGroups
    split at isGroups
    · cases isGroups
      cases eight
    · have groups := @ipv6Groups_readLastGroups 8 [] segments none _ isGroups rfl (by simp [eight])
      obtain ⟨c, rest, whole, apart⟩ := readLastGroups_head isGroups
      rw [intercalate_splitOn] at groups whole
      rw [ipv6Parse, ipv6Start_plain whole apart, groups]
      simp [ipv6Fill, eight]
  · rename_i front back split
    obtain rfl := splitPair_eq_some split
    obtain ⟨head, readHead, read⟩ := bind_eq_some_iff.mp read
    obtain ⟨tail, readTail, read⟩ := bind_eq_some_iff.mp read
    split at read
    · rename_i short
      have start : ipv6Start (front ++ ':' :: ':' :: back) =
          ipv6Groups (7 - head.length) (head ++ [0]) (some (head.length + 1)) back := by
        unfold readPlainGroups at readHead
        split at readHead
        · rename_i empty
          cases readHead
          rw [empty]
          rfl
        · rename_i some_
          have plain := @ipv6Groups_plain 8 [] head _ back readHead (splitOn_ne_nil _ _) (by omega)
          rw [intercalate_splitOn] at plain
          obtain ⟨c, rest, whole, apart⟩ := plainGroups_head readHead some_
          rw [ipv6Start_plain (by rw [whole]; rfl) apart, plain]
          simp only [nil_append, length_nil, Nat.zero_add]
          congr 1
          omega
      have groups : ipv6Groups (7 - head.length) (head ++ [0]) (some (head.length + 1)) back =
          some (head ++ [0] ++ tail, some (head.length + 1)) := by
        have room : (head ++ [0]).length + (7 - head.length) = 8 := by simp; omega
        have fit : (head ++ [0]).length + tail.length ≤ 8 := by simp; omega
        unfold readGroups at readTail
        split at readTail
        · rename_i empty
          cases readTail
          simp [empty, ipv6Groups]
        · have groups := @ipv6Groups_readLastGroups _ (head ++ [0]) tail (some (head.length + 1)) _ readTail room fit
          rwa [intercalate_splitOn] at groups
      rw [← read, ipv6Parse, start, groups]
      exact ipv6Fill_compressed short
    · cases read

end Agreement

section Spellings

variable {text : List Char} {value address : Nat} {parts : List (List Char)} {values : List Nat}

/-- A number of an IPv4 host, in one of its three radixes. -/
inductive Ipv4Numeral : List Char → Nat → Prop
  | decimal {digits : List Char} : digits ≠ [] → areDigits 10 digits = true → (digits.length = 1 ∨ digits.head? ≠ some '0') →
      Ipv4Numeral digits (digitsVal 10 digits)
  | octal {digits : List Char} : digits ≠ [] → areDigits 8 digits = true → Ipv4Numeral ('0' :: digits) (digitsVal 8 digits)
  | hexadecimal {marker : Char} {digits : List Char} : marker = 'x' ∨ marker = 'X' → areDigits 16 digits = true →
      Ipv4Numeral ('0' :: marker :: digits) (digitsVal 16 digits)

def Ipv4Spelling (text : List Char) (address : Nat) : Prop :=
  ∃ front last values rest, text.splitOn '.' = front ++ [last] ∧ List.Forall₂ Ipv4Numeral front values ∧
    Ipv4Numeral last rest ∧ front.length ≤ 3 ∧ (∀ value ∈ values, value ≤ 255) ∧ rest < 256 ^ (4 - front.length) ∧
    address = rest + values.foldl (fun value number => 256 * value + number) 0 * 256 ^ (4 - front.length)

theorem ipv4Radix_plain (plain : text.length = 1 ∨ text.head? ≠ some '0') : ipv4Radix text = (10, text) := by
  unfold ipv4Radix
  split
  · simp at plain
  · rfl

theorem ipv4Number_eq_some : ipv4Number text = some value ↔ Ipv4Numeral text value := by
  have fits : ipv4Number text = some value ↔ text ≠ [] ∧ areDigits (ipv4Radix text).1 (ipv4Radix text).2 = true ∧
        value = digitsVal (ipv4Radix text).1 (ipv4Radix text).2 := by
    simp only [ipv4Number, ite_none_right_eq_some, some.injEq, @eq_comm _ value, and_assoc]
  rw [fits]
  constructor
  · rintro ⟨some_, inRadix, rfl⟩
    by_cases plain : text.length = 1 ∨ text.head? ≠ some '0'
    · rw [ipv4Radix_plain plain] at inRadix ⊢
      exact .decimal some_ inRadix plain
    · obtain ⟨long, isZero⟩ := not_or.mp plain
      rw [not_not] at isZero
      obtain ⟨rest, rfl⟩ := head?_eq_some_iff.mp isZero
      cases rest with
      | nil => exact absurd rfl long
      | cons c digits =>
        by_cases isX : c = 'x' ∨ c = 'X'
        · simp only [ipv4Radix, isX, if_true] at inRadix ⊢
          exact .hexadecimal isX inRadix
        · simp only [ipv4Radix, isX, if_false] at inRadix ⊢
          exact .octal nofun inRadix
  · intro numeral
    cases numeral with
    | decimal some_ inRadix plain =>
      rw [ipv4Radix_plain plain]
      exact ⟨some_, inRadix, rfl⟩
    | @octal digits some_ inRadix =>
      cases digits with
      | nil => exact absurd rfl some_
      | cons c digits =>
        have noX : ¬ (c = 'x' ∨ c = 'X') := by
          rintro (rfl | rfl) <;> exact absurd (areDigits_cons.mp inRadix).1 (by decide)
        simp only [ipv4Radix, noX, if_false]
        exact ⟨nofun, inRadix, trivial⟩
    | hexadecimal isX inRadix =>
      simp only [ipv4Radix, isX, if_true]
      exact ⟨nofun, inRadix, trivial⟩

theorem mapM_eq_some {α β : Type} {f : α → Option β} {items : List α} {results : List β} :
    items.mapM f = some results ↔ List.Forall₂ (fun item result => f item = some result) items results := by
  induction items generalizing results with
  | nil => simp [eq_comm]
  | cons item items ih =>
    rw [mapM_cons]
    constructor
    · intro mapped
      obtain ⟨first, here, mapped⟩ := bind_eq_some_iff.mp mapped
      obtain ⟨rest, later, whole⟩ := bind_eq_some_iff.mp mapped
      cases whole
      exact .cons here (ih.mp later)
    · intro all
      cases all with
      | cons here later => simp [here, ih.mpr later]

theorem isSome_of_mapM {α β : Type} {f : α → Option β} {items : List α} {results : List β}
    (mapped : items.mapM f = some results) : ∀ item ∈ items, (f item).isSome = true := by
  have all := mapM_eq_some.mp mapped
  clear mapped
  induction all with
  | nil => exact nofun
  | cons here _ ih =>
    intro item mem
    rcases mem_cons.mp mem with rfl | later
    · rw [here]
      rfl
    · exact ih item later

theorem numerals_eq_some : parts.mapM ipv4Number = some values ↔ List.Forall₂ Ipv4Numeral parts values := by
  simp only [mapM_eq_some, ipv4Number_eq_some]

theorem ipv4Address_append {rest : Nat} : ipv4Address (values ++ [rest]) = some address ↔
    values.length ≤ 3 ∧ (∀ value ∈ values, value ≤ 255) ∧ rest < 256 ^ (4 - values.length) ∧
      address = rest + values.foldl (fun value number => 256 * value + number) 0 * 256 ^ (4 - values.length) := by
  simp only [ipv4Address, getLast?_concat, bind_some, dropLast_concat, ite_none_right_eq_some,
    some.injEq, @eq_comm _ address, and_assoc]

theorem ipv4Parts_undotted (undotted : (text.splitOn '.').getLast? ≠ some []) : ipv4Parts text = text.splitOn '.' := by
  simp [ipv4Parts, undotted]

theorem ipv4_iff_spelling (undotted : (text.splitOn '.').getLast? ≠ some []) :
    (endsInNumber text = true ∧ ipv4Parse text = some address) ↔ Ipv4Spelling text address := by
  rw [endsInNumber, ipv4Parse, ipv4Parts_undotted undotted]
  constructor
  · rintro ⟨-, read⟩
    split at read
    · obtain ⟨numbers, numerals, isAddress⟩ := bind_eq_some_iff.mp read
      have all := numerals_eq_some.mp numerals
      rcases eq_nil_or_concat numbers with rfl | ⟨values, rest, rfl⟩
      · cases isAddress
      · rw [concat_eq_append] at all isAddress
        have inFront := forall₂_take_append _ _ _ all
        obtain ⟨last, none_, isLast, empty, rest_⟩ := forall₂_cons_right_iff.mp (forall₂_drop_append _ _ _ all)
        obtain rfl := forall₂_nil_right_iff.mp empty
        have length : ((text.splitOn '.').take values.length).length = values.length := inFront.length_eq
        obtain ⟨count, small, below, same⟩ := ipv4Address_append.mp isAddress
        refine ⟨_, last, values, rest, ?_, inFront, isLast, ?_, small, ?_, ?_⟩
        · rw [← rest_, take_append_drop]
        · rwa [length]
        · rwa [length]
        · rwa [length]
    · cases read
  · rintro ⟨front, last, values, rest, whole, numerals, isLast, count, small, below, rfl⟩
    have length := numerals.length_eq
    have all : List.Forall₂ Ipv4Numeral (front ++ [last]) (values ++ [rest]) := rel_append numerals (.cons isLast .nil)
    have isAddress := (@ipv4Address_append _ values rest).mpr ⟨length ▸ count, small, length ▸ below, rfl⟩
    rw [whole, numerals_eq_some.mpr all]
    have four : (front ++ [last]).length ≤ 4 := by
      rw [length_append, length_singleton]
      omega
    refine ⟨?_, ?_⟩
    · simp [ipv4Number_eq_some.mpr isLast]
    · rw [if_pos four, length]
      exact isAddress

theorem octet_numeral (octet : readOctet text = some value) : Ipv4Numeral text value := by
  obtain ⟨some_, -, decimal, plain, rfl, -⟩ := readOctet_eq_some.mp octet
  exact .decimal some_ decimal (plain.imp_left fun isZero => by rw [isZero]; rfl)

theorem readIpv4_spelling (quad : readIpv4 text = some address) : Ipv4Spelling text address := by
  obtain ⟨a, b, c, d, va, vb, vc, vd, rfl, octetA, octetB, octetC, octetD, rfl⟩ := readIpv4_eq_some.mp quad
  have small : ∀ {text : List Char} {value : Nat}, readOctet text = some value → value ≤ 255 := fun octet =>
    (readOctet_eq_some.mp octet).2.2.2.2.2
  have plain : ∀ {text : List Char} {value : Nat}, readOctet text = some value → '.' ∉ text := by
    intro text value octet mem
    have decimal := (readOctet_eq_some.mp octet).2.2.1
    exact absurd (of_decide_eq_true (List.all_eq_true.mp decimal _ mem)) (by decide)
  refine ⟨[a, b, c], d, [va, vb, vc], vd, ?_, ?_, octet_numeral octetD, Nat.le_refl 3, ?_, ?_, ?_⟩
  · rw [splitOn_append_cons_self_of_not_mem (plain octetA), splitOn_append_cons_self_of_not_mem (plain octetB),
      splitOn_append_cons_self_of_not_mem (plain octetC), splitOn_eq_singleton (plain octetD)]
    rfl
  · exact .cons (octet_numeral octetA) (.cons (octet_numeral octetB) (.cons (octet_numeral octetC) .nil))
  · simpa using ⟨small octetA, small octetB, small octetC⟩
  · exact Nat.lt_succ_of_le (small octetD)
  · simp
    omega

end Spellings

variable {text : List Char} {c d : Char}

theorem toNat_toLower : c.toLower.toNat = if 65 ≤ c.toNat ∧ c.toNat ≤ 90 then c.toNat + 32 else c.toNat := by
  have range : (c.val ≥ 'A'.val ∧ c.val ≤ 'Z'.val) ↔ (65 ≤ c.toNat ∧ c.toNat ≤ 90) := Iff.rfl
  unfold Char.toLower
  split
  · rename_i upper
    have small := (range.mp upper).2
    rw [if_pos (range.mp upper)]
    change (c.val + 32).toNat = c.toNat + 32
    rw [UInt32.toNat_add]
    change (c.toNat + 32) % 2 ^ 32 = _
    omega
  · rename_i other
    rw [if_neg (fun upper => other (range.mpr upper))]

theorem digitVal_toLower : digitVal c.toLower = digitVal c := by
  rw [digitVal_eq, digitVal_eq, toNat_toLower]
  split_ifs <;> omega

theorem toLower_eq_iff (plain : d.toNat < 65) : c.toLower = d ↔ c = d := by
  rw [← Char.toNat_inj, ← Char.toNat_inj, toNat_toLower]
  split_ifs <;> omega

theorem toLower_isX : (c.toLower = 'x' ∨ c.toLower = 'X') ↔ (c = 'x' ∨ c = 'X') := by
  have x : 'x'.toNat = 120 := rfl
  have bigX : 'X'.toNat = 88 := rfl
  simp only [← Char.toNat_inj, toNat_toLower, x, bigX]
  split_ifs <;> omega

theorem areDigits_toLower {radix : Nat} : areDigits radix (text.map Char.toLower) = areDigits radix text := by
  simp [areDigits, comp_def, digitVal_toLower]

theorem digitsVal_toLower {radix : Nat} : digitsVal radix (text.map Char.toLower) = digitsVal radix text := by
  simp [digitsVal, foldl_map, digitVal_toLower]

theorem splitOn_toLower (plain : d.toNat < 65) :
    (text.map Char.toLower).splitOn d = (text.splitOn d).map (·.map Char.toLower) := by
  induction text with
  | nil => rfl
  | cons c text ih =>
    rw [map_cons, splitOn_cons_eq_if_modifyHead, splitOn_cons_eq_if_modifyHead, ih]
    by_cases isSep : c = d
    · simp [isSep, (toLower_eq_iff plain).mpr rfl]
    · have apart : ¬ c.toLower = d := fun same => isSep ((toLower_eq_iff plain).mp same)
      simp only [beq_iff_eq, isSep, apart, if_false]
      cases text.splitOn d <;> rfl

theorem ipv4Radix_toLower :
    ipv4Radix (text.map Char.toLower) = ((ipv4Radix text).1, (ipv4Radix text).2.map Char.toLower) := by
  have zero : ∀ c : Char, c.toLower = '0' ↔ c = '0' := fun c => toLower_eq_iff (by decide)
  match text with
  | [] => rfl
  | [c] =>
    rw [map_singleton, ipv4Radix_plain (.inl rfl), ipv4Radix_plain (.inl rfl)]
    rfl
  | first :: c :: digits =>
    by_cases isZero : first = '0'
    · subst isZero
      by_cases isX : c = 'x' ∨ c = 'X'
      · simp [ipv4Radix, (zero '0').mpr rfl, isX, toLower_isX]
      · simp [ipv4Radix, (zero '0').mpr rfl, isX, toLower_isX]
    · have apart := fun same => isZero ((zero first).mp same)
      rw [ipv4Radix_plain (.inr (by simpa using apart)), ipv4Radix_plain (.inr (by simpa using isZero))]

theorem ipv4Number_toLower : ipv4Number (text.map Char.toLower) = ipv4Number text := by
  simp [ipv4Number, ipv4Radix_toLower, areDigits_toLower, digitsVal_toLower]

/-- Hosts read the same in upper and in lower case. -/
theorem ipv4_toLower : endsInNumber (text.map Char.toLower) = endsInNumber text ∧
    ipv4Parse (text.map Char.toLower) = ipv4Parse text := by
  have parts : ipv4Parts (text.map Char.toLower) = (ipv4Parts text).map (·.map Char.toLower) := by
    have dotted : ((text.splitOn '.').getLast?.map (·.map Char.toLower) = some []) ↔
        (text.splitOn '.').getLast? = some [] := by
      cases (text.splitOn '.').getLast? <;> simp
    simp only [ipv4Parts, @splitOn_toLower text '.' (by decide), getLast?_map, length_map, dotted]
    split
    · rw [map_dropLast]
    · rfl
  constructor
  · rw [endsInNumber, endsInNumber, parts, getLast?_map]
    cases (ipv4Parts text).getLast? with
    | none => rfl
    | some last => simp [areDigits_toLower, ipv4Number_toLower]
  · rw [ipv4Parse, ipv4Parse, parts, length_map, mapM_map]
    simp only [comp_def, ipv4Number_toLower]

end Prismoire.Lib
