import Prismoire.Lib.Text
import Prismoire.Lib.UrlHost

namespace Prismoire

open Lib List Option

structure InstanceDomain where
  host : List Char
  port : Option Nat
  deriving DecidableEq

inductive DomainValidationError where
  | empty
  | tooLong
  | invalidCharacter
  | invalidHost
  | invalidPort
  deriving DecidableEq

/-- `str::len`. -/
def utf8Len (text : List Char) : Nat :=
  (text.map Char.utf8Size).sum

def isAsciiWhitespace (c : Char) : Bool :=
  [' ', '\t', '\n', '\x0c', '\r'].contains c

def domainChar (c : Char) : Bool :=
  c.isAlphanum || ['-', '.', ':', '[', ']'].contains c

def parsePort (text : List Char) : Except DomainValidationError Nat :=
  match readU16 text with
  | none => .error .invalidPort
  | some port => if port = 0 then .error .invalidPort else .ok port

def validLabel (label : List Char) : Bool :=
  !(label.isEmpty || 63 < utf8Len label) && !(label.head? = some '-' || label.getLast? = some '-') &&
    label.all fun c => c.isAlphanum || c = '-'

def validateLdhHostname (host : List Char) : Bool :=
  !(253 < utf8Len host || host.head? = some '.' || host.getLast? = some '.') && (host.splitOn '.').all validLabel

def parseBracketed (rest : List Char) : Except DomainValidationError InstanceDomain :=
  match splitOnce ']' rest with
  | none => .error .invalidHost
  | some (host, after) =>
    if (readIpv6 host).isNone then
      .error .invalidHost
    else
      match after with
      | [] => .ok ⟨host, none⟩
      | ':' :: port => (parsePort port).map fun port => ⟨host, some port⟩
      | _ => .error .invalidPort

def parseHost (host : List Char) (port : Option Nat) : Except DomainValidationError InstanceDomain :=
  if host = [] then .error .invalidHost
  else if (readIpv4 host).isSome then .ok ⟨host, port⟩
  else if validateLdhHostname host then .ok ⟨host, port⟩
  else .error .invalidHost

def parseInstanceDomain (s : List Char) : Except DomainValidationError InstanceDomain :=
  if s = [] then .error .empty
  else if s.all isAsciiWhitespace then .error .empty
  else if 253 + 6 < utf8Len s then .error .tooLong
  else if !s.all domainChar then .error .invalidCharacter
  else
    match stripPrefix ['['] s with
    | some rest => parseBracketed rest
    | none =>
      match rsplitOnce ':' s with
      | some (host, port) => (parsePort port).bind fun port => parseHost host (some port)
      | none => parseHost s none

def octets (address : Nat) : Nat × Nat × Nat × Nat :=
  (address / 2 ^ 24, address / 2 ^ 16 % 256, address / 2 ^ 8 % 256, address % 256)

def isBlockedV4 (address : Nat) : Bool :=
  let (a, b, c, d) := octets address
  a = 127 || (a = 10 || (a = 172 && 16 ≤ b && b ≤ 31) || (a = 192 && b = 168)) || (a = 169 && b = 254) ||
    (a = 255 && b = 255 && c = 255 && d = 255) ||
    (224 ≤ a && a ≤ 239) ||
    (a = 0 && b = 0 && c = 0 && d = 0) ||
    (a = 100 && b &&& 0xc0 = 64)

def toIpv4 : List Nat → Option Nat
  | [0, 0, 0, 0, 0, x, high, low] => if x = 0 ∨ x = 0xffff then some (65536 * high + low) else none
  | _ => none

def isBlockedV6 (segments : List Nat) : Bool :=
  let seg := segments.headD 0
  if segments = [0, 0, 0, 0, 0, 0, 0, 1] || seg &&& 0xff00 = 0xff00 || segments = [0, 0, 0, 0, 0, 0, 0, 0] then true
  else if seg &&& 0xffc0 = 0xfe80 then true
  else if seg &&& 0xfe00 = 0xfc00 then true
  else (toIpv4 segments).any isBlockedV4

def isBlockedIpLiteral (host : List Char) : Bool :=
  match readIpv4 host with
  | some address => isBlockedV4 address
  | none => (readIpv6 host).any isBlockedV6

section Grammar

/-- Nothing, or a decimal number from 1 to 65535 behind a colon. -/
inductive PortForm : List Char → Option Nat → Prop
  | absent : PortForm [] none
  | port {digits : List Char} : digits ≠ [] → areDigits 10 digits = true → 1 ≤ digitsVal 10 digits →
      digitsVal 10 digits ≤ 65535 → PortForm (':' :: digits) (some (digitsVal 10 digits))

structure LdhLabel (label : List Char) : Prop where
  nonempty : label ≠ []
  short : label.length ≤ 63
  first : label.head? ≠ some '-'
  last : label.getLast? ≠ some '-'
  chars : ∀ c ∈ label, c.isAlphanum = true ∨ c = '-'

structure LdhHostname (host : List Char) : Prop where
  short : host.length ≤ 253
  labels : ∀ label ∈ host.splitOn '.', LdhLabel label

inductive DomainGrammar : List Char → InstanceDomain → Prop
  | ipv4 {host rest : List Char} {port : Option Nat} : (readIpv4 host).isSome = true → PortForm rest port →
      DomainGrammar (host ++ rest) ⟨host, port⟩
  | ipv6 {host rest : List Char} {port : Option Nat} : (readIpv6 host).isSome = true → PortForm rest port →
      DomainGrammar ('[' :: (host ++ ']' :: rest)) ⟨host, port⟩
  | hostname {host rest : List Char} {port : Option Nat} : LdhHostname host → PortForm rest port →
      DomainGrammar (host ++ rest) ⟨host, port⟩

variable {host rest label text : List Char} {port : Option Nat} {c : Char}

theorem utf8Len_ascii (ascii : ∀ c ∈ text, c.toNat < 128) : utf8Len text = text.length := by
  have ones : text.map Char.utf8Size = text.map fun _ => 1 := by
    refine map_congr_left fun c mem => ?_
    rw [Char.utf8Size_eq_one_iff]
    exact Nat.le_of_lt_succ (ascii c mem)
  rw [utf8Len, ones, map_const', sum_replicate_nat, Nat.mul_one]

theorem isAlphanum_iff : c.isAlphanum = true ↔
    (48 ≤ c.toNat ∧ c.toNat ≤ 57) ∨ (65 ≤ c.toNat ∧ c.toNat ≤ 90) ∨ (97 ≤ c.toNat ∧ c.toNat ≤ 122) := by
  simp only [show c.isAlphanum = (c.isUpper || c.isLower || c.isDigit) from rfl, Bool.or_eq_true, isDigit_iff, isLower_iff, isUpper_iff]
  tauto

theorem hex_isAlphanum (hex : digitVal c < 16) : c.isAlphanum = true := by
  rw [isAlphanum_iff]
  rw [digitVal_eq] at hex
  split_ifs at hex <;> omega

theorem domainChar_iff : domainChar c = true ↔ c.isAlphanum = true ∨ c = '-' ∨ c = '.' ∨ c = ':' ∨ c = '[' ∨ c = ']' := by
  simp [domainChar]

theorem domainChar_ascii (allowed : domainChar c = true) : c.toNat < 128 := by
  rcases domainChar_iff.mp allowed with alphanum | rfl | rfl | rfl | rfl | rfl
  · rw [isAlphanum_iff] at alphanum
    omega
  all_goals decide

theorem domainChar_visible (allowed : domainChar c = true) : isAsciiWhitespace c = false := by
  rcases domainChar_iff.mp allowed with alphanum | rfl | rfl | rfl | rfl | rfl
  · rw [isAlphanum_iff] at alphanum
    by_contra white
    have mem := contains_iff_mem.mp ((Bool.not_eq_false _).mp white)
    simp only [mem_cons, not_mem_nil, or_false] at mem
    rcases mem with rfl | rfl | rfl | rfl | rfl <;> revert alphanum <;> decide
  all_goals decide

theorem mem_splitOn {sep : Char} (mem : c ∈ text) : c = sep ∨ ∃ part ∈ text.splitOn sep, c ∈ part := by
  induction text with
  | nil => cases mem
  | cons first text ih =>
    rw [splitOn_cons_eq_if_modifyHead]
    by_cases isSep : first = sep
    · rcases mem_cons.mp mem with rfl | later
      · exact .inl isSep
      · exact (ih later).imp_right fun ⟨part, inParts, inPart⟩ => ⟨part, by simp [isSep, inParts], inPart⟩
    · cases split : text.splitOn sep with
      | nil => exact absurd split (splitOn_ne_nil _ _)
      | cons head parts =>
        simp only [beq_iff_eq, isSep, if_false, modifyHead_cons]
        rcases mem_cons.mp mem with rfl | later
        · exact .inr ⟨_, mem_cons_self, mem_cons_self⟩
        · refine (ih later).imp_right fun ⟨part, inParts, inPart⟩ => ?_
          rw [split] at inParts
          rcases mem_cons.mp inParts with rfl | inRest
          · exact ⟨_, mem_cons_self, mem_cons_of_mem _ inPart⟩
          · exact ⟨part, mem_cons_of_mem _ inRest, inPart⟩

theorem LdhHostname.chars (ldh : LdhHostname host) : ∀ c ∈ host, c.isAlphanum = true ∨ c = '-' ∨ c = '.' := by
  intro c mem
  rcases @mem_splitOn host c '.' mem with isDot | ⟨label, inHost, inLabel⟩
  · exact .inr (.inr isDot)
  · exact ((ldh.labels label inHost).chars c inLabel).imp_right .inl

theorem LdhHostname.nonempty (ldh : LdhHostname host) : host ≠ [] := by
  rintro rfl
  exact (ldh.labels [] (by simp)).nonempty rfl

theorem validLabel_iff (ascii : ∀ c ∈ label, c.toNat < 128) : validLabel label = true ↔ LdhLabel label := by
  have parts : validLabel label = true ↔ label ≠ [] ∧ label.length ≤ 63 ∧ label.head? ≠ some '-' ∧
      label.getLast? ≠ some '-' ∧ ∀ c ∈ label, c.isAlphanum = true ∨ c = '-' := by
    simp [validLabel, utf8Len_ascii ascii, and_assoc]
  rw [parts]
  exact ⟨fun ⟨nonempty, short, first, last, chars⟩ => ⟨nonempty, short, first, last, chars⟩,
    fun ⟨nonempty, short, first, last, chars⟩ => ⟨nonempty, short, first, last, chars⟩⟩

theorem mem_of_splitOn {sep : Char} (inText : label ∈ text.splitOn sep) (mem : c ∈ label) : c ∈ text := by
  rw [← @intercalate_splitOn _ text _ _ sep]
  generalize text.splitOn sep = parts at inText ⊢
  induction parts with
  | nil => cases inText
  | cons first parts ih =>
    cases parts with
    | nil =>
      rw [mem_singleton.mp inText] at mem
      simpa using mem
    | cons next parts =>
      rw [intercalate_cons_cons]
      rcases mem_cons.mp inText with rfl | later
      · simp [mem]
      · exact mem_append_right _ (ih later)

theorem validateLdhHostname_iff (ascii : ∀ c ∈ host, c.toNat < 128) : validateLdhHostname host = true ↔ LdhHostname host := by
  have labels : (host.splitOn '.').all validLabel = true ↔ ∀ label ∈ host.splitOn '.', LdhLabel label := by
    rw [List.all_eq_true]
    exact forall₂_congr fun label inHost => validLabel_iff fun c mem => ascii c (mem_of_splitOn inHost mem)
  have parts : validateLdhHostname host = true ↔ host.length ≤ 253 ∧ host.head? ≠ some '.' ∧ host.getLast? ≠ some '.' ∧
      ∀ label ∈ host.splitOn '.', LdhLabel label := by
    rw [← labels]
    simp [validateLdhHostname, utf8Len_ascii ascii, and_assoc]
  rw [parts]
  refine ⟨fun ⟨short, _, _, labels⟩ => ⟨short, labels⟩, fun ldh => ⟨ldh.short, fun first => ?_, fun last => ?_, ldh.labels⟩⟩
  · obtain ⟨rest, rfl⟩ := head?_eq_some_iff.mp first
    have empty : [] ∈ ('.' :: rest).splitOn '.' := by
      rw [splitOn_cons_eq_if_modifyHead]
      simp
    exact (ldh.labels [] empty).nonempty rfl
  · obtain ⟨front, rfl⟩ := getLast?_eq_some_iff.mp last
    have empty : [] ∈ (front ++ ['.']).splitOn '.' := by
      rw [splitOn_append_cons_self]
      simp
    exact (ldh.labels [] empty).nonempty rfl

theorem readU16_unsigned (unsigned : '+' ∉ text) : readU16 text =
    if text ≠ [] ∧ areDigits 10 text ∧ digitsVal 10 text < 65536 then some (digitsVal 10 text) else none := by
  cases text with
  | nil => rfl
  | cons c rest =>
    have plain : c ≠ '+' := fun same => unsigned (same ▸ mem_cons_self)
    simp [readU16, plain]

theorem parsePort_iff {number : Nat} (unsigned : '+' ∉ text) :
    parsePort text = .ok number ↔ PortForm (':' :: text) (some number) := by
  rw [parsePort, readU16_unsigned unsigned]
  constructor
  · intro parsed
    split at parsed
    · cases parsed
    · rename_i port read
      split at read
      · rename_i fits
        cases read
        split at parsed
        · cases parsed
        · cases parsed
          exact .port fits.1 fits.2.1 (by omega) (Nat.le_of_lt_succ fits.2.2)
      · cases read
  · rintro ⟨⟩
    rename_i nonempty decimal low high
    have fits : text ≠ [] ∧ areDigits 10 text ∧ digitsVal 10 text < 65536 := ⟨nonempty, decimal, by omega⟩
    simp only [if_pos fits, Nat.ne_of_gt low, if_false]

theorem PortForm.chars (form : PortForm rest port) : ∀ c ∈ rest, c = ':' ∨ digitVal c < 10 := by
  cases form with
  | absent => exact nofun
  | port _ decimal =>
    intro c mem
    exact (mem_cons.mp mem).imp_right fun inDigits => of_decide_eq_true (all_eq_true.mp decimal c inDigits)

theorem readIpv4_chars {address : Nat} (quad : readIpv4 host = some address) : ∀ c ∈ host, digitVal c < 10 ∨ c = '.' := by
  obtain ⟨a, b, c, d, _, _, _, _, rfl, octetA, octetB, octetC, octetD, -⟩ := readIpv4_eq_some.mp quad
  have decimal : ∀ {text : List Char} {value : Nat}, readOctet text = some value → ∀ c ∈ text, digitVal c < 10 :=
    fun octet c mem => of_decide_eq_true (all_eq_true.mp (readOctet_eq_some.mp octet).2.2.1 c mem)
  intro x mem
  simp only [mem_append, mem_cons] at mem
  rcases mem with inA | isDot | inB | isDot | inC | isDot | inD
  · exact .inl (decimal octetA x inA)
  · exact .inr isDot
  · exact .inl (decimal octetB x inB)
  · exact .inr isDot
  · exact .inl (decimal octetC x inC)
  · exact .inr isDot
  · exact .inl (decimal octetD x inD)

theorem readLastGroups_chars {groups : List (List Char)} {values : List Nat} (read : readLastGroups groups = some values) :
    ∀ group ∈ groups, ∀ c ∈ group, digitVal c < 16 ∨ c = '.' := by
  have ofGroup : ∀ {group : List Char} {value : Nat}, readGroup group = some value → ∀ c ∈ group, digitVal c < 16 :=
    fun isGroup c mem => of_decide_eq_true (all_eq_true.mp (readGroup_eq_some.mp isGroup).2.2.1 c mem)
  induction groups generalizing values with
  | nil => exact nofun
  | cons group groups ih =>
    cases groups with
    | nil =>
      intro last isLast c mem
      rw [mem_singleton.mp isLast] at mem
      rw [readLastGroups] at read
      split at read
      · rename_i isGroup
        exact .inl (ofGroup isGroup c mem)
      · obtain ⟨address, quad, -⟩ := map_eq_some_iff.mp read
        exact (readIpv4_chars quad c mem).imp_left fun decimal => by omega
    | cons next groups =>
      obtain ⟨value, isGroup, read⟩ := bind_eq_some_iff.mp read
      obtain ⟨rest, later, -⟩ := bind_eq_some_iff.mp read
      intro other inGroups c mem
      rcases mem_cons.mp inGroups with rfl | inRest
      · exact .inl (ofGroup isGroup c mem)
      · exact ih later other inRest c mem

theorem readIpv6_chars {segments : List Nat} (read : readIpv6 host = some segments) :
    ∀ c ∈ host, digitVal c < 16 ∨ c = '.' ∨ c = ':' := by
  have ofGroups : ∀ {text : List Char} {values : List Nat}, readGroups text = some values →
      ∀ c ∈ text, digitVal c < 16 ∨ c = '.' ∨ c = ':' := by
    intro text values read c mem
    unfold readGroups at read
    split at read
    · rename_i empty
      rw [empty] at mem
      cases mem
    · rcases @mem_splitOn text c ':' mem with isSep | ⟨group, inText, inGroup⟩
      · exact .inr (.inr isSep)
      · exact (readLastGroups_chars read group inText c inGroup).imp_right .inl
  unfold readIpv6 at read
  split at read
  · exact ofGroups (filter_eq_some_iff.mp read).1
  · rename_i front back split
    obtain rfl := splitPair_eq_some split
    obtain ⟨head, readHead, read⟩ := bind_eq_some_iff.mp read
    obtain ⟨tail, readTail, -⟩ := bind_eq_some_iff.mp read
    intro c mem
    simp only [mem_append, mem_cons] at mem
    rcases mem with inFront | isColon | isColon | inBack
    · unfold readPlainGroups at readHead
      split at readHead
      · rename_i empty
        rw [empty] at inFront
        cases inFront
      · rcases @mem_splitOn front c ':' inFront with isSep | ⟨group, inText, inGroup⟩
        · exact .inr (.inr isSep)
        · obtain ⟨value, isGroup⟩ := isSome_iff_exists.mp (isSome_of_mapM readHead group inText)
          exact .inl (of_decide_eq_true (all_eq_true.mp (readGroup_eq_some.mp isGroup).2.2.1 c inGroup))
    · exact .inr (.inr isColon)
    · exact .inr (.inr isColon)
    · exact ofGroups readTail c inBack

end Grammar

variable {s host rest : List Char} {port : Option Nat} {domain : InstanceDomain} {c : Char}

theorem plain_allowed (plain : c.isAlphanum = true ∨ c = '-' ∨ c = '.') : domainChar c = true ∧ c ≠ ':' ∧ c ≠ '[' ∧ c ≠ ']' := by
  refine ⟨domainChar_iff.mpr (by tauto), ?_⟩
  refine ⟨?_, ?_, ?_⟩ <;> rintro rfl <;> revert plain <;> decide

theorem PortForm.allowed (form : PortForm rest port) : ∀ c ∈ rest, domainChar c = true := by
  intro c mem
  rcases form.chars c mem with rfl | decimal
  · decide
  · exact domainChar_iff.mpr (.inl (hex_isAlphanum (by omega)))

/-- A host without brackets: a dotted quad or a host name. -/
def PlainHost (host : List Char) : Prop :=
  (readIpv4 host).isSome = true ∨ LdhHostname host

theorem PlainHost.chars (plain : PlainHost host) : ∀ c ∈ host, c.isAlphanum = true ∨ c = '-' ∨ c = '.' := by
  rcases plain with quad | ldh
  · obtain ⟨address, quad⟩ := isSome_iff_exists.mp quad
    intro c mem
    rcases readIpv4_chars quad c mem with decimal | isDot
    · exact .inl (hex_isAlphanum (by omega))
    · exact .inr (.inr isDot)
  · exact ldh.chars

theorem PlainHost.nonempty (plain : PlainHost host) : host ≠ [] := by
  rcases plain with quad | ldh
  · rintro rfl
    cases quad
  · exact ldh.nonempty

theorem parseHost_eq_ok (ascii : ∀ c ∈ host, c.toNat < 128) :
    parseHost host port = .ok domain ↔ PlainHost host ∧ domain = ⟨host, port⟩ := by
  unfold parseHost PlainHost
  by_cases empty : host = []
  · rw [if_pos empty]
    refine ⟨nofun, fun ⟨plain, _⟩ => ?_⟩
    exact absurd empty (PlainHost.nonempty plain)
  · rw [if_neg empty]
    by_cases quad : (readIpv4 host).isSome = true
    · simp [quad, eq_comm]
    · rw [if_neg quad, ← validateLdhHostname_iff ascii]
      by_cases ldh : validateLdhHostname host = true
      · simp [quad, ldh, eq_comm]
      · simp [quad, ldh]

theorem parse_checked (nonempty : s ≠ []) (short : utf8Len s ≤ 253 + 6) (allowed : s.all domainChar = true) :
    parseInstanceDomain s =
      match stripPrefix ['['] s with
      | some rest => parseBracketed rest
      | none =>
        match rsplitOnce ':' s with
        | some (host, port) => (parsePort port).bind fun port => parseHost host (some port)
        | none => parseHost s none := by
  have visible : s.all isAsciiWhitespace = false := by
    cases s with
    | nil => exact absurd rfl nonempty
    | cons c rest =>
      have first := all_eq_true.mp allowed c mem_cons_self
      simp [domainChar_visible first]
  rw [parseInstanceDomain, if_neg nonempty, visible, if_neg (by decide), if_neg (Nat.not_lt.mpr short), allowed]
  rfl

theorem parseBracketed_ok (allowed : ∀ c ∈ rest, domainChar c = true) (parsed : parseBracketed rest = .ok domain) :
    ∃ behind, rest = domain.host ++ ']' :: behind ∧ (readIpv6 domain.host).isSome = true ∧ PortForm behind domain.port := by
  unfold parseBracketed at parsed
  split at parsed
  · cases parsed
  · rename_i host after split
    obtain ⟨rfl, -⟩ := splitOnce_eq_some.mp split
    split at parsed
    · cases parsed
    · rename_i isAddress
      have isAddress : (readIpv6 host).isSome = true := isSome_iff_ne_none.mpr (by simpa using isAddress)
      split at parsed
      · cases parsed
        exact ⟨[], rfl, isAddress, .absent⟩
      · rename_i digits
        have unsigned : '+' ∉ digits := fun sign => absurd (allowed '+' (by simp [sign])) (by decide)
        cases portRead : parsePort digits with
        | error fault =>
          rw [portRead] at parsed
          cases parsed
        | ok number =>
          rw [portRead] at parsed
          cases parsed
          exact ⟨_, rfl, isAddress, (parsePort_iff unsigned).mp portRead⟩
      · cases parsed

theorem parseInstanceDomain_sound (parsed : parseInstanceDomain s = .ok domain) :
    DomainGrammar s domain ∧ utf8Len s ≤ 259 := by
  by_cases nonempty : s = []
  · rw [nonempty] at parsed
    cases parsed
  by_cases long : 253 + 6 < utf8Len s
  · rw [parseInstanceDomain, if_neg nonempty] at parsed
    split at parsed
    · cases parsed
    · cases parsed
  by_cases allowed : s.all domainChar = true
  · rw [parse_checked nonempty (Nat.le_of_not_lt long) allowed] at parsed
    have allowed := all_eq_true.mp allowed
    have ascii : ∀ c ∈ s, c.toNat < 128 := fun c mem => domainChar_ascii (allowed c mem)
    refine ⟨?_, Nat.le_of_not_lt long⟩
    split at parsed
    · rename_i rest bracket
      obtain rfl := stripPrefix_eq_some.mp bracket
      obtain ⟨behind, rfl, isAddress, form⟩ := parseBracketed_ok (fun c mem => allowed c (by simp [mem])) parsed
      exact .ipv6 isAddress form
    · split at parsed
      · rename_i host digits split
        obtain ⟨rfl, -⟩ := rsplitOnce_eq_some.mp split
        have unsigned : '+' ∉ digits := fun sign => absurd (allowed '+' (by simp [sign])) (by decide)
        cases portRead : parsePort digits with
        | error fault =>
          rw [portRead] at parsed
          cases parsed
        | ok number =>
          rw [portRead] at parsed
          have form := (parsePort_iff unsigned).mp portRead
          obtain ⟨plain, rfl⟩ := (parseHost_eq_ok fun c mem => ascii c (mem_append_left _ mem)).mp parsed
          exact plain.elim (fun quad => .ipv4 quad form) fun ldh => .hostname ldh form
      · obtain ⟨plain, rfl⟩ := (parseHost_eq_ok ascii).mp parsed
        have whole : DomainGrammar (s ++ []) ⟨s, none⟩ :=
          plain.elim (fun quad => .ipv4 quad .absent) fun ldh => .hostname ldh .absent
        rwa [append_nil] at whole
  · rw [parseInstanceDomain, if_neg nonempty] at parsed
    split at parsed
    · cases parsed
    · rw [if_pos (by simpa using allowed)] at parsed
      cases parsed

theorem parse_plain (plain : PlainHost host) (form : PortForm rest port) (short : utf8Len (host ++ rest) ≤ 259) :
    parseInstanceDomain (host ++ rest) = .ok ⟨host, port⟩ := by
  have chars := plain.chars
  have nonempty : host ++ rest ≠ [] := fun empty => plain.nonempty (append_eq_nil_iff.mp empty).1
  have allowed : (host ++ rest).all domainChar = true := by
    rw [all_append, Bool.and_eq_true, List.all_eq_true, List.all_eq_true]
    exact ⟨fun c mem => (plain_allowed (chars c mem)).1, form.allowed⟩
  have unbracketed : stripPrefix ['['] (host ++ rest) = none := by
    cases stripped : stripPrefix ['['] (host ++ rest) with
    | none => rfl
    | some behind =>
      have begins := stripPrefix_eq_some.mp stripped
      cases host with
      | nil => exact absurd rfl plain.nonempty
      | cons c host =>
        have isBracket : c = '[' := (cons.inj begins).1
        exact absurd isBracket (plain_allowed (chars c mem_cons_self)).2.2.1
  have ascii : ∀ c ∈ host, c.toNat < 128 := fun c mem => domainChar_ascii (plain_allowed (chars c mem)).1
  have noColon : ':' ∉ host := fun mem => (plain_allowed (chars ':' mem)).2.1 rfl
  rw [parse_checked nonempty short allowed, unbracketed]
  cases form with
  | absent =>
    rw [append_nil, rsplitOnce_eq_none.mpr noColon]
    exact (parseHost_eq_ok ascii).mpr ⟨plain, rfl⟩
  | @port digits some_ decimal low high =>
    have decimals : ∀ c ∈ digits, digitVal c < 10 := fun c mem =>
      of_decide_eq_true (all_eq_true.mp decimal c mem)
    have noColonBehind : ':' ∉ digits := fun mem => absurd (decimals ':' mem) (by decide)
    have unsigned : '+' ∉ digits := fun mem => absurd (decimals '+' mem) (by decide)
    rw [rsplitOnce_eq_some.mpr ⟨rfl, noColonBehind⟩]
    dsimp only
    rw [(parsePort_iff unsigned).mpr (.port some_ decimal low high)]
    exact (parseHost_eq_ok ascii).mpr ⟨plain, rfl⟩

theorem parse_bracketed (isAddress : (readIpv6 host).isSome = true) (form : PortForm rest port)
    (short : utf8Len ('[' :: (host ++ ']' :: rest)) ≤ 259) :
    parseInstanceDomain ('[' :: (host ++ ']' :: rest)) = .ok ⟨host, port⟩ := by
  obtain ⟨segments, read⟩ := isSome_iff_exists.mp isAddress
  have chars := readIpv6_chars read
  have inHost : ∀ c ∈ host, domainChar c = true ∧ c ≠ ']' := by
    intro c mem
    rcases chars c mem with hex | rfl | rfl
    · exact ⟨(plain_allowed (.inl (hex_isAlphanum hex))).1, (plain_allowed (.inl (hex_isAlphanum hex))).2.2.2⟩
    · decide
    · decide
  have allowed : ('[' :: (host ++ ']' :: rest)).all domainChar = true := by
    rw [List.all_eq_true]
    intro c mem
    simp only [mem_cons, mem_append] at mem
    rcases mem with rfl | early | rfl | late
    · decide
    · exact (inHost c early).1
    · decide
    · exact form.allowed c late
  have split : splitOnce ']' (host ++ ']' :: rest) = some (host, rest) :=
    splitOnce_eq_some.mpr ⟨rfl, fun mem => (inHost ']' mem).2 rfl⟩
  have bracket : stripPrefix ['['] ('[' :: (host ++ ']' :: rest)) = some (host ++ ']' :: rest) :=
    stripPrefix_eq_some.mpr rfl
  rw [parse_checked (cons_ne_nil _ _) short allowed, bracket]
  dsimp only
  rw [parseBracketed, split]
  dsimp only
  rw [if_neg (by simp [read])]
  cases form with
  | absent => rfl
  | @port digits some_ decimal low high =>
    have unsigned : '+' ∉ digits := fun mem =>
      absurd (of_decide_eq_true (all_eq_true.mp decimal '+' mem)) (by decide)
    have number := (parsePort_iff unsigned).mpr (.port some_ decimal low high)
    simp only [number, Except.map]

theorem parseInstanceDomain_iff : parseInstanceDomain s = .ok domain ↔ DomainGrammar s domain ∧ utf8Len s ≤ 259 := by
  refine ⟨parseInstanceDomain_sound, fun ⟨grammar, short⟩ => ?_⟩
  cases grammar with
  | ipv4 quad form => exact parse_plain (.inl quad) form short
  | ipv6 isAddress form => exact parse_bracketed isAddress form short
  | hostname ldh form => exact parse_plain (.inr ldh) form short

end Prismoire
