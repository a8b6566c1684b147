import Mathlib.Data.List.Induction
import Mathlib.Tactic.Ring
import Prismoire.InstanceDomains

namespace Prismoire

open Lib List

def InNetwork (width address network length : Nat) : Prop :=
  address / 2 ^ (width - length) = network / 2 ^ (width - length)

def quad (a b c d : Nat) : Nat :=
  ((256 * a + b) * 256 + c) * 256 + d

/-- Loopback, private, link-local, broadcast, multicast and unspecified addresses, and those of carrier-grade NAT. -/
def blockedNetworks : List (Nat × Nat) :=
  [(quad 127 0 0 0, 8), (quad 10 0 0 0, 8), (quad 172 16 0 0, 12), (quad 192 168 0 0, 16), (quad 169 254 0 0, 16),
    (quad 255 255 255 255, 32), (quad 224 0 0 0, 4), (quad 0 0 0 0, 32), (quad 100 64 0 0, 10)]

def BlockedV4 (address : Nat) : Prop :=
  ∃ network ∈ blockedNetworks, InNetwork 32 address network.1 network.2

/-- Loopback, unspecified, multicast, link-local and unique local addresses, and those that an IPv4 address of a blocked
network is mapped to or compatible with. -/
inductive BlockedV6 : List Nat → Prop
  | loopback : BlockedV6 [0, 0, 0, 0, 0, 0, 0, 1]
  | unspecified : BlockedV6 [0, 0, 0, 0, 0, 0, 0, 0]
  | multicast {seg : Nat} {rest : List Nat} : InNetwork 16 seg 0xff00 8 → BlockedV6 (seg :: rest)
  | linkLocal {seg : Nat} {rest : List Nat} : InNetwork 16 seg 0xfe80 10 → BlockedV6 (seg :: rest)
  | uniqueLocal {seg : Nat} {rest : List Nat} : InNetwork 16 seg 0xfc00 7 → BlockedV6 (seg :: rest)
  | embedded {x high low : Nat} : x = 0 ∨ x = 0xffff → BlockedV4 (65536 * high + low) →
      BlockedV6 [0, 0, 0, 0, 0, x, high, low]

def BlockedHost : UrlHost → Prop
  | .domain _ => False
  | .ipv4 address => BlockedV4 address
  | .ipv6 segments => BlockedV6 segments

theorem and_high {x k w : Nat} (small : x < 2 ^ (w + k)) : x &&& (2 ^ w - 1) * 2 ^ k = x / 2 ^ k * 2 ^ k := by
  rw [← Nat.shiftLeft_eq, ← Nat.shiftRight_eq_div_pow, ← Nat.shiftLeft_eq]
  refine Nat.eq_of_testBit_eq fun i => ?_
  rw [Nat.testBit_and, Nat.testBit_shiftLeft, Nat.testBit_shiftLeft, Nat.testBit_two_pow_sub_one, Nat.testBit_shiftRight]
  by_cases low : k ≤ i
  · rw [show k + (i - k) = i by omega]
    by_cases high : i - k < w
    · simp [low, high]
    · have zero : x.testBit i = false :=
        Nat.testBit_lt_two_pow (lt_of_lt_of_le small (Nat.pow_le_pow_right (by decide) (by omega)))
      simp [zero]
  · simp [low]

theorem and_eq_iff {x k w network : Nat} (small : x < 2 ^ (w + k)) :
    x &&& (2 ^ w - 1) * 2 ^ k = network * 2 ^ k ↔ x / 2 ^ k = network := by
  rw [and_high small]
  exact Nat.mul_left_inj (Nat.two_pow_pos k).ne'

section Quads

variable {a b c d n m : Nat} (hc : c < 256) (hd : d < 256)

include hc hd

theorem inNetwork_10 : InNetwork 32 (quad a b c d) (quad n m 0 0) 10 ↔ 4 * a + b / 64 = 4 * n + m / 64 := by
  have left : quad a b c d / 4194304 = 4 * a + b / 64 := by unfold quad; omega
  have right : quad n m 0 0 / 4194304 = 4 * n + m / 64 := by unfold quad; omega
  rw [← left, ← right]
  rfl

theorem inNetwork_12 : InNetwork 32 (quad a b c d) (quad n m 0 0) 12 ↔ 16 * a + b / 16 = 16 * n + m / 16 := by
  have left : quad a b c d / 1048576 = 16 * a + b / 16 := by unfold quad; omega
  have right : quad n m 0 0 / 1048576 = 16 * n + m / 16 := by unfold quad; omega
  rw [← left, ← right]
  rfl

theorem inNetwork_16 : InNetwork 32 (quad a b c d) (quad n m 0 0) 16 ↔ 256 * a + b = 256 * n + m := by
  have left : quad a b c d / 65536 = 256 * a + b := by unfold quad; omega
  have right : quad n m 0 0 / 65536 = 256 * n + m := by unfold quad; omega
  rw [← left, ← right]
  rfl

variable (hb : b < 256)

include hb

theorem inNetwork_4 : InNetwork 32 (quad a b c d) (quad n 0 0 0) 4 ↔ a / 16 = n / 16 := by
  have left : quad a b c d / 268435456 = a / 16 := by unfold quad; omega
  have right : quad n 0 0 0 / 268435456 = n / 16 := by unfold quad; omega
  rw [← left, ← right]
  rfl

theorem inNetwork_8 : InNetwork 32 (quad a b c d) (quad n 0 0 0) 8 ↔ a = n := by
  have left : quad a b c d / 16777216 = a := by unfold quad; omega
  have right : quad n 0 0 0 / 16777216 = n := by unfold quad; omega
  conv_rhs => rw [← left, ← right]
  rfl

theorem octets_quad : octets (quad a b c d) = (a, b, c, d) := by
  have octetA : quad a b c d / 16777216 = a := by unfold quad; omega
  have octetB : quad a b c d / 65536 % 256 = b := by unfold quad; omega
  have octetC : quad a b c d / 256 % 256 = c := by unfold quad; omega
  have octetD : quad a b c d % 256 = d := by unfold quad; omega
  exact Prod.ext octetA (Prod.ext octetB (Prod.ext octetC octetD))

end Quads

theorem inNetwork_32 {address network : Nat} : InNetwork 32 address network 32 ↔ address = network := by
  simp [InNetwork]

theorem isBlockedV4_iff {address : Nat} (small : address < 2 ^ 32) : isBlockedV4 address = true ↔ BlockedV4 address := by
  obtain ⟨a, b, c, d, hb, hc, hd, rfl⟩ : ∃ a b c d, b < 256 ∧ c < 256 ∧ d < 256 ∧ address = quad a b c d :=
    ⟨address / 16777216, address / 65536 % 256, address / 256 % 256, address % 256, by omega, by omega, by omega,
      by unfold quad; omega⟩
  have shared : (b &&& 192 = 64) ↔ b / 64 = 1 := @and_eq_iff b 6 2 1 hb
  have blocked : isBlockedV4 (quad a b c d) = true ↔ a = 127 ∨ (a = 10 ∨ (a = 172 ∧ 16 ≤ b ∧ b ≤ 31) ∨ (a = 192 ∧ b = 168)) ∨
      (a = 169 ∧ b = 254) ∨ (a = 255 ∧ b = 255 ∧ c = 255 ∧ d = 255) ∨ (224 ≤ a ∧ a ≤ 239) ∨
      (a = 0 ∧ b = 0 ∧ c = 0 ∧ d = 0) ∨ (a = 100 ∧ b / 64 = 1) := by
    simp [isBlockedV4, octets_quad hc hd hb, shared, or_assoc, and_assoc]
  rw [blocked]
  simp only [BlockedV4, blockedNetworks, mem_cons, not_mem_nil, or_false, exists_eq_or_imp, exists_eq_left,
    inNetwork_4 hc hd hb, inNetwork_8 hc hd hb, inNetwork_10 hc hd, inNetwork_12 hc hd, inNetwork_16 hc hd,
    inNetwork_32]
  unfold quad
  omega

theorem toIpv4_eq_some {segments : List Nat} {address : Nat} : toIpv4 segments = some address ↔
    ∃ x high low, segments = [0, 0, 0, 0, 0, x, high, low] ∧ (x = 0 ∨ x = 0xffff) ∧ address = 65536 * high + low := by
  constructor
  · intro embedded
    unfold toIpv4 at embedded
    split at embedded
    · rename_i x high low
      split at embedded
      · rename_i isEmbedded
        cases embedded
        exact ⟨x, high, low, rfl, isEmbedded, rfl⟩
      · cases embedded
    · cases embedded
  · rintro ⟨x, high, low, rfl, isEmbedded, rfl⟩
    exact if_pos isEmbedded

theorem isBlockedV6_iff {seg : Nat} {rest : List Nat} (small : ∀ segment ∈ seg :: rest, segment < 2 ^ 16) :
    isBlockedV6 (seg :: rest) = true ↔ BlockedV6 (seg :: rest) := by
  have first : seg < 2 ^ 16 := small seg mem_cons_self
  have multicast : (seg &&& 0xff00 = 0xff00) ↔ InNetwork 16 seg 0xff00 8 := @and_eq_iff seg 8 8 0xff first
  have linkLocal : (seg &&& 0xffc0 = 0xfe80) ↔ InNetwork 16 seg 0xfe80 10 := @and_eq_iff seg 6 10 0x3fa first
  have uniqueLocal : (seg &&& 0xfe00 = 0xfc00) ↔ InNetwork 16 seg 0xfc00 7 := @and_eq_iff seg 9 7 0x7e first
  have cases_ : isBlockedV6 (seg :: rest) = true ↔ ((seg :: rest = [0, 0, 0, 0, 0, 0, 0, 1] ∨ InNetwork 16 seg 0xff00 8) ∨
      seg :: rest = [0, 0, 0, 0, 0, 0, 0, 0]) ∨ InNetwork 16 seg 0xfe80 10 ∨ InNetwork 16 seg 0xfc00 7 ∨
      ∃ address, toIpv4 (seg :: rest) = some address ∧ isBlockedV4 address = true := by
    rw [← multicast, ← linkLocal, ← uniqueLocal, ← Option.any_eq_true]
    have early : ((decide (seg :: rest = [0, 0, 0, 0, 0, 0, 0, 1]) || decide (seg &&& 0xff00 = 0xff00) ||
        decide (seg :: rest = [0, 0, 0, 0, 0, 0, 0, 0])) = true) ↔
        (seg :: rest = [0, 0, 0, 0, 0, 0, 0, 1] ∨ seg &&& 0xff00 = 0xff00) ∨ seg :: rest = [0, 0, 0, 0, 0, 0, 0, 0] := by
      rw [Bool.or_eq_true, Bool.or_eq_true, decide_eq_true_iff, decide_eq_true_iff, decide_eq_true_iff]
    have unfolded : isBlockedV6 (seg :: rest) =
        if seg :: rest = [0, 0, 0, 0, 0, 0, 0, 1] || seg &&& 0xff00 = 0xff00 || seg :: rest = [0, 0, 0, 0, 0, 0, 0, 0] then true
        else if seg &&& 0xffc0 = 0xfe80 then true
        else if seg &&& 0xfe00 = 0xfc00 then true
        else (toIpv4 (seg :: rest)).any isBlockedV4 := rfl
    rw [← early, unfolded]
    by_cases isEarly : (decide (seg :: rest = [0, 0, 0, 0, 0, 0, 0, 1]) || decide (seg &&& 0xff00 = 0xff00) ||
        decide (seg :: rest = [0, 0, 0, 0, 0, 0, 0, 0])) = true
    · rw [if_pos isEarly]
      exact iff_of_true rfl (.inl isEarly)
    · rw [if_neg isEarly]
      by_cases link : seg &&& 0xffc0 = 0xfe80
      · rw [if_pos link]
        exact iff_of_true rfl (.inr (.inl link))
      · rw [if_neg link]
        by_cases unique : seg &&& 0xfe00 = 0xfc00
        · rw [if_pos unique]
          exact iff_of_true rfl (.inr (.inr (.inl unique)))
        · rw [if_neg unique]
          exact ⟨fun embedded => .inr (.inr (.inr embedded)), fun all =>
            ((all.resolve_left isEarly).resolve_left link).resolve_left unique⟩
  have small4 : ∀ {x high low}, seg :: rest = [0, 0, 0, 0, 0, x, high, low] → 65536 * high + low < 2 ^ 32 := by
    intro x high low same
    have smallHigh := small high (by simp [same])
    have smallLow := small low (by simp [same])
    omega
  rw [cases_]
  constructor
  · rintro (((same | inNetwork) | same) | inNetwork | inNetwork | ⟨address, isEmbedded, isBlocked⟩)
    · exact same ▸ .loopback
    · exact .multicast inNetwork
    · exact same ▸ .unspecified
    · exact .linkLocal inNetwork
    · exact .uniqueLocal inNetwork
    · obtain ⟨x, high, low, same, isX, rfl⟩ := toIpv4_eq_some.mp isEmbedded
      rw [same]
      exact .embedded isX ((isBlockedV4_iff (small4 same)).mp isBlocked)
  · intro blocked
    generalize same : seg :: rest = segments at blocked
    cases blocked with
    | loopback => exact .inl (.inl (.inl rfl))
    | unspecified => exact .inl (.inr rfl)
    | multicast inNetwork =>
      cases same
      exact .inl (.inl (.inr inNetwork))
    | linkLocal inNetwork =>
      cases same
      exact .inr (.inl inNetwork)
    | uniqueLocal inNetwork =>
      cases same
      exact .inr (.inr (.inl inNetwork))
    | embedded isX inNetwork =>
      exact .inr (.inr (.inr ⟨_, toIpv4_eq_some.mpr ⟨_, _, _, rfl, isX, rfl⟩, (isBlockedV4_iff (small4 same)).mpr inNetwork⟩))

section Sizes

variable {text : List Char} {value : Nat} {values : List Nat} {groups : List (List Char)}

theorem digitsVal_append {radix : Nat} {c : Char} : digitsVal radix (text ++ [c]) = radix * digitsVal radix text + digitVal c := by
  rw [digitsVal, foldl_append]
  rfl

theorem digitsVal_lt {radix : Nat} (inRadix : areDigits radix text = true) : digitsVal radix text < radix ^ text.length := by
  induction text using List.reverseRecOn with
  | nil => exact Nat.one_pos
  | append_singleton text c ih =>
    rw [areDigits, all_append, Bool.and_eq_true] at inRadix
    have front := ih inRadix.1
    have last : digitVal c < radix := by simpa using inRadix.2
    rw [digitsVal_append, length_append, length_singleton, Nat.pow_succ]
    calc radix * digitsVal radix text + digitVal c < radix * digitsVal radix text + radix := by omega
      _ = radix * (digitsVal radix text + 1) := by ring
      _ ≤ radix * radix ^ text.length := Nat.mul_le_mul_left _ front
      _ = radix ^ text.length * radix := Nat.mul_comm _ _

theorem readGroup_lt (group : readGroup text = some value) : value < 2 ^ 16 := by
  obtain ⟨-, short, hex, rfl⟩ := readGroup_eq_some.mp group
  exact lt_of_lt_of_le (digitsVal_lt hex) (Nat.pow_le_pow_right (by decide) short)

theorem readIpv4_lt (quad : readIpv4 text = some value) : value < 2 ^ 32 := by
  obtain ⟨_, _, _, _, _, _, _, _, -, octetA, octetB, octetC, octetD, rfl⟩ := readIpv4_eq_some.mp quad
  have smallA := (readOctet_eq_some.mp octetA).2.2.2.2.2
  have smallB := (readOctet_eq_some.mp octetB).2.2.2.2.2
  have smallC := (readOctet_eq_some.mp octetC).2.2.2.2.2
  have smallD := (readOctet_eq_some.mp octetD).2.2.2.2.2
  omega

theorem readLastGroups_lt (read : readLastGroups groups = some values) : ∀ group ∈ values, group < 2 ^ 16 := by
  induction groups generalizing values with
  | nil => cases read
  | cons group groups ih =>
    cases groups with
    | nil =>
      rw [readLastGroups] at read
      split at read
      · rename_i isGroup
        cases read
        simpa using readGroup_lt isGroup
      · obtain ⟨address, quad, same⟩ := Option.map_eq_some_iff.mp read
        subst same
        have small := readIpv4_lt quad
        simp only [mem_cons, not_mem_nil, or_false, forall_eq_or_imp, forall_eq]
        omega
    | cons next groups =>
      obtain ⟨value, isGroup, read⟩ := Option.bind_eq_some_iff.mp read
      obtain ⟨rest, later, whole⟩ := Option.bind_eq_some_iff.mp read
      cases whole
      intro other mem
      rcases mem_cons.mp mem with rfl | inRest
      · exact readGroup_lt isGroup
      · exact ih later other inRest

theorem plainGroups_lt (all : List.Forall₂ (fun group value => readGroup group = some value) groups values) :
    ∀ group ∈ values, group < 2 ^ 16 := by
  induction all with
  | nil => exact nofun
  | cons here _ ih => exact forall_mem_cons.mpr ⟨readGroup_lt here, ih⟩

theorem readGroups_lt (read : readGroups text = some values) : ∀ group ∈ values, group < 2 ^ 16 := by
  unfold readGroups at read
  split at read
  · cases read
    exact nofun
  · exact readLastGroups_lt read

theorem readIpv6_segments (read : readIpv6 text = some values) :
    values.length = 8 ∧ (∀ segment ∈ values, segment < 2 ^ 16) ∧ ':' ∈ text := by
  unfold readIpv6 at read
  split at read
  · obtain ⟨isGroups, eight⟩ := Option.filter_eq_some_iff.mp read
    have eight := of_decide_eq_true eight
    refine ⟨eight, readGroups_lt isGroups, ?_⟩
    by_contra noColon
    unfold readGroups at isGroups
    split at isGroups
    · cases isGroups
      cases eight
    · rw [splitOn_eq_singleton noColon, readLastGroups] at isGroups
      split at isGroups
      · cases isGroups
        cases eight
      · obtain ⟨address, -, same⟩ := Option.map_eq_some_iff.mp isGroups
        subst same
        cases eight
  · rename_i front back split
    obtain rfl := splitPair_eq_some split
    obtain ⟨head, readHead, read⟩ := Option.bind_eq_some_iff.mp read
    obtain ⟨tail, readTail, read⟩ := Option.bind_eq_some_iff.mp read
    split at read
    · rename_i short
      cases read
      refine ⟨by simp; omega, ?_, by simp⟩
      have inHead : ∀ group ∈ head, group < 2 ^ 16 := by
        unfold readPlainGroups at readHead
        split at readHead
        · cases readHead
          simp
        · exact plainGroups_lt (mapM_eq_some.mp readHead)
      intro segment mem
      simp only [mem_append, mem_replicate] at mem
      rcases mem with (early | ⟨-, rfl⟩) | late
      · exact inHead segment early
      · decide
      · exact readGroups_lt readTail segment late
    · cases read

end Sizes

section Dialling

/-- What the mapping to ASCII does with host names that are ASCII already: letters become lower case, and only labels in
punycode can be refused. -/
structure AsciiDomains (toAscii : List Char → Option (List Char)) : Prop where
  lower : ∀ host domain, (∀ c ∈ host, c.isAlphanum = true ∨ c = '-' ∨ c = '.') → toAscii host = some domain →
    domain = host.map Char.toLower
  plain : ∀ host, (∀ c ∈ host, c.isAlphanum = true ∨ c = '-' ∨ c = '.') →
    (∀ label ∈ host.splitOn '.', (label.map Char.toLower).take 4 ≠ ['x', 'n', '-', '-']) → (toAscii host).isSome = true

variable {toAscii : List Char → Option (List Char)} {host rest : List Char} {port : Option Nat} {address : Nat}

/-- The host that `https://` in front of a text dials. -/
def dialled (toAscii : List Char → Option (List Char)) (s : List Char) : Option UrlHost :=
  urlHost toAscii (authorityHost false s)

theorem authorityHost_port (form : PortForm rest port) : authorityHost false rest = [] := by
  cases form <;> rfl

theorem authorityHost_plain (plain : ∀ c ∈ host, c.isAlphanum = true ∨ c = '-' ∨ c = '.') (form : PortForm rest port) :
    authorityHost false (host ++ rest) = host := by
  induction host with
  | nil => exact authorityHost_port form
  | cons c host ih =>
    obtain ⟨-, noColon, noOpen, noClose⟩ := plain_allowed (plain c mem_cons_self)
    rw [cons_append, authorityHost, if_neg (fun colon => noColon colon.1), if_neg noOpen, if_neg noClose,
      ih fun d mem => plain d (mem_cons_of_mem _ mem)]

theorem authorityHost_inside (plain : ∀ c ∈ host, c ≠ '[' ∧ c ≠ ']') (form : PortForm rest port) :
    authorityHost true (host ++ ']' :: rest) = host ++ [']'] := by
  induction host with
  | nil => rw [nil_append, authorityHost, if_neg (by simp), if_neg (by decide), if_pos rfl, authorityHost_port form]; rfl
  | cons c host ih =>
    obtain ⟨noOpen, noClose⟩ := plain c mem_cons_self
    rw [cons_append, authorityHost, if_neg (by simp), if_neg noOpen, if_neg noClose,
      ih fun d mem => plain d (mem_cons_of_mem _ mem), cons_append]

variable {segments : List Nat}

theorem dialled_bracketed (read : readIpv6 host = some segments) (form : PortForm rest port) :
    dialled toAscii ('[' :: (host ++ ']' :: rest)) = some (.ipv6 segments) := by
  have unbracketed : ∀ c ∈ host, c ≠ '[' ∧ c ≠ ']' := by
    intro c mem
    rcases readIpv6_chars read c mem with hex | rfl | rfl
    · exact (plain_allowed (.inl (hex_isAlphanum hex))).2.2
    · decide
    · decide
  rw [dialled, authorityHost, if_neg (by decide), if_pos rfl, authorityHost_inside unbracketed form, urlHost,
    if_pos (by simp), dropLast_concat, ipv6Parse_readIpv6 read]
  rfl

theorem gate_bracketed (read : readIpv6 host = some segments) : isBlockedIpLiteral host = isBlockedV6 segments := by
  obtain ⟨-, -, colon⟩ := readIpv6_segments read
  cases quad : readIpv4 host with
  | none => simp only [isBlockedIpLiteral, quad, read, Option.any_some]
  | some address =>
    rcases readIpv4_chars quad ':' colon with decimal | isDot
    · exact absurd decimal (by decide)
    · exact absurd isDot (by decide)

theorem gate_hostname (plain : ∀ c ∈ host, c.isAlphanum = true ∨ c = '-' ∨ c = '.') :
    isBlockedIpLiteral host = (readIpv4 host).any isBlockedV4 := by
  cases quad : readIpv4 host with
  | some address => simp only [isBlockedIpLiteral, quad, Option.any_some]
  | none =>
    have noAddress : readIpv6 host = none := by
      cases read : readIpv6 host with
      | none => rfl
      | some segments => exact absurd rfl (plain_allowed (plain ':' (readIpv6_segments read).2.2)).2.1
    simp only [isBlockedIpLiteral, quad, noAddress, Option.any_none]

theorem numeral_first {label : List Char} {value : Nat} (numeral : Ipv4Numeral label value) :
    ∃ c rest, label = c :: rest ∧ digitVal c < 10 := by
  cases numeral with
  | decimal some_ inRadix =>
    cases label with
    | nil => exact absurd rfl some_
    | cons c rest => exact ⟨c, rest, rfl, (areDigits_cons.mp inRadix).1⟩
  | octal => exact ⟨_, _, rfl, by decide⟩
  | hexadecimal => exact ⟨_, _, rfl, by decide⟩

theorem spelling_plain (spelled : Ipv4Spelling host address) :
    ∀ label ∈ host.splitOn '.', (label.map Char.toLower).take 4 ≠ ['x', 'n', '-', '-'] := by
  obtain ⟨front, last, values, rest, whole, numerals, isLast, -⟩ := spelled
  have all : ∀ label ∈ front ++ [last], ∃ value, Ipv4Numeral label value := by
    intro label mem
    rcases mem_append.mp mem with early | isIt
    · clear whole
      induction numerals with
      | nil => cases early
      | cons here _ ih =>
        rcases mem_cons.mp early with rfl | later
        · exact ⟨_, here⟩
        · exact ih (mem_append_left _ later) later
    · rw [mem_singleton.mp isIt]
      exact ⟨rest, isLast⟩
  intro label mem same
  obtain ⟨value, numeral⟩ := all label (whole ▸ mem)
  obtain ⟨c, behind, rfl, decimal⟩ := numeral_first numeral
  have isX : c.toLower = 'x' := (List.cons.inj same).1
  rw [← digitVal_toLower, isX] at decimal
  exact absurd decimal (by decide)

theorem PlainHost.undotted (plain : PlainHost host) : (host.splitOn '.').getLast? ≠ some [] := by
  intro dotted
  rcases plain with quad | ldh
  · obtain ⟨address, quad⟩ := Option.isSome_iff_exists.mp quad
    obtain ⟨front, last, values, rest, whole, -, isLast, -⟩ := readIpv4_spelling quad
    obtain ⟨c, behind, rfl, -⟩ := numeral_first isLast
    rw [whole, getLast?_concat] at dotted
    cases dotted
  · exact (ldh.labels [] (mem_of_getLast? dotted)).nonempty rfl

theorem urlHost_plain (plain : PlainHost host) : urlHost toAscii host = (toAscii host).bind fun domain =>
    if domain = [] then none
    else if endsInNumber domain then (ipv4Parse domain).map .ipv4
    else some (.domain domain) := by
  cases host with
  | nil => exact absurd rfl plain.nonempty
  | cons c host =>
    have noOpen := (plain_allowed (plain.chars c mem_cons_self)).2.2.1
    unfold urlHost
    split
    · rename_i same
      exact absurd (List.cons.inj same).1 noOpen
    · rfl

theorem dialled_plain (ascii : AsciiDomains toAscii) (plain : PlainHost host) (form : PortForm rest port) :
    dialled toAscii (host ++ rest) = some (.ipv4 address) ↔ Ipv4Spelling host address := by
  rw [dialled, authorityHost_plain plain.chars form, urlHost_plain plain, ← ipv4_iff_spelling plain.undotted]
  constructor
  · intro isAddress
    obtain ⟨domain, mapped, isAddress⟩ := Option.bind_eq_some_iff.mp isAddress
    obtain rfl := ascii.lower host domain plain.chars mapped
    rw [ipv4_toLower.1, ipv4_toLower.2] at isAddress
    split at isAddress
    · cases isAddress
    · split at isAddress
      · rename_i isNumber
        obtain ⟨read, parsed, same⟩ := Option.map_eq_some_iff.mp isAddress
        cases same
        exact ⟨isNumber, parsed⟩
      · cases isAddress
  · rintro ⟨isNumber, parsed⟩
    have spelled := (ipv4_iff_spelling plain.undotted).mp ⟨isNumber, parsed⟩
    obtain ⟨domain, mapped⟩ := Option.isSome_iff_exists.mp (ascii.plain host plain.chars (spelling_plain spelled))
    obtain rfl := ascii.lower host domain plain.chars mapped
    have nonempty : host.map Char.toLower ≠ [] := fun empty => plain.nonempty (map_eq_nil_iff.mp empty)
    rw [mapped, Option.bind_some, if_neg nonempty, ipv4_toLower.1, ipv4_toLower.2, if_pos isNumber, parsed]
    rfl

theorem dialled_plain_ne (plain : PlainHost host) (form : PortForm rest port) :
    dialled toAscii (host ++ rest) ≠ some (.ipv6 segments) := by
  rw [dialled, authorityHost_plain plain.chars form, urlHost_plain plain]
  intro isAddress
  obtain ⟨domain, mapped, isAddress⟩ := Option.bind_eq_some_iff.mp isAddress
  split at isAddress
  · cases isAddress
  · split at isAddress
    · obtain ⟨read, -, same⟩ := Option.map_eq_some_iff.mp isAddress
      cases same
    · cases isAddress

end Dialling

section Gate

variable {toAscii : List Char → Option (List Char)} {s : List Char} {domain : InstanceDomain}

theorem gate_literal (grammar : DomainGrammar s domain) (ascii : AsciiDomains toAscii) {host : UrlHost}
    (isDialled : dialled toAscii s = some host) (blocked : BlockedHost host)
    (literal : ∀ address, LdhHostname domain.host → readIpv4 domain.host = none →
      Ipv4Spelling domain.host address → ¬ BlockedV4 address) :
    isBlockedIpLiteral domain.host = true := by
  have ofPlain : ∀ {name rest : List Char} {port : Option Nat}, PlainHost name → PortForm rest port → s = name ++ rest →
      domain.host = name → isBlockedIpLiteral domain.host = true := by
    rintro name rest port plain form rfl rfl
    cases host with
    | domain name => cases blocked
    | ipv6 segments => exact absurd isDialled (dialled_plain_ne plain form)
    | ipv4 address =>
      have spelled := (dialled_plain ascii plain form).mp isDialled
      rw [gate_hostname plain.chars]
      cases quad : readIpv4 domain.host with
      | none =>
        have ldh : LdhHostname domain.host := plain.resolve_left (by simp [quad])
        exact absurd blocked (literal address ldh quad spelled)
      | some other =>
        have same : address = other := by
          have read := (ipv4_iff_spelling plain.undotted).mpr spelled
          have readOther := (ipv4_iff_spelling plain.undotted).mpr (readIpv4_spelling quad)
          exact Option.some.inj (read.2.symm.trans readOther.2)
        subst same
        exact (isBlockedV4_iff (readIpv4_lt quad)).mpr blocked
  cases grammar with
  | ipv4 quad form => exact ofPlain (.inl quad) form rfl rfl
  | hostname ldh form => exact ofPlain (.inr ldh) form rfl rfl
  | ipv6 isAddress form =>
    obtain ⟨segments, read⟩ := Option.isSome_iff_exists.mp isAddress
    rw [dialled_bracketed read form, Option.some.injEq] at isDialled
    subst isDialled
    obtain ⟨eight, small, -⟩ := readIpv6_segments read
    rw [gate_bracketed read]
    cases segments with
    | nil => cases eight
    | cons seg rest => exact (isBlockedV6_iff small).mpr blocked

/-- The gate sees what is dialled, by any parser that reads accepted texts as the URL standard does, and what is accepted is
the grammar, unless the host name spells a blocked address in another way than as a dotted quad, or zeros in front of the port
make the text longer than 259 bytes. -/
theorem address_gate_iff {parse : List Char → Option UrlHost} (ascii : AsciiDomains toAscii)
    (agrees : ∀ text domain, parseInstanceDomain text = .ok domain → parse text = dialled toAscii text) :
    (((∃ domain, parseInstanceDomain s = .ok domain) ↔ ∃ domain, DomainGrammar s domain) ∧
      ∀ domain, parseInstanceDomain s = .ok domain → ∀ host, parse s = some host → BlockedHost host →
        isBlockedIpLiteral domain.host = true) ↔
    ((∀ domain, DomainGrammar s domain → utf8Len s ≤ 259) ∧
      ∀ host rest port address, s = host ++ rest → LdhHostname host → PortForm rest port → readIpv4 host = none →
        Ipv4Spelling host address → ¬ BlockedV4 address) := by
  constructor
  · rintro ⟨accepts, sees⟩
    have short : ∀ domain, DomainGrammar s domain → utf8Len s ≤ 259 := by
      intro domain grammar
      obtain ⟨accepted, parsed⟩ := accepts.mpr ⟨domain, grammar⟩
      exact (parseInstanceDomain_iff.mp parsed).2
    refine ⟨short, ?_⟩
    rintro host rest port address rfl ldh form noQuad spelled blocked
    have grammar : DomainGrammar (host ++ rest) ⟨host, port⟩ := .hostname ldh form
    have parsed := parseInstanceDomain_iff.mpr ⟨grammar, short _ grammar⟩
    have gated := sees _ parsed _ ((agrees _ _ parsed).trans ((dialled_plain ascii (.inr ldh) form).mpr spelled)) blocked
    rw [gate_hostname ldh.chars, noQuad] at gated
    cases gated
  · rintro ⟨short, spelled⟩
    refine ⟨⟨fun ⟨domain, parsed⟩ => ⟨domain, (parseInstanceDomain_iff.mp parsed).1⟩,
      fun ⟨domain, grammar⟩ => ⟨domain, parseInstanceDomain_iff.mpr ⟨grammar, short domain grammar⟩⟩⟩, ?_⟩
    intro domain parsed host isDialled blocked
    rw [agrees _ _ parsed] at isDialled
    have grammar := (parseInstanceDomain_iff.mp parsed).1
    refine gate_literal grammar ascii isDialled blocked fun address ldh noQuad isSpelled => ?_
    cases grammar with
    | ipv4 quad _ =>
      rw [noQuad] at quad
      cases quad
    | hostname _ form => exact spelled _ _ _ address rfl ldh form noQuad isSpelled
    | ipv6 isAddress _ =>
      obtain ⟨segments, read⟩ := Option.isSome_iff_exists.mp isAddress
      exact absurd rfl (plain_allowed (ldh.chars ':' (readIpv6_segments read).2.2)).2.1

end Gate

/-- Nothing of these hosts is in punycode. -/
def lowerCase (host : List Char) : Option (List Char) :=
  some (host.map Char.toLower)

theorem lowerCase_ascii : AsciiDomains lowerCase where
  lower _ _ _ mapped := (Option.some.inj mapped).symm
  plain _ _ _ := rfl

/-- `2130706433` is a host name that is dialled as 127.0.0.1. -/
theorem shorthand_not_blocked :
    ¬ ∀ domain, parseInstanceDomain "2130706433".toList = .ok domain → ∀ host, dialled lowerCase "2130706433".toList = some host →
      BlockedHost host → isBlockedIpLiteral domain.host = true := by
  intro sees
  have parsed : parseInstanceDomain "2130706433".toList = .ok ⟨"2130706433".toList, none⟩ := by decide +kernel
  have isDialled : dialled lowerCase "2130706433".toList = some (.ipv4 (quad 127 0 0 1)) := by decide +kernel
  have blocked : BlockedHost (.ipv4 (quad 127 0 0 1)) :=
    ⟨(quad 127 0 0 0, 8), by decide, by unfold InNetwork; decide⟩
  exact absurd (sees _ parsed _ isDialled blocked) (by decide +kernel)

/-- A bracketed address is blocked as it is dialled. -/
theorem loopback_blocked : isBlockedIpLiteral "::ffff:127.0.0.1".toList = true := by
  have blocked : BlockedHost (.ipv6 [0, 0, 0, 0, 0, 0xffff, 0x7f00, 1]) :=
    BlockedV6.embedded (.inr rfl) ⟨(quad 127 0 0 0, 8), by decide, by unfold InNetwork; decide⟩
  refine ((address_gate_iff (s := "[::ffff:127.0.0.1]:443".toList) lowerCase_ascii fun _ _ _ => rfl).mpr
    ⟨fun _ _ => by decide +kernel, ?_⟩).2 ⟨_, some 443⟩ (by decide +kernel) _ (by decide +kernel) blocked
  intro host rest port address whole ldh
  cases host with
  | nil => exact absurd rfl ldh.nonempty
  | cons c host =>
    have isBracket : '[' = c := (List.cons.inj whole).1
    exact absurd isBracket.symm (plain_allowed (ldh.chars c mem_cons_self)).2.2.1

end Prismoire
