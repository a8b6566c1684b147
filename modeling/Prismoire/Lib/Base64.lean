import Mathlib.Data.List.Basic

namespace Prismoire.Lib.Base64

open List Option

/-- The alphabet of base64url: A to Z, a to z, 0 to 9, then `-` and `_`. -/
def alphabet : List Char :=
  (List.range' 65 26 ++ List.range' 97 26 ++ List.range' 48 10).map Char.ofNat ++ ['-', '_']

def symbol (digit : Nat) : Char :=
  alphabet.getD digit 'A'

def digit (symbol : Char) : Option Nat :=
  if symbol ∈ alphabet then some (alphabet.idxOf symbol) else none

/-- Six bits a digit, from the front; the last digit of a rest of one or two bytes is filled with zeros. -/
def encodeDigits : List UInt8 → List Nat
  | a :: b :: c :: rest =>
    [a.toNat / 4, a.toNat % 4 * 16 + b.toNat / 16, b.toNat % 16 * 4 + c.toNat / 64, c.toNat % 64] ++ encodeDigits rest
  | [a, b] => [a.toNat / 4, a.toNat % 4 * 16 + b.toNat / 16, b.toNat % 16 * 4]
  | [a] => [a.toNat / 4, a.toNat % 4 * 16]
  | [] => []

/-- No rest of one digit, and no rest with bits that say nothing. -/
def decodeDigits : List Nat → Option (List UInt8)
  | p :: q :: r :: s :: rest => (decodeDigits rest).map fun bytes =>
    [UInt8.ofNat (p * 4 + q / 16), UInt8.ofNat (q % 16 * 16 + r / 4), UInt8.ofNat (r % 4 * 64 + s)] ++ bytes
  | [p, q, r] =>
    if r % 4 = 0 then some [UInt8.ofNat (p * 4 + q / 16), UInt8.ofNat (q % 16 * 16 + r / 4)] else none
  | [p, q] => if q % 16 = 0 then some [UInt8.ofNat (p * 4 + q / 16)] else none
  | [_] => none
  | [] => some []

/-- Without padding. -/
def encode (bytes : List UInt8) : String :=
  String.ofList ((encodeDigits bytes).map symbol)

def decode (text : String) : Option (List UInt8) :=
  (text.toList.mapM digit).bind decodeDigits

theorem length_alphabet : alphabet.length = 64 := by
  decide

theorem nodup_alphabet : alphabet.Nodup := by
  decide +kernel

theorem digit_symbol {value : Nat} (small : value < 64) : digit (symbol value) = some value := by
  have inside : value < alphabet.length := length_alphabet ▸ small
  have symbol : symbol value = alphabet[value] := by rw [symbol, getD_eq_getElem?_getD, getElem?_eq_getElem inside, getD_some]
  rw [digit, symbol, if_pos (getElem_mem inside), nodup_alphabet.idxOf_getElem value inside]

theorem encodeDigits_lt (bytes : List UInt8) : ∀ value ∈ encodeDigits bytes, value < 64 := by
  induction bytes using encodeDigits.induct with
  | case1 a b c rest ih =>
    have first := a.toNat_lt
    have second := b.toNat_lt
    have third := c.toNat_lt
    intro value mem
    rw [encodeDigits, mem_append] at mem
    rcases mem with here | later
    · simp only [mem_cons, not_mem_nil, or_false] at here
      omega
    · exact ih value later
  | case2 a b =>
    have first := a.toNat_lt
    have second := b.toNat_lt
    intro value mem
    simp only [encodeDigits, mem_cons, not_mem_nil, or_false] at mem
    omega
  | case3 a =>
    have first := a.toNat_lt
    intro value mem
    simp only [encodeDigits, mem_cons, not_mem_nil, or_false] at mem
    omega
  | case4 => simp [encodeDigits]

theorem ofNat_eq {value : Nat} {byte : UInt8} (same : value = byte.toNat) : UInt8.ofNat value = byte := by
  rw [same, UInt8.ofNat_toNat]

theorem decodeDigits_encode (bytes : List UInt8) : decodeDigits (encodeDigits bytes) = some bytes := by
  induction bytes using encodeDigits.induct with
  | case1 a b c rest ih =>
    have first := a.toNat_lt
    have second := b.toNat_lt
    have third := c.toNat_lt
    simp only [encodeDigits, cons_append, nil_append, decodeDigits, ih, map_some, some.injEq,
      List.cons.injEq, and_true]
    exact ⟨ofNat_eq (by omega), ofNat_eq (by omega), ofNat_eq (by omega)⟩
  | case2 a b =>
    have first := a.toNat_lt
    have second := b.toNat_lt
    have filled : b.toNat % 16 * 4 % 4 = 0 := by omega
    simp only [encodeDigits, decodeDigits, filled, if_true, some.injEq, List.cons.injEq, and_true]
    exact ⟨ofNat_eq (by omega), ofNat_eq (by omega)⟩
  | case3 a =>
    have first := a.toNat_lt
    have filled : a.toNat % 4 * 16 % 16 = 0 := by omega
    simp only [encodeDigits, decodeDigits, filled, if_true, some.injEq, List.cons.injEq, and_true]
    exact ofNat_eq (by omega)
  | case4 => rfl

theorem mapM_digit_symbol {digits : List Nat} (small : ∀ value ∈ digits, value < 64) :
    (digits.map symbol).mapM digit = some digits := by
  induction digits with
  | nil => rfl
  | cons value digits ih =>
    rw [map_cons, mapM_cons, digit_symbol (small value mem_cons_self),
      ih fun other later => small other (mem_cons_of_mem _ later)]
    rfl

theorem decode_encode (bytes : List UInt8) : decode (encode bytes) = some bytes := by
  rw [decode, encode, String.toList_ofList, mapM_digit_symbol (encodeDigits_lt bytes), bind_some,
    decodeDigits_encode]

theorem encode_ne_empty {bytes : List UInt8} (some_ : bytes ≠ []) : encode bytes ≠ "" := by
  intro empty
  have nothing := decode_encode bytes
  rw [empty] at nothing
  exact some_ (some.inj nothing).symm

end Prismoire.Lib.Base64
