import Mathlib.Data.Nat.Bitwise
import Mathlib.Data.List.Basic

namespace Prismoire.Lib

theorem isDigit_iff {c : Char} : c.isDigit = true ↔ 48 ≤ c.toNat ∧ c.toNat ≤ 57 :=
  Char.isDigit_iff_toNat

theorem isLower_iff {c : Char} : c.isLower = true ↔ 97 ≤ c.toNat ∧ c.toNat ≤ 122 := by
  delta Char.isLower
  simp only [Bool.and_eq_true, decide_eq_true_eq]
  exact Iff.rfl

theorem isUpper_iff {c : Char} : c.isUpper = true ↔ 65 ≤ c.toNat ∧ c.toNat ≤ 90 := by
  delta Char.isUpper
  simp only [decide_eq_true_eq]
  exact Iff.rfl

/-- The value of a digit in whatever radix; other characters have a value that no radix allows. -/
def digitVal (c : Char) : Nat :=
  if c.isDigit then c.toNat - 48 else if c.isLower then c.toNat - 87 else if c.isUpper then c.toNat - 55 else 36

theorem digitVal_eq (c : Char) : digitVal c = if 48 ≤ c.toNat ∧ c.toNat ≤ 57 then c.toNat - 48
    else if 97 ≤ c.toNat ∧ c.toNat ≤ 122 then c.toNat - 87
    else if 65 ≤ c.toNat ∧ c.toNat ≤ 90 then c.toNat - 55
    else 36 := by
  simp only [digitVal, isDigit_iff, isLower_iff, isUpper_iff]

def areDigits (radix : Nat) (text : List Char) : Bool :=
  text.all fun c => digitVal c < radix

def digitsVal (radix : Nat) (text : List Char) : Nat :=
  text.foldl (fun value c => radix * value + digitVal c) 0

/-- `u16::from_str`: a sign may stand in front. -/
def readU16 (text : List Char) : Option Nat :=
  let digits := match text with
    | '+' :: rest => rest
    | _ => text
  if digits ≠ [] ∧ areDigits 10 digits ∧ digitsVal 10 digits < 65536 then some (digitsVal 10 digits) else none

variable (text : List Char)

/-- One part of a dotted quad: decimal, without leading zeros. -/
def readOctet : Option Nat :=
  if text ≠ [] ∧ text.length ≤ 3 ∧ areDigits 10 text ∧ (text = ['0'] ∨ text.head? ≠ some '0') ∧ digitsVal 10 text ≤ 255 then
    some (digitsVal 10 text)
  else
    none

/-- `Ipv4Addr::from_str`, with the address as one number. -/
def readIpv4 : Option Nat :=
  match text.splitOn '.' with
  | [a, b, c, d] => do
    return ((256 * (← readOctet a) + (← readOctet b)) * 256 + (← readOctet c)) * 256 + (← readOctet d)
  | _ => none

/-- One group of an address of 128 bits. -/
def readGroup : Option Nat :=
  if text ≠ [] ∧ text.length ≤ 4 ∧ areDigits 16 text then some (digitsVal 16 text) else none

def readPlainGroups : Option (List Nat) :=
  if text = [] then some [] else (text.splitOn ':').mapM readGroup

def readLastGroups : List (List Char) → Option (List Nat)
  | [] => none
  | [last] =>
    match readGroup last with
    | some group => some [group]
    | none => (readIpv4 last).map fun quad => [quad / 65536, quad % 65536]
  | group :: groups => do
    return (← readGroup group) :: (← readLastGroups groups)

def readGroups : Option (List Nat) :=
  if text = [] then some [] else readLastGroups (text.splitOn ':')

/-- Around the first pair of colons. -/
def splitPair : List Char → Option (List Char × List Char)
  | ':' :: ':' :: rest => some ([], rest)
  | [] => none
  | c :: rest => (splitPair rest).map fun (front, back) => (c :: front, back)

/-- `Ipv6Addr::from_str`, with the address as its eight segments: a pair of colons stands for one zero at least. -/
def readIpv6 : Option (List Nat) :=
  match splitPair text with
  | none => (readGroups text).filter (·.length = 8)
  | some (front, back) => do
    let head ← readPlainGroups front
    let tail ← readGroups back
    if head.length + tail.length ≤ 7 then
      some (head ++ List.replicate (8 - (head.length + tail.length)) 0 ++ tail)
    else
      none

end Prismoire.Lib
