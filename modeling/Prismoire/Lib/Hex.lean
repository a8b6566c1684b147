import Mathlib.Data.List.Induction
import Mathlib.Tactic.IntervalCases

namespace Prismoire.Lib

/-- A digit below sixteen, in lower case. -/
def hexChar (digit : Nat) : Char :=
  if digit < 10 then Char.ofNat (48 + digit) else Char.ofNat (87 + digit)

/-- The value of a digit; upper case is not read. -/
def hexValue (c : Char) : Option Nat :=
  if 48 ≤ c.toNat ∧ c.toNat ≤ 57 then
    some (c.toNat - 48)
  else if 97 ≤ c.toNat ∧ c.toNat ≤ 102 then
    some (c.toNat - 87)
  else
    none

/-- A number in so many digits. -/
def hexText : Nat → Nat → List Char
  | 0, _ => []
  | width + 1, n => hexText width (n / 16) ++ [hexChar (n % 16)]

def readDigit (value : Option Nat) (c : Char) : Option Nat := do
  return 16 * (← value) + (← hexValue c)

def readHex (text : List Char) : Option Nat :=
  text.foldl readDigit (some 0)

variable {digit width n : Nat} {text : List Char} {c : Char}

theorem hexValue_hexChar (small : digit < 16) : hexValue (hexChar digit) = some digit := by
  interval_cases digit <;> rfl

/-- A digit is read from every character of a written number. -/
theorem mem_hexText (mem : c ∈ hexText width n) : (hexValue c).isSome = true := by
  induction width generalizing n with
  | zero => cases mem
  | succ width ih =>
    rcases List.mem_append.mp mem with early | last
    · exact ih early
    · rw [List.mem_singleton.mp last, hexValue_hexChar (Nat.mod_lt _ (by decide))]
      rfl

theorem readHex_append : readHex (text ++ [c]) = readDigit (readHex text) c :=
  List.foldl_append

theorem readHex_hexText (small : n < 16 ^ width) : readHex (hexText width n) = some n := by
  induction width generalizing n with
  | zero =>
    rw [show n = 0 by simpa using small]
    rfl
  | succ width ih =>
    have smaller : n / 16 < 16 ^ width := by
      rw [pow_succ] at small
      omega
    rw [hexText, readHex_append, ih smaller, readDigit, hexValue_hexChar (Nat.mod_lt _ (by decide))]
    exact congrArg some (Nat.div_add_mod n 16)

end Prismoire.Lib
