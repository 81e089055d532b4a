import Asm6502.Number.Basic
import Asm6502.Text.Blank

/-!
# Reading integers

An integer is read from the front of a text: blanks are skipped, a sign is taken, then digits as far as
they go. What follows the digits does not matter; without any digit the answer is `nan`.
-/

namespace Asm6502

/-- The value of a digit: `0` to `9`, then the letters in either case. -/
def digitValue? (c : Char) : Option Nat :=
  if '0' ≤ c ∧ c ≤ '9' then some (c.toNat - '0'.toNat)
  else if 'a' ≤ c ∧ c ≤ 'z' then some (c.toNat - 'a'.toNat + 10)
  else if 'A' ≤ c ∧ c ≤ 'Z' then some (c.toNat - 'A'.toNat + 10)
  else none

/-- Whether a character is a digit in a base. -/
def isDigitIn (base : Nat) (c : Char) : Bool :=
  match digitValue? c with
  | some d => decide (d < base)
  | none => false

/-- The natural number that digits write in a base. -/
def natOfDigits (base : Nat) (digits : List Char) : Nat :=
  digits.foldl (fun n c => n * base + (digitValue? c).getD 0) 0

namespace Number

/-- The number nearest to the natural number that digits write in a base. -/
def ofDigits (base : Nat) (digits : List Char) : Number :=
  ofRat (natOfDigits base digits : Nat)

/-- Whether a text starts with a minus, and what follows its sign. -/
def takeSign : List Char → Bool × List Char
  | '-' :: rest => (true, rest)
  | '+' :: rest => (false, rest)
  | rest => (false, rest)

/-- What follows the `0x` that base 16 allows in front of its digits. -/
def dropMark : Nat → List Char → List Char
  | 16, '0' :: 'x' :: rest => rest
  | 16, '0' :: 'X' :: rest => rest
  | _, rest => rest

/-- The integer at the front of a text, in base 10, or in base 16 with an optional `0x`. -/
def readInteger (base : Nat) (text : String) : Number :=
  let (negative, unsigned) := takeSign (text.toList.dropWhile Text.isBlank)
  match (dropMark base unsigned).takeWhile (isDigitIn base) with
  | [] => .nan
  | digits => if negative then -ofDigits base digits else ofDigits base digits

end Number

end Asm6502
