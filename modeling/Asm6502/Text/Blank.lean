/-!
# Blank characters

The characters that count as blank in front of a number: tabulators, line ends, the Unicode space
separators and the byte order mark.
-/

namespace Asm6502.Text

/-- Blank characters outside the ranges of `isBlank`, by code point. -/
def otherBlanks : List Nat :=
  [0x20, 0xA0, 0x1680, 0x2028, 0x2029, 0x202F, 0x205F, 0x3000, 0xFEFF]

/-- Whether a character is blank. -/
def isBlank (c : Char) : Bool :=
  (0x9 ≤ c.toNat && c.toNat ≤ 0xD) || (0x2000 ≤ c.toNat && c.toNat ≤ 0x200A) ||
    otherBlanks.contains c.toNat

end Asm6502.Text
