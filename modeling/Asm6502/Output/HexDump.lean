import Asm6502.Number.Hexadecimal

/-!
# Hex dumps

Sixteen bytes a line: the address, the bytes in four groups of four, and the characters they are.
-/

namespace Asm6502.HexDump

/-- How many bytes a line shows. -/
def rowLength : Nat := 16

/-- Bytes cut into rows; only the last may be short. -/
def rows (bytes : List UInt8) : List (List UInt8) :=
  match bytes with
  | [] => []
  | b :: rest => (b :: rest.take (rowLength - 1)) :: rows (rest.drop (rowLength - 1))
termination_by bytes.length
decreasing_by
  simp only [List.length_drop, List.length_cons]
  omega

/-- A byte, or a blank of its width. -/
def hexColumn : Option UInt8 → String
  | some b => hexByte b
  | none => "  "

/-- The character that a byte is, a point if it cannot be shown, a blank if there is none. -/
def charColumn : Option UInt8 → Char
  | some b => if 32 ≤ b.toNat ∧ b.toNat < 127 then Char.ofNat b.toNat else '.'
  | none => ' '

/-- The bytes of a row in groups of four. -/
def hexPart (row : List UInt8) : String :=
  let group (first : Nat) := String.intercalate " "
    ([first, first + 1, first + 2, first + 3].map (fun i => hexColumn row[i]?))
  String.intercalate "  " ([0, 4, 8, 12].map group)

/-- The characters of a row. -/
def charPart (row : List UInt8) : String :=
  String.ofList ((List.range rowLength).map (fun i => charColumn row[i]?))

/-- A line of the dump. -/
def line (address : Number) (row : List UInt8) : String :=
  padZeros 4 address.hexText ++ ": " ++ hexPart row ++ "  |" ++ charPart row ++ "|"

/-- The lines of rows from an offset on. -/
def linesFrom (origin : Number) : Nat → List (List UInt8) → List String
  | _, [] => []
  | offset, row :: rest => line (origin + .ofNat offset) row :: linesFrom origin (offset + rowLength) rest

/-- The dump of bytes that lie from `origin` on. -/
def render (bytes : List UInt8) (origin : Number) : String :=
  String.intercalate "\n" (linesFrom origin 0 (rows bytes))

end Asm6502.HexDump
