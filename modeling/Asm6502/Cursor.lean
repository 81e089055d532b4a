import Asm6502.Fault

/-!
# The cursor

The cursor is where the next byte goes. It may be moved anywhere; only writing checks it. Its start is
an address, to which the cursor returns between the passes. The registers are carried along for
programs that ask for them.
-/

namespace Asm6502

/-- An address, or the fault of a number that is none. -/
def checkAddress (x : Number) : Except Fault UInt16 :=
  match x.toAddress? with
  | some a => .ok a
  | none => .error (.addressRange x)

/-- The registers of the processor. -/
structure Registers where
  a : Number
  x : Number
  y : Number
  s : Number
  deriving DecidableEq

/-- What a cursor is made from; what is missing takes a default. -/
structure CursorOptions where
  start : Option Number
  a : Option Number
  x : Option Number
  y : Option Number
  s : Option Number
  deriving DecidableEq, Inhabited

/-- The place of the next byte, the address it starts from, and the registers. -/
structure Cursor where
  start : UInt16
  position : Number
  registers : Registers
  deriving DecidableEq

namespace Cursor

/-- Where a program starts unless told otherwise. -/
def defaultStart : Number := 0x1000

/-- A cursor at its start. -/
def create (options : CursorOptions) : Except Fault Cursor := do
  let start ← checkAddress (options.start.getD defaultStart)
  return ⟨start, .ofAddress start,
    ⟨options.a.getD 0, options.x.getD 0, options.y.getD 0, options.s.getD 0⟩⟩

/-- Changes the start, not the position. -/
def setStart (c : Cursor) (address : Number) : Except Fault Cursor := do
  let start ← checkAddress address
  return { c with start }

/-- Moves on by a count. -/
def advance (c : Cursor) (count : Number) : Cursor := { c with position := c.position + count }

/-- Moves to a place. -/
def jump (c : Cursor) (place : Number) : Cursor := { c with position := place }

/-- Returns to the start. -/
def reset (c : Cursor) : Cursor := { c with position := .ofAddress c.start }

end Cursor

end Asm6502
