import Asm6502.Compilation

/-!
# PRG files

A PRG file is the load address, low byte first, followed by the bytes of the program.
-/

namespace Asm6502

/-- The PRG file of a range of an image. -/
def Image.prg (m : Image) (start finish : Number) : Except Fault (List UInt8) := do
  let w ← checkWord start
  return lowByte w :: highByte w :: m.slice start finish

/-- The load address and the bytes of a PRG file. -/
def readPrg : List UInt8 → Option (UInt16 × List UInt8)
  | low :: high :: body => some (UInt16.ofNat (low.toNat + 256 * high.toNat), body)
  | _ => none

/-- The PRG file of a compilation. -/
def Compilation.prg (c : Compilation) : Except Fault (List UInt8) :=
  c.memory.prg (.ofAddress c.start) (.ofInt c.finish)

end Asm6502
