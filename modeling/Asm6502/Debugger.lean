import Asm6502.Number.Hexadecimal

/-!
# Marks for a debugger

Breakpoints and watched addresses that a program leaves behind. Their parameters are kept as the text
that a debugger reads.
-/

namespace Asm6502

/-- What a breakpoint waits for. -/
inductive BreakpointKind where
  /-- Execution of an address. -/
  | execution
  /-- A condition on a memory cell. -/
  | memory
  /-- A line of the screen. -/
  | raster
  deriving DecidableEq

namespace BreakpointKind

/-- The name of a kind. -/
def text : BreakpointKind → String
  | .execution => "breakonpc"
  | .memory => "breakmem"
  | .raster => "breakraster"

/-- The kind with a name. -/
def ofText? : String → Option BreakpointKind
  | "breakonpc" => some .execution
  | "breakmem" => some .memory
  | "breakraster" => some .raster
  | _ => none

end BreakpointKind

/-- A breakpoint: its kind, and its parameters as text. -/
structure Breakpoint where
  kind : BreakpointKind
  params : String
  deriving DecidableEq

/-- A watched address: its label, and the address as hexadecimal text. -/
structure Watch where
  label : String
  address : String
  deriving DecidableEq

end Asm6502
