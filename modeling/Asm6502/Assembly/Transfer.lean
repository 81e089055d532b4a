import Asm6502.Assembly.Basic

/-!
# Moving values

Short forms for loading a register and storing it: a value into one or several cells, an address into
two, a cell into another.
-/

namespace Asm6502

/-- A register that can be loaded and stored. -/
inductive Register where
  | a
  | x
  | y
  deriving DecidableEq

namespace Register

/-- The instruction that loads a register. -/
def load : Register → Mnemonic
  | .a => .lda
  | .x => .ldx
  | .y => .ldy

/-- The instruction that stores a register. -/
def store : Register → Mnemonic
  | .a => .sta
  | .x => .stx
  | .y => .sty

end Register

namespace Assembly

/-- How a value is stored. -/
structure SetOptions where
  register : Register := .a
  /-- Whether the value is loaded first. -/
  load : Bool := true
  /-- Whether the target is the cell after the one named. -/
  high : Bool := false
  /-- How many cells are stored to, if not one. -/
  length : Option Number := none
  zeroPage : Bool := false
  deriving DecidableEq

/-- Loads a value, if there is one, and stores it to one or several cells. -/
def setCells (target : Operand) (value : Option Operand) (options : SetOptions) : Assembly Unit := do
  let base := if options.high then .add target (.number 1) else target
  let flags : Flags := { zeroPage := options.zeroPage }
  match value with
  | some v => if options.load then
      let _ ← emit options.register.load [.operand v]
  | none => pure ()
  Action.times (fun i => do
    let place := if i = 0 then base else .add base (.number (.ofNat i))
    let _ ← emit options.register.store [.operand place, .flags flags])
    (options.length.getD 1).rounds 0

/-- Stores an address to two cells, low byte first. -/
def setAddress (target what : Operand) (options : SetOptions) : Assembly Unit := do
  setCells target (some (.low what)) options
  setCells target (some (.high what)) { options with high := true }

/-- How a cell is copied. -/
structure CopyOptions where
  register : Register := .a
  zeroPage : Bool := false
  deriving DecidableEq

/-- Copies one cell to another. -/
def copyCell (source target : Operand) (options : CopyOptions) : Assembly Unit := do
  let flags : Flags := { zeroPage := options.zeroPage }
  let _ ← emit options.register.load [.operand source, .flags flags]
  let _ ← emit options.register.store [.operand target, .flags flags]

end Assembly

end Asm6502
