import Asm6502.Cursor
import Asm6502.Instruction.Mode
import Asm6502.Operand
import Asm6502.Pass
import Asm6502.Table

/-!
# The symbol table

Labels with their addresses, the places that refer to a label before it is defined, the addressing
modes pinned at such places, and the labels that moved between the passes.

* `Symbols.resolve`: the value of a name; in discovery an unknown one is noted and a placeholder
  answers for it, in the final pass it is a fault.
* `Symbols.define`: a definition; twice is a fault in discovery, a move in the final pass.
* `Symbols.pin`: fixes the mode of the instruction at a cursor.
-/

namespace Asm6502

/-- A place that refers to a label before its definition; `mode` is what was pinned there. -/
structure Reference where
  name : String
  address : Number
  mode : Option Mode
  deriving DecidableEq

/-- A label that the final pass defined elsewhere than discovery. -/
structure Drift where
  name : String
  discovery : UInt16
  final : UInt16
  deriving DecidableEq

/-- Everything known about labels. -/
structure Symbols where
  labels : Table String UInt16
  references : List Reference
  pins : Table Number Mode
  drifts : List Drift
  placeholder : UInt16
  deriving DecidableEq

namespace Symbols

/-- What stands in for an unknown label unless told otherwise. -/
def defaultPlaceholder : Number := 12345

/-- A symbol table without labels. The placeholder lies outside the zero page. -/
def create (placeholder : Option Number) : Except Fault Symbols :=
  let p := placeholder.getD defaultPlaceholder
  match p.toAddress? with
  | some a =>
    if a < 256 then .error (.config (.placeholder p))
    else .ok ⟨.empty, [], .empty, [], a⟩
  | none => .error (.config (.placeholder p))

/-- Defines a label at an address. -/
def define (pass : Pass) (name : String) (address : Number) : Action Symbols UInt16 := do
  let a ← checkAddress address
  let s ← get
  match s.labels.find? name, pass with
  | some _, .discovery => throw (.duplicateLabel name)
  | some existing, .final =>
    let drifts := if existing = a then s.drifts else s.drifts ++ [⟨name, existing, a⟩]
    set { s with labels := s.labels.insert name a, drifts }
  | none, _ => set { s with labels := s.labels.insert name a }
  return a

/-- Defines the two bytes of a word at the cursor, `name_lo` and `name_hi`. -/
def defineDouble (pass : Pass) (cursor : Number) (name : String) : Action Symbols Unit := do
  let _ ← define pass (name ++ "_lo") cursor
  let _ ← define pass (name ++ "_hi") (cursor + 1)

/-- Notes that a name is used at a cursor, once for each name and cursor. -/
def note (s : Symbols) (name : String) (cursor : Number) : Symbols :=
  if s.references.any (fun r => r.name == name && r.address.equals cursor) then s
  else { s with references := s.references ++ [⟨name, cursor, none⟩] }

/-- The value of a name used at a cursor. -/
def resolve (pass : Pass) (cursor : Number) (name : String) : Action Symbols Value := do
  let s ← get
  match s.labels.find? name, pass with
  | some a, _ => return ⟨.ofAddress a, false⟩
  | none, .final => throw (.undefinedLabel name)
  | none, .discovery =>
    set (s.note name cursor)
    return ⟨.ofAddress s.placeholder, true⟩

/-- Pins the mode of the instruction at a cursor. -/
def pin (s : Symbols) (cursor : Number) (mode : Mode) : Symbols :=
  { s with
    pins := s.pins.insert cursor mode
    references := s.references.map (fun r =>
      if r.address.equals cursor then { r with mode := some mode } else r) }

/-- The mode pinned at a cursor. -/
def pinned? (s : Symbols) (cursor : Number) : Option Mode := s.pins.find? cursor

end Symbols

end Asm6502
