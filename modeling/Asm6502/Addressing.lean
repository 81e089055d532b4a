import Asm6502.Instruction.Descriptor
import Asm6502.Symbols

/-!
# Addressing — from an operand to bytes

An instruction's mode is chosen from its operand's value, index register and flags. While the value is
pending the choice is made as if the value lay outside the zero page, unless the operand is a byte
part, and is pinned to the cursor; the final pass takes the pinned mode, so both passes agree on the
length of the instruction.

* `selectMode`: the mode for a value.
* `branchOffset`: the displacement byte of a branch.
* `encode`: the bytes of an instruction.
* `Scope.assemble`: all of it for one instruction.
-/

namespace Asm6502

/-- What a program may say about an operand. -/
structure Flags where
  zeroPage : Bool := false
  indirect : Bool := false
  deriving DecidableEq

/-- An instruction and its bytes, not yet checked to be bytes. -/
structure Encoded where
  descriptor : Descriptor
  bytes : List Number
  deriving DecidableEq

/-- The table row of a mnemonic in a mode. -/
def lookup (m : Mnemonic) (mode : Mode) : Except Fault Descriptor :=
  match m.descriptor? mode with
  | some d => .ok d
  | none => .error (.unknownInstruction m mode)

/-- The mode of an instruction with an operand. -/
def selectMode (m : Mnemonic) (value : Number) (index : Option Index) (flags : Flags) :
    Except Fault Mode :=
  match index with
  | none =>
    if flags.indirect then .ok .indirect
    else if flags.zeroPage then .ok .zeroPage
    else if value < 256 ∧ m.hasMode .immediate then .ok .immediate
    else .ok .absolute
  | some i =>
    if flags.indirect then
      if flags.zeroPage ∨ value < 256 then .ok i.indirect
      else .error (.wideIndirect m i value)
    else if flags.zeroPage ∨ (value < 256 ∧ m.hasMode i.zeroPage) then .ok i.zeroPage
    else .ok i.absolute

/-- The displacement byte from the branch at a cursor to its target, as a byte in two's complement. -/
def branchOffset (m : Mnemonic) (cursor target : Number) (check : Bool) : Except Fault UInt8 :=
  let displacement := target - (cursor + 2)
  if check ∧ (127 < displacement ∨ displacement < -128) then
    .error (.branchOutOfRange m cursor target displacement)
  else if displacement < 0 then .ok (256 + displacement).lowByte
  else .ok displacement.lowByte

/-- The bytes of an instruction. A pending value is cut to size; a known word is checked, and a known
    byte is left to the check of its write. -/
def encode (d : Descriptor) (v : Value) : Except Fault (List Number) :=
  match d.mode.width with
  | .none => .ok [.ofByte d.opcode]
  | .byte => .ok [.ofByte d.opcode, if v.pending then .ofByte v.amount.lowByte else v.amount]
  | .word => do
    let w ← v.word
    return [.ofByte d.opcode, .ofByte (lowByte w), .ofByte (highByte w)]

/-- Where an instruction is assembled: the cursor, the pass, and how names resolve there. -/
structure Scope where
  cursor : Number
  pass : Pass
  resolve : String → Action Symbols Value

namespace Scope

/-- The scope at a cursor in a pass, with names resolved by the symbol table. -/
def atCursor (cursor : Number) (pass : Pass) : Scope :=
  ⟨cursor, pass, Symbols.resolve pass cursor⟩

/-- The value of an operand. -/
def evaluate (scope : Scope) (operand : Operand) : Action Symbols Value :=
  operand.evaluate scope.resolve scope.cursor

/-- Chooses the mode of an instruction with an operand of a known or pending value. -/
def mode (scope : Scope) (m : Mnemonic) (operand : Operand) (v : Value) (index : Option Index)
    (flags : Flags) : Action Symbols Mode := do
  let symbols ← get
  match if scope.pass.isFinal then symbols.pinned? scope.cursor else none with
  | some mode => return mode
  | none =>
    let selectable := if v.pending && !operand.isBytePart then v.amount.maximum 256 else v.amount
    selectMode m selectable index flags

/-- Assembles one instruction. -/
def assemble (scope : Scope) (m : Mnemonic) (operand : Option Operand) (index : Option Index)
    (flags : Flags) : Action Symbols Encoded := do
  match operand with
  | none =>
    let d ← lookup m .implied
    return ⟨d, ← encode d ⟨0, false⟩⟩
  | some operand =>
    let v ← scope.evaluate operand
    if m.isBranch then
      if index.isSome then throw (.indexedBranch m)
      let d ← lookup m .relative
      let offset ← branchOffset m scope.cursor v.amount (scope.pass.isFinal && !v.pending)
      return ⟨d, [.ofByte d.opcode, .ofByte offset]⟩
    else
      let mode ← scope.mode m operand v index flags
      let d ← lookup m mode
      if v.pending then modify (fun s => s.pin scope.cursor mode)
      return ⟨d, ← encode d v⟩

end Scope

end Asm6502
