import Asm6502.Instruction.Descriptor

/-!
# Reading instructions back

Bytes are read as instructions from the first one on: an opcode tells how many operand bytes follow,
and the next instruction starts behind them.

* `Disassembly.sweep`: the instructions that bytes are.
* `Disassembly.Item.target`: the operand of an instruction, as the number it stands for.
* `Disassembly.listing`: instructions as they are written in a source text.
-/

namespace Asm6502.Disassembly

/-- An instruction in memory: where it lies, what it is, and the bytes behind its opcode. -/
structure Item where
  address : Nat
  descriptor : Descriptor
  operand : List UInt8
  deriving DecidableEq

/-- The instructions that bytes from an address on are; none if an opcode is unknown or an operand is
    cut short. -/
def sweep (address : Nat) (bytes : List UInt8) : Option (List Item) :=
  match bytes with
  | [] => some []
  | opcode :: rest =>
    match Descriptor.ofOpcode? opcode with
    | none => none
    | some d =>
      let size := d.mode.width.size
      if rest.length < size then none
      else (sweep (address + d.length) (rest.drop size)).map (⟨address, d, rest.take size⟩ :: ·)
termination_by bytes.length
decreasing_by
  simp only [List.length_drop, List.length_cons]
  omega

/-- A byte as a signed number in two's complement. -/
def signed (b : UInt8) : Int := if b.toNat < 128 then b.toNat else (b.toNat : Int) - 256

/-- The number that operand bytes stand for, little end first. -/
def operandValue : List UInt8 → Nat
  | [] => 0
  | b :: rest => b.toNat + 256 * operandValue rest

namespace Item

/-- What the operand of an instruction stands for: a number, or the target of a branch. -/
def target (item : Item) : Int :=
  match item.descriptor.mode, item.operand with
  | .relative, [b] => item.address + 2 + signed b
  | _, operand => operandValue operand

/-- The bytes of an instruction. -/
def bytes (item : Item) : List UInt8 := item.descriptor.opcode :: item.operand

end Item

/-- An instruction as a line of source text, with the hexadecimal digits of the number its operand stands
    for. -/
def line (d : Descriptor) (digits : String) : String :=
  let v := "$" ++ digits
  match d.mode with
  | .implied => d.mnemonic.text
  | .immediate => d.mnemonic.text ++ " #" ++ v
  | .zeroPage | .absolute | .relative => d.mnemonic.text ++ " " ++ v
  | .zeroPageX | .absoluteX => d.mnemonic.text ++ " " ++ v ++ ",X"
  | .zeroPageY | .absoluteY => d.mnemonic.text ++ " " ++ v ++ ",Y"
  | .indirect => d.mnemonic.text ++ " (" ++ v ++ ")"
  | .indexedIndirect => d.mnemonic.text ++ " (" ++ v ++ ",X)"
  | .indirectIndexed => d.mnemonic.text ++ " (" ++ v ++ "),Y"

/-- The source text of instructions with their operands, one a line, given a way to write numbers in
    hexadecimal. -/
def listing (digits : Nat → String) (instructions : List (Descriptor × Nat)) : String :=
  "\n".intercalate (instructions.map (fun (d, n) => line d (digits n)))

end Asm6502.Disassembly
