/-!
# Addressing modes and registers

The twelve ways an instruction names what it works on. The mode alone fixes how many operand bytes
follow the opcode; the two indirect indexed modes carry a whole word.
-/

namespace Asm6502

/-- An addressing mode. -/
inductive Mode where
  /-- No operand. -/
  | implied
  /-- The operand itself, `#$xx`. -/
  | immediate
  /-- An address below 256, `$xx`. -/
  | zeroPage
  /-- `$xx,X` -/
  | zeroPageX
  /-- `$xx,Y` -/
  | zeroPageY
  /-- A full address, `$xxxx`. -/
  | absolute
  /-- `$xxxx,X` -/
  | absoluteX
  /-- `$xxxx,Y` -/
  | absoluteY
  /-- The address stored at an address, `($xxxx)`. -/
  | indirect
  /-- `($xx,X)` -/
  | indexedIndirect
  /-- `($xx),Y` -/
  | indirectIndexed
  /-- A branch target, stored as a displacement. -/
  | relative
  deriving DecidableEq, Inhabited

/-- How much operand follows an opcode. -/
inductive Width where
  | none
  | byte
  | word
  deriving DecidableEq

/-- The number of bytes of an operand. -/
def Width.size : Width → Nat
  | .none => 0
  | .byte => 1
  | .word => 2

namespace Mode

/-- Every mode. -/
def all : List Mode :=
  [.implied, .immediate, .zeroPage, .zeroPageX, .zeroPageY, .absolute, .absoluteX, .absoluteY,
   .indirect, .indexedIndirect, .indirectIndexed, .relative]

/-- The operand that a mode carries. -/
def width : Mode → Width
  | .implied => .none
  | .immediate | .zeroPage | .zeroPageX | .zeroPageY | .relative => .byte
  | .absolute | .absoluteX | .absoluteY | .indirect | .indexedIndirect | .indirectIndexed => .word

/-- The length of an instruction in this mode. -/
def length (m : Mode) : Nat := 1 + m.width.size

/-- The name of a mode. -/
def text : Mode → String
  | .implied => "implied"
  | .immediate => "immediate"
  | .zeroPage => "zeropage"
  | .zeroPageX => "zeropage_x"
  | .zeroPageY => "zeropage_y"
  | .absolute => "absolute"
  | .absoluteX => "absolute_x"
  | .absoluteY => "absolute_y"
  | .indirect => "indirect"
  | .indexedIndirect => "indirect_x"
  | .indirectIndexed => "indirect_y"
  | .relative => "relative"

/-- The mode with a name. -/
def ofText? (s : String) : Option Mode := all.find? (fun m => m.text == s)

end Mode

/-- A register that can index an address. -/
inductive Index where
  | x
  | y
  deriving DecidableEq

namespace Index

/-- The name of an index register. -/
def text : Index → String
  | .x => "X"
  | .y => "Y"

/-- The index register with a name. -/
def ofText? : String → Option Index
  | "X" => some .x
  | "Y" => some .y
  | _ => none

/-- The zero page mode with this index. -/
def zeroPage : Index → Mode
  | .x => .zeroPageX
  | .y => .zeroPageY

/-- The absolute mode with this index. -/
def absolute : Index → Mode
  | .x => .absoluteX
  | .y => .absoluteY

/-- The indirect mode with this index. -/
def indirect : Index → Mode
  | .x => .indexedIndirect
  | .y => .indirectIndexed

end Index

end Asm6502
