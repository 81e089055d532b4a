import Asm6502.Instruction.Mnemonic
import Asm6502.Instruction.Mode

/-!
# The instruction set

Which addressing modes each mnemonic has, with opcode and cycle count. A `Descriptor` is one row of
this table; its length follows from the mode. `Descriptor.all` lists the rows by opcode, and
`Descriptor.ofOpcode?` finds the row of an opcode, so decoding reads the same table as encoding.
-/

namespace Asm6502

/-- One form of a mnemonic: a mode, its opcode and the cycles it takes. -/
structure Form where
  mode : Mode
  opcode : UInt8
  cycles : Nat
  deriving DecidableEq

/-- An instruction as the table lists it. -/
structure Descriptor where
  mnemonic : Mnemonic
  form : Form
  deriving DecidableEq

namespace Descriptor

/-- The addressing mode. -/
def mode (d : Descriptor) : Mode := d.form.mode

/-- The first byte of the encoding. -/
def opcode (d : Descriptor) : UInt8 := d.form.opcode

/-- The cycles that the instruction takes, without penalties. -/
def cycles (d : Descriptor) : Nat := d.form.cycles

/-- How many bytes the encoding has. -/
def length (d : Descriptor) : Nat := d.mode.length

end Descriptor

namespace Mnemonic

/-- The forms of a mnemonic, in the order of the table. -/
def forms : Mnemonic → List Form
  | .adc => [⟨.immediate, 0x69, 2⟩, ⟨.zeroPage, 0x65, 3⟩, ⟨.zeroPageX, 0x75, 4⟩, ⟨.absolute, 0x6D, 4⟩,
      ⟨.absoluteX, 0x7D, 4⟩, ⟨.absoluteY, 0x79, 4⟩, ⟨.indexedIndirect, 0x61, 6⟩,
      ⟨.indirectIndexed, 0x71, 5⟩]
  | .and => [⟨.immediate, 0x29, 2⟩, ⟨.zeroPage, 0x25, 3⟩, ⟨.zeroPageX, 0x35, 4⟩, ⟨.absolute, 0x2D, 4⟩,
      ⟨.absoluteX, 0x3D, 4⟩, ⟨.absoluteY, 0x39, 4⟩, ⟨.indexedIndirect, 0x21, 6⟩,
      ⟨.indirectIndexed, 0x31, 5⟩]
  | .asl => [⟨.implied, 0x0A, 2⟩, ⟨.zeroPage, 0x06, 5⟩, ⟨.zeroPageX, 0x16, 6⟩, ⟨.absolute, 0x0E, 6⟩,
      ⟨.absoluteX, 0x1E, 7⟩]
  | .bcc => [⟨.relative, 0x90, 2⟩]
  | .bcs => [⟨.relative, 0xB0, 2⟩]
  | .beq => [⟨.relative, 0xF0, 2⟩]
  | .bit => [⟨.zeroPage, 0x24, 3⟩, ⟨.absolute, 0x2C, 4⟩]
  | .bmi => [⟨.relative, 0x30, 2⟩]
  | .bne => [⟨.relative, 0xD0, 2⟩]
  | .bpl => [⟨.relative, 0x10, 2⟩]
  | .brk => [⟨.implied, 0x00, 7⟩]
  | .bvc => [⟨.relative, 0x50, 2⟩]
  | .bvs => [⟨.relative, 0x70, 2⟩]
  | .clc => [⟨.implied, 0x18, 2⟩]
  | .cld => [⟨.implied, 0xD8, 2⟩]
  | .cli => [⟨.implied, 0x58, 2⟩]
  | .clv => [⟨.implied, 0xB8, 2⟩]
  | .cmp => [⟨.immediate, 0xC9, 2⟩, ⟨.zeroPage, 0xC5, 3⟩, ⟨.zeroPageX, 0xD5, 4⟩, ⟨.absolute, 0xCD, 4⟩,
      ⟨.absoluteX, 0xDD, 4⟩, ⟨.absoluteY, 0xD9, 4⟩, ⟨.indexedIndirect, 0xC1, 6⟩,
      ⟨.indirectIndexed, 0xD1, 5⟩]
  | .cpx => [⟨.immediate, 0xE0, 2⟩, ⟨.zeroPage, 0xE4, 3⟩, ⟨.absolute, 0xEC, 4⟩]
  | .cpy => [⟨.immediate, 0xC0, 2⟩, ⟨.zeroPage, 0xC4, 3⟩, ⟨.absolute, 0xCC, 4⟩]
  | .dec => [⟨.zeroPage, 0xC6, 5⟩, ⟨.zeroPageX, 0xD6, 6⟩, ⟨.absolute, 0xCE, 6⟩, ⟨.absoluteX, 0xDE, 7⟩]
  | .dex => [⟨.implied, 0xCA, 2⟩]
  | .dey => [⟨.implied, 0x88, 2⟩]
  | .eor => [⟨.immediate, 0x49, 2⟩, ⟨.zeroPage, 0x45, 3⟩, ⟨.zeroPageX, 0x55, 4⟩, ⟨.absolute, 0x4D, 4⟩,
      ⟨.absoluteX, 0x5D, 4⟩, ⟨.absoluteY, 0x59, 4⟩, ⟨.indexedIndirect, 0x41, 6⟩,
      ⟨.indirectIndexed, 0x51, 5⟩]
  | .inc => [⟨.zeroPage, 0xE6, 5⟩, ⟨.zeroPageX, 0xF6, 6⟩, ⟨.absolute, 0xEE, 6⟩, ⟨.absoluteX, 0xFE, 7⟩]
  | .inx => [⟨.implied, 0xE8, 2⟩]
  | .iny => [⟨.implied, 0xC8, 2⟩]
  | .jmp => [⟨.absolute, 0x4C, 3⟩, ⟨.indirect, 0x6C, 5⟩]
  | .jsr => [⟨.absolute, 0x20, 6⟩]
  | .lda => [⟨.immediate, 0xA9, 2⟩, ⟨.zeroPage, 0xA5, 3⟩, ⟨.zeroPageX, 0xB5, 4⟩, ⟨.absolute, 0xAD, 4⟩,
      ⟨.absoluteX, 0xBD, 4⟩, ⟨.absoluteY, 0xB9, 4⟩, ⟨.indexedIndirect, 0xA1, 6⟩,
      ⟨.indirectIndexed, 0xB1, 5⟩]
  | .ldx => [⟨.immediate, 0xA2, 2⟩, ⟨.zeroPage, 0xA6, 3⟩, ⟨.zeroPageY, 0xB6, 4⟩, ⟨.absolute, 0xAE, 4⟩,
      ⟨.absoluteY, 0xBE, 4⟩]
  | .ldy => [⟨.immediate, 0xA0, 2⟩, ⟨.zeroPage, 0xA4, 3⟩, ⟨.zeroPageX, 0xB4, 4⟩, ⟨.absolute, 0xAC, 4⟩,
      ⟨.absoluteX, 0xBC, 4⟩]
  | .lsr => [⟨.implied, 0x4A, 2⟩, ⟨.zeroPage, 0x46, 5⟩, ⟨.zeroPageX, 0x56, 6⟩, ⟨.absolute, 0x4E, 6⟩,
      ⟨.absoluteX, 0x5E, 7⟩]
  | .nop => [⟨.implied, 0xEA, 2⟩]
  | .ora => [⟨.immediate, 0x09, 2⟩, ⟨.zeroPage, 0x05, 3⟩, ⟨.zeroPageX, 0x15, 4⟩, ⟨.absolute, 0x0D, 4⟩,
      ⟨.absoluteX, 0x1D, 4⟩, ⟨.absoluteY, 0x19, 4⟩, ⟨.indexedIndirect, 0x01, 6⟩,
      ⟨.indirectIndexed, 0x11, 5⟩]
  | .pha => [⟨.implied, 0x48, 3⟩]
  | .php => [⟨.implied, 0x08, 3⟩]
  | .pla => [⟨.implied, 0x68, 4⟩]
  | .plp => [⟨.implied, 0x28, 4⟩]
  | .rol => [⟨.implied, 0x2A, 2⟩, ⟨.zeroPage, 0x26, 5⟩, ⟨.zeroPageX, 0x36, 6⟩, ⟨.absolute, 0x2E, 6⟩,
      ⟨.absoluteX, 0x3E, 7⟩]
  | .ror => [⟨.implied, 0x6A, 2⟩, ⟨.zeroPage, 0x66, 5⟩, ⟨.zeroPageX, 0x76, 6⟩, ⟨.absolute, 0x6E, 6⟩,
      ⟨.absoluteX, 0x7E, 7⟩]
  | .rti => [⟨.implied, 0x40, 6⟩]
  | .rts => [⟨.implied, 0x60, 6⟩]
  | .sbc => [⟨.immediate, 0xE9, 2⟩, ⟨.zeroPage, 0xE5, 3⟩, ⟨.zeroPageX, 0xF5, 4⟩, ⟨.absolute, 0xED, 4⟩,
      ⟨.absoluteX, 0xFD, 4⟩, ⟨.absoluteY, 0xF9, 4⟩, ⟨.indexedIndirect, 0xE1, 6⟩,
      ⟨.indirectIndexed, 0xF1, 5⟩]
  | .sec => [⟨.implied, 0x38, 2⟩]
  | .sed => [⟨.implied, 0xF8, 2⟩]
  | .sei => [⟨.implied, 0x78, 2⟩]
  | .sta => [⟨.zeroPage, 0x85, 3⟩, ⟨.zeroPageX, 0x95, 4⟩, ⟨.absolute, 0x8D, 4⟩, ⟨.absoluteX, 0x9D, 5⟩,
      ⟨.absoluteY, 0x99, 5⟩, ⟨.indexedIndirect, 0x81, 6⟩, ⟨.indirectIndexed, 0x91, 6⟩]
  | .stx => [⟨.zeroPage, 0x86, 3⟩, ⟨.zeroPageY, 0x96, 4⟩, ⟨.absolute, 0x8E, 4⟩]
  | .sty => [⟨.zeroPage, 0x84, 3⟩, ⟨.zeroPageX, 0x94, 4⟩, ⟨.absolute, 0x8C, 4⟩]
  | .tax => [⟨.implied, 0xAA, 2⟩]
  | .tay => [⟨.implied, 0xA8, 2⟩]
  | .tsx => [⟨.implied, 0xBA, 2⟩]
  | .txa => [⟨.implied, 0x8A, 2⟩]
  | .txs => [⟨.implied, 0x9A, 2⟩]
  | .tya => [⟨.implied, 0x98, 2⟩]

/-- The modes of a mnemonic, in the order of the table. -/
def modes (m : Mnemonic) : List Mode := m.forms.map (·.mode)

/-- Whether a mnemonic has a mode. -/
def hasMode (m : Mnemonic) (mode : Mode) : Bool := m.modes.contains mode

/-- The table row of a mnemonic in a mode, if there is one. -/
def descriptor? (m : Mnemonic) (mode : Mode) : Option Descriptor :=
  (m.forms.find? (fun f => f.mode == mode)).map (fun f => ⟨m, f⟩)

/-- Branches are the mnemonics with a relative form, which is then their only form. -/
def isBranch (m : Mnemonic) : Bool := m.hasMode .relative

/-- Whether a mnemonic takes no operand at all. -/
def isImpliedOnly (m : Mnemonic) : Bool := m.modes == [.implied]

end Mnemonic

namespace Descriptor

/-- The rows of the table, mnemonic by mnemonic. -/
def table : List Descriptor := Mnemonic.all.flatMap (fun m => m.forms.map (fun f => ⟨m, f⟩))

/-- The row that has an opcode, if any. -/
def ofOpcode? (opcode : UInt8) : Option Descriptor := table.find? (fun d => d.opcode == opcode)

/-- The rows of the table by opcode. -/
def all : List Descriptor := (List.range 256).filterMap (fun n => ofOpcode? (UInt8.ofNat n))

end Descriptor

end Asm6502
