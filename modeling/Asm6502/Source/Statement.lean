import Asm6502.Instruction.Descriptor
import Asm6502.Operand
import Asm6502.Source.Directive
import Asm6502.Source.Position

/-!
# Statements

What a source text says: labels, assignments, instructions and directives, each with its position.
-/

namespace Asm6502.Source

/-- How an operand is written. -/
inductive OperandSyntax where
  /-- `A` -/
  | accumulator
  /-- `#expr` -/
  | immediate (value : Operand)
  /-- `expr`, `expr,X` or `expr,Y` -/
  | direct (value : Operand) (index : Option Index)
  /-- `(expr)` -/
  | indirect (value : Operand)
  /-- `(expr,X)` -/
  | indexedIndirect (value : Operand)
  /-- `(expr),Y` -/
  | indirectIndexed (value : Operand)
  deriving DecidableEq

/-- An argument of a directive. -/
inductive DirectiveArgument where
  | text (content : String)
  | value (value : Operand)
  deriving DecidableEq

/-- What a statement says. -/
inductive Statement.Body where
  /-- Defines a label at the cursor. -/
  | label (name : String)
  /-- Gives a name a value. -/
  | assignment (name : String) (value : Operand)
  | instruction (mnemonic : Mnemonic) (operand : Option OperandSyntax)
  | directive (directive : Directive) (arguments : List DirectiveArgument)
  deriving DecidableEq

/-- A statement, at the position of its first token. -/
structure Statement where
  body : Statement.Body
  position : Position
  deriving DecidableEq

end Asm6502.Source
