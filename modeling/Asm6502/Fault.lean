import Asm6502.Instruction.Mnemonic
import Asm6502.Instruction.Mode
import Asm6502.Number.Decimal
import Asm6502.Number.Hexadecimal
import Asm6502.Source.Directive
import Asm6502.Source.Position

/-!
# Faults — everything that can go wrong

A `Fault` is a cause, with the values that show it; `Fault.message` is the one place where causes are
put into words. A fault of a statement is wrapped with the position of that statement (`located`).
-/

namespace Asm6502

/-- What is wrong with the arguments of an operation. -/
inductive ArityProblem where
  /-- Addressing options stand before an operand. -/
  | optionsNotLast (mnemonic : Mnemonic)
  /-- More than an operand and an index register. -/
  | tooManyOperands (mnemonic : Mnemonic) (count : Nat)
  /-- The second operand is no index register. -/
  | noIndexRegister (mnemonic : Mnemonic)
  /-- An operand for a mnemonic without any. -/
  | takesNoOperand (mnemonic : Mnemonic)
  /-- A generator of bytes stands before another argument. -/
  | generatorNotLast
  /-- More than an address and a byte to fill with. -/
  | tooManyFillValues (count : Nat)
  deriving DecidableEq

/-- What is wrong with the options of a compilation. -/
inductive ConfigProblem where
  | memoryStart (address : Number)
  | memoryEnd (address : Number)
  | memoryRange (start finish : Number)
  | placeholder (value : Number)
  deriving DecidableEq

/-- How the final pass differs from discovery; each pair is discovery first. -/
inductive PassDifference where
  | instructions (before after : Nat)
  | bytes (before after : Nat)
  | endCursor (before after : Number)
  | label (name : String) (before after : UInt16)
  deriving DecidableEq

/-- What is wrong with the characters of a source text. -/
inductive LexicalProblem where
  | unexpectedCharacter (c : Char)
  | noDigits
  | unterminatedString
  | unterminatedCharacter
  deriving DecidableEq

/-- What is wrong with the tokens of a source text; `found` is the text of the token in the way. -/
inductive GrammarProblem where
  | unexpectedToken (found : String)
  | unknownInstruction (found : String)
  | unknownDirective (found : String)
  | noExpression (found : String)
  | noIndexRegister
  | wrongIndexRegister (wanted : Index)
  | unclosedIndexedIndirect
  | unclosedIndirect
  deriving DecidableEq

/-- A quantity of a source text that has to be known when it is met. -/
inductive Subject where
  | origin
  | fillCount
  | valueOf (name : String)
  deriving DecidableEq

/-- A reason for which an operation fails. -/
inductive Fault where
  /-- The instruction table has no such form. -/
  | unknownInstruction (mnemonic : Mnemonic) (mode : Mode)
  /-- A branch with an index register. -/
  | indexedBranch (mnemonic : Mnemonic)
  /-- An indirect indexed operand outside the zero page. -/
  | wideIndirect (mnemonic : Mnemonic) (index : Index) (value : Number)
  /-- A label defined twice in discovery. -/
  | duplicateLabel (name : String)
  /-- A label still undefined in the final pass. -/
  | undefinedLabel (name : String)
  /-- A cell written by somebody other than its owner. -/
  | ownershipConflict (address : UInt16) (existing newcomer : String)
  /-- A branch target out of reach. -/
  | branchOutOfRange (mnemonic : Mnemonic) (cursor target displacement : Number)
  | arity (problem : ArityProblem)
  /-- A value that is no byte. -/
  | byteRange (value : Number)
  /-- A byte that a rule does not give. -/
  | missingByte
  /-- A value that is no address. -/
  | addressRange (address : Number)
  /-- A value that is no word. -/
  | valueRange (value : Number)
  | passMismatch (differences : List PassDifference)
  | config (problem : ConfigProblem)
  /-- The final pass begun twice. -/
  | alreadyFinal
  /-- Components inside each other without end. -/
  | nestedTooDeep
  /-- A quantity that rests on a label defined only further down. -/
  | notYetDefined (subject : Subject)
  /-- A text given to a directive that takes none. -/
  | textArgument (directive : Source.Directive)
  /-- An origin without exactly one address. -/
  | originArguments
  /-- A fill without a count, or with too much. -/
  | fillArguments
  | lexical (problem : LexicalProblem) (position : Source.Position)
  | grammar (problem : GrammarProblem) (position : Source.Position)
  /-- A fault of the statement at a position. -/
  | located (position : Source.Position) (cause : Fault)
  deriving DecidableEq

/-- An address as a marked hexadecimal word. -/
def Number.markedHex (x : Number) : String := "$" ++ x.hexWord

/-- A natural number in decimal. -/
def natText (n : Nat) : String := (Number.ofNat n).text

namespace ArityProblem

/-- The problem in words. -/
def message : ArityProblem → String
  | .optionsNotLast m => m.text ++ ": options must be the last argument"
  | .tooManyOperands m n =>
    m.text ++ " takes an operand and an optional index register, got " ++ natText n ++ " operands"
  | .noIndexRegister m => m.text ++ ": index register must be X or Y"
  | .takesNoOperand m => m.text ++ " takes no operand"
  | .generatorNotLast => "fill: generator must be the last argument"
  | .tooManyFillValues n =>
    "fill takes at most an address and a data byte, got " ++ natText n ++ " values"

end ArityProblem

namespace ConfigProblem

/-- The problem in words. -/
def message : ConfigProblem → String
  | .memoryStart a => "Invalid memory start " ++ a.text
  | .memoryEnd a => "Invalid memory end " ++ a.text
  | .memoryRange s f => "Invalid memory range " ++ s.text ++ ".." ++ f.text
  | .placeholder p => "Placeholder " ++ p.text ++ " must lie in 256..65535"

end ConfigProblem

namespace PassDifference

/-- The difference in words. -/
def message : PassDifference → String
  | .instructions d f => natText d ++ " vs " ++ natText f ++ " instructions"
  | .bytes d f => natText d ++ " vs " ++ natText f ++ " bytes"
  | .endCursor d f => "program ends at " ++ d.markedHex ++ " vs " ++ f.markedHex
  | .label name d f =>
    "label '" ++ name ++ "' moved from " ++ (Number.ofAddress d).markedHex ++
      " to " ++ (Number.ofAddress f).markedHex

end PassDifference

namespace LexicalProblem

/-- The problem in words. -/
def message : LexicalProblem → String
  | .unexpectedCharacter c => "Unexpected character '" ++ String.singleton c ++ "'"
  | .noDigits => "Expected digits after number prefix"
  | .unterminatedString => "Unterminated string literal"
  | .unterminatedCharacter => "Unterminated character literal"

end LexicalProblem

namespace GrammarProblem

/-- The problem in words. -/
def message : GrammarProblem → String
  | .unexpectedToken s => "Unexpected token '" ++ s ++ "'"
  | .unknownInstruction s => "Unknown instruction '" ++ s ++ "'"
  | .unknownDirective s => "Unknown directive '" ++ s ++ "'"
  | .noExpression s => "Expected expression, got '" ++ s ++ "'"
  | .noIndexRegister => "Expected index register X or Y"
  | .wrongIndexRegister i => "Expected index register " ++ i.text
  | .unclosedIndexedIndirect => "Expected ')' after indexed-indirect operand"
  | .unclosedIndirect => "Expected ')' after indirect operand"

end GrammarProblem

namespace Subject

/-- The quantity in words. -/
def text : Subject → String
  | .origin => ".ORG address"
  | .fillCount => ".FILL count"
  | .valueOf name => "Value of '" ++ name ++ "'"

end Subject

namespace Fault

/-- A position as the end of a message. -/
def place (p : Source.Position) : String :=
  "line " ++ natText p.line ++ ", column " ++ natText p.column

/-- The fault in words. -/
def message : Fault → String
  | .unknownInstruction m mode =>
    "Unknown instruction: " ++ m.text ++ " has no " ++ mode.text ++ " addressing mode"
  | .indexedBranch m => m.text ++ ": branches take a target address, not an indexed operand"
  | .wideIndirect m index value =>
    m.text ++ ": indirect " ++ index.text ++ "-indexed operand must be a zero-page address, got " ++
      value.text
  | .duplicateLabel name => "Double definition of label '" ++ name ++ "'"
  | .undefinedLabel name => "Undefined label '" ++ name ++ "'"
  | .ownershipConflict a existing newcomer =>
    "Memory location " ++ (Number.ofAddress a).text ++ " (" ++ (Number.ofAddress a).markedHex ++
      ") is owned by " ++ existing ++ " and cannot be reassigned by " ++ newcomer
  | .branchOutOfRange m cursor target displacement =>
    "Branch out of range: " ++ displacement.text ++ " (" ++ m.text ++ " at " ++ cursor.markedHex ++
      " to " ++ target.markedHex ++ ")"
  | .arity problem => "Wrong number of arguments: " ++ problem.message
  | .byteRange v =>
    if v.isInteger then "Value " ++ v.text ++ " is out of byte range [0..255]"
    else "Value " ++ v.text ++ " is not a valid integer"
  | .missingByte => "Value undefined is not a valid integer"
  | .addressRange a => "Address " ++ a.text ++ " is outside the address space [0..65535]"
  | .valueRange v => "Number out of range: " ++ v.text
  | .passMismatch differences =>
    "Discovery and final pass disagree: " ++ String.intercalate ", " (differences.map (·.message))
  | .config problem => problem.message
  | .alreadyFinal => "Compilation is already in its final pass"
  | .nestedTooDeep => "Components are nested too deeply"
  | .notYetDefined subject => subject.text ++ " must only use labels defined above it"
  | .textArgument directive => directive.name ++ " does not take a string"
  | .originArguments => ".ORG takes exactly one address"
  | .fillArguments => ".FILL takes a count and an optional byte"
  | .lexical problem p => problem.message ++ " at " ++ place p
  | .grammar problem p => problem.message ++ " at " ++ place p
  | .located p cause => place p ++ ": " ++ cause.message

/-- Whether a fault already carries the position of a statement. -/
def isLocated : Fault → Bool
  | .located _ _ => true
  | _ => false

end Fault

end Asm6502
