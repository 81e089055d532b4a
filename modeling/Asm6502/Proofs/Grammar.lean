import Asm6502.Source.Statement
import Asm6502.Source.Token

/-!
# The grammar of source texts

The derivations of the grammar, as data: each says which rule is applied and where its tokens stand.

    line       := label* (directive arguments? | name '=' expression | mnemonic operand?)?
    operand    := '#' expression | A | '(' expression ',' X ')' | '(' expression ')' (',' Y)?
                | expression (',' (X | Y))?
    arguments  := argument (',' argument)*        argument := string | expression
    expression := unary (('+' | '-') unary)*
    unary      := ('<' | '>' | '-') unary | number | name | '*'

A derivation has the tokens that it derives and the syntax that they stand for. Nothing here says how a
derivation is found.

* `Grammar.Unary`, `Grammar.Expression`, `Grammar.OperandForm`, `Grammar.Arguments`, `Grammar.Line`:
  derivations from the rules.
* `tokens`: what they derive.
-/

namespace Asm6502.Source.Grammar

-- ── Expressions ─────────────────────────────────────────────────────────────

/-- A unary expression. -/
inductive Unary where
  | low (sign : Position) (part : Unary)
  | high (sign : Position) (part : Unary)
  | negative (sign : Position) (part : Unary)
  | number (value : Number) (position : Position)
  | name (word : String) (position : Position)
  | here (position : Position)

namespace Unary

def tokens : Unary → List Token
  | .low sign part => ⟨.less, sign⟩ :: part.tokens
  | .high sign part => ⟨.greater, sign⟩ :: part.tokens
  | .negative sign part => ⟨.minus, sign⟩ :: part.tokens
  | .number value position => [⟨.number value, position⟩]
  | .name word position => [⟨.identifier word, position⟩]
  | .here position => [⟨.star, position⟩]

/-- What a unary expression stands for. -/
def operand : Unary → Operand
  | .low _ part => .low part.operand
  | .high _ part => .high part.operand
  | .negative _ part => .sub (.number 0) part.operand
  | .number value _ => .number value
  | .name word _ => .name word
  | .here _ => .here

end Unary

/-- A sign between the parts of a sum. -/
inductive Sign where
  | plus
  | minus

namespace Sign

def kind : Sign → Token.Kind
  | .plus => .plus
  | .minus => .minus

/-- The sum or the difference. -/
def apply : Sign → Operand → Operand → Operand
  | .plus => .add
  | .minus => .sub

end Sign

/-- A part of a sum after its first, with its sign. -/
structure Term where
  sign : Sign
  position : Position
  part : Unary

def Term.tokens (t : Term) : List Token := ⟨t.sign.kind, t.position⟩ :: t.part.tokens

/-- An expression. -/
structure Expression where
  first : Unary
  terms : List Term

namespace Expression

def tokens (e : Expression) : List Token := e.first.tokens ++ e.terms.flatMap Term.tokens

/-- What an expression stands for; sums are grouped from the left. -/
def operand (e : Expression) : Operand :=
  e.terms.foldl (fun left t => t.sign.apply left t.part.operand) e.first.operand

end Expression

-- ── Operands ────────────────────────────────────────────────────────────────

/-- The name of a register, in either case. -/
structure RegisterName (register : String) where
  name : String
  position : Position
  spells : upperCase name = register

def RegisterName.token {register : String} (r : RegisterName register) : Token :=
  ⟨.identifier r.name, r.position⟩

/-- The operand of an instruction. The accumulator alone is no expression. -/
inductive OperandForm where
  | immediate (hash : Position) (value : Expression)
  | accumulator (register : RegisterName "A")
  | indexedIndirect (opening : Position) (value : Expression) (comma : Position)
      (register : RegisterName "X") (closing : Position)
  | indirect (opening : Position) (value : Expression) (closing : Position)
  | indirectIndexed (opening : Position) (value : Expression) (closing comma : Position)
      (register : RegisterName "Y")
  | direct (value : Expression) (proper : ∀ a : RegisterName "A", value.tokens ≠ [a.token])
  | indexed (value : Expression) (comma : Position) (index : Index)
      (register : RegisterName index.text)

namespace OperandForm

def tokens : OperandForm → List Token
  | .immediate hash value => ⟨.hash, hash⟩ :: value.tokens
  | .accumulator register => [register.token]
  | .indexedIndirect opening value comma register closing =>
    ⟨.leftParen, opening⟩ :: (value.tokens ++ [⟨.comma, comma⟩, register.token, ⟨.rightParen, closing⟩])
  | .indirect opening value closing =>
    ⟨.leftParen, opening⟩ :: (value.tokens ++ [⟨.rightParen, closing⟩])
  | .indirectIndexed opening value closing comma register =>
    ⟨.leftParen, opening⟩ :: (value.tokens ++ [⟨.rightParen, closing⟩, ⟨.comma, comma⟩, register.token])
  | .direct value _ => value.tokens
  | .indexed value comma _ register => value.tokens ++ [⟨.comma, comma⟩, register.token]

/-- What an operand stands for. -/
def form : OperandForm → OperandSyntax
  | .immediate _ value => .immediate value.operand
  | .accumulator _ => .accumulator
  | .indexedIndirect _ value _ _ _ => .indexedIndirect value.operand
  | .indirect _ value _ => .indirect value.operand
  | .indirectIndexed _ value _ _ _ => .indirectIndexed value.operand
  | .direct value _ => .direct value.operand none
  | .indexed value _ index _ => .direct value.operand (some index)

end OperandForm

-- ── Arguments ───────────────────────────────────────────────────────────────

/-- One argument of a directive. -/
inductive Argument where
  | text (content : String) (position : Position)
  | value (expression : Expression)

namespace Argument

def tokens : Argument → List Token
  | .text content position => [⟨.string content, position⟩]
  | .value expression => expression.tokens

/-- What an argument stands for. -/
def form : Argument → DirectiveArgument
  | .text content _ => .text content
  | .value expression => .value expression.operand

end Argument

/-- The arguments of a directive; after the first, each has a comma before it. -/
structure Arguments where
  first : Argument
  others : List (Position × Argument)

namespace Arguments

def tokens (args : Arguments) : List Token :=
  args.first.tokens ++ args.others.flatMap (fun other => ⟨.comma, other.1⟩ :: other.2.tokens)

/-- What arguments stand for. -/
def forms (args : Arguments) : List DirectiveArgument :=
  args.first.form :: args.others.map (fun other => other.2.form)

end Arguments

-- ── Lines ───────────────────────────────────────────────────────────────────

/-- What follows the labels of a line. -/
inductive Phrase where
  | directive (d : Directive) (position : Position) (args : Option Arguments)
  | assignment (name : String) (position equals : Position) (value : Expression)
  | instruction (m : Mnemonic) (word : String) (spells : upperCase word = m.text) (position : Position)
      (operand : Option OperandForm)

namespace Phrase

/-- The first token. -/
def first : Phrase → Token
  | .directive d position _ => ⟨.directive d.name, position⟩
  | .assignment name position _ _ => ⟨.identifier name, position⟩
  | .instruction _ word _ position _ => ⟨.identifier word, position⟩

/-- The other tokens. -/
def others : Phrase → List Token
  | .directive _ _ args => args.elim [] Arguments.tokens
  | .assignment _ _ equals value => ⟨.equals, equals⟩ :: value.tokens
  | .instruction _ _ _ _ operand => operand.elim [] OperandForm.tokens

/-- What it says. -/
def body : Phrase → Statement.Body
  | .directive d _ args => .directive d (args.elim [] Arguments.forms)
  | .assignment name _ _ value => .assignment name value.operand
  | .instruction m _ _ _ operand => .instruction m (operand.map OperandForm.form)

/-- The statement, at its first token. -/
def statement (p : Phrase) : Statement := ⟨p.body, p.first.position⟩

end Phrase

/-- A label at the beginning of a line. -/
structure Label where
  name : String
  position : Position

namespace Label

def token (l : Label) : Token := ⟨.labelDef l.name, l.position⟩

/-- The statement, at its token. -/
def statement (l : Label) : Statement := ⟨.label l.name, l.token.position⟩

end Label

/-- A line: labels, and at most one phrase. -/
structure Line where
  labels : List Label
  phrase : Option Phrase

namespace Line

def tokens (l : Line) : List Token :=
  l.labels.map Label.token ++ l.phrase.elim [] (fun p => p.first :: p.others)

/-- The statements of a line, in order. -/
def statements (l : Line) : List Statement :=
  l.labels.map Label.statement ++ (l.phrase.map Phrase.statement).toList

end Line

end Asm6502.Source.Grammar
