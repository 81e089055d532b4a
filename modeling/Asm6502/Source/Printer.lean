import Asm6502.Source.Lexer
import Asm6502.Source.Statement

/-!
# From statements to text

Statements written out, one a line, in the form the parser reads. Expressions have no parentheses, so
only operands of the parser's own shape can be written: sums grouped from the left over unary operands.

* `render`: the text of statements.
* `Statement.Body.isWritable`: which statements have a text.
-/

namespace Asm6502.Source

-- ── What can be written ─────────────────────────────────────────────────────

/-- Names: a letter or an underscore, then letters, digits and underscores. -/
def isName (s : String) : Bool :=
  match s.toList with
  | [] => false
  | c :: rest => isNameStart c && rest.all isNameChar

/-- Numbers that a literal can stand for exactly: the integers below `2^53`. -/
def isLiteral (x : Number) : Bool :=
  match x.toInt? with
  | some n => decide (0 ≤ n ∧ n.toNat < Number.exactLimit)
  | none => false

/-- Unary operands: byte parts and opposites of unary operands, literals, names and the cursor. -/
def isUnary : Operand → Bool
  | .number x => isLiteral x
  | .name s => isName s
  | .here => true
  | .low o => isUnary o
  | .high o => isUnary o
  | .sub (.number x) o => x == 0 && isUnary o
  | _ => false

/-- Operands of the parser's shape: sums and differences grouped from the left. -/
def isExpression : Operand → Bool
  | .add l r => isExpression l && isUnary r
  | .sub l r => isExpression l && isUnary r
  | o => isUnary o

/-- Texts that fit between double quotes on a line. -/
def isQuotable (s : String) : Bool := s.toList.all (fun c => c != '"' && c != '\n')

namespace OperandSyntax

/-- Operands that can be written. A bare `A` is not direct but the accumulator. -/
def isWritable : OperandSyntax → Bool
  | .accumulator => true
  | .immediate v => isExpression v
  | .direct (.name s) none => isName s && upperCase s != "A"
  | .direct v _ => isExpression v
  | .indirect v => isExpression v
  | .indexedIndirect v => isExpression v
  | .indirectIndexed v => isExpression v

end OperandSyntax

namespace DirectiveArgument

/-- Arguments that can be written. -/
def isWritable : DirectiveArgument → Bool
  | .text content => isQuotable content
  | .value v => isExpression v

end DirectiveArgument

namespace Statement.Body

/-- Statements that can be written. -/
def isWritable : Statement.Body → Bool
  | .label name => isName name
  | .assignment name value => isName name && isExpression value
  | .instruction _ none => true
  | .instruction _ (some operand) => operand.isWritable
  | .directive _ args => args.all (·.isWritable)

end Statement.Body

-- ── Writing ─────────────────────────────────────────────────────────────────

/-- A unary operand. -/
def unaryText : Operand → String
  | .number x => x.text
  | .name s => s
  | .label s => s
  | .here => "*"
  | .low o => "<" ++ unaryText o
  | .high o => ">" ++ unaryText o
  | .sub _ o => "-" ++ unaryText o
  | .add _ o => unaryText o

/-- An expression. -/
def expressionText : Operand → String
  | .add l r => expressionText l ++ "+" ++ unaryText r
  | .sub l r => expressionText l ++ "-" ++ unaryText r
  | o => unaryText o

namespace OperandSyntax

/-- An operand as it is written. -/
def text : OperandSyntax → String
  | .accumulator => "A"
  | .immediate v => "#" ++ expressionText v
  | .direct v none => expressionText v
  | .direct v (some i) => expressionText v ++ "," ++ i.text
  | .indirect v => "(" ++ expressionText v ++ ")"
  | .indexedIndirect v => "(" ++ expressionText v ++ ",X)"
  | .indirectIndexed v => "(" ++ expressionText v ++ "),Y"

end OperandSyntax

namespace DirectiveArgument

/-- An argument as it is written. -/
def written : DirectiveArgument → String
  | .text content => "\"" ++ content ++ "\""
  | .value v => expressionText v

end DirectiveArgument

namespace Statement.Body

/-- A statement as it is written. -/
def text : Statement.Body → String
  | .label name => name ++ ":"
  | .assignment name value => name ++ "=" ++ expressionText value
  | .instruction m none => m.text
  | .instruction m (some operand) => m.text ++ " " ++ operand.text
  | .directive d [] => d.name
  | .directive d args => d.name ++ " " ++ String.intercalate "," (args.map (·.written))

end Statement.Body

/-- Statements, one a line. -/
def render (statements : List Statement.Body) : String :=
  String.intercalate "\n" (statements.map (·.text))

end Asm6502.Source
