import Asm6502.Number.Reading
import Asm6502.Number.Decimal
import Asm6502.Source.Position

/-!
# Tokens

The words of a source text. Blanks and comments are not tokens; a line end is one.
-/

namespace Asm6502.Source

/-- What a token is. -/
inductive Token.Kind where
  /-- A name. -/
  | identifier (name : String)
  /-- A name with a colon behind it. -/
  | labelDef (name : String)
  /-- A point and a word, in upper case. -/
  | directive (name : String)
  | number (value : Number)
  /-- A text in double quotes. -/
  | string (text : String)
  | hash
  | comma
  | leftParen
  | rightParen
  | plus
  | minus
  | less
  | greater
  | equals
  | star
  | newline
  deriving DecidableEq

/-- A token, at the position of its first character. -/
structure Token where
  kind : Token.Kind
  position : Position
  deriving DecidableEq

namespace Token.Kind

/-- The token that a single character is. -/
def ofPunctuation? : Char → Option Kind
  | '#' => some .hash
  | ',' => some .comma
  | '(' => some .leftParen
  | ')' => some .rightParen
  | '+' => some .plus
  | '-' => some .minus
  | '<' => some .less
  | '>' => some .greater
  | '=' => some .equals
  | '*' => some .star
  | _ => none

/-- A token as a message shows it. -/
def text : Kind → String
  | .identifier name => name
  | .labelDef name => name
  | .directive name => name
  | .number value => value.text
  | .string text => text
  | .hash => "#"
  | .comma => ","
  | .leftParen => "("
  | .rightParen => ")"
  | .plus => "+"
  | .minus => "-"
  | .less => "<"
  | .greater => ">"
  | .equals => "="
  | .star => "*"
  | .newline => "\n"

end Token.Kind

end Asm6502.Source
