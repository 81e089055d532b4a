import Asm6502.Fault
import Asm6502.Source.Token

/-!
# From units to tokens

A source is a sequence of UTF-16 units, which is cut into lexemes from left to right. `lexeme` looks at the
first unit and says which token starts there, if any, and how many further units belong to it; `scanUnits`
does so until the source ends. Numbers, names and directives are as long as possible.

Half of a character may stand alone in a source. Within double quotes it is kept, so what is read there are
units; `RawToken.decode` makes characters of them.
-/

namespace Asm6502.Source

open Text (unitChar)

-- ── Character classes ───────────────────────────────────────────────────────

/-- Blanks within a line. -/
def isLineBlank (c : Char) : Bool := c == ' ' || c == '\t' || c == '\r'

/-- Characters that may start a name: the letters of ASCII and the underscore. -/
def isNameStart (c : Char) : Bool :=
  ('a' ≤ c && c ≤ 'z') || ('A' ≤ c && c ≤ 'Z') || c == '_'

/-- Characters within a name. -/
def isNameChar (c : Char) : Bool := isNameStart c || ('0' ≤ c && c ≤ '9')

/-- The quote around a character. -/
def singleQuote : Char := Char.ofNat 39

-- ── Tokens of units ─────────────────────────────────────────────────────────

/-- What a token is that units write. -/
inductive RawToken.Kind where
  /-- The units between double quotes. -/
  | quoted (units : List Nat)
  /-- Any other token. -/
  | plain (kind : Token.Kind)
  deriving DecidableEq

/-- A token that units write, at the position of its first unit. -/
structure RawToken where
  kind : RawToken.Kind
  position : Position
  deriving DecidableEq

/-- The kind of token, with the characters that its units write. -/
def RawToken.Kind.decode : RawToken.Kind → Token.Kind
  | .quoted units => .string (String.ofList (Text.characters units))
  | .plain kind => kind

def RawToken.decode (t : RawToken) : Token := ⟨t.kind.decode, t.position⟩

-- ── Lexemes ─────────────────────────────────────────────────────────────────

/-- A lexeme: the token it makes, if any, and how many units follow its first. -/
abbrev Lexeme : Type := Option RawToken.Kind × Nat

/-- A number after its mark. -/
def markedNumber (base : Nat) (rest : List Nat) : Except LexicalProblem Lexeme :=
  match rest.takeWhile (fun u => isDigitIn base (unitChar u)) with
  | [] => .error .noDigits
  | digits => .ok (some (.plain (.number (.ofDigits base (digits.map unitChar)))), digits.length)

/-- A text after its opening quote; it ends on its line. -/
def quotedText (rest : List Nat) : Except LexicalProblem Lexeme :=
  let body := rest.takeWhile (fun u => u != '"'.toNat && u != '\n'.toNat)
  if (rest.drop body.length).head? = some '"'.toNat then .ok (some (.quoted body), body.length + 1)
  else .error .unterminatedString

/-- A unit after its opening quote, which stands for its code. -/
def quotedCharacter : List Nat → Except LexicalProblem Lexeme
  | u :: close :: _ =>
    if u ≠ '\n'.toNat ∧ close = singleQuote.toNat then .ok (some (.plain (.number (.ofNat u))), 2)
    else .error .unterminatedCharacter
  | _ => .error .unterminatedCharacter

/-- A name from its first unit, or the definition of a label. -/
def nameOrLabel (u : Nat) (rest : List Nat) : Lexeme :=
  let more := rest.takeWhile (fun u => isNameChar (unitChar u))
  let name := String.ofList ((u :: more).map unitChar)
  if (rest.drop more.length).head? = some ':'.toNat then (some (.plain (.labelDef name)), more.length + 1)
  else (some (.plain (.identifier name)), more.length)

/-- The lexeme that starts with a unit. -/
def lexeme (u : Nat) (rest : List Nat) : Except LexicalProblem Lexeme :=
  let c := unitChar u
  if isLineBlank c then .ok (none, (rest.takeWhile (fun u => isLineBlank (unitChar u))).length)
  else if c = '\n' then .ok (some (.plain .newline), 0)
  else if c = ';' then .ok (none, (rest.takeWhile (· != '\n'.toNat)).length)
  else if c = '$' then markedNumber 16 rest
  else if c = '%' then markedNumber 2 rest
  else if c = '"' then quotedText rest
  else if c = singleQuote then quotedCharacter rest
  else if c = '.' then
    let word := rest.takeWhile (fun u => isNameChar (unitChar u))
    .ok (some (.plain (.directive (upperCase (String.ofList ('.' :: word.map unitChar))))), word.length)
  else if isDigitIn 10 c then
    let more := rest.takeWhile (fun u => isDigitIn 10 (unitChar u))
    .ok (some (.plain (.number (.ofDigits 10 ((u :: more).map unitChar)))), more.length)
  else if isNameStart c then .ok (nameOrLabel u rest)
  else match Token.Kind.ofPunctuation? c with
    | some kind => .ok (some (.plain kind), 0)
    | none => .error (.unexpectedCharacter c)

-- ── Sources ─────────────────────────────────────────────────────────────────

/-- The tokens of a source, and the position of its end. -/
structure RawStream where
  tokens : List RawToken
  stop : Position
  deriving DecidableEq

/-- The stream with the token of a lexeme in front, if it makes one. -/
def RawStream.push (kind : Option RawToken.Kind) (position : Position) (s : RawStream) : RawStream :=
  match kind with
  | some kind => { s with tokens := ⟨kind, position⟩ :: s.tokens }
  | none => s

/-- Reads tokens from a position on. -/
def scanUnits (p : Position) : List Nat → Except Fault RawStream
  | [] => .ok ⟨[], p⟩
  | u :: rest =>
    match lexeme u rest with
    | .error problem => .error (.lexical problem p)
    | .ok (kind, more) => do
      let stream ← scanUnits ((p.step u).past (rest.take more)) (rest.drop more)
      return stream.push kind p
termination_by us => us.length
decreasing_by
  simp only [List.length_drop, List.length_cons]
  omega

/-- The tokens of a source. -/
def tokenizeUnits (units : List Nat) : Except Fault RawStream := scanUnits .first units

-- ── Texts ───────────────────────────────────────────────────────────────────

/-- The tokens of a text, and the position of its end. -/
structure TokenStream where
  tokens : List Token
  stop : Position
  deriving DecidableEq

/-- The stream with the characters that the units write. -/
def RawStream.decode (s : RawStream) : TokenStream := ⟨s.tokens.map RawToken.decode, s.stop⟩

/-- The tokens of a source text. -/
def tokenize (source : String) : Except Fault TokenStream :=
  (tokenizeUnits (Text.units source)).map RawStream.decode

end Asm6502.Source
