import Asm6502.Source.Lexer
import Asm6502.Source.Statement

/-!
# From tokens to statements

No statement goes over a line end, so a text is parsed line by line: labels first, then at most one
directive, assignment or instruction.

    line       := label* (directive arguments? | name '=' expression | mnemonic operand?)?
    operand    := '#' expression | A | '(' expression ',' X ')' | '(' expression ')' (',' Y)?
                | expression (',' (X | Y))?
    arguments  := argument (',' argument)*        argument := string | expression
    expression := unary (('+' | '-') unary)*
    unary      := ('<' | '>' | '-') unary | number | name | '*'

Every function takes the tokens that are left of the line and returns those it leaves.
-/

namespace Asm6502.Source

/-- What ends a line: a line end or the end of the text. -/
structure LineEnd where
  text : String
  position : Position
  deriving DecidableEq

/-- The tokens of a line, and what ends it. -/
structure Line where
  tokens : List Token
  stop : LineEnd
  deriving DecidableEq

/-- The lines of a stream of tokens; there is one more than line ends. -/
def TokenStream.lines (s : TokenStream) : List Line :=
  let (first, others) := s.tokens.foldr (fun t (line, later) =>
    match t.kind with
    | .newline => (⟨[], ⟨t.kind.text, t.position⟩⟩, line :: later)
    | _ => ({ line with tokens := t :: line.tokens }, later)) ((⟨[], ⟨"", s.stop⟩⟩, []) : Line × List Line)
  first :: others

/-- The fault of the token in front, or of the line end if none is left. -/
def faultAt (stop : LineEnd) (tokens : List Token) (problem : String → GrammarProblem) : Fault :=
  match tokens with
  | t :: _ => .grammar (problem t.kind.text) t.position
  | [] => .grammar (problem stop.text) stop.position

/-- Whether a token is the name of a register, in either case. -/
def isRegister (register : String) (t : Token) : Bool :=
  match t.kind with
  | .identifier name => upperCase name == register
  | _ => false

-- ── Expressions ─────────────────────────────────────────────────────────────

/-- A unary expression. -/
def unary (stop : LineEnd) : List Token → Except Fault (Operand × List Token)
  | [] => .error (faultAt stop [] .noExpression)
  | t :: rest =>
    match t.kind with
    | .less => do
      let (operand, left) ← unary stop rest
      return (.low operand, left)
    | .greater => do
      let (operand, left) ← unary stop rest
      return (.high operand, left)
    | .minus => do
      let (operand, left) ← unary stop rest
      return (.sub (.number 0) operand, left)
    | .number value => .ok (.number value, rest)
    | .identifier name => .ok (.name name, rest)
    | .star => .ok (.here, rest)
    | _ => .error (faultAt stop (t :: rest) .noExpression)

/-- A unary expression takes at least one token. -/
theorem length_of_unary {stop : LineEnd} {tokens left : List Token} {operand : Operand}
    (h : unary stop tokens = .ok (operand, left)) : left.length < tokens.length := by
  induction tokens generalizing operand left with
  | nil => simp [unary] at h
  | cons t rest ih =>
      rw [unary] at h
      split at h
      case h_7 => simp at h
      case h_4 | h_5 | h_6 =>
        obtain ⟨-, rfl⟩ := Prod.mk.inj (Except.ok.inj h)
        simp
      all_goals
        cases hu : unary stop rest with
        | error f => rw [hu] at h; simp [bind, Except.bind] at h
        | ok pair =>
            obtain ⟨inner, after⟩ := pair
            rw [hu] at h
            simp only [bind, Except.bind, pure, Except.pure, Except.ok.injEq, Prod.mk.injEq] at h
            obtain ⟨-, rfl⟩ := h
            have := ih hu
            simp only [List.length_cons]
            omega

/-- The rest of a sum after its first part. -/
def sum (stop : LineEnd) (left : Operand) (tokens : List Token) : Except Fault (Operand × List Token) :=
  match tokens with
  | [] => .ok (left, [])
  | t :: rest =>
    match t.kind with
    | .plus =>
      match _h : unary stop rest with
      | .ok (right, more) => sum stop (.add left right) more
      | .error fault => .error fault
    | .minus =>
      match _h : unary stop rest with
      | .ok (right, more) => sum stop (.sub left right) more
      | .error fault => .error fault
    | _ => .ok (left, t :: rest)
termination_by tokens.length
decreasing_by
  all_goals
    have := length_of_unary _h
    simp only [List.length_cons]
    omega

/-- An expression: a sum of unary expressions, grouped from the left. -/
def expression (stop : LineEnd) (tokens : List Token) : Except Fault (Operand × List Token) := do
  let (first, rest) ← unary stop tokens
  sum stop first rest

theorem length_of_sum {stop : LineEnd} {first operand : Operand} {tokens left : List Token}
    (h : sum stop first tokens = .ok (operand, left)) : left.length ≤ tokens.length := by
  fun_induction sum stop first tokens with
  | case1 => simp_all
  | case2 first t rest _ right more hu ih =>
      have := length_of_unary hu
      have := ih h
      simp only [List.length_cons]
      omega
  | case3 => simp at h
  | case4 first t rest _ right more hu ih =>
      have := length_of_unary hu
      have := ih h
      simp only [List.length_cons]
      omega
  | case5 => simp at h
  | case6 => simp_all

/-- An expression takes at least one token. -/
theorem length_of_expression {stop : LineEnd} {tokens left : List Token} {operand : Operand}
    (h : expression stop tokens = .ok (operand, left)) : left.length < tokens.length := by
  unfold expression at h
  cases hu : unary stop tokens with
  | error f => rw [hu] at h; simp [bind, Except.bind] at h
  | ok pair =>
      obtain ⟨first, rest⟩ := pair
      rw [hu] at h
      have := length_of_unary hu
      have := length_of_sum (show sum stop first rest = .ok (operand, left) from h)
      omega

-- ── Operands and arguments ──────────────────────────────────────────────────

/-- An operand after its opening parenthesis. -/
def parenthesized (stop : LineEnd) (tokens : List Token) :
    Except Fault (OperandSyntax × List Token) := do
  let (value, rest) ← expression stop tokens
  match rest with
  | ⟨.comma, _⟩ :: rest =>
    match rest with
    | register :: close =>
      if isRegister "X" register then
        match close with
        | ⟨.rightParen, _⟩ :: left => return (.indexedIndirect value, left)
        | _ => throw (faultAt stop close (fun _ => .unclosedIndexedIndirect))
      else throw (faultAt stop rest (fun _ => .wrongIndexRegister .x))
    | [] => throw (faultAt stop [] (fun _ => .wrongIndexRegister .x))
  | ⟨.rightParen, _⟩ :: ⟨.comma, _⟩ :: rest =>
    match rest with
    | register :: left =>
      if isRegister "Y" register then return (.indirectIndexed value, left)
      else throw (faultAt stop rest (fun _ => .wrongIndexRegister .y))
    | [] => throw (faultAt stop [] (fun _ => .wrongIndexRegister .y))
  | ⟨.rightParen, _⟩ :: left => return (.indirect value, left)
  | _ => throw (faultAt stop rest (fun _ => .unclosedIndirect))

/-- An operand that is an expression, with an index register or without. -/
def direct (stop : LineEnd) (tokens : List Token) : Except Fault (OperandSyntax × List Token) := do
  let (value, rest) ← expression stop tokens
  match rest with
  | ⟨.comma, _⟩ :: rest =>
    match rest with
    | register :: left =>
      if isRegister "X" register then return (.direct value (some .x), left)
      else if isRegister "Y" register then return (.direct value (some .y), left)
      else throw (faultAt stop rest (fun _ => .noIndexRegister))
    | [] => throw (faultAt stop [] (fun _ => .noIndexRegister))
  | _ => return (.direct value none, rest)

/-- The operand of an instruction. A name `A` alone is the accumulator. -/
def operandSyntax (stop : LineEnd) (tokens : List Token) :
    Except Fault (OperandSyntax × List Token) :=
  match tokens with
  | ⟨.hash, _⟩ :: rest => do
    let (value, left) ← expression stop rest
    return (.immediate value, left)
  | ⟨.leftParen, _⟩ :: rest => parenthesized stop rest
  | [t] => if isRegister "A" t then .ok (.accumulator, []) else direct stop [t]
  | _ => direct stop tokens

/-- One argument of a directive. -/
def argument (stop : LineEnd) (tokens : List Token) :
    Except Fault (DirectiveArgument × List Token) :=
  match tokens with
  | ⟨.string content, _⟩ :: rest => .ok (.text content, rest)
  | _ => do
    let (value, left) ← expression stop tokens
    return (.value value, left)

/-- An argument takes at least one token. -/
theorem length_of_argument {stop : LineEnd} {tokens left : List Token} {arg : DirectiveArgument}
    (h : argument stop tokens = .ok (arg, left)) : left.length < tokens.length := by
  unfold argument at h
  split at h
  · obtain ⟨-, rfl⟩ := Prod.mk.inj (Except.ok.inj h)
    simp
  · cases he : expression stop tokens with
    | error f => rw [he] at h; simp [bind, Except.bind] at h
    | ok pair =>
        obtain ⟨value, rest⟩ := pair
        rw [he] at h
        simp only [bind, Except.bind, pure, Except.pure, Except.ok.injEq, Prod.mk.injEq] at h
        obtain ⟨-, rfl⟩ := h
        exact length_of_expression he

/-- The arguments of a directive, divided by commas. -/
def arguments (stop : LineEnd) (tokens : List Token) :
    Except Fault (List DirectiveArgument × List Token) :=
  match _h : argument stop tokens with
  | .error fault => .error fault
  | .ok (first, ⟨.comma, _⟩ :: rest) => do
    let (others, left) ← arguments stop rest
    return (first :: others, left)
  | .ok (first, left) => .ok ([first], left)
termination_by tokens.length
decreasing_by
  have := length_of_argument _h
  simp only [List.length_cons] at this
  omega

-- ── Lines ───────────────────────────────────────────────────────────────────

/-- The statement of a line after its labels, if there is one. -/
def statement (stop : LineEnd) (tokens : List Token) : Except Fault (List Statement × List Token) :=
  match tokens with
  | [] => .ok ([], [])
  | t :: rest =>
    match t.kind with
    | .directive name =>
      match Directive.ofName? name with
      | none => .error (.grammar (.unknownDirective name) t.position)
      | some d => do
        let (args, left) ← if rest.isEmpty then pure ([], []) else arguments stop rest
        return ([⟨.directive d args, t.position⟩], left)
    | .identifier name =>
      match rest with
      | ⟨.equals, _⟩ :: rest => do
        let (value, left) ← expression stop rest
        return ([⟨.assignment name value, t.position⟩], left)
      | _ =>
        match Mnemonic.ofText? (upperCase name) with
        | none => .error (.grammar (.unknownInstruction name) t.position)
        | some m => do
          if rest.isEmpty then return ([⟨.instruction m none, t.position⟩], [])
          let (operand, left) ← operandSyntax stop rest
          return ([⟨.instruction m (some operand), t.position⟩], left)
    | _ => .error (faultAt stop tokens .unexpectedToken)

/-- The statements of the tokens of a line: its labels, then what follows them. -/
def lineStatements (stop : LineEnd) : List Token → Except Fault (List Statement)
  | ⟨.labelDef name, p⟩ :: rest => do
    let others ← lineStatements stop rest
    return ⟨.label name, p⟩ :: others
  | tokens => do
    let (statements, left) ← statement stop tokens
    match left with
    | [] => return statements
    | _ :: _ => throw (faultAt stop left .unexpectedToken)

/-- The statements of a line. -/
def Line.parse (line : Line) : Except Fault (List Statement) := lineStatements line.stop line.tokens

/-- The statements of lines, in order. -/
def parseLines : List Line → Except Fault (List Statement)
  | [] => .ok []
  | line :: rest => do
    let statements ← line.parse
    let others ← parseLines rest
    return statements ++ others

/-- The statements of a source text. -/
def parse (source : String) : Except Fault (List Statement) := do
  let stream ← tokenize source
  parseLines stream.lines

end Asm6502.Source
