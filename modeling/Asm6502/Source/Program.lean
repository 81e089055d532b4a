import Asm6502.Assembly.Data
import Asm6502.Compilation
import Asm6502.Source.Parser

/-!
# Running statements

What each statement does in a pass. A fault of a statement is reported with its position.

* `Statement.run`: one statement.
* `assemble`: from a source text to what it compiles to.
-/

namespace Asm6502.Source

/-- The value of an operand that has to be known by now. -/
def known (operand : Operand) (subject : Subject) : Assembly Number := do
  let v ← Assembly.evaluate operand
  if v.pending then throw (.notYetDefined subject)
  return v.amount

/-- The zero page mode that belongs to a direct operand. -/
def zeroPageMode : Option Index → Mode
  | none => .zeroPage
  | some i => i.zeroPage

/-- The arguments that an operand stands for. A direct operand is taken to lie in the zero page if its
    value is known, lies there, and the mnemonic has that form. -/
def instructionArguments (m : Mnemonic) :
    Option OperandSyntax → Assembly (List Assembly.Argument)
  | none => return []
  | some .accumulator => return []
  | some (.immediate value) => return [.operand (.low value)]
  | some (.direct value index) => do
    let v ← Assembly.evaluate value
    let zeroPage := !v.pending && decide (0 ≤ v.amount) && decide (v.amount < 256) &&
      m.hasMode (zeroPageMode index)
    let indexed := match index with
      | none => []
      | some i => [.operand (.name i.text)]
    return [.operand value] ++ indexed ++
      (if zeroPage then [.flags { zeroPage := true }] else [])
  | some (.indirect value) => return [.operand value, .flags { indirect := true }]
  | some (.indexedIndirect value) =>
    return [.operand value, .operand (.name "X"), .flags { zeroPage := true, indirect := true }]
  | some (.indirectIndexed value) =>
    return [.operand value, .operand (.name "Y"), .flags { zeroPage := true, indirect := true }]

/-- Emits bytes and texts, the latter in a code. -/
def emitArguments (code : String → List Number) (args : List DirectiveArgument) : Assembly Unit :=
  Action.each (fun arg => do
    let _ ← match arg with
      | .text content => Assembly.byte ((code content).map .number)
      | .value v => Assembly.byte [v]) args

/-- The values of arguments of which none is a text. -/
def argumentValues (d : Directive) : List DirectiveArgument → Except Fault (List Operand)
  | [] => .ok []
  | .text _ :: _ => .error (.textArgument d)
  | .value v :: rest => do
    let others ← argumentValues d rest
    return v :: others

/-- The address of an origin. -/
def originArgument : List Operand → Except Fault Operand
  | [address] => .ok address
  | _ => .error .originArguments

/-- The count and the byte of a fill. -/
def fillArguments : List Operand → Except Fault (Operand × Operand)
  | [count] => .ok (count, .number 0)
  | [count, data] => .ok (count, data)
  | _ => .error .fillArguments

/-- Runs a directive. -/
def runDirective (d : Directive) (args : List DirectiveArgument) : Assembly Unit := do
  match d with
  | .org =>
    let address ← originArgument (← argumentValues d args)
    let place ← known address .origin
    Assembly.org place
  | .byte => emitArguments Assembly.plainCodes args
  | .text => emitArguments Assembly.screenCodes args
  | .word =>
    let values ← argumentValues d args
    let _ ← Assembly.word values
  | .fill =>
    let (count, data) ← fillArguments (← argumentValues d args)
    let length ← known count .fillCount
    Action.times (fun _ => do
      let _ ← Assembly.byte [data]) length.rounds 0

/-- Runs what a statement says. -/
def Statement.Body.run : Statement.Body → Assembly Unit
  | .label name => do
    let _ ← Assembly.label name none
  | .assignment name value => do
    let address ← known value (.valueOf name)
    let _ ← Assembly.label name (some address)
  | .instruction m operand => do
    let args ← instructionArguments m operand
    let _ ← Assembly.emit m args
  | .directive d args => runDirective d args

/-- A fault with the position of its statement, unless it has one. -/
def atStatement (p : Position) (fault : Fault) : Fault :=
  if fault.isLocated then fault else .located p fault

/-- Runs a statement. -/
def Statement.run (s : Statement) : Assembly Unit :=
  ExceptT.mk (fun session =>
    match s.body.run.exec session with
    | (.ok (), after) => (.ok (), after)
    | (.error fault, after) => (.error (atStatement s.position fault), after))

/-- Runs statements in order. -/
def runAll (statements : List Statement) : Assembly Unit := Action.each Statement.run statements

/-- Compiles a source text. -/
def assemble (source : String) (options : Options) : Except Fault Compilation × Journal :=
  match parse source with
  | .error fault => (.error fault, {})
  | .ok statements => compile (runAll statements) options

end Asm6502.Source
