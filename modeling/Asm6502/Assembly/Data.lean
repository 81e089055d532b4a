import Asm6502.Assembly.Basic
import Asm6502.Text.Units

/-!
# Emitting data

Bytes, words, fills, variables and texts. A count may be any number: a loop runs once for each of
0, 1, 2, … below it, and since every round writes to a new address a loop without end ends in a fault.
-/

namespace Asm6502.Assembly

/-- Emits an operand as a byte; a pending amount is cut to size. -/
def byteOf (operand : Operand) : Assembly Unit := do
  let v ← evaluate operand
  emitByte (if v.pending then .ofByte v.amount.lowByte else v.amount)

/-- Emits operands as bytes; answers how many. -/
def byte (operands : List Operand) : Assembly Nat := do
  Action.each byteOf operands
  return operands.length

/-- Emits operands as little-endian words; answers how many bytes. -/
def word (operands : List Operand) : Assembly Nat := do
  Action.each (fun operand => do
    let _ ← byte [.low operand, .high operand]) operands
  return operands.length * 2

/-- Emits instructions without effect. -/
def nop (count : Number) : Assembly Unit :=
  Action.times (fun _ => do
    let _ ← emit .nop []) count.rounds 0

/-- An argument of a fill: an address or a byte, or a rule for the byte at each index. -/
inductive FillArgument where
  | number (value : Number)
  | generator (rule : Nat → Option Number)
  /-- An argument left out. -/
  | absent

namespace FillArgument

/-- The number that an argument is. -/
def number? : FillArgument → Option Number
  | .number n => some n
  | _ => none

/-- The rule that an argument is. -/
def generator? : FillArgument → Option (Nat → Option Number)
  | .generator rule => some rule
  | _ => none

end FillArgument

/-- Where a fill starts, and the byte it takes without a rule. A single number above 255 is an
    address. -/
def fillTarget (cursor : Number) : List Number → Except Fault (Number × Number)
  | [] => .ok (cursor, 0)
  | [value] => if 255 < value then .ok (value, 0) else .ok (cursor, value)
  | [address, value] => .ok (address, value)
  | more => .error (.arity (.tooManyFillValues more.length))

/-- Stores the byte that a rule gives, if it gives one. -/
def storeGiven (address : Number) : Option Number → Assembly Unit
  | some value => storeByte address value
  | none => do
    let _ ← checkAddress address
    throw .missingByte

/-- Fills a range with bytes. The cursor moves past the range if it stood at its beginning. -/
def fill (length : Number) (args : List FillArgument) : Assembly Unit := do
  let rule := args.getLast?.bind FillArgument.generator?
  let numbers := args.filterMap FillArgument.number?
  if numbers.length + (if rule.isSome then 1 else 0) ≠ args.length then
    throw (.arity .generatorNotLast)
  let cursor ← position
  let (address, data) ← fillTarget cursor numbers
  let byteAt := rule.getD (fun _ => some data)
  Action.times (fun i => storeGiven (address + .ofNat i) (byteAt i)) length.rounds 0
  if address.equals cursor then
    modify (fun s => { s with cursor := s.cursor.advance length })

/-- What a variable looks like. -/
structure VariableOptions where
  /-- How many bytes it has, if not one. -/
  length : Option Number := none
  /-- Whether it is a word with labels for its two bytes. -/
  double : Bool := false
  deriving DecidableEq

/-- Declares a labelled variable with its initial value. -/
def declare (name : String) (initial : Number) (options : VariableOptions) : Assembly Unit := do
  let _ ← label name none
  if options.double then
    let low ← evaluate (.low (.number initial))
    let _ ← label (name ++ "_lo") none
    emitByte low.amount
    let _ ← label (name ++ "_hi") none
    let high ← evaluate (.high (.number initial))
    emitByte high.amount
  else
    Action.times (fun _ => emitByte initial) (options.length.getD 1).rounds 0

/-- Emits labelled bytes. -/
def data (name : String) (operands : List Operand) : Assembly Unit := do
  let _ ← label name none
  let _ ← byte operands

/-- The codes of a text: the first unit of each character. -/
def plainCodes (s : String) : List Number :=
  s.toList.map (fun c => .ofNat (Text.firstUnit c))

/-- The codes of a text on the screen, where letters lie 64 lower. -/
def screenCodes (s : String) : List Number :=
  s.toList.map (fun c =>
    let code := Text.firstUnit c
    .ofNat (if code < 64 then code else code - 64))

/-- Emits a labelled text in screen codes. -/
def text (name : String) (content : String) : Assembly Unit :=
  data name ((screenCodes content).map .number)

end Asm6502.Assembly
