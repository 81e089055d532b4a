import Asm6502.Action

/-!
# Operands

An operand is a number, a name, the cursor, a sum or difference, or the low or high byte of an
operand. Its value may be *pending*: it rests on a label that is not defined yet, for which a
placeholder stands in. A pending value is never range checked.

* `Operand.evaluate`: the value of an operand, given how names resolve and where the cursor is.
* `Operand.isBytePart`: operands that are a byte part up to a constant offset.
-/

namespace Asm6502

/-- An operand expression. -/
inductive Operand where
  /-- A constant. -/
  | number (value : Number)
  /-- A bare name: a label, or an index register where one is expected. -/
  | name (label : String)
  /-- A label, explicitly. -/
  | label (name : String)
  /-- The cursor. -/
  | here
  | add (left right : Operand)
  | sub (left right : Operand)
  /-- The low byte of a word. -/
  | low (operand : Operand)
  /-- The high byte of a word. -/
  | high (operand : Operand)
  deriving DecidableEq

/-- What an operand amounts to. -/
structure Value where
  amount : Number
  /-- Whether the amount rests on a placeholder. -/
  pending : Bool
  deriving DecidableEq

/-- The high byte of a word. -/
def highByte (w : UInt16) : UInt8 := UInt8.ofNat (w.toNat / 256)

/-- The low byte of a word. -/
def lowByte (w : UInt16) : UInt8 := UInt8.ofNat (w.toNat % 256)

/-- A number as a word. -/
def checkWord (x : Number) : Except Fault UInt16 :=
  match x.toAddress? with
  | some w => .ok w
  | none => .error (.valueRange x)

namespace Value

/-- The word that a value is: a pending amount is cut to sixteen bits, a known one is checked. -/
def word (v : Value) : Except Fault UInt16 :=
  if v.pending then .ok v.amount.lowWord else checkWord v.amount

end Value

namespace Operand

/-- Whether an operand is a constant. -/
def isNumber : Operand → Bool
  | .number _ => true
  | _ => false

/-- Whether an operand is a byte part, possibly with constants added or subtracted. -/
def isBytePart : Operand → Bool
  | .low _ => true
  | .high _ => true
  | .add l r => (l.isBytePart && r.isNumber) || (l.isNumber && r.isBytePart)
  | .sub l r => l.isBytePart && r.isNumber
  | _ => false

/-- The value of an operand, where `resolve` answers for names and `cursor` is the cursor. Operands
    are evaluated from left to right. -/
def evaluate {σ : Type} (resolve : String → Action σ Value) (cursor : Number) :
    Operand → Action σ Value
  | .number v => pure ⟨v, false⟩
  | .name n => resolve n
  | .label n => resolve n
  | .here => pure ⟨cursor, false⟩
  | .add l r => do
    let a ← evaluate resolve cursor l
    let b ← evaluate resolve cursor r
    return ⟨a.amount + b.amount, a.pending || b.pending⟩
  | .sub l r => do
    let a ← evaluate resolve cursor l
    let b ← evaluate resolve cursor r
    return ⟨a.amount - b.amount, a.pending || b.pending⟩
  | .low o => do
    let v ← evaluate resolve cursor o
    let w ← v.word
    return ⟨.ofByte (lowByte w), v.pending⟩
  | .high o => do
    let v ← evaluate resolve cursor o
    let w ← v.word
    return ⟨.ofByte (highByte w), v.pending⟩

end Operand

end Asm6502
