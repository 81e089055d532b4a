import Asm6502.Session

/-!
# The basic steps of a compilation

Writing bytes at the cursor, defining and resolving labels, emitting instructions, owner scopes and
the change of passes. Everything else is put together from these.
-/

namespace Asm6502.Assembly

-- ── Parts of the session ────────────────────────────────────────────────────

/-- A step on the symbol table. -/
def onSymbols {α : Type} (action : Action Symbols α) : Assembly α :=
  action.onPart (·.symbols) (fun symbols s => { s with symbols })

/-- A step on the cursor. -/
def onCursor {α : Type} (action : Action Cursor α) : Assembly α :=
  action.onPart (·.cursor) (fun cursor s => { s with cursor })

/-- A step on the memory image. -/
def onMemory {α : Type} (action : Action Image α) : Assembly α :=
  action.onPart (·.memory) (fun memory s => { s with memory })

/-- The position of the cursor. -/
def position : Assembly Number := do
  return (← get).cursor.position

/-- Reports a line. -/
def report (line : String) : Assembly Unit :=
  modify (fun s => { s with journal := { s.journal with log := s.journal.log.push line } })

-- ── Bytes ───────────────────────────────────────────────────────────────────

/-- Writes a byte at an address for the current owner. -/
def storeByte (address value : Number) : Assembly Unit := do
  let s ← get
  let w ← Image.checkWrite address value s.owner
  let memory ← s.memory.store w
  set { s with memory, written := w :: s.written }

/-- Writes a byte at the cursor and moves on. -/
def emitByte (value : Number) : Assembly Unit := do
  storeByte (← position) value
  modify (fun s => { s with cursor := s.cursor.advance 1 })

/-- Counts an instruction. -/
def countInstruction : Assembly Unit :=
  modify (fun s => { s with instructions := s.instructions + 1 })

-- ── Labels and values ───────────────────────────────────────────────────────

/-- Defines a label at an address, by default at the cursor. -/
def label (name : String) (address : Option Number) : Assembly UInt16 := do
  let s ← get
  onSymbols (Symbols.define s.pass name (address.getD s.cursor.position))

/-- Defines the low and the high byte of a word at the cursor. -/
def labelDouble (name : String) : Assembly Unit := do
  let s ← get
  onSymbols (Symbols.defineDouble s.pass s.cursor.position name)

/-- The value of a name. -/
def resolve (name : String) : Assembly Value := do
  let s ← get
  onSymbols (s.scope.resolve name)

/-- The value of an operand at the cursor. -/
def evaluate (operand : Operand) : Assembly Value := do
  let s ← get
  onSymbols (s.scope.evaluate operand)

-- ── Instructions ────────────────────────────────────────────────────────────

/-- An argument of an instruction. -/
inductive Argument where
  | operand (operand : Operand)
  | flags (flags : Flags)
  /-- An operand or index register left out. -/
  | absent
  deriving DecidableEq

namespace Argument

/-- The operand that an argument is, which may be left out. -/
def operand? : Argument → Option (Option Operand)
  | .operand o => some (some o)
  | .absent => some none
  | .flags _ => none

/-- The flags that an argument is. -/
def flags? : Argument → Option Flags
  | .flags f => some f
  | _ => none

/-- The index register that a second operand names. -/
def index? : Operand → Option Index
  | .name n => Index.ofText? n
  | _ => none

end Argument

/-- The arguments of an instruction, sorted out. -/
structure Arguments where
  operand : Option Operand
  index : Option Index
  flags : Flags
  deriving DecidableEq

/-- Sorts out the arguments of an instruction: an operand, an index register and flags, in this order
    and each optional. -/
def readArguments (m : Mnemonic) (args : List Argument) : Except Fault Arguments := do
  let flags := args.getLast?.bind Argument.flags?
  let operands := args.filterMap Argument.operand?
  if operands.length + (if flags.isSome then 1 else 0) ≠ args.length then
    throw (.arity (.optionsNotLast m))
  let (operand, second) ← match operands with
    | [] => pure (none, none)
    | [operand] => pure (operand, none)
    | [operand, second] => pure (operand, second)
    | more => throw (.arity (.tooManyOperands m more.length))
  let index ← match second with
    | none => pure none
    | some second =>
      match Argument.index? second with
      | none => throw (.arity (.noIndexRegister m))
      | some index => pure (some index)
  if operand.isSome && m.isImpliedOnly then throw (.arity (.takesNoOperand m))
  return ⟨operand, index, flags.getD {}⟩

/-- The encoding of an instruction at the cursor. -/
def encoding (m : Mnemonic) (args : List Argument) : Assembly Encoded := do
  let arguments ← readArguments m args
  let s ← get
  onSymbols (s.scope.assemble m arguments.operand arguments.index arguments.flags)

/-- Emits an instruction at the cursor; answers its length. -/
def emit (m : Mnemonic) (args : List Argument) : Assembly Nat := do
  let encoded ← encoding m args
  Action.each emitByte encoded.bytes
  countInstruction
  return encoded.bytes.length

-- ── Owners and passes ───────────────────────────────────────────────────────

/-- Runs a body whose writes belong to an owner. The scope is closed whether the body fails or not. -/
def withOwner {α : Type} (owner : String) (body : Assembly α) : Assembly α :=
  ExceptT.mk (fun s =>
    match body.exec { s with scopes := owner :: s.scopes } with
    | (result, s') => (result, { s' with scopes := s'.scopes.tail }))

/-- A labelled body that ends in a return. -/
def subroutine (name : String) (body : Assembly Unit) : Assembly Unit := do
  let _ ← label name none
  body
  let _ ← emit .rts []

/-- Ends a pass: answers what it did, and clears the counters. -/
def endPass : Assembly PassStatistics := do
  let s ← get
  set { s with instructions := 0, written := [] }
  return ⟨s.instructions, s.written.length, s.cursor.position⟩

/-- Begins the final pass, with the cursor at its start. -/
def beginFinal : Assembly Unit := do
  let s ← get
  match s.pass with
  | .final => throw .alreadyFinal
  | .discovery => set { s with pass := .final, cursor := s.cursor.reset }

/-- Moves the cursor. -/
def org (place : Number) : Assembly Unit :=
  modify (fun s => { s with cursor := s.cursor.jump place })

/-- Where a program starts, ends and is entered. -/
structure Setup where
  start : Number
  finish : Option Number
  entry : Option Number
  deriving DecidableEq

/-- Declares where the program lies; the first declaration in discovery also sets the entry point. -/
def setup (options : Setup) : Assembly Unit := do
  let s ← get
  let cursor ← s.cursor.setStart options.start
  set { s with cursor := cursor.jump (options.entry.getD options.start) }
  let s ← get
  match options.finish with
  | some finish =>
    let memory ← s.memory.setRange options.start finish
    set { s with memory }
  | none => set { s with memory := { s.memory with start := some cursor.start } }
  modify (fun s =>
    if s.pass.isFinal || s.entrypoint.isSome then s
    else { s with entrypoint := some s.cursor.position })

/-- Makes the cursor the entry point. -/
def entrypoint : Assembly Unit :=
  modify (fun s => { s with entrypoint := some s.cursor.position })

end Asm6502.Assembly
