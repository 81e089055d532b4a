import Asm6502.Assembly.Data
import Asm6502.Assembly.Marks
import Asm6502.Assembly.Transfer
import Asm6502.Output.Prg
import Asm6502.Source.Program

/-!
# Programs as data

A program for the assembler is a list of commands. Most commands are single steps of `Assembly`; some
hold a body, which they run under an owner, in one pass only, if a label is known, or as an attempt
whose failure is caught. Components are parts of a program with routines and children of their own; a
catalogue holds them by serial number, and they may contain each other and even themselves, in which
case emitting them ends when something fails.

* `Command.run`: what a command does and answers, given how components are emitted.
* `Catalogue.render`: emits a component and, after it, its children.
* `Session.runEach`: runs commands one by one, going on after a failure.
-/

namespace Asm6502

-- ── Commands on one part of a session ───────────────────────────────────────

/-- What can be done with a cursor. -/
inductive CursorCommand where
  | advance (count : Option Number)
  | jump (place : Number)
  | reset
  | setStart (address : Number)
  | start
  | position
  | status
  deriving DecidableEq

namespace CursorCommand

/-- Runs a command on a cursor. -/
def run : CursorCommand → Action Cursor Reply
  | .advance count => do
    modify (·.advance (count.getD 1))
    return .done
  | .jump place => do
    modify (·.jump place)
    return .done
  | .reset => do
    modify Cursor.reset
    return .done
  | .setStart address => do
    let c ← (← get).setStart address
    set c
    return .done
  | .start => return .ofNumber (.ofAddress (← get).start)
  | .position => return .ofNumber (← get).position
  | .status => do
    let c ← get
    return .cursor c.position c.registers

end CursorCommand

/-- What can be done with a memory image. -/
inductive MemoryCommand where
  | write (address value : Number) (owner : String)
  | read (address : Number)
  | entry (address : Number)
  | ownerOf (address : Number)
  | writtenRange
  | slice (start finish : Number)
  | ownerRuns
  | setRange (start finish : Number)
  | range
  | prg (start finish : Number)
  deriving DecidableEq

namespace MemoryCommand

/-- Runs a command on an image. -/
def run : MemoryCommand → Action Image Reply
  | .write address value owner => do
    let m ← (← get).write address value owner
    set m
    return .done
  | .read address => return .number (((← get).lookup address).map (fun c => .ofByte c.value))
  | .entry address => return .cell ((← get).lookup address)
  | .ownerOf address => return .text (((← get).lookup address).map (·.owner))
  | .writtenRange => return .span (← get).writtenRange
  | .slice start finish => return .bytes ((← get).slice start finish)
  | .ownerRuns => return .runs (← get).ownerRuns
  | .setRange start finish => do
    let m ← (← get).setRange start finish
    set m
    return .done
  | .range => do
    let m ← get
    return .bounds m.start m.finish
  | .prg start finish => do
    let bytes ← (← get).prg start finish
    return .bytes bytes

end MemoryCommand

/-- What can be done with a symbol table. -/
inductive SymbolCommand where
  | define (name : String) (address : Option Number)
  | defineDouble (name : String)
  | lookup (name : String)
  | pin (cursor : Number) (mode : Mode)
  | pinned (cursor : Number)
  | has (name : String)
  | get (name : String)
  | entries
  | references
  | drifts
  | placeholder
  deriving DecidableEq

namespace SymbolCommand

/-- Runs a command on a symbol table, in a pass and at a cursor. -/
def run (pass : Pass) (cursor : Number) : SymbolCommand → Action Symbols Reply
  | .define name address => do
    let a ← Symbols.define pass name (address.getD cursor)
    return .ofNumber (.ofAddress a)
  | .defineDouble name => do
    Symbols.defineDouble pass cursor name
    return .done
  | .lookup name => return .value (← Symbols.resolve pass cursor name)
  | .pin cursor mode => do
    modify (·.pin cursor mode)
    return .done
  | .pinned cursor => return .mode ((← MonadState.get).pinned? cursor)
  | .has name => return .flag ((← MonadState.get).labels.contains name)
  | .get name => return .number (((← MonadState.get).labels.find? name).map .ofAddress)
  | .entries => return .labels (← MonadState.get).labels.toList
  | .references => return .references (← MonadState.get).references
  | .drifts => return .drifts (← MonadState.get).drifts
  | .placeholder => return .ofNumber (.ofAddress (← MonadState.get).placeholder)

end SymbolCommand

-- ── Commands and components ─────────────────────────────────────────────────

/-- A command of a program. -/
inductive Command where
  | cursor (command : CursorCommand)
  | memory (command : MemoryCommand)
  | symbols (command : SymbolCommand)
  | emit (mnemonic : Mnemonic) (arguments : List Assembly.Argument)
  | label (name : String) (address : Option Number)
  | labelDouble (name : String)
  /-- The address of a label. -/
  | addressOf (name : String)
  | evaluate (operand : Operand)
  | org (place : Number)
  | setup (options : Assembly.Setup)
  | entrypoint
  | nop (count : Option Number)
  | byte (operands : List Operand)
  | word (operands : List Operand)
  | fill (length : Number) (arguments : List Assembly.FillArgument)
  | declare (name : String) (initial : Option Number) (options : Assembly.VariableOptions)
  | data (name : String) (operands : List Operand)
  | text (name : String) (content : String)
  | setCells (target : Operand) (value : Option Operand) (options : Assembly.SetOptions)
  | setAddress (target what : Operand) (options : Assembly.SetOptions)
  | copyCell (source target : Operand) (options : Assembly.CopyOptions)
  | breakHere
  | breakOnMemory (address : Number) (condition : String)
  | breakOnRaster (line : Number)
  | watch (target : Assembly.WatchTarget)
  | emitByte (value : Number)
  | storeByte (address value : Number)
  | countInstruction
  | endPass
  | beginFinal
  /-- Runs a body under an owner. -/
  | withOwner (owner : String) (body : List Command)
  /-- Runs a body as a labelled subroutine. -/
  | subroutine (name : String) (body : List Command)
  /-- Runs a body in one pass only. -/
  | onlyIn (pass : Pass) (body : List Command)
  /-- Runs a body if a label is known. -/
  | ifDefined (name : String) (body : List Command)
  /-- Runs a body and catches its failure. -/
  | attempt (body : List Command)
  /-- Runs the statements of a source text. -/
  | source (content : String)
  /-- Emits the component with a serial number. -/
  | render (serial : Nat)
  /-- Calls a routine of a component. -/
  | call (id : String) (routine : String)
  /-- Runs a command, and records its completion under a name. -/
  | traced (operation : String) (command : Command)

/-- A part of a program: its own code, variables and routines, and the serial numbers of the parts that
    follow it. -/
structure Component where
  id : String
  build : List Command
  storage : List Command
  routines : List (String × List Command)
  children : List Nat

/-- Components by serial number. -/
abbrev Catalogue : Type := List Component

namespace Component

/-- The label of a routine of the component with an id. -/
def routineLabel (id routine : String) : String := id ++ "_" ++ routine

/-- The report on where a component lies. -/
def locationReport (id : String) (location : Location) : String :=
  "Location for " ++ id ++ ": " ++ upperCase location.start.hexText ++ " - " ++
    upperCase location.finish.hexText

/-- Records where a component lies, in the final pass. -/
def locate (serial : Nat) (id : String) (location : Location) : Assembly Unit := do
  let s ← get
  if s.pass.isFinal then
    set { s with
      journal := { s.journal with locations := s.journal.locations.insert serial location } }
    Assembly.reportIfVerbose (fun _ => locationReport id location)

end Component

/-- Records the completion of an operation. -/
def Session.record (s : Session) (operation : String) (outcome : Except Fault Reply) : Session :=
  let entry := ⟨s.pass, s.owner, operation, s.cursor.position, outcome⟩
  { s with journal := { s.journal with trace := s.journal.trace.push entry } }

mutual

/-- Runs a command and answers, where `render` emits components. -/
def Command.run (render : Nat → Assembly Unit) : Command → Assembly Reply
  | .cursor command => Assembly.onCursor command.run
  | .memory command => Assembly.onMemory command.run
  | .symbols command => do
    let s ← get
    Assembly.onSymbols (command.run s.pass s.cursor.position)
  | .emit m args => return .ofNumber (.ofNat (← Assembly.emit m args))
  | .label name address => return .ofNumber (.ofAddress (← Assembly.label name address))
  | .labelDouble name => do
    Assembly.labelDouble name
    return .done
  | .addressOf name => return .ofNumber (← Assembly.resolve name).amount
  | .evaluate operand => return .value (← Assembly.evaluate operand)
  | .org place => do
    Assembly.org place
    return .done
  | .setup options => do
    Assembly.setup options
    return .done
  | .entrypoint => do
    Assembly.entrypoint
    return .done
  | .nop count => do
    Assembly.nop (count.getD 1)
    return .done
  | .byte operands => return .ofNumber (.ofNat (← Assembly.byte operands))
  | .word operands => return .ofNumber (.ofNat (← Assembly.word operands))
  | .fill length args => do
    Assembly.fill length args
    return .done
  | .declare name initial options => do
    Assembly.declare name (initial.getD 0) options
    return .done
  | .data name operands => do
    Assembly.data name operands
    return .done
  | .text name content => do
    Assembly.text name content
    return .done
  | .setCells target value options => do
    Assembly.setCells target value options
    return .done
  | .setAddress target what options => do
    Assembly.setAddress target what options
    return .done
  | .copyCell origin target options => do
    Assembly.copyCell origin target options
    return .done
  | .breakHere => do
    Assembly.breakHere
    return .done
  | .breakOnMemory address condition => do
    Assembly.breakOnMemory address condition
    return .done
  | .breakOnRaster line => do
    Assembly.breakOnRaster line
    return .done
  | .watch target => do
    Assembly.watch target
    return .done
  | .emitByte value => do
    Assembly.emitByte value
    return .done
  | .storeByte address value => do
    Assembly.storeByte address value
    return .done
  | .countInstruction => do
    Assembly.countInstruction
    return .done
  | .endPass => return .statistics (← Assembly.endPass)
  | .beginFinal => do
    Assembly.beginFinal
    return .done
  | .withOwner owner body => do
    Assembly.withOwner owner (Command.runAll render body)
    return .done
  | .subroutine name body => do
    Assembly.subroutine name (Command.runAll render body)
    return .done
  | .onlyIn pass body => do
    if (← get).pass = pass then Command.runAll render body
    return .done
  | .ifDefined name body => do
    if (← get).symbols.labels.contains name then Command.runAll render body
    return .done
  | .attempt body => do
    match ← (Command.runAll render body).outcome with
    | .ok () => return .caught none
    | .error fault => return .caught (some fault)
  | .source content => do
    let statements ← Source.parse content
    Source.runAll statements
    return .done
  | .render serial => do
    render serial
    return .done
  | .call id routine => do
    let _ ← Assembly.emit .jsr [.operand (.name (Component.routineLabel id routine))]
    return .done
  | .traced operation command => do
    let reply ← command.run render
    modify (·.record operation (.ok reply))
    return reply

/-- Runs commands in order. -/
def Command.runAll (render : Nat → Assembly Unit) : List Command → Assembly Unit
  | [] => pure ()
  | command :: rest => do
    let _ ← command.run render
    Command.runAll render rest

end

/-- Emits a component under its own owner: its code, its variables, its routines sorted by name, and
    then its children. Components inside it are emitted by `render`. -/
def Component.emit (render : Nat → Assembly Unit) (serial : Nat) (c : Component) : Assembly Unit := do
  let start ← Assembly.position
  Assembly.withOwner c.id do
    Command.runAll render c.build
    Command.runAll render c.storage
    Action.each (fun (name, body) =>
      Assembly.subroutine (Component.routineLabel c.id name) (Command.runAll render body))
      (Text.sortBy Prod.fst c.routines)
  let finish := (← Assembly.position) - 1
  Action.each render c.children
  Component.locate serial c.id ⟨start, finish⟩

namespace Catalogue

/-- How deep components may be nested: deeper than any tree of them is, and beyond that some more for
    those that contain themselves. -/
def nestingLimit (catalogue : Catalogue) : Nat := catalogue.length + 10000

/-- Emits the component with a serial number, with at most `depth` components inside each other. A
    number that is not in the catalogue stands for nothing. -/
def render (catalogue : Catalogue) : (depth : Nat) → (serial : Nat) → Assembly Unit
  | 0, _ => throw .nestedTooDeep
  | depth + 1, serial =>
    match catalogue[serial]? with
    | some c => c.emit (catalogue.render depth) serial
    | none => pure ()

/-- The program that emits a component. -/
def program (catalogue : Catalogue) (root : Nat) : Assembly Unit :=
  catalogue.render catalogue.nestingLimit root

/-- The program that runs commands. -/
def runAll (catalogue : Catalogue) (commands : List Command) : Assembly Unit :=
  Command.runAll (catalogue.render catalogue.nestingLimit) commands

end Catalogue

/-- Runs commands without components one by one, each by itself: a failure is recorded, and the next
    command runs on what is left behind. -/
def Session.runEach (s : Session) : List (String × Command) → Session
  | [] => s
  | (operation, command) :: rest =>
    match (command.run (Catalogue.render [] (Catalogue.nestingLimit []))).exec s with
    | (outcome, after) => (after.record operation outcome).runEach rest

end Asm6502
