import Asm6502.Addressing
import Asm6502.Debugger
import Asm6502.Trace

/-!
# Sessions

A session is the whole state of a compilation: cursor, memory, symbols, the pass, who owns what is
written, counters and debugger marks. Owner scopes nest; the innermost owner owns what is written.
-/

namespace Asm6502

/-- What a compilation may be told. -/
structure Options where
  start : Option Number := none
  finish : Option Number := none
  placeholder : Option Number := none
  verbose : Bool := false
  owner : Option String := none
  /-- A cursor to work with, instead of one at `start`. -/
  cursor : Option Cursor := none
  /-- An image to write to, instead of an empty one. -/
  memory : Option Image := none

namespace Options

/-- The cursor to begin with: the supplied one, or a new one at the start. -/
def firstCursor (options : Options) : Except Fault Cursor :=
  match options.cursor with
  | some c => .ok c
  | none => Cursor.create ⟨options.start, none, none, none, none⟩

/-- The image to begin with: the supplied one, or one without cells. -/
def firstImage (options : Options) : Except Fault Image :=
  match options.memory with
  | some m => .ok m
  | none => Image.create options.start options.finish

end Options

/-- The state of a compilation. -/
structure Session where
  cursor : Cursor
  memory : Image
  symbols : Symbols
  pass : Pass
  /-- The owner outside every owner scope. -/
  outerOwner : String
  /-- The owners of the open scopes, innermost first. -/
  scopes : List String
  /-- Instructions emitted in this pass. -/
  instructions : Nat
  /-- What was written in this pass, the latest first. -/
  written : List Write
  entrypoint : Option Number
  breakpoints : List Breakpoint
  watches : List Watch
  verbose : Bool
  journal : Journal

namespace Session

/-- The owner of what is written unless told otherwise. -/
def defaultOwner : String := "main"

/-- A session in discovery. -/
def create (options : Options) : Except Fault Session := do
  let cursor ← options.firstCursor
  let memory ← options.firstImage
  let symbols ← Symbols.create options.placeholder
  return {
    cursor, memory, symbols
    pass := .discovery
    outerOwner := options.owner.getD defaultOwner
    scopes := []
    instructions := 0
    written := []
    entrypoint := none
    breakpoints := []
    watches := []
    verbose := options.verbose
    journal := {} }

/-- The current owner. -/
def owner (s : Session) : String := s.scopes.headD s.outerOwner

/-- Where instructions are assembled now. -/
def scope (s : Session) : Scope := .atCursor s.cursor.position s.pass

end Session

/-- A step of a compilation. -/
abbrev Assembly (α : Type) : Type := Action Session α

end Asm6502
