import Asm6502.Memory.OwnerRuns
import Asm6502.Symbols

/-!
# The journal of a run

What a run leaves besides memory and labels: the lines it reports, the operations it completed with
their answers, and where its components came to lie.
-/

namespace Asm6502

/-- What a pass did: instructions and bytes emitted, and where the cursor ended. -/
structure PassStatistics where
  instructions : Nat
  bytes : Nat
  endCursor : Number
  deriving DecidableEq

/-- The answer of an operation. -/
inductive Reply where
  /-- Nothing to say. -/
  | done
  | number (value : Option Number)
  | text (value : Option String)
  | flag (value : Bool)
  | value (value : Value)
  | mode (mode : Option Mode)
  | cursor (position : Number) (registers : Registers)
  | cell (cell : Option Cell)
  | span (range : Option (UInt16 × UInt16))
  | bounds (start finish : Option UInt16)
  | bytes (bytes : List UInt8)
  | runs (runs : List OwnerRun)
  | labels (entries : List (String × UInt16))
  | references (references : List Reference)
  | drifts (drifts : List Drift)
  | statistics (statistics : PassStatistics)
  /-- What stopped an attempt, if anything did. -/
  | caught (fault : Option Fault)
  deriving DecidableEq

/-- The answer that is a number. -/
def Reply.ofNumber (n : Number) : Reply := .number (some n)

/-- A completed operation: the pass, owner and cursor that it left, its name and its answer. An
    operation that stands by itself is recorded with its fault if it fails. -/
structure TraceEntry where
  pass : Pass
  owner : String
  operation : String
  cursor : Number
  outcome : Except Fault Reply

/-- Where a component came to lie: its first and its last byte. -/
structure Location where
  start : Number
  finish : Number
  deriving DecidableEq

/-- What a run reports. -/
structure Journal where
  /-- Lines reported, in order. -/
  log : Array String := #[]
  /-- Operations completed, in order. -/
  trace : Array TraceEntry := #[]
  /-- Locations of components, by their serial number. -/
  locations : Table Nat Location := .empty
  deriving Inhabited

end Asm6502
