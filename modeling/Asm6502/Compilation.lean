import Asm6502.Assembly.Basic

/-!
# Compiling in two passes

A program runs twice: discovery finds where its labels lie, the final pass emits it with every label
known. Both passes have to agree on what they did and where labels lie.

* `compile`: runs a program in both passes and collects what it made.
* `passDifferences`: what the passes disagree on.
-/

namespace Asm6502

/-- What a compilation made. -/
structure Compilation where
  memory : Image
  labels : Table String UInt16
  references : List Reference
  breakpoints : List Breakpoint
  watches : List Watch
  /-- The first exported address. -/
  start : UInt16
  /-- The last exported address; one less than `start` if nothing is exported. -/
  finish : Int
  entrypoint : Option Number
  discovery : PassStatistics
  final : PassStatistics
  /-- The exported bytes. -/
  bytes : List UInt8

/-- Where the two passes disagree: instructions, bytes, the end of the cursor, labels. -/
def passDifferences (discovery final : PassStatistics) (drifts : List Drift) : List PassDifference :=
  (if discovery.instructions ≠ final.instructions then
    [.instructions discovery.instructions final.instructions] else []) ++
  (if discovery.bytes ≠ final.bytes then [.bytes discovery.bytes final.bytes] else []) ++
  (if discovery.endCursor.equals final.endCursor then []
    else [.endCursor discovery.endCursor final.endCursor]) ++
  drifts.map (fun d => .label d.name d.discovery d.final)

namespace Session

/-- The first address to export. -/
def exportStart (s : Session) : UInt16 := s.memory.start.getD s.cursor.start

/-- The last address to export: as set, else the last written one. -/
def exportFinish (s : Session) : Int :=
  let beforeStart : Int := (s.exportStart.toNat : Int) - 1
  match s.memory.finish with
  | some finish => finish.toNat
  | none =>
    match s.memory.writtenRange with
    | some (_, last) => max (last.toNat : Int) beforeStart
    | none => beforeStart

/-- What a session made, after passes with these statistics. -/
def result (s : Session) (discovery final : PassStatistics) : Compilation where
  memory := s.memory
  labels := s.symbols.labels
  references := s.symbols.references
  breakpoints := s.breakpoints
  watches := s.watches
  start := s.exportStart
  finish := s.exportFinish
  entrypoint := s.entrypoint
  discovery := discovery
  final := final
  bytes := s.memory.slice (.ofAddress s.exportStart) (.ofInt s.exportFinish)

end Session

namespace Assembly

/-- The report after discovery. -/
def discoveryReport (statistics : PassStatistics) (references : Nat) : String :=
  "Discovery: " ++ natText statistics.instructions ++ " instructions, " ++
    natText statistics.bytes ++ " bytes, " ++ natText references ++ " forward references"

/-- The report after the final pass. -/
def finalReport (statistics : PassStatistics) (start : UInt16) (finish : Int) : String :=
  "Final: " ++ natText statistics.instructions ++ " instructions, " ++ natText statistics.bytes ++
    " bytes, " ++ (Number.ofAddress start).markedHex ++ " - " ++ (Number.ofInt finish).markedHex

/-- Reports a line if the session is verbose. -/
def reportIfVerbose (line : Session → String) : Assembly Unit := do
  let s ← get
  if s.verbose then report (line s)

/-- Ends discovery and begins the final pass; answers what discovery did. -/
def turnOver : Assembly PassStatistics := do
  let discovery ← endPass
  reportIfVerbose (fun s => discoveryReport discovery s.symbols.references.length)
  beginFinal
  return discovery

/-- Ends the final pass, which has to agree with discovery; answers what both made. -/
def conclude (discovery : PassStatistics) : Assembly Compilation := do
  let final ← endPass
  let s ← get
  match passDifferences discovery final s.symbols.drifts with
  | [] => pure ()
  | differences => throw (.passMismatch differences)
  reportIfVerbose (fun s => finalReport final s.exportStart s.exportFinish)
  return s.result discovery final

/-- Both passes of a program. -/
def bothPasses (program : Assembly Unit) : Assembly Compilation := do
  program
  let discovery ← turnOver
  program
  conclude discovery

end Assembly

/-- Options with the start filled in; a supplied cursor has its own. -/
def Options.withStart (options : Options) : Options :=
  match options.cursor with
  | some _ => options
  | none => { options with start := some (options.start.getD Cursor.defaultStart) }

/-- Compiles a program. What it reported is there also when it fails. -/
def compile (program : Assembly Unit) (options : Options) : Except Fault Compilation × Journal :=
  match Session.create options.withStart with
  | .error fault => (.error fault, {})
  | .ok session =>
    match (Assembly.bothPasses program).exec session with
    | (result, s) => (result, s.journal)

end Asm6502
