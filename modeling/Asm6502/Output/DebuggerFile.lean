import Asm6502.Number.Reading
import Asm6502.Output.Json
import Asm6502.Output.Listing

/-!
# Files for a debugger

Labels, watches and breakpoints as JSON documents, and the six files that describe a compilation to a
debugger.
-/

namespace Asm6502.DebuggerFile

/-- A document with one segment. -/
def segment (name : String) (items : List Json) : String :=
  Json.render 0 (.object [
    ("Version", .text "1"),
    ("Segments", .list [.object [("Name", .text "Default"), (name, .list items)]])])

/-- Labels with their addresses. -/
def labels (entries : List (String × Number)) : String :=
  segment "CodeLabels" (entries.map (fun (name, address) =>
    .object [("Address", .text address.hexText), ("Name", .text name)]))

/-- Watched addresses. -/
def watches (watches : List Watch) : String :=
  segment "Watches" (watches.map (fun w =>
    .object [("Label", .text w.label), ("Address", .text w.address), ("Format", .text "hex8")]))

/-- The name of a kind of breakpoint in a document. -/
def kindName : BreakpointKind → String
  | .execution => "CpuPC"
  | .memory => "Memory"
  | .raster => "RasterLine"

/-- The address that a breakpoint's parameters start with. For a memory breakpoint these are the
    hexadecimal digits in front of its condition. -/
def breakpointAddress (b : Breakpoint) : Number :=
  match b.kind with
  | .execution => .readInteger 16 b.params
  | .raster => .readInteger 10 b.params
  | .memory => .ofDigits 16 (b.params.toList.takeWhile (isDigitIn 16))

/-- A breakpoint as an object. -/
def breakpointItem (b : Breakpoint) : Json :=
  let shared : List (String × Json) := [
    ("IsActive", .bool true),
    ("Addr", .number (breakpointAddress b)),
    ("Actions", .number 2),
    ("Data", .number 0)]
  match b.kind with
  | .memory => .object (shared ++ [
      ("MemoryAccess", .number 6), ("Value", .number 255), ("Comparison", .number 2)])
  | _ => .object shared

/-- Breakpoints by kind, kinds in order of first appearance. -/
def byKind (breakpoints : List Breakpoint) : Table BreakpointKind (List Breakpoint) :=
  breakpoints.foldl (fun t b => t.insert b.kind ((t.find? b.kind).getD [] ++ [b])) .empty

/-- Breakpoints, grouped by kind. -/
def breakpoints (breakpoints : List Breakpoint) : String :=
  segment "Breakpoints" ((byKind breakpoints).toList.map (fun (kind, items) =>
    .object [("Type", .text (kindName kind)), ("Items", .list (items.map breakpointItem))]))

/-- The files that describe a compilation, with their names. -/
def all (basename : String) (c : Compilation) : List (String × String) :=
  [(basename ++ ".labels", Listing.labels c.labelEntries),
   (basename ++ ".watches", Listing.watches c.watches),
   (basename ++ ".breakpoints", Listing.breakpoints c.breakpoints),
   (basename ++ ".json.labels", labels c.labelEntries),
   (basename ++ ".json.watches", watches c.watches),
   (basename ++ ".json.breakpoints", breakpoints c.breakpoints)]

end Asm6502.DebuggerFile
