import Asm6502.CommandLine.Report

/-!
# The command line

Reads the input file, plans the run, and carries the plan out on the real files.
-/

namespace Asm6502.CommandLine

/-- The content of a real file. -/
def readInput (path : String) : IO (Except ReadFailure (List UInt8)) := do
  if !FileTree.isUsablePath path then return .error .unreadable
  try
    let content ← IO.FS.readBinFile path
    return .ok content.toList
  catch
    | .noFileOrDirectory .. => return .error .missing
    | _ => return .error .unreadable

/-- The directory in front of a file. -/
def parentPath (path : String) : String :=
  let parent := String.intercalate "/" (FileTree.parentNames path)
  if parent = "" then (if path.toList.head? = some '/' then "/" else ".") else parent

/-- Carries out a step for real. -/
def Step.execute : Step → IO Unit
  | .print line => IO.println line
  | .complain line => IO.eprintln line
  | .makeParents path => IO.FS.createDirAll (parentPath path)
  | .save path content => IO.FS.writeBinFile path ⟨content.toArray⟩

end Asm6502.CommandLine

open Asm6502.CommandLine in
/-- Assembles a file. -/
def main (args : List String) : IO UInt32 := do
  let content ← match readArguments args with
    | .ok request => readInput request.input
    | .error _ => pure (.error .missing)
  let plan := plan args (fun _ => content)
  plan.steps.forM Step.execute
  return UInt32.ofNat plan.code
