import Asm6502.CommandLine.FileTree
import Asm6502.CommandLine.Invocation
import Asm6502.Output.HexDump
import Asm6502.Output.Listing
import Asm6502.Output.Prg
import Asm6502.Source.Program
import Asm6502.Text.Utf8

/-!
# What the command line does

A run of the command line is planned first, as a list of steps — lines to print and files to save —
and then carried out, here on a file tree. Nothing is saved unless the whole source assembles.

* `plan`: the steps for arguments and what reading the input gives.
* `run`: the plan carried out.
-/

namespace Asm6502.CommandLine

/-- A step of a run. -/
inductive Step where
  /-- Prints a line. -/
  | print (line : String)
  /-- Complains with a line. -/
  | complain (line : String)
  /-- Makes the directories in front of a file. -/
  | makeParents (path : String)
  /-- Saves a file. -/
  | save (path : String) (content : List UInt8)
  deriving DecidableEq

/-- What a run does, and the exit code it ends with. -/
structure Plan where
  steps : List Step
  code : Nat
  deriving DecidableEq

/-- The plan for arguments that are no request. -/
def refusalPlan (args : List String) (refusal : Refusal) : Plan where
  steps := refusal.complaint.toList.map .complain ++ [.print usage]
  code := if asksForHelp args then 0 else 1

/-- The plan for an input that cannot be read. -/
def unreadPlan (input : String) : ReadFailure → Plan
  | .missing => ⟨[.complain ("Error: File not found: " ++ input)], 1⟩
  | .unreadable => ⟨[.complain ("Error: Cannot read file: " ++ input)], 1⟩

/-- The steps that save and report what a request asks for. -/
def outputSteps (request : Invocation) (c : Compilation) (prg : List UInt8) : List Step :=
  [.makeParents request.output,
   .save request.output prg,
   .print ("Assembled " ++ natText c.bytes.length ++ " bytes to " ++ request.output)] ++
  (if request.labels then
    [.save (labelsPath request.output) (Listing.labels c.labelEntries).toUTF8.toList,
     .print ("Wrote " ++ natText c.labels.size ++ " labels to " ++ labelsPath request.output)]
  else []) ++
  (if request.hexDump then
    [.print "\nHex dump:", .print (HexDump.render (prg.drop 2) (.ofAddress c.start))]
  else [])

/-- The plan for a source text. -/
def sourcePlan (request : Invocation) (source : String) : Plan :=
  let options : Options := { start := request.start, verbose := request.verbose }
  let (result, journal) := Source.assemble source options
  let log := journal.log.toList.map Step.print
  match result.bind (fun c => c.prg.map (fun prg => (c, prg))) with
  | .ok (c, prg) => ⟨log ++ outputSteps request c prg, 0⟩
  | .error fault => ⟨log ++ [.complain (request.input ++ ": " ++ fault.message)], 1⟩

/-- The plan for arguments, where `read` gives the contents of files. -/
def plan (args : List String) (read : String → Except ReadFailure (List UInt8)) : Plan :=
  match readArguments args with
  | .error refusal => refusalPlan args refusal
  | .ok request =>
    match read request.input with
    | .error failure => unreadPlan request.input failure
    | .ok content => sourcePlan request (Text.Utf8.decode content)

/-- The lines printed and complained, and the files, after some steps. -/
structure Transcript where
  printed : List String
  complaints : List String
  tree : FileTree
  deriving DecidableEq

/-- Carries out a step; none if a file cannot be saved. -/
def Step.perform (t : Transcript) : Step → Option Transcript
  | .print line => some { t with printed := t.printed ++ [line] }
  | .complain line => some { t with complaints := t.complaints ++ [line] }
  | .makeParents path => (t.tree.makeParents path).map (fun tree => { t with tree })
  | .save path content => (t.tree.save path content).map (fun tree => { t with tree })

/-- Carries out steps in order, as far as they can be. -/
def performAll (t : Transcript) : List Step → Option Transcript
  | [] => some t
  | step :: rest =>
    match step.perform t with
    | some after => performAll after rest
    | none => none

/-- Runs the command line on a file tree: exit code and transcript, or none if saving fails. -/
def run (args : List String) (tree : FileTree) : Option (Nat × Transcript) :=
  let plan := plan args tree.read
  (performAll ⟨[], [], tree⟩ plan.steps).map (fun t => (plan.code, t))

end Asm6502.CommandLine
