import Asm6502.Number.Reading

/-!
# Invocations

What the arguments of the command line ask for: which file to assemble, where to write, from which
address, and what to report.
-/

namespace Asm6502.CommandLine

/-- A request to assemble a file. -/
structure Invocation where
  input : String := ""
  output : String := ""
  start : Option Number := none
  labels : Bool := false
  hexDump : Bool := false
  verbose : Bool := false
  deriving DecidableEq

/-- Why arguments are no request. -/
inductive Refusal where
  /-- Help was asked for, or nothing at all. -/
  | help
  | noOutputName
  | noStartAddress
  | badStartAddress (text : String)
  | unknownOption (text : String)
  | noInput
  deriving DecidableEq

/-- What a refusal complains about, if anything. -/
def Refusal.complaint : Refusal → Option String
  | .help => none
  | .noOutputName => some "Error: -o requires an output filename"
  | .noStartAddress => some "Error: --start requires an address"
  | .badStartAddress text => some ("Error: Invalid start address '" ++ text ++ "'")
  | .unknownOption text => some ("Error: Unknown option '" ++ text ++ "'")
  | .noInput => some "Error: No input file specified"

/-- An address: hexadecimal after `$` or `0x`, else decimal. -/
def readAddress (text : String) : Number :=
  match text.toList with
  | '$' :: rest => .readInteger 16 (String.ofList rest)
  | '0' :: 'x' :: rest => .readInteger 16 (String.ofList rest)
  | '0' :: 'X' :: rest => .readInteger 16 (String.ofList rest)
  | _ => .readInteger 10 text

/-- Reads arguments one by one; a later one overrules an earlier one. -/
def readOptions : List String → Invocation → Except Refusal Invocation
  | [], request => .ok request
  | arg :: rest, request =>
    if arg = "-o" ∨ arg = "--output" then
      match rest with
      | [] => .error .noOutputName
      | name :: rest => readOptions rest { request with output := name }
    else if arg = "--start" then
      match rest with
      | [] => .error .noStartAddress
      | text :: rest =>
        let address := readAddress text
        if address = .nan then .error (.badStartAddress text)
        else readOptions rest { request with start := some address }
    else if arg = "--labels" then readOptions rest { request with labels := true }
    else if arg = "--hex" then readOptions rest { request with hexDump := true }
    else if arg = "-v" ∨ arg = "--verbose" then readOptions rest { request with verbose := true }
    else if arg = "-h" ∨ arg = "--help" then .error .help
    else if arg.toList.head? = some '-' then .error (.unknownOption arg)
    else readOptions rest { request with input := arg }

/-- A text without an ending, compared in lower case. -/
def withoutEnding? (ending text : String) : Option String :=
  let kept := text.toList.take (text.length - ending.length)
  let dropped := text.toList.drop (text.length - ending.length)
  if dropped.map Char.toLower = ending.toList then some (String.ofList kept) else none

/-- The output of an input file: the ending `.asm` or `.s` gives way to `.prg`. -/
def defaultOutput (input : String) : String :=
  ((withoutEnding? ".asm" input <|> withoutEnding? ".s" input).getD input) ++ ".prg"

/-- The label file of an output file: the ending `.prg` gives way to `.labels`. -/
def labelsPath (output : String) : String :=
  ((withoutEnding? ".prg" output).getD output) ++ ".labels"

/-- What arguments ask for. -/
def readArguments (args : List String) : Except Refusal Invocation := do
  if args.isEmpty then throw .help
  let request ← readOptions args {}
  if request.input = "" then throw .noInput
  if request.output = "" then return { request with output := defaultOutput request.input }
  return request

/-- Whether help is asked for anywhere. -/
def asksForHelp (args : List String) : Bool := args.contains "-h" || args.contains "--help"

/-- How the command line is used. -/
def usage : String :=
  String.intercalate "\n" [
    "6502 Assembler",
    "",
    "Usage: sixtyfive <input.asm> [-o output.prg] [--start $1000] [--labels] [--hex]",
    "",
    "Options:",
    "  -o, --output <file>  Output file (default: <input>.prg)",
    "  --start <address>    Load address ($hex, 0xhex or decimal; default: $1000)",
    "  --labels             Write <output>.labels next to the output",
    "  --hex                Print hex dump of output",
    "  -v, --verbose        Print pass summaries",
    "  -h, --help           Show this help message",
    "",
    "Examples:",
    "  sixtyfive program.asm",
    "  sixtyfive program.asm -o game.prg --start $0801",
    "  sixtyfive program.asm --hex"]

end Asm6502.CommandLine
