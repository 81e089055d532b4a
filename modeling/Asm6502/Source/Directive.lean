/-!
# Directives

The five statements of a source text that start with a point.
-/

namespace Asm6502.Source

/-- What a directive does. -/
inductive Directive where
  /-- Moves the cursor. -/
  | org
  /-- Emits bytes and texts. -/
  | byte
  /-- Emits little-endian words. -/
  | word
  /-- Emits bytes and texts in screen codes. -/
  | text
  /-- Emits one byte many times. -/
  | fill
  deriving DecidableEq

namespace Directive

/-- Every directive. -/
def all : List Directive := [.org, .byte, .word, .text, .fill]

/-- How a directive is written. -/
def name : Directive → String
  | .org => ".ORG"
  | .byte => ".BYTE"
  | .word => ".WORD"
  | .text => ".TEXT"
  | .fill => ".FILL"

/-- The directive with a name in upper case. -/
def ofName? (s : String) : Option Directive := all.find? (fun d => d.name == s)

/-- Reading undoes writing. -/
theorem ofName?_name (d : Directive) : ofName? d.name = some d := by cases d <;> decide

theorem name_of_ofName? {s : String} {d : Directive} (h : ofName? s = some d) : d.name = s := by
  simpa using List.find?_some h

end Directive

end Asm6502.Source
