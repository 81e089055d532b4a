import Asm6502.Number.Decimal
import Asm6502.Number.Hexadecimal

/-!
# JSON text

Documents of nested lists and objects, and their text with every item on a line of its own, indented
by two blanks a level. A number without a decimal text is written as `null`.
-/

namespace Asm6502

/-- A JSON document. -/
inductive Json where
  | bool (value : Bool)
  | number (value : Number)
  | text (content : String)
  | list (items : List Json)
  | object (fields : List (String × Json))

namespace Json

/-- A character within quotes. -/
def escape (c : Char) : List Char :=
  if c = '"' then ['\\', '"']
  else if c = '\\' then ['\\', '\\']
  else if c = '\n' then ['\\', 'n']
  else if c = '\r' then ['\\', 'r']
  else if c = '\t' then ['\\', 't']
  else if c.toNat = 8 then ['\\', 'b']
  else if c.toNat = 12 then ['\\', 'f']
  else if c.toNat < 32 then
    '\\' :: 'u' :: (padZeros 4 (String.ofList (hexDigits c.toNat))).toList
  else [c]

/-- A text in quotes. -/
def quote (s : String) : String :=
  "\"" ++ String.ofList (s.toList.flatMap escape) ++ "\""

/-- A number, or `null`. -/
def numberText : Number → String
  | .finite q => (Number.finite q).text
  | _ => "null"

/-- The blanks in front of a line at a depth. -/
def indent (depth : Nat) : String := String.ofList (List.replicate (2 * depth) ' ')

/-- Items between brackets, each on a line one level deeper. -/
def block (opening closing : String) (depth : Nat) (items : List String) : String :=
  match items with
  | [] => opening ++ closing
  | _ => opening ++ "\n" ++
      String.intercalate ",\n" (items.map (fun item => indent (depth + 1) ++ item)) ++
      "\n" ++ indent depth ++ closing

mutual

/-- The text of a document at a depth. -/
def render (depth : Nat) : Json → String
  | .bool value => if value then "true" else "false"
  | .number value => numberText value
  | .text content => quote content
  | .list items => block "[" "]" depth (renderItems (depth + 1) items)
  | .object fields => block "\x7b" "\x7d" depth (renderFields (depth + 1) fields)

/-- The texts of items. -/
def renderItems (depth : Nat) : List Json → List String
  | [] => []
  | item :: rest => item.render depth :: renderItems depth rest

/-- The texts of fields, each with its name. -/
def renderFields (depth : Nat) : List (String × Json) → List String
  | [] => []
  | (name, value) :: rest => (quote name ++ ": " ++ value.render depth) :: renderFields depth rest

end

end Json

end Asm6502
