import Asm6502.Compilation

/-!
# Listings

Plain texts about a compilation, one item a line: labels, watches, breakpoints, the places that refer
forward, and who owns which addresses.
-/

namespace Asm6502.Listing

/-- Lines put together to a text. -/
def joinLines (lines : List String) : String := String.intercalate "\n" lines

/-- A number as marked hexadecimal text in upper case. -/
def upperHex (x : Number) : String := "$" ++ upperCase x.hexText

/-- Labels with their addresses. -/
def labels (entries : List (String × Number)) : String :=
  joinLines (entries.map (fun (name, address) => name ++ " = $" ++ address.hexText))

/-- Watched addresses. -/
def watches (watches : List Watch) : String :=
  joinLines (watches.map (fun w => w.label ++ " = $" ++ w.address))

/-- Breakpoints with their parameters. -/
def breakpoints (breakpoints : List Breakpoint) : String :=
  joinLines (breakpoints.map (fun b => b.kind.text ++ " " ++ b.params))

/-- The cursors at which each name is used before its definition, names in order of first use. -/
def usesByName (references : List Reference) : Table String (List Number) :=
  references.foldl (fun t r => t.insert r.name ((t.find? r.name).getD [] ++ [r.address])) .empty

/-- Forward references by name. -/
def references (references : List Reference) : String :=
  joinLines ((usesByName references).toList.map (fun (name, cursors) =>
    name ++ ": " ++ String.intercalate ", " (cursors.map upperHex)))

/-- A range of addresses and its owner. -/
structure OwnedRange where
  owner : String
  first : Number
  last : Number
  deriving DecidableEq

/-- The range of a run. -/
def OwnedRange.ofRun (run : OwnerRun) : OwnedRange :=
  ⟨run.owner, .ofAddress run.first, .ofAddress run.last⟩

/-- Owners and their ranges. -/
def ownership (ranges : List OwnedRange) : String :=
  joinLines (ranges.map (fun r => r.owner ++ ": " ++ upperHex r.first ++ " - " ++ upperHex r.last))

end Asm6502.Listing

namespace Asm6502.Compilation

/-- The labels of a compilation as numbers, in order of definition. -/
def labelEntries (c : Compilation) : List (String × Number) :=
  c.labels.toList.map (fun (name, address) => (name, .ofAddress address))

end Asm6502.Compilation
