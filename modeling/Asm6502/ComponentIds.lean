import Asm6502.Number.Decimal
import Asm6502.Table

/-!
# Component ids

A component's id is its name followed by how many components of that name came before it, as far as
numbers can count.
-/

namespace Asm6502

/-- How many components of each name there are. -/
abbrev ComponentCounts : Type := Table String Number

namespace ComponentCounts

/-- How many components with a name there are. -/
def count (counts : ComponentCounts) (name : String) : Number := (counts.find? name).getD 0

/-- The id of the next component with a name. -/
def nextId (counts : ComponentCounts) (name : String) : String := name ++ (counts.count name).text

/-- The counts after one more component with a name. -/
def bump (counts : ComponentCounts) (name : String) : ComponentCounts :=
  counts.insert name (counts.count name + 1)

/-- The ids of components with these names, made in order. -/
def assign (counts : ComponentCounts) : List String → List String
  | [] => []
  | name :: rest => counts.nextId name :: (counts.bump name).assign rest

end ComponentCounts

/-- The ids of components with these names, made in order from nothing. -/
def componentIds (names : List String) : List String := ComponentCounts.assign .empty names

end Asm6502
