import Asm6502.Memory.Image

/-!
# Owner runs

The written cells as maximal runs of neighbours with one owner, in the order of their addresses.
-/

namespace Asm6502

/-- Neighbouring cells of one owner, from the first to the last. -/
structure OwnerRun where
  owner : String
  first : UInt16
  last : UInt16
  deriving DecidableEq

namespace OwnerRun

/-- Puts a cell in front of the runs of the cells above it. -/
def cover (a : UInt16) (cell : Cell) : List OwnerRun → List OwnerRun
  | [] => [⟨cell.owner, a, a⟩]
  | run :: rest =>
    if run.owner = cell.owner ∧ run.first.toNat = a.toNat + 1 then ⟨cell.owner, a, run.last⟩ :: rest
    else ⟨cell.owner, a, a⟩ :: run :: rest

end OwnerRun

namespace Image

/-- The runs of an image. -/
def ownerRuns (m : Image) : List OwnerRun :=
  m.cells.toList.foldr (fun (a, cell) runs => OwnerRun.cover a cell runs) []

/-- The bytes of a run. -/
def runBytes (m : Image) (run : OwnerRun) : List UInt8 :=
  m.slice (.ofAddress run.first) (.ofAddress run.last)

end Image

end Asm6502
