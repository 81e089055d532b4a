import Std.Data.ExtTreeMap
import Asm6502.Cursor

/-!
# The memory image

A sparse image of the 65536 cells. A written cell has a value and an owner, and only its owner may
write it again. The image also knows which range is to be exported.

* `Image.write`: the checks of a write, in their order: address, byte, owner.
* `Image.cell?_insert`: what putting a cell changes.
* `Image.slice`: a range as bytes, zero where nothing was written.
-/

namespace Asm6502

/-- A written byte and who wrote it. -/
structure Cell where
  value : UInt8
  owner : String
  deriving DecidableEq

/-- A write: a cell and where it is put. -/
structure Write where
  address : UInt16
  cell : Cell
  deriving DecidableEq

/-- The written cells by address, and the bounds of the export where they were set. -/
structure Image where
  cells : Std.ExtTreeMap UInt16 Cell
  start : Option UInt16
  finish : Option UInt16

namespace Image

/-- An address for one bound of the export, if given. -/
def checkBound (problem : Number → ConfigProblem) : Option Number → Except Fault (Option UInt16)
  | none => .ok none
  | some x =>
    match x.toAddress? with
    | some a => .ok (some a)
    | none => .error (.config (problem x))

/-- An image without cells. -/
def create (start finish : Option Number) : Except Fault Image := do
  let start ← checkBound .memoryStart start
  let finish ← checkBound .memoryEnd finish
  return ⟨∅, start, finish⟩

/-- The cell at an address. -/
def cell? (m : Image) (a : UInt16) : Option Cell := m.cells[a]?

/-- The cell at the address that a number is. -/
def lookup (m : Image) (x : Number) : Option Cell := x.toAddress?.bind m.cell?

/-- Sets both bounds of the export. -/
def setRange (m : Image) (start finish : Number) : Except Fault Image :=
  match start.toAddress?, finish.toAddress? with
  | some s, some f =>
    if f < s then .error (.config (.memoryRange start finish))
    else .ok { m with start := some s, finish := some f }
  | _, _ => .error (.config (.memoryRange start finish))

/-- A byte, or the fault of a number that is none. -/
def checkByte (x : Number) : Except Fault UInt8 :=
  match x.toByte? with
  | some b => .ok b
  | none => .error (.byteRange x)

/-- The write of a byte at an address for an owner. -/
def checkWrite (address value : Number) (owner : String) : Except Fault Write := do
  let a ← checkAddress address
  let b ← checkByte value
  return ⟨a, ⟨b, owner⟩⟩

/-- Puts a cell where it is free or owned by the same owner. -/
def store (m : Image) (w : Write) : Except Fault Image :=
  match m.cell? w.address with
  | some existing =>
    if existing.owner = w.cell.owner then .ok { m with cells := m.cells.insert w.address w.cell }
    else .error (.ownershipConflict w.address existing.owner w.cell.owner)
  | none => .ok { m with cells := m.cells.insert w.address w.cell }

/-- Writes a byte for an owner. -/
def write (m : Image) (address value : Number) (owner : String) : Except Fault Image := do
  let w ← checkWrite address value owner
  m.store w

/-- The lowest and the highest written address. -/
def writtenRange (m : Image) : Option (UInt16 × UInt16) :=
  match m.cells.minKey?, m.cells.maxKey? with
  | some low, some high => some (low, high)
  | _, _ => none

/-- The bytes from `start` to `finish`, both included; zero where no cell is written. -/
def slice (m : Image) (start finish : Number) : List UInt8 :=
  (List.range (finish - start + 1).truncate.toNat).map (fun i =>
    match m.lookup (start + .ofNat i) with
    | some cell => cell.value
    | none => 0)

-- ── What a write does ───────────────────────────────────────────────────────

theorem cell?_insert (m : Image) (a b : UInt16) (cell : Cell) :
    ({ m with cells := m.cells.insert a cell } : Image).cell? b =
      if a = b then some cell else m.cell? b := by
  simp [cell?, Std.ExtTreeMap.getElem?_insert]

end Image

end Asm6502
