import Asm6502.Text.Units

/-!
# Positions in a source text

A position is a line and a column, both counted from 1; columns count UTF-16 units.
-/

namespace Asm6502.Source

/-- A place in a source text. -/
structure Position where
  line : Nat
  column : Nat
  deriving DecidableEq, Inhabited

namespace Position

/-- The first position of a text. -/
def first : Position := ⟨1, 1⟩

/-- The position after a unit. -/
def step (p : Position) (u : Nat) : Position :=
  if u = '\n'.toNat then ⟨p.line + 1, 1⟩ else ⟨p.line, p.column + 1⟩

/-- The position after a stretch of units. -/
def past (p : Position) (us : List Nat) : Position := us.foldl step p

/-- The position after a character. -/
def next (p : Position) (c : Char) : Position :=
  if c = '\n' then ⟨p.line + 1, 1⟩ else ⟨p.line, p.column + Text.width c⟩

/-- The position after a stretch of text. -/
def after (p : Position) (cs : List Char) : Position := cs.foldl next p

@[simp] theorem after_nil (p : Position) : p.after [] = p := rfl

@[simp] theorem after_cons (p : Position) (c : Char) (cs : List Char) :
    p.after (c :: cs) = (p.next c).after cs := rfl

theorem after_append (p : Position) (cs ds : List Char) :
    p.after (cs ++ ds) = (p.after cs).after ds := List.foldl_append ..

end Position

end Asm6502.Source
