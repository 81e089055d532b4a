import Asm6502.Text.Utf8

/-!
# UTF-16 units

A source text is read by its UTF-16 units, texts are turned into codes by the first unit of each character,
and names are sorted by their units. A character outside the basic plane has two units, its surrogates. A
sequence of units may hold surrogates that belong to no character.

* `unitsOf`: the units of characters.
* `characters`: the characters that units write.
-/

namespace Asm6502.Text

/-- How many UTF-16 units a character has. -/
def width (c : Char) : Nat := if c.toNat < 0x10000 then 1 else 2

/-- The UTF-16 units of a character. -/
def charUnits (c : Char) : List Nat :=
  if c.toNat < 0x10000 then [c.toNat]
  else [0xD800 + (c.toNat - 0x10000) / 0x400, 0xDC00 + (c.toNat - 0x10000) % 0x400]

/-- The first UTF-16 unit of a character: its code in the basic plane, else its high surrogate. -/
def firstUnit (c : Char) : Nat :=
  if c.toNat < 0x10000 then c.toNat else 0xD800 + (c.toNat - 0x10000) / 0x400

/-- The UTF-16 units of characters. -/
def unitsOf (cs : List Char) : List Nat := cs.flatMap charUnits

/-- The UTF-16 units of a text. -/
def units (s : String) : List Nat := unitsOf s.toList

/-- The character that a unit is by itself. A surrogate is none, and is shown as a replacement. -/
def unitChar (u : Nat) : Char :=
  if 0xD800 ≤ u ∧ u ≤ 0xDFFF then Utf8.replacement else Char.ofNat u

/-- The characters that units write: a high surrogate and a low one behind it are one character. -/
def characters : List Nat → List Char
  | [] => []
  | [u] => [unitChar u]
  | u :: v :: rest =>
    if (0xD800 ≤ u ∧ u ≤ 0xDBFF) ∧ 0xDC00 ≤ v ∧ v ≤ 0xDFFF then
      Char.ofNat (0x10000 + (u - 0xD800) * 0x400 + (v - 0xDC00)) :: characters rest
    else unitChar u :: characters (v :: rest)

/-- Whether one unit sequence comes before or equals another in lexicographic order. -/
def unitsLe : List Nat → List Nat → Bool
  | [], _ => true
  | _ :: _, [] => false
  | a :: as, b :: bs => a < b || (a == b && unitsLe as bs)

/-- Whether one text comes before or equals another in the order of UTF-16 units. -/
def le (s t : String) : Bool := unitsLe (units s) (units t)

/-- Puts an element into a list sorted by a text. -/
def insertBy {α : Type} (key : α → String) (a : α) : List α → List α
  | [] => [a]
  | b :: rest => if le (key a) (key b) then a :: b :: rest else b :: insertBy key a rest

/-- A list sorted by a text, in the order of UTF-16 units. -/
def sortBy {α : Type} (key : α → String) (list : List α) : List α :=
  list.foldr (insertBy key) []

theorem width_pos (c : Char) : 0 < width c := by
  unfold width
  split <;> decide

theorem mem_insertBy {α : Type} (key : α → String) (a b : α) (list : List α) :
    b ∈ insertBy key a list ↔ b = a ∨ b ∈ list := by
  induction list with
  | nil => simp [insertBy]
  | cons c rest ih =>
      by_cases h : le (key a) (key c) = true
      · simp [insertBy, h]
      · simp [insertBy, h, ih, or_left_comm]

/-- Sorting keeps the elements. -/
theorem mem_sortBy {α : Type} (key : α → String) (b : α) (list : List α) :
    b ∈ sortBy key list ↔ b ∈ list := by
  induction list with
  | nil => simp [sortBy]
  | cons a rest ih =>
      rw [sortBy, List.foldr_cons, mem_insertBy, List.mem_cons]
      exact or_congr Iff.rfl ih

end Asm6502.Text
