/-!
# Reading UTF-8

Bytes are read as UTF-8 without ever failing: each maximal run of bytes that starts a character but
does not complete it, and each byte that can start none, becomes one replacement character.
-/

namespace Asm6502.Text.Utf8

/-- The character that stands for bytes that are no text. -/
def replacement : Char := Char.ofNat 0xFFFD

/-- A character begun: how many bytes are still to come, the bits read so far, and the range that the
    next byte has to lie in. -/
structure Begun where
  missing : Nat
  bits : Nat
  least : Nat
  greatest : Nat

/-- What a byte means where a character may start. -/
inductive Lead where
  /-- It is a character. -/
  | whole (c : Char)
  /-- It starts a longer one. -/
  | opening (b : Begun)
  /-- It is neither. -/
  | stray

/-- How a byte starts a character. The first byte after `E0`, `ED`, `F0` and `F4` has a narrower range,
    which keeps out overlong forms, surrogates and code points past the last one. -/
def lead (b : Nat) : Lead :=
  if b < 0x80 then .whole (Char.ofNat b)
  else if b < 0xC2 then .stray
  else if b < 0xE0 then .opening ⟨1, b - 0xC0, 0x80, 0xBF⟩
  else if b < 0xF0 then
    .opening ⟨2, b - 0xE0, if b = 0xE0 then 0xA0 else 0x80, if b = 0xED then 0x9F else 0xBF⟩
  else if b < 0xF5 then
    .opening ⟨3, b - 0xF0, if b = 0xF0 then 0x90 else 0x80, if b = 0xF4 then 0x8F else 0xBF⟩
  else .stray

/-- Reads bytes with a character possibly begun. -/
def decodeFrom : Option Begun → List UInt8 → List Char
  | none, [] => []
  | some _, [] => [replacement]
  | none, b :: rest =>
    match lead b.toNat with
    | .whole c => c :: decodeFrom none rest
    | .opening begun => decodeFrom (some begun) rest
    | .stray => replacement :: decodeFrom none rest
  | some begun, b :: rest =>
    if begun.least ≤ b.toNat ∧ b.toNat ≤ begun.greatest then
      let bits := begun.bits * 64 + (b.toNat - 0x80)
      if begun.missing = 1 then Char.ofNat bits :: decodeFrom none rest
      else decodeFrom (some ⟨begun.missing - 1, bits, 0x80, 0xBF⟩) rest
    else
      -- the begun character ends here, and this byte starts anew
      match lead b.toNat with
      | .whole c => replacement :: c :: decodeFrom none rest
      | .opening next => replacement :: decodeFrom (some next) rest
      | .stray => replacement :: replacement :: decodeFrom none rest

/-- The text that bytes stand for. -/
def decode (bytes : List UInt8) : String := String.ofList (decodeFrom none bytes)

end Asm6502.Text.Utf8
