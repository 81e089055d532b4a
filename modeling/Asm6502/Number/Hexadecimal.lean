import Asm6502.Number.Basic

/-!
# Hexadecimal text

Lower-case hexadecimal text of any number. It is exact: all digits of the integer part, however large,
and of the fraction, which always ends because a binary64 value has a power of two as its denominator.
-/

namespace Asm6502

/-- The hexadecimal digits of a natural number. -/
def hexDigits (n : Nat) : List Char := Nat.toDigits 16 n

/-- Text padded on the left with zeros to at least `width` characters. -/
def padZeros (width : Nat) (text : String) : String :=
  String.ofList (List.replicate (width - text.length) '0') ++ text

/-- Text with its ASCII letters in upper case. -/
def upperCase (text : String) : String :=
  String.ofList (text.toList.map Char.toUpper)

/-- A byte as two hexadecimal digits. -/
def hexByte (b : UInt8) : String :=
  padZeros 2 (String.ofList (hexDigits b.toNat))

namespace Number

/-- The hexadecimal digits after the point of a rational in `0 ≤ q < 1` whose denominator is a power
    of two: as many as make it an integer. -/
def hexFraction (q : Rat) : List Char :=
  let places := (q.den.log2 + 3) / 4
  let written := hexDigits ((q * (Nat.pow 16 places : Nat)).floor.toNat)
  List.replicate (places - written.length) '0' ++ written

/-- The hexadecimal text of a positive finite number or zero. -/
def positiveHexText (q : Rat) : List Char :=
  let whole := q.floor.toNat
  let rest := q - (whole : Rat)
  hexDigits whole ++ (if rest.num = 0 then [] else '.' :: hexFraction rest)

/-- The hexadecimal text of a number, in lower case and without a mark. -/
def hexText : Number → String
  | .nan => "NaN"
  | .infinite negative => if negative then "-Infinity" else "Infinity"
  | .finite q =>
    if q < 0 then "-" ++ String.ofList (positiveHexText (-q))
    else String.ofList (positiveHexText q)

/-- The hexadecimal text in upper case, padded to four characters. -/
def hexWord (x : Number) : String :=
  padZeros 4 (upperCase x.hexText)

/-- A natural number is written with its digits. -/
theorem hexText_ofNat (n : Nat) : (ofNat n).hexText = String.ofList (hexDigits n) := by
  have hfloor : (n : Rat).floor.toNat = n := by
    rw [← Rat.intCast_natCast, Rat.floor_intCast]
    rfl
  have hrest : ((n : Rat) - (n : Rat)).num = 0 := by
    rw [Rat.sub_self]
    rfl
  have hsign : ¬(n : Rat) < 0 := Rat.not_lt.mpr Rat.natCast_nonneg
  simp only [ofNat, hexText, positiveHexText, if_neg hsign, hfloor, if_pos hrest, List.append_nil]

end Number

end Asm6502
