import Asm6502.Number.Basic

/-!
# Decimal text — the fewest digits that read back

A finite number is written with the fewest significant digits that round back to it; among the decimals
with that many digits the nearest is taken, and of two equally near ones the even one. Small exponents
are written positionally (`0.000001`, `100000000000000000000`), the others with a power of ten (`1e-7`,
`1e+21`).
-/

namespace Asm6502

namespace Number

/-- A power of ten with any integer exponent. -/
def powerOfTen : Int → Rat
  | .ofNat n => (Nat.pow 10 n : Nat)
  | .negSucc n => mkRat 1 (Nat.pow 10 (n + 1))

/-- A positive decimal: an integer significand times a power of ten. -/
structure Decimal where
  digits : Nat
  exponent : Int
  deriving DecidableEq

/-- The number of digits that a positive rational has before its decimal point (zero or negative for
    one below a tenth): the least exponent whose power of ten exceeds it. -/
def integerDigits (q : Rat) : Int :=
  -- a binary exponent fixes the decimal one up to a few places
  let guess := binade q * 30103 / 100000
  ([guess - 1, guess, guess + 1].find? (fun k => decide (q < powerOfTen k))).getD (guess + 2)

/-- Whether a rational rounds to the positive binary64 value `q`: it lies between the two midpoints
    next to `q`, which count only if the significand of `q` is even. -/
def roundsTo (q x : Rat) : Bool :=
  let unit := powerOfTwo (unitExponent q)
  let significand := q / unit
  -- the gap below a power of two is half as wide
  let narrow := significand = (4503599627370496 : Nat) ∧ -1074 < unitExponent q
  let below := if narrow then q - unit / (4 : Nat) else q - unit / (2 : Nat)
  let above := q + unit / (2 : Nat)
  if significand.num % 2 = 0 then decide (below ≤ x ∧ x ≤ above) else decide (below < x ∧ x < above)

/-- The best decimal for `q` with a given number of digits, if one rounds to it: of its two neighbours
    on that decimal grid the nearer, of two equally near ones the even. -/
def decimalOfLength? (q : Rat) (length : Nat) : Option Decimal :=
  let exponent := integerDigits q - (length : Int)
  let grid := powerOfTen exponent
  let low := (q / grid).floor.toNat
  let lower : Rat := (low : Rat) * grid
  let upper : Rat := ((low + 1 : Nat) : Rat) * grid
  let preferLower := q - lower < upper - q ∨ (q - lower = upper - q ∧ low % 2 = 0)
  let first := if preferLower then low else low + 1
  let second := if preferLower then low + 1 else low
  ([first, second].find? (fun (d : Nat) => roundsTo q ((d : Rat) * grid))).map (fun d => ⟨d, exponent⟩)

/-- The shortest decimal that rounds to a positive binary64 value; 17 digits always suffice. -/
def shortestDecimal (q : Rat) : Decimal :=
  ((List.range 17).findSome? (fun n => decimalOfLength? q (n + 1))).getD ⟨0, 0⟩

/-- Significant digits without trailing zeros, and the place of the decimal point counted from their
    left end. -/
def significantDigits (d : Decimal) : List Char × Int :=
  let written := Nat.toDigits 10 d.digits
  ((written.reverse.dropWhile (· = '0')).reverse, d.exponent + (written.length : Int))

/-- Numbers with at most this many digits before the decimal point are written positionally. -/
def widestPositional : Int := 21

/-- Numbers below one are written positionally while fewer than this many zeros follow the point. -/
def deepestPositional : Int := 6

/-- Significant digits written out, with the decimal point at `place`. -/
def layOut (digits : List Char) (place : Int) : List Char :=
  let length : Int := digits.length
  if length ≤ place ∧ place ≤ widestPositional then
    digits ++ List.replicate (place - length).toNat '0'
  else if 0 < place ∧ place ≤ widestPositional then
    digits.take place.toNat ++ '.' :: digits.drop place.toNat
  else if -deepestPositional < place ∧ place ≤ 0 then
    '0' :: '.' :: List.replicate (-place).toNat '0' ++ digits
  else
    let power := place - 1
    let mark := if power < 0 then ['e', '-'] else ['e', '+']
    let fraction := match digits.drop 1 with
      | [] => []
      | more => '.' :: more
    digits.take 1 ++ fraction ++ mark ++ Nat.toDigits 10 power.natAbs

/-- The text of a positive finite number. -/
def positiveText (q : Rat) : String :=
  let (digits, place) := significantDigits (shortestDecimal q)
  String.ofList (layOut digits place)

/-- The decimal text of a number. -/
def text : Number → String
  | .nan => "NaN"
  | .infinite negative => if negative then "-Infinity" else "Infinity"
  | .finite q =>
    if q.den = 1 ∧ q.num.natAbs ≤ exactLimit then
      -- integers in the exact range need all their digits
      (if q.num < 0 then "-" else "") ++ String.ofList (Nat.toDigits 10 q.num.natAbs)
    else if q < 0 then "-" ++ positiveText (-q)
    else positiveText q

/-- A natural number in the exact range is written with its digits. -/
theorem text_ofNat {n : Nat} (h : n ≤ exactLimit) :
    (ofNat n).text = String.ofList (Nat.toDigits 10 n) := by
  have hsign : ¬(n : Int) < 0 := by omega
  simp [ofNat, text, h, hsign]

end Number

end Asm6502
