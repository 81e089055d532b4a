/-!
# Numbers — binary64 values as exact rationals

Every quantity that an assembler program computes with is a binary64 value: addresses, the cursor and
byte values travel as such until a range check stops them, so negative, fractional, huge and undefined
values all occur. A finite value is kept as the rational it stands for, zero has no sign, and an
arithmetic operation is the exact operation on rationals followed by one rounding, `Number.ofRat`.

* `Number.ofRat`: the nearest binary64 value, a tie going to the even significand, infinite from `2^1024` on.
* `Number.equals`, `<` and `≤`: the numeric comparisons, under which `nan` is unrelated to everything.
* `Number.toByte?`, `Number.toAddress?`: the two range checks.
* `Number.lowByte`, `Number.lowWord`: truncation to a machine word.
* `Number.rounds`: how often a loop counts up before it reaches a number.
-/

namespace Asm6502

/-- A binary64 value, with one zero. Equality (`=`) identifies `nan` with itself; the numeric
    comparison that does not is `Number.equals`. -/
inductive Number where
  /-- The result of an operation without a numeric answer. -/
  | nan
  /-- A magnitude beyond every finite value. -/
  | infinite (negative : Bool)
  /-- A finite value. -/
  | finite (value : Rat)
  deriving DecidableEq, Inhabited

namespace Number

-- ── Rounding ────────────────────────────────────────────────────────────────

/-- Integers up to this magnitude, `2^53`, are all binary64 values. -/
def exactLimit : Nat := 9007199254740992

/-- A power of two with any integer exponent. -/
def powerOfTwo : Int → Rat
  | .ofNat n => (1 <<< n : Nat)
  | .negSucc n => mkRat 1 (1 <<< (n + 1))

/-- The exponent of the largest power of two that is at most the magnitude of a nonzero rational. -/
def binade (q : Rat) : Int :=
  let guess : Int := (q.num.natAbs.log2 : Int) - (q.den.log2 : Int)
  -- the quotient of two binades spreads over two of them
  if powerOfTwo guess ≤ (if q < 0 then -q else q) then guess else guess - 1

/-- The exponent of the distance between neighbouring binary64 values around a nonzero rational:
    52 binary places below its leading one, and never below the smallest unit `2^(-1074)`. -/
def unitExponent (q : Rat) : Int :=
  max (binade q - 52) (-1074)

/-- The nearest integer, a half going to the even neighbour. -/
def roundEven (q : Rat) : Int :=
  let low := q.floor
  let rest := q - (low : Rat)
  if rest < mkRat 1 2 then low
  else if mkRat 1 2 < rest then low + 1
  else if low % 2 = 0 then low else low + 1

/-- The binary64 value nearest to a rational. -/
def ofRat (q : Rat) : Number :=
  if q.den = 1 ∧ q.num.natAbs ≤ exactLimit then .finite q
  else
    let unit := powerOfTwo (unitExponent q)
    let rounded : Rat := (roundEven (q / unit) : Rat) * unit
    if -powerOfTwo 1024 < rounded ∧ rounded < powerOfTwo 1024 then .finite rounded
    else .infinite (decide (q < 0))

/-- A natural number as a number; exact, so meant for those up to `exactLimit`. -/
def ofNat (n : Nat) : Number := .finite (n : Rat)

/-- An integer as a number; exact, so meant for magnitudes up to `exactLimit`. -/
def ofInt (n : Int) : Number := .finite (n : Rat)

instance (n : Nat) : OfNat Number n := ⟨ofNat n⟩

-- ── Arithmetic ──────────────────────────────────────────────────────────────

/-- The sum: exact, then rounded. Opposite infinities have none. -/
def add : Number → Number → Number
  | .finite a, .finite b => ofRat (a + b)
  | .infinite s, .infinite t => if s = t then .infinite s else .nan
  | .infinite s, .finite _ => .infinite s
  | .finite _, .infinite t => .infinite t
  | .nan, _ => .nan
  | _, .nan => .nan

/-- The opposite number. -/
def neg : Number → Number
  | .finite a => .finite (-a)
  | .infinite s => .infinite (!s)
  | .nan => .nan

/-- The difference: the sum with the opposite. -/
def sub (a b : Number) : Number := add a (neg b)

/-- Whether a nonzero number lies below zero. -/
def isNegative : Number → Bool
  | .finite a => decide (a < 0)
  | .infinite s => s
  | .nan => false

/-- The product: exact, then rounded. Zero times an infinity has none. -/
def mul : Number → Number → Number
  | .finite a, .finite b => ofRat (a * b)
  | .infinite s, .infinite t => .infinite (s != t)
  | .infinite s, .finite b => if b = 0 then .nan else .infinite (s != isNegative (.finite b))
  | .finite a, .infinite t => if a = 0 then .nan else .infinite (isNegative (.finite a) != t)
  | .nan, _ => .nan
  | _, .nan => .nan

instance : Add Number := ⟨add⟩
instance : Sub Number := ⟨sub⟩
instance : Mul Number := ⟨mul⟩
instance : Neg Number := ⟨neg⟩

-- ── Comparison ──────────────────────────────────────────────────────────────

/-- Strictly below. -/
def less : Number → Number → Bool
  | .finite a, .finite b => decide (a < b)
  | .infinite s, .infinite t => s && !t
  | .infinite s, .finite _ => s
  | .finite _, .infinite t => !t
  | _, _ => false

/-- Numeric equality: like `=`, except that `nan` differs from itself. -/
def equals (a b : Number) : Bool :=
  decide (a = b) && decide (a ≠ .nan)

instance : LT Number := ⟨fun a b => less a b = true⟩
instance : LE Number := ⟨fun a b => (less a b || equals a b) = true⟩

instance (a b : Number) : Decidable (a < b) :=
  inferInstanceAs (Decidable (less a b = true))

instance (a b : Number) : Decidable (a ≤ b) :=
  inferInstanceAs (Decidable ((less a b || equals a b) = true))

/-- The larger of two numbers; `nan` if either is. -/
def maximum : Number → Number → Number
  | .nan, _ => .nan
  | _, .nan => .nan
  | a, b => if a < b then b else a

-- ── Integers, bytes and addresses ───────────────────────────────────────────

/-- The integer that a number is, if it is one. -/
def toInt? : Number → Option Int
  | .finite q => if q.den = 1 then some q.num else none
  | _ => none

/-- Whether a number is an integer. -/
def isInteger (x : Number) : Bool := x.toInt?.isSome

/-- The byte that a number is: an integer in `0..255`. -/
def toByte? (x : Number) : Option UInt8 :=
  match x.toInt? with
  | some n => if 0 ≤ n ∧ n ≤ 255 then some (UInt8.ofNat n.toNat) else none
  | none => none

/-- The address that a number is: an integer in `0..65535`. -/
def toAddress? (x : Number) : Option UInt16 :=
  match x.toInt? with
  | some n => if 0 ≤ n ∧ n ≤ 65535 then some (UInt16.ofNat n.toNat) else none
  | none => none

/-- A byte as a number. -/
def ofByte (b : UInt8) : Number := ofNat b.toNat

/-- An address as a number. -/
def ofAddress (a : UInt16) : Number := ofNat a.toNat

/-- The integer part, dropping the fraction; 0 for a number that is not finite. -/
def truncate : Number → Int
  | .finite q => q.num.tdiv q.den
  | _ => 0

/-- The low eight bits of the integer part. -/
def lowByte (x : Number) : UInt8 := UInt8.ofNat (x.truncate % 256).toNat

/-- The low sixteen bits of the integer part. -/
def lowWord (x : Number) : UInt16 := UInt16.ofNat (x.truncate % 65536).toNat

/-- How many of the numbers 0, 1, 2, … lie below a number. For a positive infinity this is `2^1024`,
    which is more than any finite number has and more rounds than a loop over memory can complete. -/
def rounds : Number → Nat
  | .finite q => q.ceil.toNat
  | .infinite negative => if negative then 0 else 1 <<< 1024
  | .nan => 0

-- ── Laws of the two views ───────────────────────────────────────────────────

/-- A small integer is its own rounding. -/
theorem ofRat_intCast {n : Int} (h : n.natAbs ≤ exactLimit) : ofRat (n : Rat) = ofInt n := by
  simp [ofRat, ofInt, h]

@[simp] theorem toInt?_ofInt (n : Int) : (ofInt n).toInt? = some n := by
  simp [toInt?, ofInt]

@[simp] theorem toInt?_ofNat (n : Nat) : (ofNat n).toInt? = some (n : Int) := by
  simp [toInt?, ofNat]

@[simp] theorem toByte?_ofByte (b : UInt8) : (ofByte b).toByte? = some b := by
  have h : (b.toNat : Int) ≤ 255 := by have := b.toNat_lt; omega
  simp [toByte?, ofByte, h]

@[simp] theorem toAddress?_ofAddress (a : UInt16) : (ofAddress a).toAddress? = some a := by
  have h : (a.toNat : Int) ≤ 65535 := by have := a.toNat_lt; omega
  simp [toAddress?, ofAddress, h]

end Number

end Asm6502
