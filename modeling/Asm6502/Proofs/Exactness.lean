import Mathlib.Data.Rat.Floor
import Mathlib.Tactic.Linarith
import Mathlib.Tactic.NormNum
import Asm6502.Number.Basic

/-!
# Where arithmetic is exact

Addresses, bytes and displacements are integers far below `2^53`, so sums and differences of them are
exact. The one place where a large integer can meet an address is the target of a branch: there the
rounded difference is far out of the range of a displacement (`Number.far_of_large`).

* `Number.ofInt_add`, `Number.ofInt_sub`: small integers.
* `Number.toAddress?_eq_some_iff`, `Number.toByte?_eq_some_iff`: what passes a range check.
* `Number.eq_of_displacement`: a displacement in range is exact.
* `Number.lt_of_counted`: counted on from any number, rounded or not, addresses climb.
-/

namespace Asm6502.Number

-- ── Integers ────────────────────────────────────────────────────────────────

theorem ofNat_eq_ofInt (n : Nat) : ofNat n = ofInt n := by
  unfold ofNat ofInt
  rw [Rat.intCast_natCast]

theorem ofInt_injective {a b : Int} (h : ofInt a = ofInt b) : a = b := by
  have := congrArg toInt? h
  rwa [toInt?_ofInt, toInt?_ofInt, Option.some.injEq] at this

theorem ofNat_injective {a b : Nat} (h : ofNat a = ofNat b) : a = b := by
  rw [ofNat_eq_ofInt, ofNat_eq_ofInt] at h
  exact Int.ofNat.inj (ofInt_injective h)

theorem ofByte_injective {b b' : UInt8} (h : ofByte b = ofByte b') : b = b' :=
  UInt8.toNat_inj.mp (ofNat_injective h)

theorem ofAddress_injective {a b : UInt16} (h : ofAddress a = ofAddress b) : a = b :=
  UInt16.toNat_inj.mp (ofNat_injective h)

/-- An integer number is the integer it stands for. -/
theorem eq_ofInt_of_toInt? {x : Number} {n : Int} (h : x.toInt? = some n) : x = ofInt n := by
  cases x with
  | nan => exact nomatch h
  | infinite s => exact nomatch h
  | finite q =>
      unfold toInt? at h
      simp only at h
      split at h
      · rename_i hden
        rw [← Option.some.inj h]
        exact congrArg finite (Rat.den_eq_one_iff q |>.mp hden).symm
      · exact nomatch h

theorem toByte?_eq_some_iff {x : Number} {b : UInt8} : x.toByte? = some b ↔ x = ofByte b := by
  constructor
  · intro h
    unfold toByte? at h
    cases hx : x.toInt? with
    | none => rw [hx] at h; cases h
    | some n =>
        rw [hx] at h
        simp only at h
        split at h
        · rename_i hrange
          have hb : b.toNat = n.toNat := by
            rw [← Option.some.inj h, UInt8.toNat_ofNat']
            omega
          rw [eq_ofInt_of_toInt? hx, ofByte, hb, ofNat_eq_ofInt]
          congr 1
          omega
        · cases h
  · rintro rfl
    exact toByte?_ofByte b

theorem toAddress?_eq_some_iff {x : Number} {a : UInt16} :
    x.toAddress? = some a ↔ x = ofAddress a := by
  constructor
  · intro h
    unfold toAddress? at h
    cases hx : x.toInt? with
    | none => rw [hx] at h; cases h
    | some n =>
        rw [hx] at h
        simp only at h
        split at h
        · rename_i hrange
          have ha : a.toNat = n.toNat := by
            rw [← Option.some.inj h, UInt16.toNat_ofNat']
            omega
          rw [eq_ofInt_of_toInt? hx, ofAddress, ha, ofNat_eq_ofInt]
          congr 1
          omega
        · cases h
  · rintro rfl
    exact toAddress?_ofAddress a

-- ── Sums and differences ────────────────────────────────────────────────────

theorem ofInt_add {a b : Int} (h : (a + b).natAbs ≤ exactLimit) :
    ofInt a + ofInt b = ofInt (a + b) := by
  show ofRat ((a : Rat) + (b : Rat)) = ofInt (a + b)
  rw [← Rat.intCast_add]
  exact ofRat_intCast h

theorem sub_ofInt_eq (a b : Int) : ofInt a - ofInt b = ofRat ((a - b : Int) : Rat) := by
  show ofRat ((a : Rat) + -(b : Rat)) = _
  rw [← Rat.intCast_neg, ← Rat.intCast_add, ← Int.sub_eq_add_neg]

theorem ofInt_sub {a b : Int} (h : (a - b).natAbs ≤ exactLimit) :
    ofInt a - ofInt b = ofInt (a - b) := by
  rw [sub_ofInt_eq]
  exact ofRat_intCast h

theorem ofNat_add {a b : Nat} (h : a + b ≤ exactLimit) : ofNat a + ofNat b = ofNat (a + b) := by
  rw [ofNat_eq_ofInt, ofNat_eq_ofInt, ofInt_add (by omega), ofNat_eq_ofInt]
  rfl

theorem ofNat_add_two {n : Nat} (h : n + 2 ≤ exactLimit) : ofNat n + 2 = ofInt ((n : Int) + 2) := by
  rw [ofNat_eq_ofInt]
  exact ofInt_add (b := 2) (by omega)

theorem ofInt_lt_iff {a b : Int} : ofInt a < ofInt b ↔ a < b := by
  show decide ((a : Rat) < (b : Rat)) = true ↔ a < b
  rw [decide_eq_true_iff, Rat.intCast_lt_intCast]

theorem ofNat_lt_256_iff {n : Nat} : ofNat n < 256 ↔ n < 256 := by
  rw [ofNat_eq_ofInt, show (256 : Number) = ofInt 256 from rfl, ofInt_lt_iff]
  omega

theorem eq_of_equals {x y : Number} (h : x.equals y = true) : x = y :=
  of_decide_eq_true (Bool.and_eq_true_iff.mp h).1

/-- Numeric equality is equality, except for `nan`. -/
theorem equals_iff {x y : Number} (hy : y ≠ nan) : equals x y = true ↔ x = y := by
  unfold equals
  rw [Bool.and_eq_true, decide_eq_true_iff, decide_eq_true_iff]
  exact and_iff_left_of_imp (fun h => by rw [h]; exact hy)

theorem ofInt_le_iff {a b : Int} : ofInt a ≤ ofInt b ↔ a ≤ b := by
  show (decide ((a : Rat) < (b : Rat)) || equals (ofInt a) (ofInt b)) = true ↔ a ≤ b
  rw [Bool.or_eq_true, decide_eq_true_iff, Rat.intCast_lt_intCast]
  have hequals : equals (ofInt a) (ofInt b) = true ↔ a = b :=
    (equals_iff (fun h => by cases h)).trans ⟨ofInt_injective, congrArg ofInt⟩
  rw [hequals]
  omega

@[simp] theorem truncate_ofInt (n : Int) : (ofInt n).truncate = n := by
  simp [truncate, ofInt]

theorem lowByte_ofInt (n : Int) : (ofInt n).lowByte = UInt8.ofNat (n % 256).toNat := by
  rw [lowByte, truncate_ofInt]

theorem toNat_lowByte_ofAddress (a : UInt16) : (ofAddress a).lowByte.toNat = a.toNat % 256 := by
  rw [ofAddress, ofNat_eq_ofInt, lowByte_ofInt, UInt8.toNat_ofNat']
  omega

theorem toNat_lowWord_ofAddress (a : UInt16) : (ofAddress a).lowWord.toNat = a.toNat := by
  have hlt := a.toNat_lt
  rw [ofAddress, ofNat_eq_ofInt, lowWord, truncate_ofInt, UInt16.toNat_ofNat']
  omega

-- ── Large integers ──────────────────────────────────────────────────────────

theorem powerOfTwo_natCast (n : Nat) : powerOfTwo n = (2 ^ n : Nat) := by
  show ((1 <<< n : Nat) : Rat) = _
  rw [Nat.one_shiftLeft]

/-- The binade of an integer is that of its magnitude. -/
theorem binade_intCast {n : Int} (h : n ≠ 0) : binade n = n.natAbs.log2 := by
  have habs : (if (n : Rat) < 0 then -(n : Rat) else (n : Rat)) = (n.natAbs : Rat) := by
    rcases Int.lt_or_le n 0 with hneg | hpos
    · rw [if_pos (by exact_mod_cast hneg), ← Rat.intCast_neg, ← Rat.intCast_natCast]
      congr 1
      omega
    · rw [if_neg (by exact_mod_cast Int.not_lt.mpr hpos), ← Rat.intCast_natCast]
      congr 1
      omega
  have hguess : ((n : Rat).num.natAbs.log2 : Int) - ((n : Rat).den.log2 : Int) = n.natAbs.log2 := by
    rw [Rat.num_intCast, Rat.den_intCast, show ((1 : Nat).log2 : Int) = 0 from by decide, Int.sub_zero]
  unfold binade
  simp only
  rw [hguess, habs, powerOfTwo_natCast, if_pos]
  exact_mod_cast Nat.log2_self_le (Int.natAbs_ne_zero.mpr h)

/-- Rounding to an integer goes to one of its neighbours. -/
theorem roundEven_bounds (q : Rat) : q.floor ≤ roundEven q ∧ roundEven q ≤ q.floor + 1 := by
  unfold roundEven
  simp only
  split
  · omega
  · split
    · omega
    · split <;> omega

/-- A large integer is rounded in units of a positive power of two, of which it has many. -/
theorem unit_of_large {n : Int} (h : exactLimit < n.natAbs) :
    ∃ k : Nat, unitExponent n = k ∧ 2 ^ 52 * 2 ^ k ≤ n.natAbs := by
  have hlog : 53 ≤ n.natAbs.log2 := by
    rw [Nat.le_log2 (by omega)]
    exact Nat.le_of_lt h
  refine ⟨n.natAbs.log2 - 52, ?_, ?_⟩
  · unfold unitExponent
    rw [binade_intCast (by omega)]
    omega
  · rw [← Nat.pow_add, Nat.add_sub_cancel' (by omega)]
    exact Nat.log2_self_le (by omega)

/-- So what it is rounded to is large too, on the same side of zero. -/
theorem ofRat_of_large {n : Int} (h : exactLimit < n.natAbs) :
    (∃ q, ofRat (n : Rat) = .finite q ∧ (0 ≤ n → 2 ^ 52 ≤ q) ∧ (n < 0 → q ≤ -2 ^ 52 + 1)) ∨
      ofRat (n : Rat) = .infinite (decide (n < 0)) := by
  obtain ⟨k, hunit, hmany⟩ := unit_of_large h
  have hpos : (0 : Rat) < (2 ^ k : Nat) := by exact_mod_cast Nat.two_pow_pos k
  have hone : (1 : Rat) ≤ (2 ^ k : Nat) := by exact_mod_cast Nat.one_le_two_pow
  obtain ⟨hlow, hhigh⟩ := roundEven_bounds ((n : Rat) / (2 ^ k : Nat))
  have hrounded : ofRat (n : Rat) =
      if -powerOfTwo 1024 < (roundEven ((n : Rat) / (2 ^ k : Nat)) : Rat) * (2 ^ k : Nat) ∧
        (roundEven ((n : Rat) / (2 ^ k : Nat)) : Rat) * (2 ^ k : Nat) < powerOfTwo 1024 then
        .finite ((roundEven ((n : Rat) / (2 ^ k : Nat)) : Rat) * (2 ^ k : Nat))
      else .infinite (decide ((n : Rat) < 0)) := by
    unfold ofRat
    rw [if_neg (by rw [Rat.num_intCast]; omega)]
    simp only [hunit, powerOfTwo_natCast]
  rw [hrounded]
  generalize roundEven ((n : Rat) / (2 ^ k : Nat)) = r at hlow hhigh
  split
  · refine Or.inl ⟨_, rfl, fun hnonneg => ?_, fun hneg => ?_⟩
    · have hquot : ((2 ^ 52 : Int) : Rat) ≤ (n : Rat) / (2 ^ k : Nat) := by
        rw [le_div_iff₀ hpos]
        have : 2 ^ 52 * (2 ^ k : Nat) ≤ n := by
          have : (2 ^ 52 * 2 ^ k : Nat) ≤ n := by omega
          push_cast at this ⊢
          exact this
        exact_mod_cast this
      have hr : 2 ^ 52 ≤ r := by
        have := Rat.floor_monotone hquot
        rw [Rat.floor_intCast] at this
        omega
      have hr' : (2 ^ 52 : Rat) ≤ r := by exact_mod_cast hr
      nlinarith
    · have hquot : (n : Rat) / (2 ^ k : Nat) ≤ ((-2 ^ 52 : Int) : Rat) := by
        rw [div_le_iff₀ hpos]
        have : n ≤ -2 ^ 52 * (2 ^ k : Nat) := by
          have : (2 ^ 52 * 2 ^ k : Nat) ≤ -n := by omega
          push_cast at this ⊢
          linarith
        exact_mod_cast this
      have hr : r ≤ -2 ^ 52 + 1 := by
        have := Rat.floor_monotone hquot
        rw [Rat.floor_intCast] at this
        omega
      have hr' : (r : Rat) ≤ -2 ^ 52 + 1 := by exact_mod_cast hr
      nlinarith
  · right
    congr 2
    exact propext (by exact_mod_cast Iff.rfl)

/-- So it is far from every displacement. -/
theorem far_of_large {n : Int} (h : exactLimit < n.natAbs) :
    127 < ofRat (n : Rat) ∨ ofRat (n : Rat) < -128 := by
  rcases ofRat_of_large h with ⟨q, hq, hhigh, hlow⟩ | hinfinite
  · rw [hq]
    rcases Int.lt_or_le n 0 with hneg | hnonneg
    · right
      show decide (q < -128) = true
      rw [decide_eq_true_iff]
      linarith [hlow hneg]
    · left
      show decide (127 < q) = true
      rw [decide_eq_true_iff]
      linarith [hhigh hnonneg]
  · rw [hinfinite]
    by_cases hneg : n < 0
    · rw [decide_eq_true hneg]
      exact Or.inr rfl
    · rw [decide_eq_false hneg]
      exact Or.inl rfl

/-- And from every address. -/
theorem ofRat_ne_of_large {n m : Nat} (h : exactLimit < n) (hm : m < 2 ^ 52) :
    ofRat (n : Rat) ≠ ofNat m := by
  rw [← Rat.intCast_natCast]
  intro heq
  rcases ofRat_of_large (n := n) (by omega) with ⟨q, hq, hhigh, -⟩ | hinfinite
  · have hsame : q = (m : Rat) := Number.finite.inj (hq.symm.trans heq)
    have hlarge := hhigh (Int.natCast_nonneg n)
    rw [hsame] at hlarge
    have : 2 ^ 52 ≤ m := by exact_mod_cast hlarge
    omega
  · cases hinfinite.symm.trans heq

/-- A displacement in the range of a byte is exact. -/
theorem eq_of_displacement {target base : Int}
    (h : ¬(127 < ofInt target - ofInt base ∨ ofInt target - ofInt base < -128)) :
    ofInt target - ofInt base = ofInt (target - base) ∧ -128 ≤ target - base ∧ target - base ≤ 127 := by
  by_cases hsmall : (target - base).natAbs ≤ exactLimit
  · rw [ofInt_sub hsmall] at h ⊢
    rw [show (127 : Number) = ofInt 127 from rfl, show (-128 : Number) = ofInt (-128) from rfl,
      ofInt_lt_iff, ofInt_lt_iff] at h
    exact ⟨rfl, by omega, by omega⟩
  · rw [sub_ofInt_eq] at h
    exact absurd (far_of_large (by omega)) h

-- ── Rounding to an address ──────────────────────────────────────────────────

theorem powerOfTwo_eq_zpow (e : Int) : powerOfTwo e = (2 : Rat) ^ e := by
  cases e with
  | ofNat n =>
      show ((1 <<< n : Nat) : Rat) = _
      rw [Nat.one_shiftLeft, Int.ofNat_eq_natCast, zpow_natCast]
      push_cast
      rfl
  | negSucc n =>
      show mkRat 1 (1 <<< (n + 1)) = _
      rw [Nat.one_shiftLeft, zpow_negSucc, Rat.mkRat_eq_div]
      push_cast
      rw [one_div]

/-- A binade begins at or below the magnitudes in it. -/
theorem powerOfTwo_binade_le {q : Rat} (h : q ≠ 0) : powerOfTwo (binade q) ≤ |q| := by
  have habs : (if q < 0 then -q else q) = |q| := by
    split
    · rename_i hneg
      exact (abs_of_neg hneg).symm
    · rename_i hnonneg
      exact (abs_of_nonneg (not_lt.mp hnonneg)).symm
  unfold binade
  simp only [habs]
  split
  · assumption
  · -- the quotient of two binades spreads over two of them, so this is the lower one
    have hnum : (2 : Rat) ^ (q.num.natAbs.log2 : Int) ≤ q.num.natAbs := by
      rw [zpow_natCast]
      exact_mod_cast Nat.log2_self_le (Int.natAbs_ne_zero.mpr (Rat.num_ne_zero.mpr h))
    have hden : (q.den : Rat) ≤ 2 ^ ((q.den.log2 : Int) + 1) := by
      rw [← Nat.cast_succ, zpow_natCast]
      exact_mod_cast (Nat.lt_log2_self : q.den < 2 ^ (q.den.log2 + 1)).le
    have hpos : (0 : Rat) < q.den := by exact_mod_cast q.den_pos
    calc powerOfTwo ((q.num.natAbs.log2 : Int) - q.den.log2 - 1)
        = 2 ^ (q.num.natAbs.log2 : Int) / 2 ^ ((q.den.log2 : Int) + 1) := by
          rw [powerOfTwo_eq_zpow, sub_sub, zpow_sub₀ (by norm_num)]
      _ ≤ q.num.natAbs / q.den := div_le_div₀ (Nat.cast_nonneg _) hnum hpos hden
      _ = |q| := by
          conv_rhs => rw [← Rat.num_div_den q]
          rw [abs_div, abs_of_pos hpos, ← Int.cast_abs, Int.abs_eq_natAbs, Int.cast_natCast]

/-- A unit of one or more belongs to a magnitude that has many of them. -/
theorem unit_le_of_nonneg {q : Rat} (hq : q ≠ 0) (h : 0 ≤ unitExponent q) :
    1 ≤ powerOfTwo (unitExponent q) ∧ 2 ^ 52 * powerOfTwo (unitExponent q) ≤ |q| := by
  have hbinade : binade q = 52 + unitExponent q := by
    unfold unitExponent at h ⊢
    omega
  have hbelow := powerOfTwo_binade_le hq
  rw [hbinade, powerOfTwo_eq_zpow, zpow_add₀ (by norm_num)] at hbelow
  rw [powerOfTwo_eq_zpow]
  exact ⟨one_le_zpow₀ (by norm_num) h, by exact_mod_cast hbelow⟩

theorem roundEven_near (x : Rat) : |(roundEven x : Rat) - x| ≤ 1 / 2 := by
  have hlow := Rat.floor_le x
  have hhigh := Rat.lt_floor_add_one x
  push_cast at hhigh
  have hhalf : mkRat 1 2 = (1 / 2 : Rat) := by norm_num
  unfold roundEven
  simp only [hhalf]
  rw [abs_le]
  split
  · constructor <;> linarith
  · split
    · push_cast
      constructor <;> linarith
    · split
      · constructor <;> linarith
      · push_cast
        constructor <;> linarith

/-- Rounding to a multiple of a unit goes no further than half of it. -/
theorem rounded_near {unit : Rat} (hunit : 0 < unit) (q : Rat) :
    |(roundEven (q / unit) : Rat) * unit - q| ≤ unit / 2 := by
  calc |(roundEven (q / unit) : Rat) * unit - q| = |(roundEven (q / unit) : Rat) - q / unit| * unit := by
        rw [← abs_of_pos hunit, ← abs_mul, abs_of_pos hunit, sub_mul, div_mul_cancel₀ _ hunit.ne']
    _ ≤ 1 / 2 * unit := mul_le_mul_of_nonneg_right (roundEven_near (q / unit)) hunit.le
    _ = unit / 2 := by ring

/-- What is rounded to an address lies next to it. -/
theorem near_of_ofRat {q : Rat} {a : UInt16} (h : ofRat q = ofAddress a) :
    |(a.toNat : Rat) - q| ≤ 1 / 4 := by
  unfold ofRat at h
  split at h
  · rw [show q = (a.toNat : Rat) from Number.finite.inj h, sub_self, abs_zero]
    norm_num
  · rename_i hinexact
    have hq : q ≠ 0 := by
      rintro rfl
      exact hinexact ⟨rfl, by decide⟩
    simp only at h
    split at h
    · have hunit : 0 < powerOfTwo (unitExponent q) := by
        rw [powerOfTwo_eq_zpow]
        exact zpow_pos (by norm_num) _
      have hnear := rounded_near hunit q
      rw [Number.finite.inj h] at hnear
      have hsmall : powerOfTwo (unitExponent q) ≤ 1 / 2 := by
        by_cases hexponent : 0 ≤ unitExponent q
        · -- such magnitudes lie far beyond the addresses
          exfalso
          obtain ⟨hone, hmany⟩ := unit_le_of_nonneg hq hexponent
          have haddress : (a.toNat : Rat) ≤ 65535 := by
            have hlt := a.toNat_lt
            exact_mod_cast (by omega : a.toNat ≤ 65535)
          have hlow : (0 : Rat) ≤ a.toNat := Nat.cast_nonneg _
          rcases abs_cases q with ⟨hmagnitude, -⟩ | ⟨hmagnitude, -⟩
          · linarith [(abs_le.mp hnear).1]
          · linarith [(abs_le.mp hnear).2]
        · rw [powerOfTwo_eq_zpow]
          calc (2 : Rat) ^ unitExponent q ≤ 2 ^ (-1 : Int) := zpow_le_zpow_right₀ (by norm_num) (by omega)
            _ = 1 / 2 := by norm_num
      exact hnear.trans (by linarith)
    · cases h

/-- What is counted on to an address lies next to it. -/
theorem near_of_counted {x : Number} {n : Nat} {a : UInt16} (h : (x + ofNat n).toAddress? = some a) :
    ∃ q, x = .finite q ∧ |(a.toNat : Rat) - (q + n)| ≤ 1 / 4 := by
  rw [toAddress?_eq_some_iff] at h
  cases x with
  | nan => cases h
  | infinite negative => cases h
  | finite q => exact ⟨q, rfl, near_of_ofRat h⟩

/-- Counting on from a number that does not fall, each address is higher than the one before. -/
theorem lt_of_counted {x y : Number} (hrises : ¬y < x) {n : Nat} {a b : UInt16}
    (ha : (x + ofNat n).toAddress? = some a) (hb : (y + ofNat (n + 1)).toAddress? = some b) : a < b := by
  obtain ⟨q, rfl, hbelow⟩ := near_of_counted ha
  obtain ⟨r, rfl, habove⟩ := near_of_counted hb
  have hle : q ≤ r := not_lt.mp (fun hlt => hrises (decide_eq_true hlt))
  push_cast at habove
  have hlt : (a.toNat : Rat) < b.toNat := by linarith [(abs_le.mp hbelow).2, (abs_le.mp habove).1]
  exact UInt16.lt_iff_toNat_lt.mpr (by exact_mod_cast hlt)

/-- A number that is an address up to rounding is no lower than the natural numbers below it. -/
theorem le_of_counted {y : Number} {p : Nat} (hrises : ¬y < ofNat p) {b : UInt16}
    (hb : (y + ofNat 0).toAddress? = some b) : p ≤ b.toNat := by
  obtain ⟨r, rfl, hnear⟩ := near_of_counted hb
  have hle : (p : Rat) ≤ r := not_lt.mp (fun hlt => hrises (decide_eq_true hlt))
  push_cast at hnear
  have hlt : (p : Rat) < b.toNat + 1 := by linarith [(abs_le.mp hnear).1]
  exact Nat.lt_succ_iff.mp (by exact_mod_cast hlt)

end Asm6502.Number
