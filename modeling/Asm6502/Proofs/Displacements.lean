import Asm6502.Proofs.Decoding
import Asm6502.Proofs.Failures

/-!
# Displacements of branches

A branch says how far its target lies from the byte behind it. The distance is computed with numbers, so it
is rounded where it is no number. Places of magnitude up to `2^52` have only one distance of that kind,
`-2^53 - 1`; all others are exact, and the byte of a branch is the residue of the distance.

* `displacement_eq`: the difference that is computed, and the distance.
* `branchOffset_ofInt`: the byte of a branch, or its fault.
* `Assembly.raises_emit_discovery`: discovery has no fault of a displacement.
* `branch_displacements`: all of this together.
-/

namespace Asm6502

-- ── Distances ───────────────────────────────────────────────────────────────

/-- How far a target lies from the byte behind a branch. -/
def distance (place target : Int) : Int := target - (place + 2)

/-- The distance as a number: `-2^53 - 1` is none and goes to its even neighbour. -/
def roundedDistance (place target : Int) : Int :=
  if distance place target = -2 ^ 53 - 1 then -2 ^ 53 else distance place target

theorem le_roundedDistance {place target : Int} (hplace : place.natAbs ≤ 2 ^ 52)
    (htarget : target.natAbs ≤ 2 ^ 52) : -2 ^ 53 - 2 ≤ roundedDistance place target := by
  unfold roundedDistance distance
  split <;> omega

/-- Rounding does not bring a distance into reach. -/
theorem roundedDistance_lt_iff {place target n : Int} (hn : -2 ^ 53 < n) :
    roundedDistance place target < n ↔ distance place target < n := by
  unfold roundedDistance
  split <;> omega

/-- The difference that is computed is the distance, rounded. -/
theorem displacement_eq {place target : Int} (hplace : place.natAbs ≤ 2 ^ 52)
    (htarget : target.natAbs ≤ 2 ^ 52) :
    Number.ofInt target - (Number.ofInt place + 2) = .ofInt (roundedDistance place target) := by
  have hbehind : Number.ofInt place + 2 = .ofInt (place + 2) :=
    Number.ofInt_add (b := 2) (by unfold Number.exactLimit; omega)
  rw [hbehind]
  by_cases hsmall : (target - (place + 2)).natAbs ≤ Number.exactLimit
  · have hexact : roundedDistance place target = target - (place + 2) := by
      unfold Number.exactLimit at hsmall
      unfold roundedDistance distance
      rw [if_neg (by omega)]
    rw [hexact]
    exact Number.ofInt_sub hsmall
  · -- the two distances below the integers that are all numbers
    rw [Number.sub_ofInt_eq]
    have hcases : target - (place + 2) = -2 ^ 53 - 1 ∨ target - (place + 2) = -2 ^ 53 - 2 := by
      unfold Number.exactLimit at hsmall
      omega
    unfold roundedDistance distance
    rcases hcases with heq | heq
    · rw [heq, if_pos rfl]
      decide +kernel
    · rw [heq, if_neg (by decide)]
      decide +kernel

-- ── The byte of a branch ────────────────────────────────────────────────────

/-- A displacement out of reach is a fault where it is checked; otherwise it is cut to a byte. -/
theorem branchOffset_ofInt (m : Mnemonic) {place target : Int} (hplace : place.natAbs ≤ 2 ^ 52)
    (htarget : target.natAbs ≤ 2 ^ 52) (check : Bool) :
    branchOffset m (.ofInt place) (.ofInt target) check =
      if check = true ∧ (127 < distance place target ∨ distance place target < -128) then
        .error (.branchOutOfRange m (.ofInt place) (.ofInt target) (.ofInt (roundedDistance place target)))
      else .ok (UInt8.ofNat (roundedDistance place target % 256).toNat) := by
  have hlow := le_roundedDistance hplace htarget
  have hfar : (127 < roundedDistance place target ∨ roundedDistance place target < -128) ↔
      (127 < distance place target ∨ distance place target < -128) := by
    have habove : roundedDistance place target < 128 ↔ distance place target < 128 :=
      roundedDistance_lt_iff (by decide)
    rw [roundedDistance_lt_iff (by decide)]
    omega
  rw [branchOffset_of_displacement (displacement_eq hplace htarget) (by omega)]
  simp only [hfar]

-- ── Discovery ───────────────────────────────────────────────────────────────

/-- Arguments that cannot be sorted out are too many, or in the wrong place. -/
theorem raises_readArguments (m : Mnemonic) (args : List Assembly.Argument) :
    Check.Raises Fault.Unaimed (Assembly.readArguments m args) := by
  unfold Assembly.readArguments
  extract_lets flags operands sorted read
  have hsorted : ∀ pair, Check.Raises Fault.Unaimed (sorted pair) := by
    rintro ⟨operand, second⟩
    have hend : ∀ index, Check.Raises Fault.Unaimed (do
        if operand.isSome && m.isImpliedOnly then throw (.arity (.takesNoOperand m))
        return (⟨operand, index, flags.getD {}⟩ : Assembly.Arguments)) := by
      intro index
      cases operand.isSome && m.isImpliedOnly with
      | true => exact .error trivial
      | false => exact .ok _
    cases second with
    | none => exact hend none
    | some second =>
        simp only [sorted]
        cases Assembly.Argument.index? second with
        | none => exact .error trivial
        | some index => exact hend (some index)
  have hread : ∀ r, Check.Raises Fault.Unaimed (read r) := by
    intro r
    simp only [read]
    clear_value operands
    split
    · exact .bind (.ok _) hsorted
    · exact .bind (.ok _) hsorted
    · exact .bind (.ok _) hsorted
    · exact .error trivial
  generalize operands.length + (if flags.isSome then 1 else 0) = count
  split
  · exact .error trivial
  · exact hread ()

namespace Assembly

open Asm6502.Action (Raises)

variable {s : Session}

/-- In discovery a name is never looked up in vain. -/
theorem raises_value_discovery (hpass : s.pass = .discovery) (o : Operand) :
    Check.Raises Fault.Unaimed (s.value o) := by
  refine raises_valueIn (fun _ h => h) (fun name => ?_) o
  rw [hpass]
  unfold Symbols.lookup
  cases s.symbols.labels.find? name <;> exact .ok _

/-- In discovery no displacement is checked. -/
theorem raises_encodeOperand_discovery (hpass : s.pass = .discovery) (m : Mnemonic) (o : Operand)
    (v : Value) (addressing : Option Index × Flags) :
    Check.Raises Fault.Unaimed (s.encodeOperand m o v addressing) := by
  refine raises_encodeWith (fun _ h => h) ?_ _ o _ _
  rw [hpass]
  obtain ⟨b, hb⟩ := branchOffset_unchecked m s.cursor.position v.amount
  rw [show (Pass.discovery.isFinal && !v.pending) = false from rfl, hb]
  exact .ok b

theorem raises_encoding_discovery (hpass : s.pass = .discovery) {m : Mnemonic} {args : List Argument}
    {fault : Fault} (h : ((encoding m args).exec s).1 = .error fault) : fault.Unaimed := by
  cases hargs : readArguments m args with
  | error refusal =>
      rw [exec_encoding_of_refused hargs] at h
      rw [← Except.error.inj h]
      exact raises_readArguments m args refusal hargs
  | ok arguments =>
      obtain ⟨operand, index, flags⟩ := arguments
      cases operand with
      | none =>
          rw [exec_encoding_of_arguments hargs, exec_onSymbols (Scope.exec_assemble_none ..)] at h
          exact raises_encodeIn m .implied _ fault h
      | some o =>
          cases hv : s.value o with
          | error refusal =>
              obtain ⟨t, hrun⟩ := exec_encoding_of_value_error hargs hv
              rw [hrun] at h
              rw [← Except.error.inj h]
              exact raises_value_discovery hpass o refusal hv
          | ok v =>
              obtain ⟨hok, herror⟩ := exec_encoding_some hargs hv
              cases he : s.encodeOperand m o v (index, flags) with
              | ok e =>
                  rw [hok e he] at h
                  cases h
              | error refusal =>
                  obtain ⟨t, hrun⟩ := herror refusal he
                  rw [hrun] at h
                  rw [← Except.error.inj h]
                  exact raises_encodeOperand_discovery hpass m o v (index, flags) refusal he

theorem raises_emit_discovery (hpass : s.pass = .discovery) {m : Mnemonic} {args : List Argument}
    {fault : Fault} (h : ((emit m args).exec s).1 = .error fault) : fault.Unaimed := by
  rcases Action.bind_eq_error_iff.mp h with hencoding | ⟨e, t, -, hrest⟩
  · exact raises_encoding_discovery hpass hencoding
  · have hbytes : Raises Fault.Unaimed (do
        Action.each emitByte e.bytes
        countInstruction
        return e.bytes.length : Assembly Nat) :=
      .bind (.each raises_emitByte e.bytes) (fun _ => .quiet (fun _ => rfl))
    exact hbytes t fault hrest

end Assembly

-- ── Branches ────────────────────────────────────────────────────────────────

/-- Between places of magnitude up to `2^52`, a checked displacement fails exactly if the distance is out of
    reach, and otherwise leads from behind the branch to its target. An unchecked one never fails, and is
    the residue of the distance. The distance is exact, but that `-2^53 - 1` is taken for `-2^53`. Discovery
    checks no displacement. -/
theorem branch_displacements (m : Mnemonic) :
    (∀ place target : Int, place.natAbs ≤ 2 ^ 52 → target.natAbs ≤ 2 ^ 52 →
      (distance place target < -128 ∨ 127 < distance place target →
        branchOffset m (.ofInt place) (.ofInt target) true =
          .error (.branchOutOfRange m (.ofInt place) (.ofInt target)
            (.ofInt (roundedDistance place target)))) ∧
      (-128 ≤ distance place target → distance place target ≤ 127 →
        ∃ r, branchOffset m (.ofInt place) (.ofInt target) true = .ok r ∧
          place + 2 + Disassembly.signed r = target) ∧
      (∃ r, branchOffset m (.ofInt place) (.ofInt target) false = .ok r ∧
        (r.toNat : Int) = roundedDistance place target % 256) ∧
      (distance place target ≠ -2 ^ 53 - 1 → roundedDistance place target = distance place target) ∧
      (distance place target = -2 ^ 53 - 1 → roundedDistance place target = -2 ^ 53)) ∧
    ∀ args s, s.pass = .discovery → ∀ m' cursor target displacement,
      ((Assembly.emit m args).exec s).1 ≠ .error (.branchOutOfRange m' cursor target displacement) := by
  constructor
  · intro place target hplace htarget
    have hoffset := branchOffset_ofInt m hplace htarget
    refine ⟨fun hfar => ?_, fun hlow hhigh => ?_, ?_, fun hexact => if_neg hexact,
      fun hround => if_pos hround⟩
    · rw [hoffset, if_pos ⟨rfl, hfar.symm⟩]
    · have hexact : roundedDistance place target = distance place target := if_neg (by omega)
      refine ⟨_, by rw [hoffset, if_neg (by omega)], ?_⟩
      rw [hexact, Disassembly.signed_ofNat hlow hhigh, distance]
      omega
    · refine ⟨_, by rw [hoffset, if_neg (fun hno => Bool.noConfusion hno.1)], ?_⟩
      rw [UInt8.toNat_ofNat']
      omega
  · intro args s hpass m' cursor target displacement hfault
    exact Assembly.raises_emit_discovery hpass hfault

/-- The last displacement in reach, the first one beyond, one of almost `2^53`, and a far branch in
    discovery. -/
theorem displacements_at_the_limits :
    (∃ r, branchOffset .bne (.ofInt 0x1000) (.ofInt 0xF82) true = .ok r ∧
      0x1000 + 2 + Disassembly.signed r = 0xF82) ∧
    branchOffset .bne (.ofInt 0x1000) (.ofInt 0x1082) true =
      .error (.branchOutOfRange .bne (.ofInt 0x1000) (.ofInt 0x1082) (.ofInt 128)) ∧
    (∃ r : UInt8, branchOffset .bne (.ofInt (-2 ^ 52)) (.ofInt (2 ^ 52)) false = .ok r ∧
      r.toNat = 254) ∧
    ∀ m' cursor target displacement,
      ((Assembly.emit .bne [.operand (.number 0x5000)]).exec Source.plainSession).1 ≠
        .error (.branchOutOfRange m' cursor target displacement) := by
  obtain ⟨hplaces, hdiscovery⟩ := branch_displacements .bne
  refine ⟨?_, ?_, ?_, hdiscovery _ Source.plainSession rfl⟩
  · exact (hplaces 0x1000 0xF82 (by decide) (by decide)).2.1 (by decide) (by decide)
  · exact (hplaces 0x1000 0x1082 (by decide) (by decide)).1 (by decide)
  · obtain ⟨r, hr, hresidue⟩ := (hplaces (-2 ^ 52) (2 ^ 52) (by decide) (by decide)).2.2.1
    refine ⟨r, hr, ?_⟩
    rw [show roundedDistance (-2 ^ 52) (2 ^ 52) % 256 = 254 from by decide] at hresidue
    omega

/-- The two places whose distance is no number: the residue is that of its neighbour. -/
theorem rounded_displacement_has_other_residue :
    (2 ^ 52 : Int).natAbs ≤ 2 ^ 52 ∧ (1 - 2 ^ 52 : Int).natAbs ≤ 2 ^ 52 ∧
    branchOffset .bne (.ofInt (2 ^ 52)) (.ofInt (1 - 2 ^ 52)) false = .ok 0 ∧
    ((1 - 2 ^ 52) - (2 ^ 52 + 2) : Int) % 256 = 255 := by
  decide +kernel

end Asm6502
