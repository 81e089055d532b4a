import Asm6502.Disassembly
import Asm6502.Proofs.Layout
import Asm6502.Proofs.Scanning

/-!
# Assembling undoes disassembling

Instructions written one a line, each in the syntax of its mode, are assembled to the bytes they stand
for. Each line is read as the instruction it was written for (`says_line`), and its operand is given the
same mode again (`encode_line`): numbers are known in both passes, so nothing is pinned, and a zero page
form is taken exactly where the number lies in the zero page and the mnemonic has that form.

* `Placed`: instructions with operands that can be written for their places.
* `codeBytes`: the bytes that they are.
* `runs_listing`: either pass emits them.
-/

namespace Asm6502

open Source

-- ── Lines read back ─────────────────────────────────────────────────────────

/-- How the operand of an instruction is written. -/
def Descriptor.operandSyntax (d : Descriptor) (n : Nat) : Option OperandSyntax :=
  match d.mode with
  | .implied => none
  | .immediate => some (.immediate (.number (.ofNat n)))
  | .zeroPage | .absolute | .relative => some (.direct (.number (.ofNat n)) none)
  | .zeroPageX | .absoluteX => some (.direct (.number (.ofNat n)) (some .x))
  | .zeroPageY | .absoluteY => some (.direct (.number (.ofNat n)) (some .y))
  | .indirect => some (.indirect (.number (.ofNat n)))
  | .indexedIndirect => some (.indexedIndirect (.number (.ofNat n)))
  | .indirectIndexed => some (.indirectIndexed (.number (.ofNat n)))

namespace Source

/-- A line says the instruction it was written for. -/
theorem says_line (d : Descriptor) {text : String} {n : Nat}
    (h : d.mode ≠ .implied → Spells text n ∧ n ≤ 65535) :
    Says (Disassembly.line d text).toList (.instruction d.mnemonic (d.operandSyntax n)) := by
  unfold Disassembly.line Descriptor.operandSyntax
  cases hmode : d.mode <;>
    simp only [hmode, ne_eq, reduceCtorEq, not_false_eq_true, not_true_eq_false, forall_const,
      String.toList_append, List.append_assoc] at h ⊢
  case implied => exact says_bare
  case immediate => exact says_immediate h.1 h.2
  case zeroPage | absolute | relative => exact says_direct h.1 h.2
  case zeroPageX | absoluteX => exact says_indexed .x h.1 h.2
  case zeroPageY | absoluteY => exact says_indexed .y h.1 h.2
  case indirect => exact says_indirect h.1 h.2
  case indexedIndirect => exact says_indexedIndirect h.1 h.2
  case indirectIndexed => exact says_indirectIndexed h.1 h.2

end Source

-- ── Lines encoded ───────────────────────────────────────────────────────────

/-- The bytes of a number, little end first. -/
def littleEndian : Nat → Nat → List UInt8
  | 0, _ => []
  | size + 1, n => UInt8.ofNat n :: littleEndian size (n / 256)

namespace Descriptor

/-- The bytes behind the opcode of an instruction at a place: the number that its operand stands for, or
    the displacement to it from behind a branch. -/
def operandBytes (d : Descriptor) (place n : Nat) : List UInt8 :=
  littleEndian d.mode.width.size
    (if d.mode = .relative then (((n : Int) - (place + 2)) % 256).toNat else n)

/-- The numbers that can be the operand of an instruction at a place. A number in the zero page is not
    written with a whole word where the mnemonic has the zero page form too. -/
def Takes (d : Descriptor) (place n : Nat) : Prop :=
  match d.mode with
  | .implied => True
  | .immediate | .zeroPage | .zeroPageX | .zeroPageY | .indexedIndirect | .indirectIndexed => n < 256
  | .absolute => n ≤ 65535 ∧ (256 ≤ n ∨ d.mnemonic.hasMode .zeroPage = false)
  | .absoluteX => n ≤ 65535 ∧ (256 ≤ n ∨ d.mnemonic.hasMode .zeroPageX = false)
  | .absoluteY => n ≤ 65535 ∧ (256 ≤ n ∨ d.mnemonic.hasMode .zeroPageY = false)
  | .indirect => n ≤ 65535
  | .relative => n ≤ 65535 ∧ (place : Int) + 2 - 128 ≤ n ∧ (n : Int) ≤ place + 2 + 127

instance (d : Descriptor) (place n : Nat) : Decidable (d.Takes place n) :=
  match d with
  | ⟨_, .implied, _, _⟩ => inferInstanceAs (Decidable True)
  | ⟨_, .immediate, _, _⟩ | ⟨_, .zeroPage, _, _⟩ | ⟨_, .zeroPageX, _, _⟩ | ⟨_, .zeroPageY, _, _⟩
  | ⟨_, .indexedIndirect, _, _⟩ | ⟨_, .indirectIndexed, _, _⟩ => inferInstanceAs (Decidable (n < 256))
  | ⟨_, .absolute, _, _⟩ | ⟨_, .absoluteX, _, _⟩ | ⟨_, .absoluteY, _, _⟩
  | ⟨_, .relative, _, _⟩ => inferInstanceAs (Decidable (_ ∧ _))
  | ⟨_, .indirect, _, _⟩ => inferInstanceAs (Decidable (n ≤ 65535))

theorem Takes.le {d : Descriptor} {place n : Nat} (h : d.Takes place n) (hmode : d.mode ≠ .implied) :
    n ≤ 65535 := by
  unfold Takes at h
  cases hm : d.mode <;> rw [hm] at h <;> simp only at h
  case implied => exact absurd hm hmode
  case absolute | absoluteX | absoluteY | relative => exact h.1
  case indirect => exact h
  all_goals omega

/-- What the table says of its rows: each is found by its mnemonic and mode, branches have no other form
    than the relative one, mnemonics that take an operand do not refuse it, and immediate forms go with
    zero page forms. -/
structure Regular (d : Descriptor) : Prop where
  found : lookup d.mnemonic d.mode = .ok d
  form : d.mnemonic.hasMode d.mode = true
  branch : d.mnemonic.isBranch = true ↔ d.mode = .relative
  carries : d.mode ≠ .implied → takesOperand d.mnemonic = .ok ()
  short : d.mnemonic.hasMode .zeroPage = false → d.mnemonic.hasMode .immediate = false

theorem regular_of_mem {d : Descriptor} (h : d ∈ table) : d.Regular := by
  have hall : ∀ d ∈ table, lookup d.mnemonic d.mode = .ok d ∧ d.mnemonic.hasMode d.mode = true ∧
      (d.mnemonic.isBranch = true ↔ d.mode = .relative) ∧
      (d.mode ≠ .implied → takesOperand d.mnemonic = .ok ()) ∧
      (d.mnemonic.hasMode .zeroPage = false → d.mnemonic.hasMode .immediate = false) := by
    decide +kernel
  obtain ⟨hfound, hform, hbranch, hcarries, hshort⟩ := hall d h
  exact ⟨hfound, hform, hbranch, hcarries, hshort⟩

end Descriptor

theorem lowByte_ofNat {n : Nat} (h : n < 65536) : lowByte (UInt16.ofNat n) = UInt8.ofNat n := by
  rw [lowByte, UInt16.toNat_ofNat_of_lt' h, ← UInt8.toNat_inj, UInt8.toNat_ofNat', UInt8.toNat_ofNat']
  omega

/-- A row of the table with a number that fits it. -/
theorem encodeIn_row {d : Descriptor} (h : d.Regular) {n : Nat} (hn : n < 256 ^ d.mode.width.size) :
    encodeIn d.mnemonic d.mode ⟨.ofNat n, false⟩ =
      .ok ⟨d, (d.opcode :: littleEndian d.mode.width.size n).map .ofByte⟩ := by
  have hencode : encode d ⟨.ofNat n, false⟩ =
      .ok ((d.opcode :: littleEndian d.mode.width.size n).map .ofByte) := by
    unfold encode
    cases hwidth : d.mode.width with
    | none => rfl
    | byte =>
        rw [hwidth] at hn
        show Except.ok [Number.ofByte d.opcode, Number.ofNat n] =
          .ok [Number.ofByte d.opcode, Number.ofByte (UInt8.ofNat n)]
        rw [ofByte_ofNat hn]
    | word =>
        rw [hwidth] at hn
        have hword : Value.word ⟨.ofNat n, false⟩ = .ok (UInt16.ofNat n) := checkWord_ofNat hn
        have hhigh : highByte (UInt16.ofNat n) = UInt8.ofNat (n / 256) := by
          rw [highByte, UInt16.toNat_ofNat_of_lt' hn]
        simp only [hword, Check.ok_bind, lowByte_ofNat hn, hhigh]
        rfl
  unfold encodeIn
  rw [h.found, Check.ok_bind, hencode]
  rfl

/-- The displacement to a target in reach, whether or not it is checked. -/
theorem branchOffset_ofNat {m : Mnemonic} {place n : Nat} (hn : n ≤ 65535)
    (hlow : (place : Int) + 2 - 128 ≤ n) (hhigh : (n : Int) ≤ place + 2 + 127) (check : Bool) :
    branchOffset m (.ofNat place) (.ofNat n) check =
      .ok (UInt8.ofNat (((n : Int) - (place + 2)) % 256).toNat) := by
  have hdisplacement : Number.ofNat n - (Number.ofNat place + 2) = .ofInt ((n : Int) - (place + 2)) := by
    rw [Number.ofNat_add_two (by unfold Number.exactLimit; omega), Number.ofNat_eq_ofInt,
      Number.ofInt_sub (by unfold Number.exactLimit; omega)]
  rw [branchOffset_of_displacement hdisplacement (by omega), if_neg (by omega)]

theorem inZeroPage_ofNat (m : Mnemonic) (index : Option Index) (n : Nat) :
    inZeroPage m index ⟨.ofNat n, false⟩ = (decide (n < 256) && m.hasMode (zeroPageMode index)) := by
  have hnonneg : (0 : Number) ≤ .ofNat n := by
    rw [Number.ofNat_eq_ofInt, show (0 : Number) = Number.ofInt 0 from rfl, Number.ofInt_le_iff]
    omega
  unfold inZeroPage
  simp [hnonneg, Number.ofNat_lt_256_iff]

/-- The mode of a direct operand in the zero page, if the mnemonic has that form. -/
theorem selectMode_zeroPage {m : Mnemonic} {index : Option Index} {n : Nat} (hn : n < 256)
    (hform : m.hasMode (zeroPageMode index) = true) :
    selectMode m (.ofNat n) index { zeroPage := inZeroPage m index ⟨.ofNat n, false⟩ } =
      .ok (zeroPageMode index) := by
  rw [inZeroPage_ofNat, hform, decide_eq_true hn]
  cases index <;> rfl

/-- The mode of a direct operand that lies above the zero page, or for which the mnemonic has no zero page
    form. -/
theorem selectMode_absolute {m : Mnemonic} {index : Option Index} {n : Nat}
    (hn : 256 ≤ n ∨ m.hasMode (zeroPageMode index) = false)
    (hshort : m.hasMode .zeroPage = false → m.hasMode .immediate = false) :
    selectMode m (.ofNat n) index { zeroPage := inZeroPage m index ⟨.ofNat n, false⟩ } =
      .ok (index.elim .absolute (·.absolute)) := by
  have hwide : ∀ {form : Bool}, (256 ≤ n ∨ form = false) → ¬(Number.ofNat n < 256 ∧ form = true) := by
    rintro form (hn | hn) ⟨hlt, hform⟩
    · exact absurd (Number.ofNat_lt_256_iff.mp hlt) (Nat.not_lt.mpr hn)
    · rw [hn] at hform
      exact nomatch hform
  have hflag : inZeroPage m index ⟨.ofNat n, false⟩ = false := by
    rw [inZeroPage_ofNat]
    rcases hn with hn | hn
    · simp [Nat.not_lt.mpr hn]
    · simp [hn]
  rw [hflag]
  cases index with
  | none =>
      have himmediate : 256 ≤ n ∨ m.hasMode .immediate = false := hn.imp_right hshort
      simp [selectMode, hwide himmediate]
  | some i =>
      have hindexed : 256 ≤ n ∨ m.hasMode i.zeroPage = false := hn
      simp [selectMode, hwide hindexed]

namespace Session

variable {s : Session} {d : Descriptor} {place n : Nat}

/-- Without pins a known number is encoded in the mode that is selected for it. -/
theorem encodeOperand_of_selectMode (hd : d.Regular) (hpins : s.symbols.pins = .empty)
    (hbranch : d.mode ≠ .relative) {o : Operand} {addressing : Option Index × Flags}
    (hn : n < 256 ^ d.mode.width.size)
    (hselect : selectMode d.mnemonic (.ofNat n) addressing.1 addressing.2 = .ok d.mode) :
    s.encodeOperand d.mnemonic o ⟨.ofNat n, false⟩ addressing =
      .ok ⟨d, (d.opcode :: d.operandBytes place n).map .ofByte⟩ := by
  have hfalse : ¬d.mnemonic.isBranch = true := fun h => hbranch (hd.branch.mp h)
  have hpinned : s.symbols.pinFor s.pass s.cursor.position = none := by
    unfold Symbols.pinFor Symbols.pinned?
    rw [hpins]
    split <;> rfl
  unfold encodeOperand encodeWith
  rw [if_neg hfalse, hpinned]
  show (selectMode d.mnemonic (.ofNat n) addressing.1 addressing.2 >>= _) = _
  rw [hselect, Check.ok_bind, encodeIn_row hd hn, Descriptor.operandBytes, if_neg hbranch]

/-- The low byte of a number that is a byte. -/
theorem value_low (s : Session) (hn : n < 256) :
    s.value (.low (.number (.ofNat n))) = .ok ⟨.ofNat n, false⟩ := by
  have hfits : n < 65536 := by omega
  have hword : Value.word ⟨.ofNat n, false⟩ = .ok (UInt16.ofNat n) := checkWord_ofNat hfits
  simp only [value, Operand.valueIn, Check.ok_bind, hword, lowByte_ofNat hfits, ofByte_ofNat hn,
    Check.pure_eq_ok]

/-- A number written behind a mnemonic is encoded as its row says, if its place takes it. -/
theorem encode_line (hd : d.Regular) (hn : d.Takes place n) (hpins : s.symbols.pins = .empty)
    (hplace : s.cursor.position = .ofNat place) :
    s.encode d.mnemonic (d.operandSyntax n) =
      .ok ⟨d, (d.opcode :: d.operandBytes place n).map .ofByte⟩ := by
  have hform := hd.form
  -- an operand that is no branch target is a number, and a mode is selected for it
  have hselected : ∀ {x : OperandSyntax} {o : Operand}, x.carried = some o →
      s.value o = .ok ⟨.ofNat n, false⟩ → d.mode ≠ .implied → d.mode ≠ .relative →
      n < 256 ^ d.mode.width.size →
      selectMode d.mnemonic (.ofNat n) (x.addressing d.mnemonic ⟨.ofNat n, false⟩).1
        (x.addressing d.mnemonic ⟨.ofNat n, false⟩).2 = .ok d.mode →
      s.encode d.mnemonic (some x) = .ok ⟨d, (d.opcode :: d.operandBytes place n).map .ofByte⟩ := by
    intro x o hx hvalue himplied hbranch hfits hselect
    rw [s.encode_of_takesOperand hx (hd.carries himplied), hvalue, Check.ok_bind]
    exact encodeOperand_of_selectMode hd hpins hbranch hfits hselect
  unfold Descriptor.Takes at hn
  unfold Descriptor.operandSyntax
  cases hmode : d.mode <;> rw [hmode] at hn hform hselected <;> simp only at hn ⊢
  case implied =>
    have hrow := encodeIn_row hd (n := 0) (Nat.pow_pos (by decide))
    rw [hmode] at hrow
    rw [Descriptor.operandBytes, hmode]
    exact hrow
  case immediate =>
    refine hselected (x := .immediate _) rfl ?_ (by decide) (by decide) hn ?_
    · exact value_low s hn
    · simp [OperandSyntax.addressing, selectMode, Number.ofNat_lt_256_iff, hn, hform]
  case zeroPage | zeroPageX | zeroPageY =>
    exact hselected (x := .direct _ _) rfl rfl (by decide) (by decide) hn (selectMode_zeroPage hn hform)
  case absolute | absoluteX | absoluteY =>
    exact hselected (x := .direct _ _) rfl rfl (by decide) (by decide) (Nat.lt_succ_of_le hn.1)
      (selectMode_absolute hn.2 hd.short)
  case indirect =>
    exact hselected (x := .indirect _) rfl rfl (by decide) (by decide) (Nat.lt_succ_of_le hn) rfl
  case indexedIndirect =>
    have hfits : n < 65536 := by omega
    exact hselected (x := .indexedIndirect _) rfl rfl (by decide) (by decide) hfits rfl
  case indirectIndexed =>
    have hfits : n < 65536 := by omega
    exact hselected (x := .indirectIndexed _) rfl rfl (by decide) (by decide) hfits rfl
  case relative =>
    obtain ⟨hn, hlow, hhigh⟩ := hn
    have hfound := hd.found
    rw [hmode] at hfound
    rw [s.encode_of_takesOperand (x := .direct _ _) rfl (hd.carries (by rw [hmode]; decide)),
      show s.value (.number (.ofNat n)) = .ok ⟨.ofNat n, false⟩ from rfl, Check.ok_bind]
    unfold encodeOperand encodeWith encodeBranch
    rw [if_pos (hd.branch.mpr hmode)]
    simp only [OperandSyntax.addressing, Option.isSome_none, Bool.false_eq_true, if_false, hfound,
      Check.ok_bind, hplace, branchOffset_ofNat hn hlow hhigh]
    rw [Descriptor.operandBytes, hmode]
    rfl

end Session

-- ── Listings run ────────────────────────────────────────────────────────────

namespace Session

/-- All cells belong to the current owner. -/
def OwnsAll (s : Session) : Prop := ∀ a cell, s.memory.cell? a = some cell → cell.owner = s.owner

/-- From `s` to `t` a number of instructions was emitted, with these bytes, and no name was used. -/
structure Lays (place : Nat) (s : Session) (bytes : List UInt8) (count : Nat) (t : Session) : Prop
    extends Emits place s bytes t where
  pass : t.pass = s.pass
  pins : t.symbols.pins = s.symbols.pins
  drifts : t.symbols.drifts = s.symbols.drifts
  instructions : t.instructions = s.instructions + count
  written : t.written.length = s.written.length + bytes.length

namespace Lays

variable {place count more : Nat} {r s t : Session} {bytes others : List UInt8}

theorem trans (h : r.Lays place bytes count s) (h' : s.Lays (place + bytes.length) others more t) :
    r.Lays place (bytes ++ others) (count + more) t where
  toEmits := h.toEmits.trans h'.toEmits
  pass := h'.pass.trans h.pass
  pins := h'.pins.trans h.pins
  drifts := h'.drifts.trans h.drifts
  instructions := by rw [h'.instructions, h.instructions, Nat.add_assoc]
  written := by rw [h'.written, h.written, List.length_append, Nat.add_assoc]

theorem ownsAll (h : s.Lays place bytes count t) (hs : s.OwnsAll) : t.OwnsAll := by
  intro a cell hcell
  rw [h.cells] at hcell
  rw [h.owner]
  rcases Option.or_eq_some_iff.mp hcell with hlaid | ⟨-, hold⟩
  · unfold laid at hlaid
    split at hlaid
    · obtain ⟨b, -, rfl⟩ := Option.map_eq_some_iff.mp hlaid
      rfl
    · exact nomatch hlaid
  · exact hs a cell hold

end Lays

variable {s : Session} {place : Nat}

/-- A byte is emitted, if there is place for it. -/
theorem lays_emitByte (b : UInt8) (hplace : s.cursor.position = .ofNat place) (hlt : place < 65536)
    (hs : s.OwnsAll) :
    ∃ t, (Assembly.emitByte (.ofByte b)).exec s = (.ok (), t) ∧ s.Lays place [b] 0 t := by
  have haddress : s.cursor.position.toAddress? = some (UInt16.ofNat place) := by
    rw [hplace, Number.toAddress?_eq_some_iff, Number.ofAddress, UInt16.toNat_ofNat_of_lt' hlt]
  have hbyte : (Number.ofByte b).toByte? = some b := Number.toByte?_eq_some_iff.mpr rfl
  have hwrite := Image.checkWrite_of s.owner haddress hbyte
  have hadmits : s.memory.Admits ⟨UInt16.ofNat place, b, s.owner⟩ := fun cell hcell => hs _ cell hcell
  have hrun := Assembly.exec_emitByte_of hwrite hadmits
  obtain ⟨b', hb, hemits⟩ := Assembly.emits_emitByte hplace hrun
  obtain rfl := Number.ofByte_injective hb
  exact ⟨_, hrun, { hemits with
    pass := rfl, pins := rfl, drifts := rfl, instructions := rfl, written := rfl }⟩

/-- Bytes are emitted one after another, if there is place for them. -/
theorem lays_each (bytes : List UInt8) (hplace : s.cursor.position = .ofNat place)
    (hfits : place + bytes.length ≤ 65536) (hs : s.OwnsAll) :
    ∃ t, (Action.each Assembly.emitByte (bytes.map .ofByte)).exec s = (.ok (), t) ∧
      s.Lays place bytes 0 t := by
  induction bytes generalizing s place with
  | nil =>
      refine ⟨s, rfl, { Emits.nil hplace hfits rfl rfl rfl with
        pass := rfl, pins := rfl, drifts := rfl, instructions := rfl, written := rfl }⟩
  | cons b rest ih =>
      rw [List.length_cons] at hfits
      obtain ⟨s', hfirst, hlays⟩ := lays_emitByte b hplace (by omega) hs
      obtain ⟨t, hrest, hmore⟩ := ih hlays.after (by rw [List.length_singleton]; omega) (hlays.ownsAll hs)
      exact ⟨t, (Action.exec_bind_of_ok hfirst).trans hrest, hlays.trans hmore⟩

/-- Numbers leave no pin behind. -/
theorem pins_operandSyntax {d : Descriptor} {n : Nat} (hn : d.Takes place n) (m : Mnemonic) :
    s.pins m (d.operandSyntax n) = false := by
  unfold Descriptor.Takes at hn
  unfold Descriptor.operandSyntax
  cases hmode : d.mode <;> rw [hmode] at hn <;> simp only at hn ⊢
  case immediate =>
    unfold pins
    simp [OperandSyntax.carried, value_low s hn]
  all_goals rfl

/-- An instruction is emitted as its row says. -/
theorem lays_instruction {d : Descriptor} {n : Nat} (hd : d.Regular) (hn : d.Takes place n)
    (hpins : s.symbols.pins = .empty) (hplace : s.cursor.position = .ofNat place)
    (hfits : place + (d.opcode :: d.operandBytes place n).length ≤ 65536) (hs : s.OwnsAll) :
    ∃ t, (Statement.Body.run (.instruction d.mnemonic (d.operandSyntax n))).exec s = (.ok (), t) ∧
      s.Lays place (d.opcode :: d.operandBytes place n) 1 t := by
  have hencode := s.encode_line hd hn hpins hplace
  have hencoding := exec_encoding_of_ok hencode
  obtain ⟨references, hnoted⟩ := s.encoded_eq d.mnemonic
    ⟨d, (d.opcode :: d.operandBytes place n).map .ofByte⟩ (d.operandSyntax n)
  rw [pins_operandSyntax hn, if_neg (by decide)] at hnoted
  rw [hnoted] at hencoding
  obtain ⟨t, heach, hlays⟩ := lays_each (s := { s with symbols := { s.symbols with references } })
    (d.opcode :: d.operandBytes place n) (by exact hplace) hfits (by exact hs)
  refine ⟨{ t with instructions := t.instructions + 1 }, ?_, ?_⟩
  · rw [run_instruction, Action.exec_bind_of_ok hencoding]
    exact (Action.exec_bind_of_ok heach).trans rfl
  · exact
      { before := hplace, after := hlays.after, fits := hlays.fits, cells := hlays.cells
        start := hlays.start, finish := hlays.finish, owner := hlays.owner, pass := hlays.pass
        pins := hlays.pins, drifts := hlays.drifts
        instructions := congrArg (· + 1) hlays.instructions, written := hlays.written }

end Session

-- ── Listings assembled ──────────────────────────────────────────────────────

namespace Disassembly

/-- Instructions of the table with operands that they can have where they come to lie, from a place on. -/
def Placed : Nat → List (Descriptor × Nat) → Prop
  | _, [] => True
  | place, (d, n) :: rest => d ∈ Descriptor.table ∧ d.Takes place n ∧ Placed (place + d.length) rest

instance decidablePlaced : (place : Nat) → (instructions : List (Descriptor × Nat)) →
    Decidable (Placed place instructions)
  | _, [] => inferInstanceAs (Decidable True)
  | place, (d, n) :: rest =>
    have := decidablePlaced (place + d.length) rest
    inferInstanceAs (Decidable (d ∈ Descriptor.table ∧ d.Takes place n ∧ Placed (place + d.length) rest))

/-- The bytes of instructions from a place on. -/
def codeBytes : Nat → List (Descriptor × Nat) → List UInt8
  | _, [] => []
  | place, (d, n) :: rest => d.opcode :: d.operandBytes place n ++ codeBytes (place + d.length) rest

/-- What the lines of instructions say. -/
def bodies (instructions : List (Descriptor × Nat)) : List Statement.Body :=
  instructions.map (fun (d, n) => .instruction d.mnemonic (d.operandSyntax n))

theorem length_littleEndian (size n : Nat) : (littleEndian size n).length = size := by
  induction size generalizing n with
  | zero => rfl
  | succ size ih => rw [littleEndian, List.length_cons, ih]

theorem length_row (d : Descriptor) (place n : Nat) :
    (d.opcode :: d.operandBytes place n).length = d.length := by
  rw [List.length_cons, Descriptor.operandBytes, length_littleEndian, Descriptor.length, Mode.length,
    Nat.add_comm]

/-- A text of instructions is parsed to them. -/
theorem parse_listing {digits : Nat → String} (hdigits : ∀ n ≤ 65535, Spells (digits n) n) {place : Nat}
    {instructions : List (Descriptor × Nat)} (h : Placed place instructions) :
    ∃ statements, parse (listing digits instructions) = .ok statements ∧
      statements.map (·.body) = bodies instructions := by
  refine parse_lines ?_
  unfold bodies
  rw [List.forall₂_map_left_iff, List.forall₂_map_right_iff]
  induction instructions generalizing place with
  | nil => exact .nil
  | cons entry rest ih =>
      obtain ⟨d, n⟩ := entry
      obtain ⟨-, hn, hrest⟩ := h
      exact .cons (says_line d (fun hmode => ⟨hdigits n (hn.le hmode), hn.le hmode⟩)) (ih hrest)

/-- Either pass emits the bytes of instructions. -/
theorem runs_listing {instructions : List (Descriptor × Nat)} {statements : List Statement} {s : Session}
    {place : Nat} (hbodies : statements.map (·.body) = bodies instructions)
    (h : Placed place instructions) (hfits : place + (instructions.map (·.1.length)).sum ≤ 65536)
    (hpins : s.symbols.pins = .empty) (hplace : s.cursor.position = .ofNat place) (hs : s.OwnsAll) :
    ∃ t, (runAll statements).exec s = (.ok (), t) ∧
      s.Lays place (codeBytes place instructions) instructions.length t := by
  induction instructions generalizing s place statements with
  | nil =>
      obtain rfl := List.map_eq_nil_iff.mp hbodies
      exact ⟨s, rfl, { Session.Emits.nil hplace hfits rfl rfl rfl with
        pass := rfl, pins := rfl, drifts := rfl, instructions := rfl, written := rfl }⟩
  | cons entry rest ih =>
      obtain ⟨d, n⟩ := entry
      obtain ⟨hrow, hn, hrest⟩ := h
      obtain ⟨st, others, rfl, hbody, hothers⟩ := List.map_eq_cons_iff.mp hbodies
      rw [List.map_cons, List.sum_cons] at hfits
      obtain ⟨s', hst, hlays⟩ := Session.lays_instruction (Descriptor.regular_of_mem hrow) hn hpins hplace
        (by rw [length_row]; simp only at hfits; omega) hs
      rw [← length_row d place n] at hrest hfits
      obtain ⟨t, hruns, hmore⟩ := ih hothers hrest (by omega) (hlays.pins.trans hpins) hlays.after
        (hlays.ownsAll hs)
      refine ⟨t, ?_, ?_⟩
      · have hbody' : st.body = .instruction d.mnemonic (d.operandSyntax n) := hbody
        rw [← hbody', ← exec_run_eq_ok] at hst
        exact (Action.exec_bind_of_ok hst).trans hruns
      · show s.Lays place _ (rest.length + 1) t
        rw [codeBytes, ← length_row d place n, Nat.add_comm rest.length]
        exact hlays.trans hmore

/-- A session that begins at an address. -/
theorem create_at (start : UInt16) :
    ∃ s, Session.create ({ start := some (.ofAddress start) } : Options).withStart = .ok s ∧
      s.cursor.start = start := by
  have haddress : (Number.ofAddress start).toAddress? = some start :=
    Number.toAddress?_eq_some_iff.mpr rfl
  unfold Session.create Options.withStart Options.firstCursor Options.firstImage Cursor.create Image.create
    checkAddress Image.checkBound
  simp only [Option.getD_some, haddress]
  exact ⟨_, rfl, rfl⟩

/-- The final pass begins where discovery began, and owns what discovery wrote. -/
theorem begins_again {s last : Session} {place count : Nat} {bytes : List UInt8} (hnew : s.IsNew)
    (hleads : s.Leads last) (hs : s.OwnsAll) (hlays : s.Lays place bytes count last) :
    last.turned.cursor.position = .ofAddress s.cursor.start ∧ last.turned.symbols = last.symbols ∧
      last.turned.instructions = 0 ∧ last.turned.written = [] ∧ last.turned.OwnsAll := by
  obtain ⟨journal, hturned⟩ := Session.turned_eq (hleads.pass.trans hnew.pass)
  rw [hturned]
  refine ⟨?_, rfl, rfl, rfl, hlays.ownsAll hs⟩
  rw [← hleads.start]
  rfl

/-- Assembling undoes disassembling: the text of instructions, each in the syntax of its mode and with
    numbers written in any hexadecimal spelling, is assembled to the bytes of these instructions. -/
theorem assemble_listing {digits : Nat → String} {instructions : List (Descriptor × Nat)} {start : UInt16}
    (hdigits : ∀ n ≤ 65535, Spells (digits n) n) (hplaced : Placed start.toNat instructions)
    (hfits : start.toNat + (instructions.map (·.1.length)).sum ≤ 65536) :
    ∃ c, (assemble (listing digits instructions) { start := some (.ofAddress start) }).1 = .ok c ∧
      c.start = start ∧ c.bytes = codeBytes start.toNat instructions := by
  obtain ⟨statements, hparse, hbodies⟩ := parse_listing hdigits hplaced
  obtain ⟨s, hcreate, rfl⟩ := create_at start
  obtain ⟨hcursor, hempty⟩ := begins_of_create rfl rfl rfl hcreate
  have hnew := Session.isNew_of_create hcreate
  have howns : s.OwnsAll := by
    intro a cell hcell
    rw [hempty] at hcell
    simp [Image.cell?] at hcell
  obtain ⟨last, hdiscovery, hlast⟩ := runs_listing hbodies hplaced hfits hnew.pins hcursor howns
  have hleads : s.Leads last := (leads_runAll statements).of_exec hdiscovery
  obtain ⟨hagain, hsymbols, hcount, hwritten, howns'⟩ := begins_again hnew hleads howns hlast
  have hpins : last.turned.symbols.pins = .empty := by rw [hsymbols, hlast.pins, hnew.pins]
  obtain ⟨f, hfinal, hf⟩ := runs_listing hbodies hplaced hfits hpins hagain howns'
  have hpass := hleads.pass.trans hnew.pass
  have hsame : passDifferences last.statistics f.statistics f.symbols.drifts = [] := by
    rw [passDifferences_eq_nil_iff]
    refine ⟨?_, ?_, ?_, ?_, ?_⟩
    · show f.instructions = last.instructions
      rw [hf.instructions, hlast.instructions, hcount, hnew.instructions]
    · show f.written.length = last.written.length
      rw [hf.written, hlast.written, hwritten, hnew.written]
    · exact hf.after.trans hlast.after.symm
    · show last.cursor.position ≠ .nan
      rw [hlast.after]
      intro h
      cases h
    · rw [hf.drifts, hsymbols, hlast.drifts, hnew.drifts]
  refine ⟨f.result last.statistics f.statistics, ?_, ?_⟩
  · rw [fst_assemble hparse hcreate, Assembly.bothPasses_of_ok hdiscovery hpass hfinal, hsame]
  · exact result_of_blocks rfl rfl rfl hcreate hpass hlast.toEmits hf.toEmits rfl _ _

/-- Numbers in at least four digits. -/
def fourDigits (n : Nat) : String := padZeros 4 (String.ofList (hexDigits n))

/-- A loop that ends with the last byte of memory: `LDA` has no zero page form with `Y`, and `JMP` has
    none at all. -/
def lastInstructions : List (Descriptor × Nat) :=
  [(⟨.ldx, .immediate, 0xA2, 2⟩, 0x0A), (⟨.lda, .absoluteY, 0xB9, 4⟩, 0x80),
    (⟨.ora, .indexedIndirect, 0x01, 6⟩, 0x1B), (⟨.dex, .implied, 0xCA, 2⟩, 0),
    (⟨.bne, .relative, 0xD0, 2⟩, 0xFFF1), (⟨.jmp, .indirect, 0x6C, 5⟩, 0xFFFF),
    (⟨.jmp, .absolute, 0x4C, 3⟩, 0x10)]

theorem last_instructions_reassembled :
    Placed (0xFFEF : UInt16).toNat lastInstructions ∧
      (0xFFEF : UInt16).toNat + (lastInstructions.map (·.1.length)).sum = 65536 ∧
      ∃ c, (assemble (listing fourDigits lastInstructions) { start := some (.ofAddress 0xFFEF) }).1 = .ok c ∧
        c.start = 0xFFEF ∧ c.bytes = [0xA2, 0x0A, 0xB9, 0x80, 0x00, 0x01, 0x1B, 0x00, 0xCA, 0xD0, 0xF7,
          0x6C, 0xFF, 0xFF, 0x4C, 0x10, 0x00] := by
  have hplaced : Placed (0xFFEF : UInt16).toNat lastInstructions := by decide +kernel
  refine ⟨hplaced, by decide, ?_⟩
  obtain ⟨c, hc, hstart, hbytes⟩ :=
    assemble_listing (fun n _ => (spells_hexDigits n).padZeros 4) hplaced (by decide)
  exact ⟨c, hc, hstart, hbytes.trans (by decide +kernel)⟩

end Disassembly

end Asm6502
