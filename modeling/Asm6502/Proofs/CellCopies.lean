import Asm6502.Proofs.Decoding
import Asm6502.Proofs.EmitEffect
import Asm6502.Proofs.OperandModes
import Asm6502.Proofs.Placeholder

/-!
# Copies of cells

A copy loads a register from one operand and stores it to another. The store has no immediate form, so it is
always to a cell. The load goes through the selection of modes that all instructions share: a small value
that is not said to lie in the zero page is taken as it is, and not as the address of a cell.

* `Assembly.emits_of_emit`: an instruction that was emitted is an encoding at the cursor.
* `Value.IsCell`: what the operand of an instruction says about a value that is the address of a cell.
* `addressesCell_of_emit`: when an instruction addresses the cell that its operand is.
* `copy_addresses_cells`: what a copy loads and stores.
-/

namespace Asm6502

open Asm6502.Action (Moves)
open Disassembly (operandValue)

-- ── Instructions that were emitted ──────────────────────────────────────────

namespace Assembly

variable {m : Mnemonic} {args : List Argument} {o : Operand} {flags : Flags} {s t : Session} {n : Nat}

/-- What is emitted are the bytes of an encoding, where the cursor was. -/
theorem emits_of_emit (h : (emit m args).exec s = (.ok n, t)) :
    ∃ e s' bytes place, (encoding m args).exec s = (.ok e, s') ∧ e.bytes = bytes.map .ofByte ∧
      bytes ≠ [] ∧ s.Emits place bytes t := by
  obtain ⟨e, s', hencoding, hrest⟩ := exec_emit_eq_ok h
  obtain ⟨symbols, hstate, -, -⟩ := annotates_encoding m args s
  obtain rfl : s' = { s with symbols } := by rw [← hstate, hencoding]
  obtain ⟨bytes, rest, t', hbytes, happends, -, hend⟩ := appends_each e.bytes { s with symbols }
  rcases hend with ⟨rfl, hrun⟩ | ⟨fault, -, hrun⟩
  · rw [List.append_nil] at hbytes
    rw [Action.exec_bind_of_ok hrun] at hrest
    obtain rfl : { t' with instructions := t'.instructions + 1 } = t := congrArg Prod.snd hrest
    have hne : bytes ≠ [] := by
      rintro rfl
      have hhead := (row_of_encoding (congrArg Prod.fst hencoding)).2.1
      rw [hbytes] at hhead
      cases hhead
    obtain ⟨place, hemits⟩ := happends.of_symbols.block hne
    exact ⟨e, _, bytes, place, hencoding, hbytes, hne, hemits.counted _⟩
  · rw [Action.exec_bind_of_error hrun] at hrest
    cases hrest

/-- What surrounds the code stays, whether an instruction succeeds or fails. -/
theorem moves_surroundings_emit (m : Mnemonic) (args : List Argument) :
    Moves (fun s t : Session => t.surroundings = s.surroundings) (emit m args) := by
  have htrans : ∀ r s t : Session, s.surroundings = r.surroundings → t.surroundings = s.surroundings →
      t.surroundings = r.surroundings := fun _ _ _ h h' => h'.trans h
  refine Moves.bind htrans (fun s => ?_) (fun e => Moves.bind htrans ?_ (fun _ _ => rfl))
  · obtain ⟨symbols, hstate, ⟨references, pins, rfl⟩, -⟩ := annotates_encoding m args s
    rw [hstate]
    rfl
  · refine Moves.each (R := fun s t : Session => t.surroundings = s.surroundings) (fun _ => rfl) htrans
      (fun v s => ?_) e.bytes
    rcases exec_emitByte_cases v s with ⟨_, _, t, -, hrun, -, -, honly⟩ | ⟨fault, hrun⟩
    · rw [hrun]
      exact honly.surroundings
    · rw [hrun]

/-- An instruction moves the cursor, so it pins nothing where it ends. -/
theorem pinned?_of_emit (h : (emit m args).exec s = (.ok n, t))
    (hfree : s.symbols.pinned? t.cursor.position = none) :
    t.symbols.pinned? t.cursor.position = none := by
  obtain ⟨_, _, bytes, place, -, -, hne, hemits⟩ := emits_of_emit h
  cases hpin : t.symbols.pinned? t.cursor.position with
  | none => rfl
  | some mode =>
      rcases pins_of_emit h hpin with hold | ⟨hplace, -⟩
      · cases hfree.symm.trans hold
      · -- its own pin is where it starts, and it has at least one byte
        have hsame := Number.ofNat_injective (hemits.before.symm.trans (hplace.trans hemits.after))
        have hsome := List.length_pos_iff.mpr hne
        omega

theorem readArguments_operand (o : Operand) (flags : Flags) (hm : m.isImpliedOnly = false) :
    readArguments m [.operand o, .flags flags] = .ok ⟨some o, none, flags⟩ := by
  show (if (true && m.isImpliedOnly) = true then _ else _) = _
  rw [hm]
  rfl

end Assembly

-- ── Cells as operands ───────────────────────────────────────────────────────

/-- The mode in which a cell is addressed. -/
def cellMode (zeroPage : Bool) : Mode := if zeroPage then .zeroPage else .absolute

/-- The operand of an instruction that takes a value as the address of a cell. A known value is an address.
    An address is the operand, but that in the zero page a pending one is cut to its low byte. -/
structure Value.IsCell (v : Value) (zeroPage : Bool) (operand : List UInt8) : Prop where
  known : v.pending = false → ∃ a : UInt16, v.amount = .ofAddress a
  address : ∀ a : UInt16, v.amount = .ofAddress a →
    operandValue operand = if v.pending && zeroPage then a.toNat % 256 else a.toNat

/-- The bytes of an encoding are determined by their numbers. -/
theorem eq_of_map_ofByte {bytes bytes' : List UInt8} (h : bytes.map Number.ofByte = bytes'.map .ofByte) :
    bytes = bytes' :=
  List.map_injective_iff.mpr (fun _ _ hb => Number.ofByte_injective hb) h

/-- A known value that is encoded as an operand is the value of its bytes, and an address. -/
theorem address_of_encode {d : Descriptor} {v : Value} {bytes : List UInt8} (hcarries : d.mode ≠ .implied)
    (hv : v.pending = false) (h : encode d v = .ok (bytes.map .ofByte)) :
    ∃ operand a, bytes = d.opcode :: operand ∧ operandValue operand = a.toNat ∧ v.amount = .ofAddress a := by
  obtain ⟨operand, hbytes, hsize, hamount⟩ := operandValue_of_encode hv hcarries h
  have hlength : operand.length ≤ 2 := by
    rw [hsize]
    cases d.mode <;> decide
  have hlt : operandValue operand < 65536 :=
    Nat.lt_of_lt_of_le (operandValue_lt operand) (Nat.pow_le_pow_right (by decide) hlength)
  have haddress : (UInt16.ofNat (operandValue operand)).toNat = operandValue operand :=
    UInt16.toNat_ofNat_of_lt' hlt
  refine ⟨operand, UInt16.ofNat (operandValue operand), hbytes, haddress.symm, ?_⟩
  rw [hamount, Number.ofAddress, haddress]

/-- A known value that is encoded in a mode for cells is an address, and is the operand. -/
theorem isCell_of_known {d : Descriptor} {v : Value} {zeroPage : Bool} {bytes : List UInt8}
    (hmode : d.mode = cellMode zeroPage) (hv : v.pending = false)
    (h : encode d v = .ok (bytes.map .ofByte)) :
    ∃ operand, bytes = d.opcode :: operand ∧ v.IsCell zeroPage operand := by
  have hcarries : d.mode ≠ .implied := by
    rw [hmode]
    cases zeroPage <;> decide
  obtain ⟨operand, b, hbytes, hvalue, hamount⟩ := address_of_encode hcarries hv h
  refine ⟨operand, hbytes, fun _ => ⟨b, hamount⟩, fun a ha => ?_⟩
  rw [hvalue, hv, Number.ofAddress_injective (hamount.symm.trans ha)]
  rfl

/-- A pending value that is encoded in a mode for cells is cut to the size of the operand. -/
theorem isCell_of_pending {d : Descriptor} {v : Value} {zeroPage : Bool} {bytes : List UInt8}
    (hmode : d.mode = cellMode zeroPage) (hv : v.pending = true)
    (h : encode d v = .ok (bytes.map .ofByte)) :
    ∃ operand, bytes = d.opcode :: operand ∧ v.IsCell zeroPage operand := by
  have hknown : v.pending = false → ∃ a : UInt16, v.amount = .ofAddress a := by
    rw [hv]
    rintro ⟨⟩
  unfold encode at h
  rw [hmode] at h
  cases zeroPage with
  | true =>
      have hbytes : [d.opcode, v.amount.lowByte].map Number.ofByte = bytes.map .ofByte := by
        simpa [cellMode, Mode.width, hv] using h
      refine ⟨[v.amount.lowByte], (eq_of_map_ofByte hbytes).symm, hknown, fun a ha => ?_⟩
      rw [ha, hv, operandValue, operandValue, Number.toNat_lowByte_ofAddress]
      rfl
  | false =>
      have hbytes : [d.opcode, lowByte v.amount.lowWord, highByte v.amount.lowWord].map Number.ofByte =
          bytes.map .ofByte := by
        simpa [cellMode, Mode.width, Value.word, hv] using h
      refine ⟨_, (eq_of_map_ofByte hbytes).symm, hknown, fun a ha => ?_⟩
      rw [operandValue_word, ha, hv, Number.toNat_lowWord_ofAddress]
      rfl

/-- From `s` to `t` an instruction was emitted that takes a value as the address of a cell: in zero page
    mode if asked to, and else in absolute mode. -/
def Session.AddressesCell (s : Session) (m : Mnemonic) (zeroPage : Bool) (v : Value) (t : Session) : Prop :=
  ∃ d operand place, lookup m (cellMode zeroPage) = .ok d ∧ s.Emits place (d.opcode :: operand) t ∧
    v.IsCell zeroPage operand

/-- A cell is addressed where the zero page is asked for, where the mnemonic takes no immediate operand, and
    where the value does not fit into a byte. -/
theorem selectMode_cell {m : Mnemonic} {x : Number} {zeroPage : Bool}
    (h : zeroPage = true ∨ m.hasMode .immediate = false ∨ ¬x < 256) :
    selectMode m x none { zeroPage } = .ok (cellMode zeroPage) := by
  unfold selectMode cellMode
  cases zeroPage with
  | true => rfl
  | false =>
      have himmediate : ¬(x < 256 ∧ m.hasMode .immediate = true) := by
        rintro ⟨hsmall, hhas⟩
        rcases h with hzero | hno | hwide
        · cases hzero
        · rw [hno] at hhas
          cases hhas
        · exact hwide hsmall
      exact if_neg himmediate

/-- An instruction that meets no pin is emitted for the value of its operand. -/
theorem addressesCell_of_emit {m : Mnemonic} {o : Operand} {zeroPage : Bool} {s t : Session} {n : Nat}
    (hbranch : m.isBranch = false) (himplied : m.isImpliedOnly = false)
    (h : (Assembly.emit m [.operand o, .flags { zeroPage }]).exec s = (.ok n, t)) :
    ∃ v, s.value o = .ok v ∧ (s.symbols.pinned? s.cursor.position = none →
      zeroPage = true ∨ m.hasMode .immediate = false ∨ ¬selectable o v < 256 →
        s.AddressesCell m zeroPage v t) := by
  obtain ⟨e, s', bytes, place, hencoding, hbytes, -, hemits⟩ := Assembly.emits_of_emit h
  have hread := Assembly.readArguments_operand o { zeroPage } himplied
  rcases exec_encoding_eq_ok hencoding with ⟨_, _, hargs, -, -⟩ | ⟨o', index, flags, v, hargs, hv, he, -⟩
  · cases hread.symm.trans hargs
  · cases hread.symm.trans hargs
    refine ⟨v, hv, fun hfree hcell => ?_⟩
    obtain ⟨mode, hmode, hencode⟩ := Session.encodeOperand_eq_ok hbranch he
    -- without a pin both passes choose the mode for the value
    have hpin : s.symbols.pinFor s.pass s.cursor.position = none := by
      rw [Symbols.pinFor, hfree, ite_self]
    rw [hpin] at hmode
    obtain rfl : cellMode zeroPage = mode := Except.ok.inj ((selectMode_cell hcell).symm.trans hmode)
    obtain ⟨hlookup, hencoded⟩ := encodeIn_eq_ok hencode
    rw [hbytes] at hencoded
    have hmode := (lookup_eq_ok hlookup).2.1
    cases hpending : v.pending with
    | false =>
        obtain ⟨operand, rfl, hcell⟩ := isCell_of_known hmode hpending hencoded
        exact ⟨e.descriptor, operand, place, hlookup, hemits, hcell⟩
    | true =>
        obtain ⟨operand, rfl, hcell⟩ := isCell_of_pending hmode hpending hencoded
        exact ⟨e.descriptor, operand, place, hlookup, hemits, hcell⟩

-- ── Copies ──────────────────────────────────────────────────────────────────

namespace Register

theorem load_takes_operand (r : Register) : r.load.isBranch = false ∧ r.load.isImpliedOnly = false := by
  cases r <;> decide

theorem store_takes_cell (r : Register) :
    r.store.isBranch = false ∧ r.store.isImpliedOnly = false ∧ r.store.hasMode .immediate = false := by
  cases r <;> decide

end Register

/-- A value that is pending counts as wide, unless it is that of a byte part. -/
theorem not_selectable_lt {o : Operand} {v : Value}
    (h : ¬v.amount < 256 ∨ v.pending = true ∧ o.isBytePart = false) : ¬selectable o v < 256 := by
  unfold selectable
  by_cases hwide : (v.pending && !o.isBytePart) = true
  · rw [if_pos hwide]
    exact not_maximum_lt v.amount
  · rw [if_neg hwide]
    rcases h with hamount | ⟨hpending, hpart⟩
    · exact hamount
    · rw [hpending, hpart] at hwide
      exact absurd rfl hwide

/-- A copy that succeeds is a load and a store. Where no mode is pinned the store is to the cell that the
    target is, and the load is from the cell that the origin is, provided that the zero page is asked for, or
    the origin does not fit into a byte, or it is pending and no byte part. -/
theorem copy_addresses_cells {origin target : Operand} {options : Assembly.CopyOptions} {s t : Session}
    (h : (Assembly.copyCell origin target options).exec s = (.ok (), t)) :
    ∃ n k u v w,
      (Assembly.emit options.register.load
        [.operand origin, .flags { zeroPage := options.zeroPage }]).exec s = (.ok n, u) ∧
      (Assembly.emit options.register.store
        [.operand target, .flags { zeroPage := options.zeroPage }]).exec u = (.ok k, t) ∧
      s.value origin = .ok v ∧ u.value target = .ok w ∧
      (s.symbols.pinned? s.cursor.position = none →
        options.zeroPage = true ∨ ¬v.amount < 256 ∨ v.pending = true ∧ origin.isBytePart = false →
          s.AddressesCell options.register.load options.zeroPage v u) ∧
      (s.symbols.pinned? u.cursor.position = none →
        u.AddressesCell options.register.store options.zeroPage w t) := by
  obtain ⟨n, u, hload, hrest⟩ := Action.exec_bind_eq_ok h
  obtain ⟨k, t', hstore, hend⟩ := Action.exec_bind_eq_ok hrest
  obtain rfl : t' = t := congrArg Prod.snd hend
  obtain ⟨hbranch, himplied⟩ := options.register.load_takes_operand
  obtain ⟨hbranch', himplied', hno⟩ := options.register.store_takes_cell
  obtain ⟨v, hv, hloads⟩ := addressesCell_of_emit hbranch himplied hload
  obtain ⟨w, hw, hstores⟩ := addressesCell_of_emit hbranch' himplied' hstore
  refine ⟨n, k, u, v, w, hload, hstore, hv, hw, fun hfree horigin => ?_, fun hfree => ?_⟩
  · refine hloads hfree ?_
    rcases horigin with hzero | hwide
    · exact Or.inl hzero
    · exact Or.inr (Or.inr (not_selectable_lt hwide))
  · exact hstores (Assembly.pinned?_of_emit hload hfree) (Or.inr (Or.inl hno))

/-- The session after a copy of cells. -/
def copied (origin target : Operand) (options : Assembly.CopyOptions) : Session :=
  ((Assembly.copyCell origin target options).exec Source.plainSession).2

theorem forward_cell_is_copied :
    (copied (.name "later") (.number 0x20) { register := .x }).memory.slice 0x1000 0x1005 =
      [0xae, 0x39, 0x30, 0x8e, 0x20, 0x00] ∧
    ∃ u, Source.plainSession.AddressesCell .ldx false ⟨12345, true⟩ u ∧
      u.AddressesCell .stx false ⟨0x20, false⟩
        (copied (.name "later") (.number 0x20) { register := .x }) := by
  have hcopy : (Assembly.copyCell (.name "later") (.number 0x20) { register := .x }).exec
      Source.plainSession = (.ok (), copied (.name "later") (.number 0x20) { register := .x }) :=
    Prod.ext (by decide +kernel) rfl
  have hvalue : Source.plainSession.value (.name "later") = .ok ⟨12345, true⟩ := by decide +kernel
  obtain ⟨n, k, u, v, w, -, -, hv, hw, hloads, hstores⟩ := copy_addresses_cells hcopy
  obtain rfl : ⟨12345, true⟩ = v := Except.ok.inj (hvalue.symm.trans hv)
  obtain rfl : ⟨0x20, false⟩ = w := Except.ok.inj hw
  exact ⟨by decide +kernel, u, hloads rfl (Or.inr (Or.inr ⟨rfl, rfl⟩)), hstores rfl⟩

/-- In the zero page a pending origin is cut to a byte, and a small origin that is not said to lie there is
    loaded itself. -/
theorem some_origins_are_not_addressed :
    Source.plainSession.value (.name "later") = .ok ⟨12345, true⟩ ∧
    (Assembly.copyCell (.name "later") (.number 0x20) { zeroPage := true }).exec Source.plainSession =
      (.ok (), copied (.name "later") (.number 0x20) { zeroPage := true }) ∧
    (copied (.name "later") (.number 0x20) { zeroPage := true }).memory.slice 0x1000 0x1003 =
      [0xa5, 0x39, 0x85, 0x20] ∧
    operandValue [0x39] ≠ 12345 ∧
    (Assembly.copyCell (.number 0x10) (.number 0xd020) {}).exec Source.plainSession =
      (.ok (), copied (.number 0x10) (.number 0xd020) {}) ∧
    (copied (.number 0x10) (.number 0xd020) {}).memory.slice 0x1000 0x1004 =
      [0xa9, 0x10, 0x8d, 0x20, 0xd0] ∧
    lookup .lda .immediate = .ok ⟨.lda, ⟨.immediate, 0xa9, 2⟩⟩ := by
  exact ⟨by decide +kernel, Prod.ext (by decide +kernel) rfl, by decide +kernel, by decide,
    Prod.ext (by decide +kernel) rfl, by decide +kernel, by decide⟩

end Asm6502
