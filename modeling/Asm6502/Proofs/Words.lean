import Asm6502.Proofs.EmitEffect
import Asm6502.Proofs.Decoding

/-!
# Words at the cursor

A word is emitted as two bytes: the low byte of an operand, and then its high byte. The cursor moves in
between, so an operand that uses the cursor is evaluated at two places, and what stands in memory need not
be one value.

* `Operand.usesCursor`: operands whose value depends on where they stand.
* `word_parts`: the low byte is that of the value here, the high byte that of the value one byte further.
* `word_is_one_value_iff`: a word is the value of its operand exactly if the value one byte further lies in
  the same page.
-/

namespace Asm6502

-- ── The cursor in operands ──────────────────────────────────────────────────

namespace Operand

/-- Whether the cursor occurs in an operand. -/
def usesCursor : Operand → Bool
  | .number _ => false
  | .name _ => false
  | .label _ => false
  | .here => true
  | .add l r => l.usesCursor || r.usesCursor
  | .sub l r => l.usesCursor || r.usesCursor
  | .low o => o.usesCursor
  | .high o => o.usesCursor

/-- Without the cursor an operand has the same value everywhere. -/
theorem valueIn_of_not_usesCursor {o : Operand} (h : o.usesCursor = false)
    (read : String → Except Fault Value) (cursor cursor' : Number) :
    o.valueIn read cursor = o.valueIn read cursor' := by
  induction o with
  | number v => rfl
  | name n => rfl
  | label n => rfl
  | here => cases h
  | add l r ihl ihr =>
      obtain ⟨hl, hr⟩ := Bool.or_eq_false_iff.mp h
      rw [valueIn, valueIn, ihl hl, ihr hr]
  | sub l r ihl ihr =>
      obtain ⟨hl, hr⟩ := Bool.or_eq_false_iff.mp h
      rw [valueIn, valueIn, ihl hl, ihr hr]
  | low o ih => rw [valueIn, valueIn, ih h]
  | high o ih => rw [valueIn, valueIn, ih h]

end Operand

-- ── Bytes of the final pass ─────────────────────────────────────────────────

/-- A byte of a block is read where it lies. -/
theorem Session.Emits.byteAt {s t : Session} {place i : Nat} {bytes : List UInt8}
    (h : s.Emits place bytes t) {b : UInt8} (hb : bytes[i]? = some b) :
    t.memory.byteAt (place + i) = b := by
  have hlt : i < bytes.length := (List.getElem?_eq_some_iff.mp hb).1
  have hfits := h.fits
  have hat : (UInt16.ofNat (place + i)).toNat = place + i := by
    rw [UInt16.toNat_ofNat', Nat.mod_eq_of_lt (by omega)]
  have hcell : t.memory.cell? (UInt16.ofNat (place + i)) = some ⟨b, s.owner⟩ := by
    rw [h.cells, laid, hat, if_pos (Nat.le_add_right place i), Nat.add_sub_cancel_left, hb]
    rfl
  rw [← hat]
  exact Image.byteAt_of_cell hcell

namespace Assembly

variable {s t : Session} {o : Operand}

/-- An operand that the final pass emits as a byte is a byte, and it changes no label. -/
theorem emits_byteOf (hpass : s.pass = .final) (h : (byteOf o).exec s = (.ok (), t)) :
    ∃ b place, s.value o = .ok ⟨.ofByte b, false⟩ ∧ s.Emits place [b] t ∧ s.OnlyWrites t := by
  have hevaluate : (evaluate o).exec s = (s.value o, s) := exec_onSymbols (exec_evaluate_final hpass o)
  obtain ⟨v, s', hv, h⟩ := Action.exec_bind_eq_ok h
  rw [hevaluate] at hv
  obtain ⟨hvalue, rfl⟩ := Prod.mk.inj hv
  have hknown := s.pending_of_final hpass hvalue
  rw [hknown, if_neg (by decide)] at h
  rcases exec_emitByte_cases v.amount s with ⟨b, place, t', hb, hrun, hemits, -, honly⟩ | ⟨fault, hrun⟩
  · obtain rfl : t' = t := congrArg Prod.snd (hrun.symm.trans h)
    refine ⟨b, place, ?_, hemits, honly⟩
    rw [hvalue, ← hb, ← hknown]
  · rw [hrun] at h
    cases congrArg Prod.fst h

/-- A word is its low byte, then its high byte. -/
theorem word_eq (o : Operand) : word [o] = (do
    byteOf (.low o)
    byteOf (.high o)
    return 2) := by
  simp [word, byte, Action.each]

/-- The low byte of a word is that of its value here; its high byte is that of the value one byte further. -/
theorem word_parts {n : Nat} (hpass : s.pass = .final) (h : (word [o]).exec s = (.ok n, t)) :
    n = 2 ∧ ∃ p w w', s.cursor.position = .ofAddress p ∧ s.value o = .ok ⟨.ofAddress w, false⟩ ∧
      o.valueIn (s.symbols.lookup s.pass) (.ofNat (p.toNat + 1)) = .ok ⟨.ofAddress w', false⟩ ∧
      s.Emits p.toNat [lowByte w, highByte w'] t := by
  rw [word_eq] at h
  obtain ⟨_, u, hlow, h⟩ := Action.exec_bind_eq_ok h
  obtain ⟨_, t', hhigh, hend⟩ := Action.exec_bind_eq_ok h
  obtain ⟨hn, rfl⟩ := Prod.mk.inj hend
  obtain ⟨b, place, hb, hemits, honly⟩ := emits_byteOf hpass hlow
  have hpass' : u.pass = s.pass := congrArg Surroundings.pass honly.surroundings
  obtain ⟨b', place', hb', hemits', -⟩ := emits_byteOf (hpass'.trans hpass) hhigh
  obtain rfl : place' = place + 1 := Number.ofNat_injective (hemits'.before.symm.trans hemits.after)
  obtain ⟨w, hw, hlowByte⟩ := Operand.value_of_part hb
  obtain ⟨w', hw', hhighByte⟩ := Operand.value_of_part hb'
  rw [Number.ofByte_injective hlowByte] at hemits
  rw [Number.ofByte_injective hhighByte] at hemits'
  have hblock := hemits.trans hemits'
  have hfits : place + 2 ≤ 65536 := hblock.fits
  have hat : (UInt16.ofNat place).toNat = place := by
    rw [UInt16.toNat_ofNat', Nat.mod_eq_of_lt (by omega)]
  refine ⟨(Except.ok.inj hn).symm, UInt16.ofNat place, w, w', ?_, hw, ?_, ?_⟩
  · rw [Number.ofAddress, hat]
    exact hemits.before
  · rw [hat, ← honly.symbols, ← hpass', ← show u.cursor.position = .ofNat (place + 1) from hemits.after]
    exact hw'
  · rw [hat]
    exact hblock

end Assembly

-- ── Words ───────────────────────────────────────────────────────────────────

/-- A directive for one word emits that word. -/
theorem Source.exec_runDirective_word {o : Operand} {s t : Session}
    (h : (runDirective .word [.value o]).exec s = (.ok (), t)) :
    ∃ n, (Assembly.word [o]).exec s = (.ok n, t) := by
  have hword : (do let _ ← Assembly.word [o] : Assembly Unit).exec s = (.ok (), t) := h
  exact Action.exec_answering_eq_ok hword

/-- Two bytes are the value of a word exactly if the high one is its high byte. -/
theorem word_eq_iff (w w' : UInt16) :
    (lowByte w).toNat + 256 * (highByte w').toNat = w.toNat ↔ highByte w' = highByte w := by
  have hw := w.toNat_lt
  rw [← UInt8.toNat_inj, lowByte, highByte, highByte, UInt8.toNat_ofNat', UInt8.toNat_ofNat',
    UInt8.toNat_ofNat']
  omega

/-- In the final pass the two bytes of a word are the value of its operand exactly if the value that the
    operand has one byte further lies in the same page. So they are for every operand without cursor. -/
theorem word_is_one_value_iff {o : Operand} {s t : Session} (hpass : s.pass = .final)
    (h : (∃ n, (Assembly.word [o]).exec s = (.ok n, t)) ∨
      (Source.runDirective .word [.value o]).exec s = (.ok (), t)) :
    ∃ p w w', s.cursor.position = .ofAddress p ∧ s.value o = .ok ⟨.ofAddress w, false⟩ ∧
      o.valueIn (s.symbols.lookup s.pass) (.ofNat (p.toNat + 1)) = .ok ⟨.ofAddress w', false⟩ ∧
      s.Emits p.toNat [lowByte w, highByte w'] t ∧
      ((t.memory.byteAt p.toNat).toNat + 256 * (t.memory.byteAt (p.toNat + 1)).toNat = w.toNat ↔
        highByte w' = highByte w) ∧
      (o.usesCursor = false → w' = w) := by
  obtain ⟨n, hrun⟩ : ∃ n, (Assembly.word [o]).exec s = (.ok n, t) :=
    h.elim id Source.exec_runDirective_word
  obtain ⟨-, p, w, w', hp, hw, hw', hemits⟩ := Assembly.word_parts hpass hrun
  refine ⟨p, w, w', hp, hw, hw', hemits, ?_, ?_⟩
  · rw [hemits.byteAt (i := 1) rfl, show p.toNat = p.toNat + 0 from rfl, hemits.byteAt (i := 0) rfl]
    exact word_eq_iff w w'
  · intro hplain
    rw [Operand.valueIn_of_not_usesCursor hplain _ _ s.cursor.position,
      show o.valueIn _ _ = _ from hw] at hw'
    exact (Number.ofAddress_injective (congrArg Value.amount (Except.ok.inj hw'))).symm

/-- A session of the final pass, with the cursor at an address. -/
def finalSessionAt (p : UInt16) : Session :=
  { Source.plainSession with pass := .final, cursor := ⟨0x1000, .ofAddress p, ⟨0, 0, 0, 0⟩⟩ }

theorem word_within_page_is_one_value :
    ∃ t, (Assembly.word [.add .here (.number 2)]).exec (finalSessionAt 0x1000) = (.ok 2, t) ∧
      (t.memory.byteAt 0x1000).toNat + 256 * (t.memory.byteAt 0x1001).toNat = 0x1002 := by
  have hrun : ((Assembly.word [.add .here (.number 2)]).exec (finalSessionAt 0x1000)).1 = .ok 2 := by
    decide +kernel
  have hvalue : (finalSessionAt 0x1000).value (.add .here (.number 2)) =
      .ok ⟨.ofAddress 0x1002, false⟩ := by decide +kernel
  have hnext : (Operand.add .here (.number 2)).valueIn
      ((finalSessionAt 0x1000).symbols.lookup .final) (.ofNat 0x1001) =
      .ok ⟨.ofAddress 0x1003, false⟩ := by decide +kernel
  refine ⟨_, Prod.ext hrun rfl, ?_⟩
  obtain ⟨p, w, w', hp, hw, hw', -, hone, -⟩ :=
    word_is_one_value_iff (s := finalSessionAt 0x1000) rfl (Or.inl ⟨2, Prod.ext hrun rfl⟩)
  obtain rfl : 0x1000 = p := Number.ofAddress_injective hp
  obtain rfl := Number.ofAddress_injective (congrArg Value.amount (Except.ok.inj (hvalue.symm.trans hw)))
  obtain rfl := Number.ofAddress_injective (congrArg Value.amount (Except.ok.inj (hnext.symm.trans hw')))
  exact hone.mpr (by decide)

/-- The address of the last byte of a page, as a word: its high byte is that of the next page. -/
theorem word_across_page_is_two_values :
    (finalSessionAt 0x10FF).value .here = .ok ⟨.ofAddress 0x10FF, false⟩ ∧
    ((Assembly.word [.here]).exec (finalSessionAt 0x10FF)).1 = .ok 2 ∧
    (((Assembly.word [.here]).exec (finalSessionAt 0x10FF)).2.memory.byteAt 0x10FF).toNat +
      256 * (((Assembly.word [.here]).exec (finalSessionAt 0x10FF)).2.memory.byteAt 0x1100).toNat =
        0x11FF ∧
    (Source.assemble " .WORD *\n" { start := some 0x10FF }).1.map (·.memory.slice 0x10FF 0x1100) =
      .ok [0xFF, 0x11] := by
  decide +kernel

end Asm6502
