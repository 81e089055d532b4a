import Asm6502.Disassembly
import Asm6502.Proofs.Layout

/-!
# Assembled code read back

A program without directives is compiled to a block of instructions, and reading that block back from
its start finds the instruction statements again, one by one.

* `Disassembly.sweep_cons`: an instruction at the front is read, and what follows it.
* `Source.Statement.ReadsAs`: what an instruction statement and the instruction read back have in common:
  the mnemonic, and the operand, which is the value of the written one.
* `Source.reads_runAll`: the final pass emits what reads as its statements.
-/

namespace Asm6502

-- ── The instruction table ───────────────────────────────────────────────────

theorem Descriptor.mem_table {d : Descriptor} (h : d.form ∈ d.mnemonic.forms) : d ∈ table := by
  unfold table
  rw [List.mem_flatMap]
  exact ⟨d.mnemonic, d.mnemonic.mem_all, List.mem_map.mpr ⟨d.form, h, rfl⟩⟩

/-- No opcode stands twice in the table. -/
theorem Descriptor.ofOpcode?_opcode {d : Descriptor} (h : d ∈ table) :
    ofOpcode? d.opcode = some d := by
  have hall : ∀ d ∈ table, ofOpcode? d.opcode = some d := by decide +kernel
  exact hall d h

-- ── Reading bytes ───────────────────────────────────────────────────────────

namespace Disassembly

/-- An instruction as the table has it: as many operand bytes as its mode wants. -/
structure Item.WellFormed (item : Item) : Prop where
  row : item.descriptor ∈ Descriptor.table
  size : item.operand.length = item.descriptor.mode.width.size

theorem Item.length_bytes {item : Item} (h : item.WellFormed) :
    item.bytes.length = item.descriptor.length := by
  unfold bytes Descriptor.length Mode.length
  rw [List.length_cons, h.size, Nat.add_comm]

/-- An instruction at the front is read, and then what follows it. -/
theorem sweep_cons {item : Item} (h : item.WellFormed) (rest : List UInt8) :
    sweep item.address (item.bytes ++ rest) =
      (sweep (item.address + item.bytes.length) rest).map (item :: ·) := by
  show sweep item.address (item.descriptor.opcode :: (item.operand ++ rest)) = _
  rw [sweep, Descriptor.ofOpcode?_opcode h.row]
  simp only
  rw [if_neg (by rw [List.length_append, h.size]; omega), ← h.size, List.drop_left, List.take_left,
    item.length_bytes h]

theorem sweep_nil (address : Nat) : sweep address [] = some [] := by
  rw [sweep]

/-- A byte in two's complement. -/
theorem signed_ofNat {n : Int} (hlow : -128 ≤ n) (hhigh : n ≤ 127) :
    signed (UInt8.ofNat (n % 256).toNat) = n := by
  unfold signed
  rw [UInt8.toNat_ofNat']
  split <;> omega

end Disassembly

/-- A displacement that the final pass accepts leads from behind the branch to its target. -/
theorem signed_branchOffset {m : Mnemonic} {place : Nat} {target : Int} {b : UInt8}
    (hplace : place ≤ 65536) (h : branchOffset m (.ofNat place) (.ofInt target) true = .ok b) :
    (place : Int) + 2 + Disassembly.signed b = target := by
  have hbehind := Number.ofNat_add_two (n := place) (by unfold Number.exactLimit; omega)
  have hrange : ¬(127 < Number.ofInt target - (.ofNat place + 2) ∨
      Number.ofInt target - (.ofNat place + 2) < -128) := by
    intro hfar
    rw [branchOffset, if_pos ⟨rfl, hfar⟩] at h
    cases h
  rw [hbehind] at hrange
  obtain ⟨hexact, hlow, hhigh⟩ := Number.eq_of_displacement hrange
  rw [← hbehind] at hexact
  rw [branchOffset_of_displacement hexact (by omega), if_neg (by omega)] at h
  rw [← Except.ok.inj h, Disassembly.signed_ofNat hlow hhigh]
  omega

-- ── Encodings read back ─────────────────────────────────────────────────────

open Disassembly (Item operandValue)

theorem operandValue_word (w : UInt16) : operandValue [lowByte w, highByte w] = w.toNat := by
  have := w.toNat_lt
  simp only [operandValue, lowByte, highByte, UInt8.toNat_ofNat']
  omega

/-- The bytes of an operand of a known value stand for that value. -/
theorem operandValue_of_encode {d : Descriptor} {v : Value} {bytes : List UInt8}
    (hv : v.pending = false) (hmode : d.mode ≠ .implied) (h : encode d v = .ok (bytes.map .ofByte)) :
    ∃ operand, bytes = d.opcode :: operand ∧ operand.length = d.mode.width.size ∧
      v.amount = .ofNat (operandValue operand) := by
  unfold encode at h
  cases hw : d.mode.width with
  | none =>
      exfalso
      revert hmode hw
      cases d.mode <;> simp [Mode.width]
  | byte =>
      rw [hw, hv] at h
      obtain ⟨b₁, rest, rfl, hop, h⟩ := List.map_eq_cons_iff.mp (Except.ok.inj h).symm
      obtain ⟨b₂, rest, rfl, hvalue, h⟩ := List.map_eq_cons_iff.mp h
      rw [List.map_eq_nil_iff.mp h]
      refine ⟨[b₂], by rw [Number.ofByte_injective hop], rfl, ?_⟩
      rw [← show Number.ofByte b₂ = v.amount from hvalue]
      simp [Number.ofByte, operandValue]
  | word =>
      rw [hw] at h
      cases hword : v.word with
      | error fault => rw [hword] at h; cases h
      | ok w =>
          rw [hword] at h
          obtain ⟨b₁, rest, rfl, hop, h⟩ := List.map_eq_cons_iff.mp (Except.ok.inj h).symm
          obtain ⟨b₂, rest, rfl, hlow, h⟩ := List.map_eq_cons_iff.mp h
          obtain ⟨b₃, rest, rfl, hhigh, h⟩ := List.map_eq_cons_iff.mp h
          rw [List.map_eq_nil_iff.mp h]
          refine ⟨[b₂, b₃], by rw [Number.ofByte_injective hop], rfl, ?_⟩
          rw [Number.ofByte_injective hlow, Number.ofByte_injective hhigh, operandValue_word,
            Value.amount_of_word hv hword]
          rfl

/-- No mode without operand is pinned. -/
def Session.PinsCarry (s : Session) : Prop :=
  ∀ k mode, s.symbols.pins.find? k = some mode → mode ≠ .implied

theorem selectMode_ne_implied {m : Mnemonic} {x : Number} {index : Option Index} {flags : Flags}
    {mode : Mode} (h : selectMode m x index flags = .ok mode) : mode ≠ .implied := by
  have hindexed : ∀ i : Index, i.indirect ≠ .implied ∧ i.zeroPage ≠ .implied ∧ i.absolute ≠ .implied := by
    intro i
    cases i <;> decide
  unfold selectMode at h
  rintro rfl
  split at h
  · split at h
    · exact nomatch h
    · split at h
      · exact nomatch h
      · split at h <;> exact nomatch h
  · rename_i i
    obtain ⟨hindirect, hzero, habsolute⟩ := hindexed i
    split at h
    · split at h
      · exact hindirect (Except.ok.inj h)
      · exact nomatch h
    · split at h
      · exact hzero (Except.ok.inj h)
      · exact habsolute (Except.ok.inj h)

namespace Session

variable {s : Session} {m : Mnemonic} {o : Operand} {v : Value}

/-- An operand that is no branch target is encoded in a mode that carries it. -/
theorem encode_of_encodeOperand (hpins : s.PinsCarry) {addressing : Option Index × Flags} {e : Encoded}
    (hm : m.isBranch = false) (h : s.encodeOperand m o v addressing = .ok e) :
    e.descriptor.mnemonic = m ∧ e.descriptor ∈ Descriptor.table ∧ e.descriptor.mode ≠ .implied ∧
      e.descriptor.mode ≠ .relative ∧ Asm6502.encode e.descriptor v = .ok e.bytes := by
  obtain ⟨mode, hchoose, h⟩ := encodeOperand_eq_ok hm h
  obtain ⟨hlookup, hencode⟩ := encodeIn_eq_ok h
  obtain ⟨hmnemonic, hmode, hform⟩ := lookup_eq_ok hlookup
  refine ⟨hmnemonic, Descriptor.mem_table (by rw [hmnemonic]; exact hform), ?_, ?_, hencode⟩
  · rw [hmode]
    unfold chooseMode at hchoose
    split at hchoose
    · rename_i pinned hpinned
      rw [← Except.ok.inj hchoose]
      unfold Symbols.pinFor at hpinned
      split at hpinned
      · exact hpins _ _ hpinned
      · exact nomatch hpinned
    · exact selectMode_ne_implied hchoose
  · intro hrelative
    have hhas : m.isBranch = true := by
      unfold Mnemonic.isBranch Mnemonic.hasMode Mnemonic.modes
      rw [List.contains_iff_mem, List.mem_map]
      exact ⟨e.descriptor.form, hform, hrelative⟩
    rw [hm] at hhas
    exact nomatch hhas

/-- A branch is encoded with the displacement to its target. -/
theorem encode_of_encodeBranch {cursor : Number} {index : Option Index} {e : Encoded}
    (h : encodeBranch .final cursor m v index = .ok e) (hv : v.pending = false) :
    e.descriptor.mnemonic = m ∧ e.descriptor ∈ Descriptor.table ∧ e.descriptor.mode = .relative ∧
      ∃ b, e.bytes = [.ofByte e.descriptor.opcode, .ofByte b] ∧
        branchOffset m cursor v.amount true = .ok b := by
  unfold encodeBranch at h
  split at h
  · exact nomatch h
  · obtain ⟨d, hlookup, h⟩ := Check.bind_eq_ok h
    obtain ⟨b, hoffset, h⟩ := Check.bind_eq_ok h
    obtain ⟨hmnemonic, hmode, hform⟩ := lookup_eq_ok hlookup
    rw [← Except.ok.inj h]
    refine ⟨hmnemonic, Descriptor.mem_table (by rw [hmnemonic]; exact hform), hmode, b, rfl, ?_⟩
    rw [hv] at hoffset
    exact hoffset

end Session

-- ── Statements read back ────────────────────────────────────────────────────

/-- What a name stands for, given the addresses of labels. -/
def labelValue (labels : Table String UInt16) (name : String) : Except Fault Value :=
  match labels.find? name with
  | some a => .ok ⟨.ofAddress a, false⟩
  | none => .error (.undefinedLabel name)

namespace Source

/-- The operand of an instruction read back: none where none is written, else the value of the written
    one (of `#expr`: its low byte). A branch leads to its target if that is an integer. -/
def OperandReads (value : Operand → Except Fault Value) (m : Mnemonic) (operand : Option OperandSyntax)
    (item : Item) : Prop :=
  match operand.bind (·.carried) with
  | none => item.operand = []
  | some o => ∃ x, value o = .ok ⟨x, false⟩ ∧
    ((m.isBranch = true → x.isInteger = true) → x = .ofInt item.target)

/-- A statement is the instruction read back: the same mnemonic, and an operand of the value that the
    written one has at that place, given the addresses of labels. -/
def Statement.ReadsAs (labels : Table String UInt16) (st : Statement) (item : Item) : Prop :=
  ∃ m operand, st.body = .instruction m operand ∧ item.descriptor.mnemonic = m ∧
    OperandReads (fun o => o.valueIn (labelValue labels) (.ofNat item.address)) m operand item

/-- Bytes at a place are an instruction of a mnemonic, whose operand reads as the written one. -/
def ReadsAt (s : Session) (place : Nat) (bytes : List UInt8) (m : Mnemonic)
    (operand : Option OperandSyntax) : Prop :=
  ∃ item : Item, item.address = place ∧ item.WellFormed ∧ item.bytes = bytes ∧
    item.descriptor.mnemonic = m ∧ OperandReads s.value m operand item

section Reading

variable {s : Session} {m : Mnemonic} {e : Encoded} {bytes : List UInt8} {place : Nat}

theorem readsAt_bare {operand : Option OperandSyntax} (hnone : operand.bind (·.carried) = none)
    (he : encodeIn m .implied ⟨0, false⟩ = .ok e) (hbytes : e.bytes = bytes.map .ofByte) :
    ReadsAt s place bytes m operand := by
  obtain ⟨hlookup, hencode⟩ := encodeIn_eq_ok he
  obtain ⟨hmnemonic, hmode, hform⟩ := lookup_eq_ok hlookup
  unfold Asm6502.encode at hencode
  rw [hmode, hbytes] at hencode
  obtain ⟨b, rest, rfl, hop, h⟩ := List.map_eq_cons_iff.mp (Except.ok.inj hencode).symm
  obtain rfl := List.map_eq_nil_iff.mp h
  refine ⟨⟨place, e.descriptor, []⟩, rfl, ⟨?_, ?_⟩, ?_, hmnemonic, ?_⟩
  · exact Descriptor.mem_table (by rw [hmnemonic]; exact hform)
  · show 0 = e.descriptor.mode.width.size
    rw [hmode]
    rfl
  · show [e.descriptor.opcode] = [b]
    rw [Number.ofByte_injective hop]
  · unfold OperandReads
    rw [hnone]

/-- An operand that is no branch target stands in its bytes. -/
theorem readsAt_operand {x : OperandSyntax} {o : Operand} {v : Value} (hpins : s.PinsCarry)
    (hx : (some x).bind (·.carried) = some o) (hvalue : s.value o = .ok v) (hknown : v.pending = false)
    (hm : m.isBranch = false) (he : s.encodeOperand m o v (x.addressing m v) = .ok e)
    (hbytes : e.bytes = bytes.map .ofByte) : ReadsAt s place bytes m (some x) := by
  obtain ⟨hmnemonic, hrow, hcarries, hnear, hencode⟩ := Session.encode_of_encodeOperand hpins hm he
  rw [hbytes] at hencode
  obtain ⟨ops, rfl, hsize, hamount⟩ := operandValue_of_encode hknown hcarries hencode
  refine ⟨⟨place, e.descriptor, ops⟩, rfl, ⟨hrow, hsize⟩, rfl, hmnemonic, ?_⟩
  unfold OperandReads
  rw [hx]
  refine ⟨v.amount, by rw [hvalue, ← hknown], fun _ => ?_⟩
  rw [hamount, Number.ofNat_eq_ofInt]
  congr 1
  unfold Item.target
  simp only
  split
  · rename_i hno
    exact absurd hno hnear
  · rfl

/-- The displacement of a branch leads to its target. -/
theorem readsAt_branch {x : OperandSyntax} {o : Operand} {v : Value} (hpass : s.pass = .final)
    (hplace : s.cursor.position = .ofNat place) (hfits : place ≤ 65536)
    (hx : (some x).bind (·.carried) = some o) (hvalue : s.value o = .ok v) (hknown : v.pending = false)
    (hm : m.isBranch = true) (he : s.encodeOperand m o v (x.addressing m v) = .ok e)
    (hbytes : e.bytes = bytes.map .ofByte) : ReadsAt s place bytes m (some x) := by
  unfold Session.encodeOperand encodeWith at he
  rw [hm, if_pos rfl, hpass] at he
  obtain ⟨hmnemonic, hrow, hmode, b, hpair, hoffset⟩ := Session.encode_of_encodeBranch he hknown
  rw [hpair] at hbytes
  obtain ⟨b₁, rest, rfl, hop, h⟩ := List.map_eq_cons_iff.mp hbytes.symm
  obtain ⟨b₂, rest, rfl, hsecond, h⟩ := List.map_eq_cons_iff.mp h
  obtain rfl := List.map_eq_nil_iff.mp h
  rw [Number.ofByte_injective hop, Number.ofByte_injective hsecond]
  refine ⟨⟨place, e.descriptor, [b]⟩, rfl, ⟨hrow, ?_⟩, rfl, hmnemonic, ?_⟩
  · show 1 = e.descriptor.mode.width.size
    rw [hmode]
    rfl
  · unfold OperandReads
    rw [hx]
    refine ⟨v.amount, by rw [hvalue, ← hknown], fun hinteger => ?_⟩
    obtain ⟨target, htarget⟩ := Option.isSome_iff_exists.mp (hinteger hm)
    have hamount := Number.eq_ofInt_of_toInt? htarget
    rw [hplace, hamount] at hoffset
    rw [hamount, ← signed_branchOffset hfits hoffset]
    congr 1
    unfold Item.target
    simp only [hmode]

/-- What is emitted for an instruction in the final pass reads as it is written. -/
theorem readsAt_of_encode {operand : Option OperandSyntax} (hpass : s.pass = .final)
    (hpins : s.PinsCarry) (hplace : s.cursor.position = .ofNat place) (hfits : place ≤ 65536)
    (he : s.encode m operand = .ok e) (hbytes : e.bytes = bytes.map .ofByte) :
    ReadsAt s place bytes m operand := by
  cases operand with
  | none => exact readsAt_bare rfl he hbytes
  | some x =>
      cases hx : x.carried with
      | none =>
          cases x with
          | accumulator => exact readsAt_bare rfl he hbytes
          | immediate _ | direct _ _ | indirect _ | indexedIndirect _ | indirectIndexed _ => exact nomatch hx
      | some o =>
          obtain ⟨-, v, hv, he⟩ := Session.encode_eq_ok hx he
          have hknown := s.pending_of_final hpass hv
          cases hm : m.isBranch with
          | false => exact readsAt_operand hpins hx hv hknown hm he hbytes
          | true => exact readsAt_branch hpass hplace hfits hx hv hknown hm he hbytes

end Reading

/-- A mode that is pinned carries an operand. -/
theorem mode_of_pins {s : Session} {m : Mnemonic} {operand : Option OperandSyntax} {e : Encoded}
    (hs : s.PinsCarry) (hpinned : s.pins m operand = true) (he : s.encode m operand = .ok e) :
    e.descriptor.mode ≠ .implied := by
  unfold Session.pins at hpinned
  cases hx : operand.bind (·.carried) with
  | none => rw [hx] at hpinned; exact nomatch hpinned
  | some o =>
      obtain ⟨x, rfl, hcarried⟩ := Option.bind_eq_some_iff.mp hx
      rw [hx] at hpinned
      obtain ⟨-, v, hv, he⟩ := Session.encode_eq_ok hcarried he
      simp only [hv, Bool.and_eq_true, Bool.not_eq_true'] at hpinned
      exact (Session.encode_of_encodeOperand hs hpinned.2 he).2.2.1

/-- A value of the final pass is the same with the labels of its end, if no label drifts. -/
theorem value_later {s t : Session} {o : Operand} {v : Value} (hpass : s.pass = .final)
    (hleads : s.Leads t) (hdrifts : t.symbols.drifts = []) (h : s.value o = .ok v) :
    o.valueIn (labelValue t.symbols.labels) s.cursor.position = .ok v := by
  have hread : ∀ n v, s.symbols.lookup s.pass n = .ok v → labelValue t.symbols.labels n = .ok v := by
    intro n v hn
    simp only [Symbols.lookup, hpass] at hn
    simp only [labelValue]
    cases hf : s.symbols.labels.find? n with
    | none => rw [hf] at hn; exact nomatch hn
    | some a =>
        rw [hf] at hn
        rw [hleads.labels (Or.inr hdrifts) n a hf]
        exact hn
  exact Operand.valueIn_mono _ hread h

/-- What reads as an operand of the final pass also reads so with the labels of its end. -/
theorem operandReads_later {s t : Session} {m : Mnemonic} {operand : Option OperandSyntax} {item : Item}
    (hpass : s.pass = .final) (hplace : s.cursor.position = .ofNat item.address) (hleads : s.Leads t)
    (hdrifts : t.symbols.drifts = []) (h : OperandReads s.value m operand item) :
    OperandReads (fun o => o.valueIn (labelValue t.symbols.labels) (.ofNat item.address)) m operand
      item := by
  unfold OperandReads at h ⊢
  split
  · rename_i hnone
    rw [hnone] at h
    exact h
  · rename_i o hsome
    rw [hsome] at h
    obtain ⟨x, hx, hreads⟩ := h
    refine ⟨x, ?_, hreads⟩
    rw [← hplace]
    exact value_later hpass hleads hdrifts hx

/-- What an instruction pins carries its operand. -/
theorem pinsCarry_run {st : Statement} {s t : Session} (h : st.run.exec s = (.ok (), t))
    (hs : s.PinsCarry) : t.PinsCarry := by
  cases hi : st.isInstruction with
  | false =>
      intro k mode hk
      rw [pins_of_not_instruction h hi] at hk
      exact hs k mode hk
  | true =>
      obtain ⟨m, operand, hb⟩ := exists_of_isInstruction hi
      rw [exec_run_eq_ok, hb] at h
      obtain ⟨e, he, hpins⟩ := pins_instruction h
      intro k mode hk
      rw [hpins] at hk
      split at hk
      · rename_i hpinned
        rw [Table.find?_insert] at hk
        split at hk
        · rw [← Option.some.inj hk]
          exact mode_of_pins hs hpinned he
        · exact hs k mode hk
      · exact hs k mode hk

theorem pinsCarry_runAll {statements : List Statement} {s t : Session}
    (h : (runAll statements).exec s = (.ok (), t)) (hs : s.PinsCarry) : t.PinsCarry := by
  induction statements generalizing s with
  | nil =>
      obtain rfl : s = t := congrArg Prod.snd h
      exact hs
  | cons st rest ih =>
      obtain ⟨_, s', hst, hrest⟩ := Action.exec_bind_eq_ok h
      exact ih hrest (pinsCarry_run hst hs)

/-- The final pass emits what reads as its instruction statements. -/
theorem reads_runAll {statements : List Statement} {s t : Session} {place : Nat}
    (hcode : ∀ st ∈ statements, st.isDirective = false) (hpass : s.pass = .final)
    (hpins : s.PinsCarry) (hplace : s.cursor.position = .ofNat place) (hfits : place ≤ 65536)
    (hdrifts : t.symbols.drifts = []) (h : (runAll statements).exec s = (.ok (), t)) :
    ∃ items : List Item, s.Emits place (items.flatMap Item.bytes) t ∧
      Disassembly.sweep place (items.flatMap Item.bytes) = some items ∧
      List.Forall₂ (Statement.ReadsAs t.symbols.labels) (statements.filter (·.isInstruction)) items := by
  induction statements generalizing s place with
  | nil =>
      obtain rfl : s = t := congrArg Prod.snd h
      exact ⟨[], .nil hplace hfits rfl rfl rfl, Disassembly.sweep_nil place, .nil⟩
  | cons st rest ih =>
      have hleads : s.Leads t := (leads_runAll (st :: rest)).of_exec h
      obtain ⟨_, s', hst, hrest⟩ := Action.exec_bind_eq_ok h
      have hlead : s.Leads s' := (leads_run st).of_exec hst
      have hcode' : ∀ st' ∈ rest, st'.isDirective = false :=
        fun st' h' => hcode st' (List.mem_cons_of_mem _ h')
      have hpass' := hlead.pass.trans hpass
      have hpins' := pinsCarry_run hst hpins
      rcases emits_run (hcode st (List.mem_cons_self ..)) hplace hfits hst with
        ⟨m, operand, e, bytes, hb, he, hbytes, hemits⟩ | ⟨hother, hemits⟩
      · obtain ⟨items, hitems, hsweep, hall⟩ := ih hcode' hpass' hpins' hemits.after hemits.fits hrest
        obtain ⟨item, rfl, hform, rfl, hmnemonic, hreads⟩ :=
          readsAt_of_encode hpass hpins hplace hfits he hbytes
        refine ⟨item :: items, hemits.trans hitems, ?_, ?_⟩
        · rw [List.flatMap_cons, Disassembly.sweep_cons hform, hsweep]
          rfl
        · rw [List.filter_cons_of_pos (by unfold Statement.isInstruction; rw [hb])]
          refine .cons ⟨m, operand, hb, hmnemonic, ?_⟩ hall
          exact operandReads_later hpass hplace hleads hdrifts hreads
      · obtain ⟨items, hitems, hsweep, hall⟩ := ih hcode' hpass' hpins' hemits.after hemits.fits hrest
        refine ⟨items, hemits.trans hitems, hsweep, ?_⟩
        rw [List.filter_cons_of_neg (by rw [hother]; decide)]
        exact hall

/-- Assembled code means what the source says: a text of labels, assignments and instructions that
    compiles makes bytes that read, from the start to the end, as its instruction statements in order. -/
theorem assembled_code_reads_back {source : String} {options : Options} {statements : List Statement}
    {c : Compilation} (hfinish : options.finish = none) (hcursor : options.cursor = none)
    (hmemory : options.memory = none) (hparse : parse source = .ok statements)
    (hcode : ∀ st ∈ statements, st.isDirective = false) (h : (assemble source options).1 = .ok c) :
    ∃ items, Disassembly.sweep c.start.toNat c.bytes = some items ∧
      List.Forall₂ (Statement.ReadsAs c.labels) (statements.filter (·.isInstruction)) items := by
  obtain ⟨statements', s, last, f, hparse', hcreate, hdiscovery, hfinal, hnone, rfl⟩ := assemble_eq_ok h
  obtain rfl : statements' = statements := Except.ok.inj (hparse'.symm.trans hparse)
  obtain ⟨-, -, hend, -, hdrifts⟩ := passDifferences_eq_nil_iff.mp hnone
  obtain ⟨hplace, -⟩ := begins_of_create hfinish hcursor hmemory hcreate
  have hnew := Session.isNew_of_create hcreate
  have hleads : s.Leads last := (leads_runAll statements').of_exec hdiscovery
  have hpass := hleads.pass.trans hnew.pass
  obtain ⟨journal, hturned⟩ := Session.turned_eq hpass
  have hstart := Nat.le_of_lt s.cursor.start.toNat_lt
  obtain ⟨old, hold⟩ := emits_runAll hcode hplace hstart hdiscovery
  have hcarry : last.PinsCarry := by
    refine pinsCarry_runAll hdiscovery (fun k mode hk => ?_)
    rw [hnew.pins] at hk
    exact nomatch hk
  have hpins : last.turned.PinsCarry := by
    rw [hturned]
    exact hcarry
  have hagain : last.turned.cursor.position = .ofNat s.cursor.start.toNat := by
    rw [hturned]
    show Number.ofAddress last.cursor.start = _
    rw [hleads.start]
    rfl
  obtain ⟨items, hitems, hsweep, hall⟩ :=
    reads_runAll hcode (by rw [hturned]) hpins hagain hstart hdrifts hfinal
  have hlength : (items.flatMap Item.bytes).length = old.length := by
    have : f.cursor.position = last.cursor.position := hend
    rw [hitems.after, hold.after] at this
    have := Number.ofNat_injective this
    omega
  obtain ⟨hfrom, hbytes⟩ := result_of_blocks hfinish hcursor hmemory hcreate hpass hold hitems hlength
    last.statistics f.statistics
  rw [hfrom, hbytes]
  exact ⟨items, hsweep, hall⟩

/-- Operands of many kinds, with branches forward and backward. -/
def loopSample : String :=
  "zp = $10\nloop: LDA (zp),Y\n BEQ done\n STA table-1,X\n DEX\n BNE loop\n" ++
    "done: LDA #>table\n JMP (vector)\ntable: ASL\nvector = table+1\n"

/-- The statements of `loopSample`. -/
def loopStatements : List Statement := (parse loopSample).toOption.getD []

theorem loop_reads_back :
    parse loopSample = .ok loopStatements ∧ (∀ st ∈ loopStatements, st.isDirective = false) ∧
    (loopStatements.filter (·.isInstruction)).length = 8 ∧
    ∃ c, (assemble loopSample { start := some 0x2000 }).1 = .ok c ∧
      ∃ items, Disassembly.sweep c.start.toNat c.bytes = some items ∧
        List.Forall₂ (Statement.ReadsAs c.labels) (loopStatements.filter (·.isInstruction)) items := by
  have hparse : parse loopSample = .ok loopStatements := by decide +kernel
  have hcode : ∀ st ∈ loopStatements, st.isDirective = false := by decide +kernel
  have hcount : (loopStatements.filter (·.isInstruction)).length = 8 := by decide +kernel
  have hstart : (assemble loopSample { start := some 0x2000 }).1.map (·.start) = .ok 0x2000 := by
    decide +kernel
  refine ⟨hparse, hcode, hcount, ?_⟩
  cases h : (assemble loopSample { start := some 0x2000 }).1 with
  | error fault =>
      rw [h] at hstart
      exact nomatch hstart
  | ok c => exact ⟨c, rfl, assembled_code_reads_back rfl rfl rfl hparse hcode h⟩

end Source

end Asm6502
