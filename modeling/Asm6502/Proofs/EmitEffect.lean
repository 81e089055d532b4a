import Asm6502.Proofs.Layout
import Asm6502.Proofs.OperationPasses

/-!
# The effect of an instruction

An instruction is encoded and its bytes are emitted one by one, so it can fail halfway: after some of its
bytes have been written. What it writes is then a beginning of its encoding, and everything around it stays
as it was, whether it fails or not.

* `Session.surroundings`: what no instruction changes.
* `Session.Appends`: from one session to another some bytes were written at the cursor, and counted.
* `Assembly.appends_each`: of values to be emitted, a beginning is written, and all of them on success.
* `emit_writes_its_encoding`: the effect of an instruction, completed or failed.
-/

namespace Asm6502

open Asm6502.Action (Moves)

-- ── What stays ──────────────────────────────────────────────────────────────

/-- What surrounds the code at the cursor: labels and how they drifted, owners, the pass, marks, the
    exported range, and what a compilation was told. -/
structure Surroundings where
  labels : Table String UInt16
  drifts : List Drift
  placeholder : UInt16
  outerOwner : String
  scopes : List String
  pass : Pass
  entrypoint : Option Number
  breakpoints : List Breakpoint
  watches : List Watch
  exportStart : Option UInt16
  exportFinish : Option UInt16
  cursorStart : UInt16
  registers : Registers
  verbose : Bool
  journal : Journal

/-- The surroundings of a session. -/
def Session.surroundings (s : Session) : Surroundings where
  labels := s.symbols.labels
  drifts := s.symbols.drifts
  placeholder := s.symbols.placeholder
  outerOwner := s.outerOwner
  scopes := s.scopes
  pass := s.pass
  entrypoint := s.entrypoint
  breakpoints := s.breakpoints
  watches := s.watches
  exportStart := s.memory.start
  exportFinish := s.memory.finish
  cursorStart := s.cursor.start
  registers := s.cursor.registers
  verbose := s.verbose
  journal := s.journal

-- ── Encoding ────────────────────────────────────────────────────────────────

/-- References and pins aside, a symbol table stays as it is. -/
def Symbols.Annotates (s t : Symbols) : Prop := ∃ references pins, t = { s with references, pins }

theorem Symbols.Annotates.refl (s : Symbols) : s.Annotates s := ⟨s.references, s.pins, rfl⟩

theorem Symbols.Annotates.trans (r s t : Symbols) (h : r.Annotates s) (h' : s.Annotates t) :
    r.Annotates t := by
  obtain ⟨references, pins, rfl⟩ := h
  obtain ⟨references', pins', rfl⟩ := h'
  exact ⟨references', pins', rfl⟩

/-- An instruction is assembled without a change of the symbol table, but for references and pins. -/
theorem Scope.annotates_assemble (cursor : Number) (pass : Pass) (m : Mnemonic) (operand : Option Operand)
    (index : Option Index) (flags : Flags) :
    Moves Symbols.Annotates ((Scope.atCursor cursor pass).assemble m operand index flags) := by
  refine moves_assemble .refl .trans (fun o s => ?_) (fun s mode => ?_) m operand index flags
  · obtain ⟨references, h⟩ := (o.reads_evaluate pass cursor).keeps s
    exact ⟨references, s.pins, h⟩
  · exact ⟨_, s.pins.insert cursor mode, rfl⟩

/-- No instruction has more than three bytes. -/
theorem Mode.length_le (mode : Mode) : mode.length ≤ 3 := by
  cases mode <;> decide

/-- An encoding begins with its opcode. -/
theorem head?_of_encode {d : Descriptor} {v : Value} {bytes : List Number} (h : encode d v = .ok bytes) :
    bytes.head? = some (.ofByte d.opcode) := by
  unfold encode at h
  split at h
  · rw [← Except.ok.inj h]
    rfl
  · rw [← Except.ok.inj h]
    rfl
  · obtain ⟨w, -, h⟩ := Check.bind_eq_ok h
    rw [← Except.ok.inj h]
    rfl

namespace Assembly

variable {m : Mnemonic} {args : List Argument} {s : Session}

/-- The final pass notes no name, also where one is looked up in vain. -/
theorem exec_evaluate_final (hpass : s.pass = .final) (o : Operand) :
    (s.scope.evaluate o).exec s.symbols = (s.value o, s.symbols) := by
  show (o.evaluate (Symbols.resolve s.pass s.cursor.position) s.cursor.position).exec s.symbols =
    (o.valueIn (s.symbols.lookup s.pass) s.cursor.position, s.symbols)
  rw [hpass]
  exact o.exec_evaluate_final s.cursor.position s.symbols

/-- The final pass pins no mode either. -/
theorem exec_assemble_final (hpass : s.pass = .final) (m : Mnemonic) (operand : Option Operand)
    (index : Option Index) (flags : Flags) :
    ((s.scope.assemble m operand index flags).exec s.symbols).2 = s.symbols := by
  cases operand with
  | none => rw [Scope.exec_assemble_none]
  | some o =>
      have hrun := exec_evaluate_final hpass o
      cases hv : s.value o with
      | error fault =>
          rw [hv] at hrun
          rw [Scope.assemble, Action.exec_bind_of_error hrun]
      | ok v =>
          rw [hv] at hrun
          refine Scope.assemble_of_value (R := fun a b => b = a) (fun _ => rfl)
            (fun _ _ _ h h' => h'.trans h) hrun (fun hpending => ?_) m index flags
          rw [s.pending_of_final hpass hv] at hpending
          cases hpending

/-- Encoding changes references and pins at most, and nothing at all in the final pass. -/
theorem annotates_encoding (m : Mnemonic) (args : List Argument) (s : Session) :
    ∃ symbols, ((encoding m args).exec s).2 = { s with symbols } ∧ s.symbols.Annotates symbols ∧
      (s.pass = .final → symbols = s.symbols) := by
  cases hargs : readArguments m args with
  | error fault =>
      rw [exec_encoding_of_refused hargs]
      exact ⟨s.symbols, rfl, .refl _, fun _ => rfl⟩
  | ok arguments =>
      obtain ⟨operand, index, flags⟩ := arguments
      rw [exec_encoding_of_arguments hargs, onSymbols, Action.exec_onPart]
      exact ⟨_, rfl, Scope.annotates_assemble _ _ m operand index flags s.symbols,
        fun hpass => exec_assemble_final hpass m operand index flags⟩

/-- An encoding has a row of the table: it begins with the opcode, and is as long as the row says. -/
theorem row_of_encoding {e : Encoded} (h : ((encoding m args).exec s).1 = .ok e) :
    lookup m e.descriptor.mode = .ok e.descriptor ∧ e.bytes.head? = some (.ofByte e.descriptor.opcode) ∧
      e.bytes.length = e.descriptor.length := by
  have hin : ∀ {mode v}, encodeIn m mode v = .ok e → lookup m e.descriptor.mode = .ok e.descriptor ∧
      e.bytes.head? = some (.ofByte e.descriptor.opcode) ∧ e.bytes.length = e.descriptor.length := by
    intro mode v hencode
    obtain ⟨hlookup, hbytes⟩ := encodeIn_eq_ok hencode
    refine ⟨?_, head?_of_encode hbytes, length_of_encode hbytes⟩
    rw [(lookup_eq_ok hlookup).2.1]
    exact hlookup
  rcases exec_encoding_eq_ok (Prod.ext h rfl) with
    ⟨_, _, -, hencode, -⟩ | ⟨o, index, flags, v, -, -, hencode, -⟩
  · exact hin hencode
  · cases hm : m.isBranch with
    | false =>
        obtain ⟨mode, -, hencode⟩ := Session.encodeOperand_eq_ok hm hencode
        exact hin hencode
    | true =>
        rw [Session.encodeOperand, encodeWith, if_pos hm, encodeBranch] at hencode
        split at hencode
        · cases hencode
        · obtain ⟨d, hlookup, hencode⟩ := Check.bind_eq_ok hencode
          obtain ⟨offset, -, hencode⟩ := Check.bind_eq_ok hencode
          obtain rfl := Except.ok.inj hencode
          have hmode := (lookup_eq_ok hlookup).2.1
          refine ⟨?_, rfl, ?_⟩
          · show lookup m d.mode = .ok d
            rw [hmode]
            exact hlookup
          · show 2 = d.mode.length
            rw [hmode]
            rfl

end Assembly

-- ── Bytes at the cursor ─────────────────────────────────────────────────────

/-- From `s` to `t` bytes were written at the cursor, one after another, and each was counted. Where there
    are none, nothing was written, wherever the cursor stands. -/
structure Session.Appends (s : Session) (bytes : List UInt8) (t : Session) : Prop where
  nothing : bytes = [] → t.memory = s.memory ∧ t.cursor = s.cursor
  block : bytes ≠ [] → ∃ place, s.Emits place bytes t
  written : t.written.length = s.written.length + bytes.length

/-- From `s` to `t` the symbol table and all surroundings of the code stay, and no instruction counts. -/
structure Session.OnlyWrites (s t : Session) : Prop where
  surroundings : t.surroundings = s.surroundings
  symbols : t.symbols = s.symbols
  instructions : t.instructions = s.instructions

namespace Session

theorem OnlyWrites.refl (s : Session) : s.OnlyWrites s := ⟨rfl, rfl, rfl⟩

theorem OnlyWrites.trans {r s t : Session} (h : r.OnlyWrites s) (h' : s.OnlyWrites t) : r.OnlyWrites t :=
  ⟨h'.surroundings.trans h.surroundings, h'.symbols.trans h.symbols, h'.instructions.trans h.instructions⟩

/-- The owner is one of the surroundings. -/
theorem owner_of_surroundings {s t : Session} (h : t.surroundings = s.surroundings) :
    t.owner = s.owner := by
  have hscopes : t.scopes = s.scopes := congrArg Surroundings.scopes h
  have houter : t.outerOwner = s.outerOwner := congrArg Surroundings.outerOwner h
  rw [owner, owner, hscopes, houter]

theorem Appends.nil (s : Session) : s.Appends [] s :=
  ⟨fun _ => ⟨rfl, rfl⟩, fun hno => absurd rfl hno, rfl⟩

/-- Bytes are written whatever the symbols are. -/
theorem Emits.of_symbols {s t : Session} {symbols : Symbols} {place : Nat} {bytes : List UInt8}
    (h : ({ s with symbols } : Session).Emits place bytes t) : s.Emits place bytes t :=
  ⟨h.before, h.after, h.fits, h.cells, h.start, h.finish, h.owner⟩

/-- What was appended does not depend on symbols. -/
theorem Appends.of_symbols {s t : Session} {symbols : Symbols} {bytes : List UInt8}
    (h : ({ s with symbols } : Session).Appends bytes t) : s.Appends bytes t where
  nothing := h.nothing
  block hne := by
    obtain ⟨place, hemits⟩ := h.block hne
    exact ⟨place, hemits.of_symbols⟩
  written := h.written

/-- Instructions may be counted after their bytes were written. -/
theorem Emits.counted {s t : Session} {place : Nat} {bytes : List UInt8} (h : s.Emits place bytes t)
    (instructions : Nat) : s.Emits place bytes { t with instructions } :=
  ⟨h.before, h.after, h.fits, h.cells, h.start, h.finish, h.owner⟩

/-- What is appended behind a byte goes on where the byte ends. -/
theorem Appends.cons {s s' t : Session} {b : UInt8} {bytes : List UInt8} {place : Nat}
    (hb : s.Emits place [b] s') (hcount : s'.written.length = s.written.length + 1)
    (h : s'.Appends bytes t) (howner : t.owner = s'.owner) : s.Appends (b :: bytes) t where
  nothing hno := by cases hno
  block _ := by
    by_cases hnil : bytes = []
    · obtain ⟨hmemory, hcursor⟩ := h.nothing hnil
      rw [hnil]
      exact ⟨place, hb.trans (.nil hb.after hb.fits hcursor hmemory howner)⟩
    · obtain ⟨place', hmore⟩ := h.block hnil
      obtain rfl : place' = place + 1 := Number.ofNat_injective (hmore.before.symm.trans hb.after)
      exact ⟨place, hb.trans hmore⟩
  written := by
    rw [h.written, hcount, List.length_cons]
    omega

end Session

namespace Assembly

/-- A value to be emitted is a byte that is written at the cursor, or nothing happens. -/
theorem exec_emitByte_cases (v : Number) (s : Session) :
    (∃ b place t, v = .ofByte b ∧ (emitByte v).exec s = (.ok (), t) ∧ s.Emits place [b] t ∧
      t.written.length = s.written.length + 1 ∧ s.OnlyWrites t) ∨
    ∃ fault, (emitByte v).exec s = (.error fault, s) := by
  cases hw : Image.checkWrite s.cursor.position v s.owner with
  | error fault => exact Or.inr ⟨fault, by simp only [exec_emitByte, hw]⟩
  | ok w =>
      cases hm : s.memory.store w with
      | error fault => exact Or.inr ⟨fault, by simp only [exec_emitByte, hw, hm]⟩
      | ok m =>
          have hrun := exec_emitByte_of hw (Image.store_eq_ok hm).1
          obtain ⟨-, haddress, -, -⟩ := Image.checkWrite_eq_ok hw
          obtain ⟨b, hb, hemits⟩ := emits_emitByte (Number.toAddress?_eq_some_iff.mp haddress) hrun
          exact Or.inl ⟨b, _, s.put w, hb, hrun, hemits, rfl, rfl, rfl, rfl⟩

/-- Of values to be emitted, a beginning is written as bytes: all of them on success, not all on failure. -/
theorem appends_each (values : List Number) (s : Session) :
    ∃ bytes rest t, values = bytes.map .ofByte ++ rest ∧ s.Appends bytes t ∧ s.OnlyWrites t ∧
      ((rest = [] ∧ (Action.each emitByte values).exec s = (.ok (), t)) ∨
        ∃ fault, rest ≠ [] ∧ (Action.each emitByte values).exec s = (.error fault, t)) := by
  induction values generalizing s with
  | nil => exact ⟨[], [], s, rfl, .nil s, .refl s, Or.inl ⟨rfl, rfl⟩⟩
  | cons v values ih =>
      rcases exec_emitByte_cases v s with ⟨b, place, s', rfl, hrun, hemits, hcount, honly⟩ | ⟨fault, hrun⟩
      · obtain ⟨bytes, rest, t, rfl, happends, hmore, hend⟩ := ih s'
        refine ⟨b :: bytes, rest, t, rfl, ?_, honly.trans hmore, ?_⟩
        · exact .cons hemits hcount happends (Session.owner_of_surroundings hmore.surroundings)
        · rw [Action.each, Action.exec_bind_of_ok hrun]
          exact hend
      · refine ⟨[], v :: values, s, rfl, .nil s, .refl s, Or.inr ⟨fault, List.cons_ne_nil v values, ?_⟩⟩
        exact Action.exec_bind_of_error hrun

end Assembly

/-- An encoding that consists of bytes is an opcode with its operand bytes. -/
theorem exists_operand_of_row {e : Encoded} {bytes : List UInt8}
    (hhead : e.bytes.head? = some (.ofByte e.descriptor.opcode))
    (hlength : e.bytes.length = e.descriptor.length) (hbytes : e.bytes = bytes.map .ofByte) :
    ∃ operand, bytes = e.descriptor.opcode :: operand ∧ operand.length + 1 = e.descriptor.length := by
  rw [hbytes, List.head?_map] at hhead
  obtain ⟨b, hb, hopcode⟩ := Option.map_eq_some_iff.mp hhead
  obtain ⟨operand, rfl⟩ := List.head?_eq_some_iff.mp hb
  refine ⟨operand, by rw [Number.ofByte_injective hopcode], ?_⟩
  rw [← hlength, hbytes, List.length_map, List.length_cons]

-- ── Instructions ────────────────────────────────────────────────────────────

/-- The effect of an instruction. If it succeeds, its encoding stands where the cursor was: the opcode of a
    row of the table, and as many operand bytes as the row says. If it fails, then before anything was
    encoded, or after a beginning of the encoding was written. Nothing else changes, but that references and
    pins are added in discovery. -/
theorem emit_writes_its_encoding (m : Mnemonic) (args : List Assembly.Argument) (s : Session) :
    (∃ e operand place t, (Assembly.emit m args).exec s = (.ok e.descriptor.length, t) ∧
      ((Assembly.encoding m args).exec s).1 = .ok e ∧ lookup m e.descriptor.mode = .ok e.descriptor ∧
      e.bytes = (e.descriptor.opcode :: operand).map .ofByte ∧
      operand.length + 1 = e.descriptor.length ∧
      s.Emits place (e.descriptor.opcode :: operand) t ∧
      t.written.length = s.written.length + e.descriptor.length ∧
      t.instructions = s.instructions + 1 ∧
      t.surroundings = s.surroundings ∧ (s.pass = .final → t.symbols = s.symbols)) ∨
    ∃ fault done t, (Assembly.emit m args).exec s = (.error fault, t) ∧ done.length < 3 ∧
      ((((Assembly.encoding m args).exec s).1 = .error fault ∧ done = []) ∨
        ∃ e rest, ((Assembly.encoding m args).exec s).1 = .ok e ∧ rest ≠ [] ∧
          e.bytes = done.map .ofByte ++ rest) ∧
      s.Appends done t ∧ t.instructions = s.instructions ∧
      t.surroundings = s.surroundings ∧ (s.pass = .final → t.symbols = s.symbols) := by
  obtain ⟨symbols, hstate, ⟨references, pins, hkept⟩, hfinal⟩ := Assembly.annotates_encoding m args s
  have hsurroundings : ({ s with symbols } : Session).surroundings = s.surroundings := by
    rw [hkept]
    rfl
  cases hencoding : ((Assembly.encoding m args).exec s).1 with
  | error fault =>
      have hrun : (Assembly.emit m args).exec s = (.error fault, { s with symbols }) :=
        Action.exec_bind_of_error (Prod.ext hencoding hstate)
      refine Or.inr ⟨fault, [], _, hrun, by decide, Or.inl ⟨rfl, rfl⟩, ?_, rfl, hsurroundings, hfinal⟩
      exact ⟨fun _ => ⟨rfl, rfl⟩, fun hno => absurd rfl hno, rfl⟩
  | ok e =>
      obtain ⟨hlookup, hhead, hlength⟩ := Assembly.row_of_encoding hencoding
      obtain ⟨bytes, rest, t, hbytes, hblock, honly, hend⟩ :=
        Assembly.appends_each e.bytes { s with symbols }
      have happends : s.Appends bytes t := hblock.of_symbols
      have hthrough : (Assembly.emit m args).exec s = (do
          Action.each Assembly.emitByte e.bytes
          Assembly.countInstruction
          return e.bytes.length : Assembly Nat).exec { s with symbols } :=
        Action.exec_bind_of_ok (Prod.ext hencoding hstate)
      have hframe : t.surroundings = s.surroundings := honly.surroundings.trans hsurroundings
      have hsymbols : s.pass = .final → t.symbols = s.symbols :=
        fun hpass => honly.symbols.trans (hfinal hpass)
      rcases hend with ⟨rfl, hrun⟩ | ⟨fault, hrest, hrun⟩
      · rw [List.append_nil] at hbytes
        obtain ⟨operand, rfl, hsize⟩ := exists_operand_of_row hhead hlength hbytes
        obtain ⟨place, hemits⟩ := happends.block (List.cons_ne_nil _ _)
        refine Or.inl ⟨e, operand, place, { t with instructions := t.instructions + 1 }, ?_, rfl, hlookup,
          hbytes, hsize, hemits.counted _, ?_, ?_, hframe, hsymbols⟩
        · rw [hthrough, Action.exec_bind_of_ok hrun, ← hlength]
          rfl
        · rw [← hsize]
          exact happends.written
        · exact congrArg (· + 1) honly.instructions
      · refine Or.inr ⟨fault, bytes, t, ?_, ?_, Or.inr ⟨e, rest, rfl, hrest, hbytes⟩, happends,
          honly.instructions, hframe, hsymbols⟩
        · rw [hthrough]
          exact Action.exec_bind_of_error hrun
        · have hmost := e.descriptor.mode.length_le
          have hmore := List.length_pos_iff.mpr hrest
          rw [Descriptor.length, hbytes, List.length_append, List.length_map] at hlength
          omega

end Asm6502
