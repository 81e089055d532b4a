import Asm6502.Proofs.Steps

/-!
# How an instruction is encoded

The encoding of an instruction depends on what its operand amounts to, on the cursor and on the mode
pinned there. Here that is told by functions without effects, and the steps that encode an instruction
are shown to compute them.

* `encodeWith`: the encoding for an operand of a known or pending value.
* `Session.encode`: the encoding of an instruction as it is written, where a session stands.
* `Source.exec_encoding`: the encoding step answers it, and leaves notes and at most one pin behind
  (`Source.Answers`).
-/

namespace Asm6502

-- ── From a value to an encoding ─────────────────────────────────────────────

/-- The value that a mode is chosen for: a pending one counts as wide unless it is a byte part. -/
def selectable (o : Operand) (v : Value) : Number :=
  if v.pending && !o.isBytePart then v.amount.maximum 256 else v.amount

/-- The mode of an instruction: the pinned one, or else the one for its value. -/
def chooseMode (pinned : Option Mode) (m : Mnemonic) (o : Operand) (v : Value) (index : Option Index)
    (flags : Flags) : Except Fault Mode :=
  match pinned with
  | some mode => .ok mode
  | none => selectMode m (selectable o v) index flags

/-- The encoding of a mnemonic in a mode. -/
def encodeIn (m : Mnemonic) (mode : Mode) (v : Value) : Except Fault Encoded := do
  let d ← lookup m mode
  return ⟨d, ← encode d v⟩

/-- The encoding of a branch. -/
def encodeBranch (pass : Pass) (cursor : Number) (m : Mnemonic) (v : Value) (index : Option Index) :
    Except Fault Encoded :=
  if index.isSome then .error (.indexedBranch m) else do
    let d ← lookup m .relative
    let offset ← branchOffset m cursor v.amount (pass.isFinal && !v.pending)
    return ⟨d, [.ofByte d.opcode, .ofByte offset]⟩

/-- The encoding of an instruction with an operand of a value. -/
def encodeWith (pass : Pass) (cursor : Number) (pinned : Option Mode) (m : Mnemonic) (o : Operand)
    (v : Value) (index : Option Index) (flags : Flags) : Except Fault Encoded :=
  if m.isBranch then encodeBranch pass cursor m v index else do
    let mode ← chooseMode pinned m o v index flags
    encodeIn m mode v

/-- The mode pinned at a cursor, which only the final pass looks at. -/
def Symbols.pinFor (s : Symbols) (pass : Pass) (cursor : Number) : Option Mode :=
  if pass.isFinal then s.pinned? cursor else none

/-- A row of the table is of its mnemonic and mode. -/
theorem lookup_eq_ok {m : Mnemonic} {mode : Mode} {d : Descriptor} (h : lookup m mode = .ok d) :
    d.mnemonic = m ∧ d.mode = mode ∧ d.form ∈ m.forms := by
  unfold lookup Mnemonic.descriptor? at h
  cases hf : m.forms.find? (fun f => f.mode == mode) with
  | none => rw [hf] at h; exact nomatch h
  | some f =>
      rw [hf] at h
      rw [← Except.ok.inj h]
      refine ⟨rfl, ?_, List.mem_of_find?_eq_some hf⟩
      exact eq_of_beq (List.find?_some (p := fun f : Form => f.mode == mode) hf)

/-- The byte of a branch whose displacement is an integer. -/
theorem branchOffset_of_displacement {cursor target : Number} {d : Int}
    (hd : target - (cursor + 2) = .ofInt d) (hlow : -2 ^ 53 - 256 ≤ d) (m : Mnemonic) (check : Bool) :
    branchOffset m cursor target check =
      if check = true ∧ (127 < d ∨ d < -128) then .error (.branchOutOfRange m cursor target (.ofInt d))
      else .ok (UInt8.ofNat (d % 256).toNat) := by
  have hfar : ((127 : Number) < .ofInt d ∨ Number.ofInt d < -128) ↔ (127 < d ∨ d < -128) := by
    rw [show (127 : Number) = .ofInt 127 from rfl, show (-128 : Number) = .ofInt (-128) from rfl,
      Number.ofInt_lt_iff, Number.ofInt_lt_iff]
  unfold branchOffset
  simp only [hd, hfar]
  split
  · rfl
  · split
    · rename_i hnegative
      have hbelow := Number.ofInt_lt_iff.mp (show _ < Number.ofInt 0 from hnegative)
      rw [show (256 : Number) = Number.ofInt 256 from rfl,
        Number.ofInt_add (by unfold Number.exactLimit; omega), Number.lowByte_ofInt, Int.add_emod_left]
    · rw [Number.lowByte_ofInt]

/-- An encoding is as long as its row of the table says. -/
theorem length_of_encode {d : Descriptor} {v : Value} {bytes : List Number}
    (h : encode d v = .ok bytes) : bytes.length = d.length := by
  unfold encode at h
  unfold Descriptor.length Mode.length
  cases hw : d.mode.width with
  | none => rw [hw] at h; rw [← Except.ok.inj h]; rfl
  | byte => rw [hw] at h; rw [← Except.ok.inj h]; rfl
  | word =>
      rw [hw] at h
      cases hv : v.word with
      | error e => rw [hv] at h; exact nomatch h
      | ok w => rw [hv] at h; rw [← Except.ok.inj h]; rfl

theorem encodeIn_eq_ok {m : Mnemonic} {mode : Mode} {v : Value} {e : Encoded}
    (h : encodeIn m mode v = .ok e) :
    lookup m mode = .ok e.descriptor ∧ encode e.descriptor v = .ok e.bytes := by
  obtain ⟨d, hd, h⟩ := Check.bind_eq_ok h
  obtain ⟨bytes, hb, h⟩ := Check.bind_eq_ok h
  rw [← Except.ok.inj h]
  exact ⟨hd, hb⟩

-- ── The step on the symbol table ────────────────────────────────────────────

namespace Scope

theorem exec_mode (cursor : Number) (pass : Pass) (m : Mnemonic) (o : Operand) (v : Value)
    (index : Option Index) (flags : Flags) (s : Symbols) :
    ((Scope.atCursor cursor pass).mode m o v index flags).exec s =
      (chooseMode (s.pinFor pass cursor) m o v index flags, s) := by
  unfold Scope.mode Symbols.pinFor Scope.atCursor
  rw [Action.exec_bind_of_ok (Action.exec_get s)]
  cases (if pass.isFinal then s.pinned? cursor else none) <;> rfl

theorem exec_assemble_none (scope : Scope) (m : Mnemonic) (index : Option Index) (flags : Flags)
    (s : Symbols) :
    (scope.assemble m none index flags).exec s = (encodeIn m .implied ⟨0, false⟩, s) := by
  unfold Scope.assemble encodeIn
  cases hd : lookup m .implied with
  | error e => simp [Action.exec_bind]
  | ok d =>
      cases hb : encode d ⟨0, false⟩ with
      | error e => simp [Action.exec_bind, hb]
      | ok bytes => simp [Action.exec_bind, hb]

variable {cursor : Number} {pass : Pass} {o : Operand} {s : Symbols}

theorem exec_assemble_of_error (m : Mnemonic) (index : Option Index) (flags : Flags) {e : Fault}
    (h : o.valueIn (s.lookup pass) cursor = .error e) :
    ∃ s', ((Scope.atCursor cursor pass).assemble m (some o) index flags).exec s = (.error e, s') := by
  have hreads := o.reads_evaluate pass cursor
  have hout := (hreads.outcome s).trans h
  exact ⟨_, Action.exec_bind_of_error (Prod.ext hout rfl)⟩

/-- With a value at hand, the step answers `encodeWith`; if it succeeds, the names were used and the mode
    of a pending operand was pinned. -/
theorem exec_assemble_some (m : Mnemonic) (index : Option Index) (flags : Flags) {v : Value}
    (hv : o.valueIn (s.lookup pass) cursor = .ok v) :
    (∀ e, encodeWith pass cursor (s.pinFor pass cursor) m o v index flags = .ok e →
      ((Scope.atCursor cursor pass).assemble m (some o) index flags).exec s = (.ok e,
        if v.pending && !m.isBranch then
          (o.names.foldl (Symbols.use pass cursor) s).pin cursor e.descriptor.mode
        else o.names.foldl (Symbols.use pass cursor) s)) ∧
    ∀ fault, encodeWith pass cursor (s.pinFor pass cursor) m o v index flags = .error fault →
      ∃ s', ((Scope.atCursor cursor pass).assemble m (some o) index flags).exec s =
        (.error fault, s') := by
  have hreads := o.reads_evaluate pass cursor
  have hout := (hreads.outcome s).trans hv
  have huse := hreads.uses s v hout
  obtain ⟨references, hkeep⟩ := hreads.keeps s
  have hrun : ((Scope.atCursor cursor pass).evaluate o).exec s =
      (.ok v, o.names.foldl (Symbols.use pass cursor) s) := Prod.ext hout huse
  have hpin : (o.names.foldl (Symbols.use pass cursor) s).pinFor pass cursor =
      s.pinFor pass cursor := by
    rw [← huse, hkeep]
    rfl
  generalize hs₁ : o.names.foldl (Symbols.use pass cursor) s = s₁ at hrun hpin
  rw [← hpin]
  unfold Scope.assemble encodeWith
  simp only [Action.exec_bind_of_ok hrun]
  cases hm : m.isBranch with
  | true =>
      unfold encodeBranch
      cases index with
      | some i => simp
      | none =>
          cases hd : lookup m .relative with
          | error e => simp [Action.exec_bind]
          | ok d =>
              cases hb : branchOffset m cursor v.amount (pass.isFinal && !v.pending) with
              | error e => simp [Action.exec_bind, Scope.atCursor, hb]
              | ok b =>
                  simp [Action.exec_bind, Scope.atCursor, hb]
  | false =>
      simp only [Bool.false_eq_true, if_false, Bool.not_false, Bool.and_true]
      rw [Action.exec_bind, Scope.exec_mode]
      cases hc : chooseMode (s₁.pinFor pass cursor) m o v index flags with
      | error e => simp
      | ok mode =>
          unfold encodeIn
          cases hd : lookup m mode with
          | error e => simp [Action.exec_bind, hd]
          | ok d =>
              have hmode := (lookup_eq_ok hd).2.1
              cases hb : encode d v with
              | error e =>
                  cases hp : v.pending <;> simp [Action.exec_bind, hd, hb]
              | ok bytes =>
                  cases hp : v.pending <;>
                    simp [Action.exec_bind, Scope.atCursor, hd, hb, hmode]

end Scope

-- ── The step of a source text ───────────────────────────────────────────────

namespace Source

open Assembly (Argument)

/-- The operand that an instruction is assembled with, if it has one. -/
def OperandSyntax.carried : OperandSyntax → Option Operand
  | .accumulator => none
  | .immediate o => some (.low o)
  | .direct o _ => some o
  | .indirect o => some o
  | .indexedIndirect o => some o
  | .indirectIndexed o => some o

/-- Whether a direct operand of a value is taken to lie in the zero page. -/
def inZeroPage (m : Mnemonic) (index : Option Index) (v : Value) : Bool :=
  !v.pending && decide (0 ≤ v.amount) && decide (v.amount < 256) && m.hasMode (zeroPageMode index)

/-- The index register and the flags that an operand of a value is assembled with. -/
def OperandSyntax.addressing (m : Mnemonic) (v : Value) : OperandSyntax → Option Index × Flags
  | .accumulator => (none, {})
  | .immediate _ => (none, {})
  | .direct _ index => (index, { zeroPage := inZeroPage m index v })
  | .indirect _ => (none, { indirect := true })
  | .indexedIndirect _ => (some .x, { zeroPage := true, indirect := true })
  | .indirectIndexed _ => (some .y, { zeroPage := true, indirect := true })

/-- The encoding of an instruction as it is written. -/
def encoding (m : Mnemonic) (operand : Option OperandSyntax) : Assembly Encoded := do
  let args ← instructionArguments m operand
  Assembly.encoding m args

/-- An instruction is encoded, then its bytes are emitted. -/
theorem run_instruction (m : Mnemonic) (operand : Option OperandSyntax) :
    Statement.Body.run (.instruction m operand) = (do
      let e ← encoding m operand
      Action.each Assembly.emitByte e.bytes
      Assembly.countInstruction) := by
  simp only [Statement.Body.run, Assembly.emit, encoding]
  simp

/-- Mnemonics without operand refuse one. -/
def takesOperand (m : Mnemonic) : Except Fault Unit :=
  if m.isImpliedOnly then .error (.arity (.takesNoOperand m)) else .ok ()

end Source

namespace Session

/-- The encoding of an instruction with an operand, where a session stands. -/
def encodeOperand (s : Session) (m : Mnemonic) (o : Operand) (v : Value) (addressing : Option Index × Flags) :
    Except Fault Encoded :=
  encodeWith s.pass s.cursor.position (s.symbols.pinFor s.pass s.cursor.position) m o v addressing.1
    addressing.2

/-- The encoding of an instruction as it is written, where a session stands. The value of a direct
    operand is found before the mnemonic is asked whether it takes one. -/
def encode (s : Session) (m : Mnemonic) : Option Source.OperandSyntax → Except Fault Encoded
  | none => encodeIn m .implied ⟨0, false⟩
  | some x =>
    match x.carried with
    | none => encodeIn m .implied ⟨0, false⟩
    | some o => do
      match x with
      | .direct _ _ => let _ ← s.value o
      | _ => pure ()
      Source.takesOperand m
      let v ← s.value o
      s.encodeOperand m o v (x.addressing m v)

/-- A mnemonic that takes operands is encoded with the value of its operand. -/
theorem encode_of_takesOperand (s : Session) {m : Mnemonic} {x : Source.OperandSyntax} {o : Operand}
    (hx : x.carried = some o) (ht : Source.takesOperand m = .ok ()) :
    s.encode m (some x) = (do
      let v ← s.value o
      s.encodeOperand m o v (x.addressing m v)) := by
  unfold encode
  simp only [hx, ht, Check.ok_bind]
  cases x with
  | direct o' index =>
      cases hv : s.value o with
      | ok v => simp
      | error fault => rfl
  | accumulator | immediate _ | indirect _ | indexedIndirect _ | indirectIndexed _ => rfl

/-- A mnemonic that takes no operand has no encoding with one. -/
theorem encode_of_refused (s : Session) {m : Mnemonic} {x : Source.OperandSyntax} {o : Operand}
    {fault : Fault} (hx : x.carried = some o) (ht : Source.takesOperand m = .error fault) :
    ∃ fault', s.encode m (some x) = .error fault' := by
  unfold encode
  simp only [hx, ht]
  cases x with
  | direct o' index =>
      cases hv : s.value o with
      | ok v => exact ⟨fault, by simp⟩
      | error fault' => exact ⟨fault', rfl⟩
  | accumulator | immediate _ | indirect _ | indexedIndirect _ | indirectIndexed _ => exact ⟨fault, rfl⟩

/-- What is encoded with an operand was encoded with its value. -/
theorem encode_eq_ok {s : Session} {m : Mnemonic} {x : Source.OperandSyntax} {o : Operand} {e : Encoded}
    (hx : x.carried = some o) (h : s.encode m (some x) = .ok e) :
    Source.takesOperand m = .ok () ∧
      ∃ v, s.value o = .ok v ∧ s.encodeOperand m o v (x.addressing m v) = .ok e := by
  cases ht : Source.takesOperand m with
  | error fault =>
      obtain ⟨fault', hf⟩ := s.encode_of_refused hx ht
      rw [hf] at h
      exact nomatch h
  | ok _ =>
      rw [s.encode_of_takesOperand hx ht] at h
      exact ⟨rfl, Check.bind_eq_ok h⟩

/-- What is no branch was encoded in the mode chosen for it. -/
theorem encodeOperand_eq_ok {s : Session} {m : Mnemonic} {o : Operand} {v : Value}
    {addressing : Option Index × Flags} {e : Encoded} (hm : m.isBranch = false)
    (h : s.encodeOperand m o v addressing = .ok e) :
    ∃ mode, chooseMode (s.symbols.pinFor s.pass s.cursor.position) m o v addressing.1 addressing.2 =
      .ok mode ∧ encodeIn m mode v = .ok e := by
  simp only [encodeOperand, encodeWith, hm, Bool.false_eq_true, if_false] at h
  exact Check.bind_eq_ok h

/-- The session with the mode of an encoding pinned, if its operand is pending. -/
def pinned (s : Session) (m : Mnemonic) (o : Operand) (e : Encoded) : Session :=
  match s.value o with
  | .ok v =>
    if v.pending && !m.isBranch then
      { s with symbols := s.symbols.pin s.cursor.position e.descriptor.mode }
    else s
  | .error _ => s

/-- The session after an instruction was encoded. -/
def encoded (s : Session) (m : Mnemonic) (e : Encoded) : Option Source.OperandSyntax → Session
  | some (.direct o _) => ((s.used o).used o).pinned m o e
  | some x =>
    match x.carried with
    | none => s
    | some o => (s.used o).pinned m o e
  | none => s

/-- Whether encoding an instruction pins its mode: its operand is pending, and it is no branch. -/
def pins (s : Session) (m : Mnemonic) (operand : Option Source.OperandSyntax) : Bool :=
  match operand.bind (·.carried) with
  | none => false
  | some o =>
    match s.value o with
    | .ok v => v.pending && !m.isBranch
    | .error _ => false

@[simp] theorem value_used (s : Session) (o o' : Operand) : (s.used o').value o = s.value o := by
  obtain ⟨references, h⟩ := s.used_eq o'
  rw [h]
  rfl

@[simp] theorem encodeOperand_used (s : Session) (o' : Operand) :
    (s.used o').encodeOperand = s.encodeOperand := by
  obtain ⟨references, h⟩ := s.used_eq o'
  rw [h]
  rfl

/-- Encoding an instruction changes references, and pins at the cursor. -/
theorem encoded_eq (s : Session) (m : Mnemonic) (e : Encoded) (operand : Option Source.OperandSyntax) :
    ∃ references, s.encoded m e operand = { s with symbols := { s.symbols with
      references
      pins := if s.pins m operand then s.symbols.pins.insert s.cursor.position e.descriptor.mode
        else s.symbols.pins } } := by
  have hpinned : ∀ (o : Operand) (references : List Reference), ∃ references',
      ({ s with symbols := { s.symbols with references } } : Session).pinned m o e =
        { s with symbols := { s.symbols with
          references := references'
          pins := if (match s.value o with
            | .ok v => v.pending && !m.isBranch
            | .error _ => false) then s.symbols.pins.insert s.cursor.position e.descriptor.mode
            else s.symbols.pins } } := by
    intro o references
    unfold pinned
    rw [show ({ s with symbols := { s.symbols with references } } : Session).value o = s.value o from rfl]
    cases s.value o with
    | error fault => exact ⟨references, rfl⟩
    | ok v =>
        cases hp : v.pending && !m.isBranch with
        | false => exact ⟨references, by simp [hp]⟩
        | true =>
            refine ⟨({ s.symbols with references }.pin s.cursor.position e.descriptor.mode).references, ?_⟩
            simp [hp, Symbols.pin]
  rcases operand with _ | (_ | o | ⟨o, index⟩ | o | o | o)
  case none => exact ⟨s.symbols.references, rfl⟩
  case some.accumulator => exact ⟨s.symbols.references, rfl⟩
  case some.direct =>
    obtain ⟨references, h⟩ := s.used_eq o
    obtain ⟨references', h'⟩ := (s.used o).used_eq o
    rw [show s.encoded m e (some (.direct o index)) = ((s.used o).used o).pinned m o e from rfl, h', h]
    exact hpinned o references'
  case some.immediate =>
    obtain ⟨references, h⟩ := s.used_eq (.low o)
    rw [show s.encoded m e (some (.immediate o)) = (s.used (.low o)).pinned m (.low o) e from rfl, h]
    exact hpinned (.low o) references
  all_goals
    obtain ⟨references, h⟩ := s.used_eq o
    rw [show s.encoded m e _ = (s.used o).pinned m o e from rfl, h]
    exact hpinned o references

end Session

namespace Assembly

variable {m : Mnemonic} {args : List Argument} {o : Operand} {index : Option Index} {flags : Flags}
variable {s : Session}

theorem exec_encoding_of_arguments {operand : Option Operand}
    (h : readArguments m args = .ok ⟨operand, index, flags⟩) (s : Session) :
    (encoding m args).exec s =
      (onSymbols ((Scope.atCursor s.cursor.position s.pass).assemble m operand index flags)).exec s := by
  unfold encoding
  rw [Action.exec_bind_of_ok (by rw [h]; exact Action.exec_check _ s),
    Action.exec_bind_of_ok (Action.exec_get s), Session.scope]

theorem exec_encoding_some {v : Value} (hargs : readArguments m args = .ok ⟨some o, index, flags⟩)
    (hv : s.value o = .ok v) :
    (∀ e, s.encodeOperand m o v (index, flags) = .ok e →
      (encoding m args).exec s = (.ok e, (s.used o).pinned m o e)) ∧
    ∀ fault, s.encodeOperand m o v (index, flags) = .error fault →
      ∃ t, (encoding m args).exec s = (.error fault, t) := by
  rw [exec_encoding_of_arguments hargs]
  obtain ⟨hok, herror⟩ := Scope.exec_assemble_some m index flags hv
  constructor
  · intro e he
    rw [exec_onSymbols (hok e he)]
    unfold Session.pinned
    rw [Session.value_used, hv]
    cases hp : v.pending && !m.isBranch <;> simp [hp, Session.used]
  · intro fault hf
    obtain ⟨symbols, hrun⟩ := herror fault hf
    exact ⟨{ s with symbols }, exec_onSymbols hrun⟩

theorem exec_encoding_of_value_error {e : Fault}
    (hargs : readArguments m args = .ok ⟨some o, index, flags⟩) (hv : s.value o = .error e) :
    ∃ t, (encoding m args).exec s = (.error e, t) := by
  rw [exec_encoding_of_arguments hargs]
  obtain ⟨symbols, hrun⟩ := Scope.exec_assemble_of_error m index flags hv
  exact ⟨{ s with symbols }, exec_onSymbols hrun⟩

theorem exec_encoding_of_refused {e : Fault} (hargs : readArguments m args = .error e) (s : Session) :
    (encoding m args).exec s = (.error e, s) := by
  unfold encoding
  rw [Action.exec_bind_of_error (by rw [hargs]; exact Action.exec_check _ s)]

end Assembly

namespace Source

open Assembly (Argument readArguments)

/-- The arguments that an operand of a value stands for. -/
def OperandSyntax.argumentList (m : Mnemonic) (v : Value) : OperandSyntax → List Argument
  | .accumulator => []
  | .immediate o => [.operand (.low o)]
  | .direct o index =>
    [.operand o] ++ (match index with | none => [] | some i => [.operand (.name i.text)]) ++
      (if inZeroPage m index v then [.flags { zeroPage := true }] else [])
  | .indirect o => [.operand o, .flags { indirect := true }]
  | .indexedIndirect o =>
    [.operand o, .operand (.name "X"), .flags { zeroPage := true, indirect := true }]
  | .indirectIndexed o =>
    [.operand o, .operand (.name "Y"), .flags { zeroPage := true, indirect := true }]

/-- Sorted out, the arguments are the operand, its index register and its flags. -/
theorem readArguments_argumentList {x : OperandSyntax} {o : Operand} (m : Mnemonic) (v : Value)
    (hx : x.carried = some o) :
    readArguments m (x.argumentList m v) = (takesOperand m >>= fun _ =>
      .ok ⟨some o, (x.addressing m v).1, (x.addressing m v).2⟩) := by
  unfold takesOperand
  have hsort : ∀ (z : Bool) (index : Option Index), readArguments m ([Argument.operand o] ++
      (match index with | none => [] | some i => [Argument.operand (.name i.text)]) ++
      (if z then [Argument.flags { zeroPage := true }] else [])) =
      if m.isImpliedOnly then .error (.arity (.takesNoOperand m))
      else .ok ⟨some o, index, { zeroPage := z }⟩ := by
    intro z index
    rcases index with _ | (_ | _) <;> cases z <;>
      (show (if (true && m.isImpliedOnly) = true then _ else _) = _; rfl)
  cases x with
  | accumulator => exact nomatch hx
  | direct o' index =>
      obtain rfl := Option.some.inj hx
      refine (hsort (inZeroPage m index v) index).trans ?_
      cases m.isImpliedOnly <;> rfl
  | immediate o' | indirect o' | indexedIndirect o' | indirectIndexed o' =>
      obtain rfl := Option.some.inj hx
      show (if (true && m.isImpliedOnly) = true then _ else _) = _
      cases m.isImpliedOnly <;> rfl

/-- The encoding step on arguments: they are checked, the operand is evaluated, the result is encoded. -/
theorem exec_encoding_argumentList {x : OperandSyntax} {o : Operand} (m : Mnemonic) (v₀ : Value)
    (hx : x.carried = some o) (s : Session) :
    (∃ e, (do takesOperand m; let v ← s.value o; s.encodeOperand m o v (x.addressing m v₀)) = .ok e ∧
      (Assembly.encoding m (x.argumentList m v₀)).exec s = (.ok e, (s.used o).pinned m o e)) ∨
    ∃ fault t,
      (do takesOperand m; let v ← s.value o; s.encodeOperand m o v (x.addressing m v₀)) = .error fault ∧
        (Assembly.encoding m (x.argumentList m v₀)).exec s = (.error fault, t) := by
  have hargs := readArguments_argumentList m v₀ hx
  cases htakes : takesOperand m with
  | error fault =>
      rw [htakes] at hargs
      exact Or.inr ⟨fault, s, rfl, Assembly.exec_encoding_of_refused hargs s⟩
  | ok _ =>
      rw [htakes] at hargs
      cases hv : s.value o with
      | error fault =>
          obtain ⟨t, hrun⟩ := Assembly.exec_encoding_of_value_error hargs hv
          exact Or.inr ⟨fault, t, rfl, hrun⟩
      | ok v =>
          obtain ⟨hok, herror⟩ := Assembly.exec_encoding_some hargs hv
          cases he : s.encodeOperand m o v (x.addressing m v₀) with
          | ok e => exact Or.inl ⟨e, he, hok e he⟩
          | error fault =>
              obtain ⟨t, hrun⟩ := herror fault he
              exact Or.inr ⟨fault, t, he, hrun⟩

/-- The encoding step answers what an instruction is encoded as, and if it succeeds it leaves notes and at
    most one pin. -/
def Answers (m : Mnemonic) (operand : Option OperandSyntax) (s : Session) : Prop :=
  (∃ e, s.encode m operand = .ok e ∧ (encoding m operand).exec s = (.ok e, s.encoded m e operand)) ∨
    ∃ fault t, s.encode m operand = .error fault ∧ (encoding m operand).exec s = (.error fault, t)

/-- Without an operand nothing is read. -/
theorem answers_bare {m : Mnemonic} {operand : Option OperandSyntax} {s : Session}
    (hargs : (instructionArguments m operand).exec s = (.ok [], s))
    (hencode : s.encode m operand = encodeIn m .implied ⟨0, false⟩)
    (hleft : ∀ e, s.encoded m e operand = s) : Answers m operand s := by
  have himplied : (Assembly.encoding m []).exec s = (encodeIn m .implied ⟨0, false⟩, s) := by
    rw [Assembly.exec_encoding_of_arguments rfl, Assembly.exec_onSymbols (Scope.exec_assemble_none ..)]
  have hrun : (encoding m operand).exec s = (encodeIn m .implied ⟨0, false⟩, s) :=
    (Action.exec_bind_of_ok hargs).trans himplied
  cases he : encodeIn m .implied ⟨0, false⟩ with
  | ok e => exact Or.inl ⟨e, hencode.trans he, by rw [hrun, he, hleft]⟩
  | error fault => exact Or.inr ⟨fault, s, hencode.trans he, by rw [hrun, he]⟩

/-- An operand is read from a session that its arguments were made in, perhaps with notes. -/
theorem answers_operand {m : Mnemonic} {x : OperandSyntax} {o : Operand} {s s' : Session} {v : Value}
    (hx : x.carried = some o)
    (hargs : (instructionArguments m (some x)).exec s = (.ok (x.argumentList m v), s'))
    (hencode : s.encode m (some x) = (do
      takesOperand m
      let w ← s'.value o
      s'.encodeOperand m o w (x.addressing m v)))
    (hleft : ∀ e, s.encoded m e (some x) = (s'.used o).pinned m o e) : Answers m (some x) s := by
  rcases exec_encoding_argumentList m v hx s' with ⟨e, he, hrun⟩ | ⟨fault, t, hf, hrun⟩
  · refine Or.inl ⟨e, hencode.trans he, ?_⟩
    rw [hleft]
    exact (Action.exec_bind_of_ok hargs).trans hrun
  · exact Or.inr ⟨fault, t, hencode.trans hf, (Action.exec_bind_of_ok hargs).trans hrun⟩

/-- The value of a direct operand is asked for once more, before its arguments are made. -/
theorem answers_direct (m : Mnemonic) (o : Operand) (index : Option Index) (s : Session) :
    Answers m (some (.direct o index)) s := by
  cases hv : s.value o with
  | error fault =>
      obtain ⟨references, hrun⟩ := Assembly.exec_evaluate_of_error hv
      refine Or.inr ⟨fault, _, ?_, Action.exec_bind_of_error (Action.exec_bind_of_error hrun)⟩
      simp [Session.encode, OperandSyntax.carried, hv]
  | ok v =>
      have hargs : (instructionArguments m (some (.direct o index))).exec s =
          (.ok ((OperandSyntax.direct o index).argumentList m v), s.used o) :=
        Action.exec_bind_of_ok (Assembly.exec_evaluate_of_ok hv)
      refine answers_operand rfl hargs ?_ (fun _ => rfl)
      simp [Session.encode, OperandSyntax.carried, hv]

theorem exec_encoding (m : Mnemonic) (operand : Option OperandSyntax) (s : Session) :
    Answers m operand s := by
  cases operand with
  | none => exact answers_bare rfl rfl (fun _ => rfl)
  | some x =>
      cases x with
      | accumulator => exact answers_bare rfl rfl (fun _ => rfl)
      | direct o index => exact answers_direct m o index s
      | immediate o | indirect o | indexedIndirect o | indirectIndexed o =>
          exact answers_operand (v := ⟨0, false⟩) rfl rfl rfl (fun _ => rfl)

theorem exec_encoding_of_ok {m : Mnemonic} {operand : Option OperandSyntax} {s : Session} {e : Encoded}
    (h : s.encode m operand = .ok e) : (encoding m operand).exec s = (.ok e, s.encoded m e operand) := by
  rcases exec_encoding m operand s with ⟨e', he', hrun⟩ | ⟨fault, t, hf, -⟩
  · rw [h] at he'
    rw [Except.ok.inj he']
    exact hrun
  · rw [h] at hf
    exact nomatch hf

theorem exec_encoding_of_error {m : Mnemonic} {operand : Option OperandSyntax} {s : Session}
    {fault : Fault} (h : s.encode m operand = .error fault) :
    ∃ t, (encoding m operand).exec s = (.error fault, t) := by
  rcases exec_encoding m operand s with ⟨e, he, -⟩ | ⟨fault', t, hf, hrun⟩
  · rw [h] at he
    exact nomatch he
  · rw [h] at hf
    rw [Except.error.inj hf]
    exact ⟨t, hrun⟩

end Source

end Asm6502
