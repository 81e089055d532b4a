import Asm6502.Proofs.SyntaxFaults
import Asm6502.Proofs.TwoPasses

/-!
# How an assembly fails

An assembly fails in one of five ways: its text has no tokens, its tokens are no statements, no session can
be made as its options ask, a statement fails in one of the passes, or the passes disagree. Which way it was
can be told from the fault, and so can the place: a faulty text has the position of a character or of its
end, a statement its own.

* `Action.Raises`: the class of the faults that an action can have.
* `Source.raises_body`, `raises_create`: the faults of statements, and those of options.
* `Source.runAll_eq_error_iff`: statements fail as the first that fails.
* `Source.Failure`: the ways to fail.
* `Source.assemble_fails_iff`: an assembly fails in these ways, and in no other.
-/

namespace Asm6502

-- ── Classes of faults ───────────────────────────────────────────────────────

/-- Every failure of a check is in a class. -/
def Check.Raises {α : Type} (P : Fault → Prop) (check : Except Fault α) : Prop :=
  ∀ fault, check = .error fault → P fault

/-- Every failure of an action is in a class. -/
def Action.Raises {σ α : Type} (P : Fault → Prop) (action : Action σ α) : Prop :=
  ∀ s fault, (action.exec s).1 = .error fault → P fault

namespace Check.Raises

variable {α β : Type} {P : Fault → Prop}

theorem ok (a : α) : Raises P (.ok a) := by
  intro fault h
  cases h

theorem error {fault : Fault} (h : P fault) : Raises P (.error fault : Except Fault α) := by
  intro fault' h'
  rw [← Except.error.inj h']
  exact h

theorem bind {check : Except Fault α} {next : α → Except Fault β} (h : Raises P check)
    (hnext : ∀ a, Raises P (next a)) : Raises P (check >>= next) := by
  intro fault hfault
  rcases bind_eq_error hfault with hcheck | ⟨a, -, hnextFault⟩
  · exact h fault hcheck
  · exact hnext a fault hnextFault

theorem mono {Q : Fault → Prop} {check : Except Fault α} (h : Raises P check)
    (hPQ : ∀ fault, P fault → Q fault) : Raises Q check :=
  fun fault hfault => hPQ fault (h fault hfault)

end Check.Raises

namespace Action.Raises

variable {σ τ α β : Type} {P : Fault → Prop}

theorem of_check {action : Action σ α} {check : σ → Except Fault α}
    (hexec : ∀ s, (action.exec s).1 = check s) (h : ∀ s, Check.Raises P (check s)) : Raises P action := by
  intro s fault hfault
  rw [hexec] at hfault
  exact h s fault hfault

/-- An action that never fails. -/
theorem quiet {action : Action σ α} {answer : σ → α} (hexec : ∀ s, (action.exec s).1 = .ok (answer s)) :
    Raises P action :=
  of_check hexec (fun s => .ok (answer s))

theorem pure (a : α) : Raises P (Pure.pure a : Action σ α) := quiet (fun _ => rfl)

theorem throw {fault : Fault} (h : P fault) : Raises P (MonadExcept.throw fault : Action σ α) :=
  of_check (fun _ => rfl) (fun _ => .error h)

theorem check {c : Except Fault α} (h : Check.Raises P c) : Raises P (liftM c : Action σ α) :=
  of_check (fun _ => rfl) (fun _ => h)

theorem mono {Q : Fault → Prop} {action : Action σ α} (h : Raises P action)
    (hPQ : ∀ fault, P fault → Q fault) : Raises Q action :=
  fun s fault hfault => hPQ fault (h s fault hfault)

theorem bind {first : Action σ α} {next : α → Action σ β} (hfirst : Raises P first)
    (hnext : ∀ a, Raises P (next a)) : Raises P (first >>= next) := by
  intro s fault hfault
  rcases bind_eq_error_iff.1 hfault with hfault | ⟨a, s', -, hfault⟩
  · exact hfirst s fault hfault
  · exact hnext a s' fault hfault

/-- An action that reads the state first. -/
theorem withState {next : σ → Action σ β} (hnext : ∀ s, Raises P (next s)) :
    Raises P (MonadState.get >>= next) :=
  bind (quiet (fun _ => rfl)) hnext

theorem each {step : α → Action σ Unit} (hstep : ∀ a, Raises P (step a)) (list : List α) :
    Raises P (Action.each step list) := by
  induction list with
  | nil => exact pure ()
  | cons a rest ih => exact bind (hstep a) (fun _ => ih)

theorem times {step : Nat → Action σ Unit} (hstep : ∀ i, Raises P (step i)) (rounds index : Nat) :
    Raises P (Action.times step rounds index) := by
  induction rounds generalizing index with
  | zero => exact pure ()
  | succ rounds ih => exact bind (hstep index) (fun _ => ih (index + 1))

theorem onPart {get : σ → τ} {put : τ → σ → σ} {action : Action τ α} (h : Raises P action) :
    Raises P (action.onPart get put) :=
  fun s fault hfault => h (get s) fault hfault

end Action.Raises

-- ── Faults of statements ────────────────────────────────────────────────────

/-- The faults that a statement can have: of operands, labels, instructions, cells and arguments. -/
def Fault.OfStatement : Fault → Prop
  | .unknownInstruction _ _ => True
  | .indexedBranch _ => True
  | .wideIndirect _ _ _ => True
  | .duplicateLabel _ => True
  | .undefinedLabel _ => True
  | .ownershipConflict _ _ _ => True
  | .branchOutOfRange _ _ _ _ => True
  | .arity _ => True
  | .byteRange _ => True
  | .addressRange _ => True
  | .valueRange _ => True
  | .notYetDefined _ => True
  | .textArgument _ => True
  | .originArguments => True
  | .fillArguments => True
  | _ => False

/-- The faults of statements that name no label. -/
def Fault.Plain : Fault → Prop
  | .unknownInstruction _ _ => True
  | .indexedBranch _ => True
  | .wideIndirect _ _ _ => True
  | .ownershipConflict _ _ _ => True
  | .branchOutOfRange _ _ _ _ => True
  | .arity _ => True
  | .byteRange _ => True
  | .addressRange _ => True
  | .valueRange _ => True
  | _ => False

/-- The faults of statements that name neither a label nor a displacement. -/
def Fault.Unaimed : Fault → Prop
  | .branchOutOfRange _ _ _ _ => False
  | fault => fault.Plain

theorem Fault.Unaimed.plain (fault : Fault) (h : fault.Unaimed) : fault.Plain := by
  cases fault <;> first | exact trivial | exact h

theorem Fault.Plain.ofStatement (fault : Fault) (h : fault.Plain) : fault.OfStatement := by
  cases fault <;> first | exact trivial | exact h

theorem Fault.Unaimed.ofStatement (fault : Fault) (h : fault.Unaimed) : fault.OfStatement :=
  Fault.Plain.ofStatement fault (h.plain fault)

theorem Fault.OfStatement.isLocated {fault : Fault} (h : fault.OfStatement) : fault.isLocated = false := by
  cases fault with
  | located p cause => cases h
  | _ => rfl

section Checks

open Check (Raises)

theorem raises_checkAddress (x : Number) : Raises Fault.Unaimed (checkAddress x) := by
  unfold checkAddress
  split
  · exact .ok _
  · exact .error trivial

theorem raises_word (v : Value) : Raises Fault.Unaimed v.word := by
  unfold Value.word checkWord
  split
  · exact .ok _
  · split
    · exact .ok _
    · exact .error trivial

theorem raises_checkWrite (address value : Number) (owner : String) :
    Raises Fault.Unaimed (Image.checkWrite address value owner) := by
  refine .bind (raises_checkAddress address) (fun a => .bind ?_ (fun b => .ok _))
  unfold Image.checkByte
  split
  · exact .ok _
  · exact .error trivial

theorem raises_store (m : Image) (w : Write) : Raises Fault.Unaimed (m.store w) := by
  unfold Image.store
  split
  · split
    · exact .ok _
    · exact .error trivial
  · exact .ok _

theorem raises_lookup (m : Mnemonic) (mode : Mode) : Raises Fault.Unaimed (lookup m mode) := by
  unfold lookup
  split
  · exact .ok _
  · exact .error trivial

theorem raises_selectMode (m : Mnemonic) (value : Number) (index : Option Index) (flags : Flags) :
    Raises Fault.Unaimed (selectMode m value index flags) := by
  unfold selectMode
  split
  · split
    · exact .ok _
    · split
      · exact .ok _
      · split <;> exact .ok _
  · split
    · split
      · exact .ok _
      · exact .error trivial
    · split <;> exact .ok _

theorem raises_branchOffset (m : Mnemonic) (cursor target : Number) (check : Bool) :
    Raises Fault.Plain (branchOffset m cursor target check) := by
  unfold branchOffset
  dsimp only
  split
  · exact .error trivial
  · split <;> exact .ok _

theorem raises_encode (d : Descriptor) (v : Value) : Raises Fault.Unaimed (encode d v) := by
  unfold encode
  split
  · exact .ok _
  · exact .ok _
  · exact .bind (raises_word v) (fun _ => .ok _)

/-- An operand has the faults of names, and those of numbers that are no words. -/
theorem raises_valueIn {P : Fault → Prop} (hP : ∀ fault, fault.Unaimed → P fault)
    {read : String → Except Fault Value} {cursor : Number} (hread : ∀ name, Raises P (read name))
    (o : Operand) : Raises P (o.valueIn read cursor) := by
  induction o with
  | number v => exact .ok _
  | name n => exact hread n
  | label n => exact hread n
  | here => exact .ok _
  | add l r ihl ihr => exact .bind ihl (fun _ => .bind ihr (fun _ => .ok _))
  | sub l r ihl ihr => exact .bind ihl (fun _ => .bind ihr (fun _ => .ok _))
  | low o ih => exact .bind ih (fun v => .bind ((raises_word v).mono hP) (fun _ => .ok _))
  | high o ih => exact .bind ih (fun v => .bind ((raises_word v).mono hP) (fun _ => .ok _))

theorem raises_encodeIn (m : Mnemonic) (mode : Mode) (v : Value) :
    Raises Fault.Unaimed (encodeIn m mode v) :=
  .bind (raises_lookup m mode) (fun d => .bind (raises_encode d v) (fun _ => .ok _))

/-- An encoding has the faults of its displacement, if it has one, and such as aim at nothing. -/
theorem raises_encodeWith {P : Fault → Prop} (hP : ∀ fault, fault.Unaimed → P fault) {pass : Pass}
    {cursor : Number} {m : Mnemonic} {v : Value}
    (hoffset : Raises P (branchOffset m cursor v.amount (pass.isFinal && !v.pending)))
    (pinned : Option Mode) (o : Operand) (index : Option Index) (flags : Flags) :
    Raises P (encodeWith pass cursor pinned m o v index flags) := by
  unfold encodeWith
  split
  · unfold encodeBranch
    split
    · exact .error (hP _ trivial)
    · exact .bind ((raises_lookup m .relative).mono hP) (fun d => .bind hoffset (fun _ => .ok _))
  · refine (Raises.bind ?_ (fun mode => raises_encodeIn m mode v)).mono hP
    unfold chooseMode
    split
    · exact .ok _
    · exact raises_selectMode m _ index flags

theorem raises_takesOperand (m : Mnemonic) : Raises Fault.Unaimed (Source.takesOperand m) := by
  unfold Source.takesOperand
  split
  · exact .error trivial
  · exact .ok _

namespace Session

theorem raises_value (s : Session) (o : Operand) : Raises Fault.OfStatement (s.value o) := by
  refine raises_valueIn Fault.Unaimed.ofStatement (fun name => ?_) o
  unfold Symbols.lookup
  split
  · exact .ok _
  · exact .error trivial
  · exact .ok _

theorem raises_encodeOperand (s : Session) (m : Mnemonic) (o : Operand) (v : Value)
    (addressing : Option Index × Flags) : Raises Fault.Plain (s.encodeOperand m o v addressing) :=
  raises_encodeWith Fault.Unaimed.plain (raises_branchOffset m _ _ _) _ o _ _

theorem raises_encode (s : Session) (m : Mnemonic) (operand : Option Source.OperandSyntax) :
    Raises Fault.OfStatement (s.encode m operand) := by
  have hbare : Raises Fault.OfStatement (encodeIn m .implied ⟨0, false⟩) :=
    (raises_encodeIn m .implied _).mono Fault.Unaimed.ofStatement
  have hcarried : ∀ (x : Source.OperandSyntax) (o : Operand), Raises Fault.OfStatement (do
      Source.takesOperand m
      let v ← s.value o
      s.encodeOperand m o v (x.addressing m v)) := fun _ o =>
    .bind ((raises_takesOperand m).mono Fault.Unaimed.ofStatement) (fun _ => .bind (s.raises_value o)
      (fun v => (s.raises_encodeOperand m o v _).mono Fault.Plain.ofStatement))
  rcases operand with _ | (_ | o | ⟨o, index⟩ | o | o | o)
  case none => exact hbare
  case some.accumulator => exact hbare
  case some.direct => exact .bind (s.raises_value o) (fun _ => hcarried (.direct o index) o)
  case some.immediate => exact hcarried (.immediate o) (.low o)
  case some.indirect => exact hcarried (.indirect o) o
  case some.indexedIndirect => exact hcarried (.indexedIndirect o) o
  case some.indirectIndexed => exact hcarried (.indirectIndexed o) o

end Session

end Checks

section Actions

open Asm6502.Action (Raises)

namespace Assembly

theorem raises_label (name : String) (address : Option Number) :
    Raises Fault.OfStatement (label name address) := by
  refine .withState (fun s => .onPart ?_)
  refine .bind (.check ((raises_checkAddress _).mono Fault.Unaimed.ofStatement))
    (fun a => .withState (fun symbols => ?_))
  split
  · exact .bind (.throw trivial) (fun _ => .pure a)
  · exact .bind (.quiet (fun _ => rfl)) (fun _ => .pure a)
  · exact .bind (.quiet (fun _ => rfl)) (fun _ => .pure a)

theorem raises_evaluate (o : Operand) : Raises Fault.OfStatement (evaluate o) := by
  refine .of_check (fun s => ?_) (fun s => s.raises_value o)
  obtain ⟨references, hrun⟩ := exec_evaluate o s
  rw [hrun]

theorem raises_emitByte (v : Number) : Raises Fault.Unaimed (emitByte v) := by
  refine .bind (.quiet (fun _ => rfl)) (fun place => .bind ?_ (fun _ => .quiet (fun _ => rfl)))
  refine .withState (fun s => .bind (.check ?_) (fun w => .bind (.check ?_) (fun _ => .quiet (fun _ => rfl))))
  · exact raises_checkWrite place v s.owner
  · exact raises_store s.memory w

theorem raises_byte (operands : List Operand) : Raises Fault.OfStatement (byte operands) := by
  refine .bind (.each (fun o => .bind (raises_evaluate o) (fun _ => ?_)) operands) (fun _ => .pure _)
  exact (raises_emitByte _).mono Fault.Unaimed.ofStatement

end Assembly

namespace Source

theorem raises_known (o : Operand) (subject : Subject) : Raises Fault.OfStatement (known o subject) := by
  refine .bind (Assembly.raises_evaluate o) (fun v => ?_)
  split
  · exact .bind (.throw trivial) (fun _ => .pure _)
  · exact .pure _

theorem raises_emitArguments (code : String → List Number) (args : List DirectiveArgument) :
    Raises Fault.OfStatement (emitArguments code args) := by
  refine .each (fun arg => ?_) args
  cases arg <;> exact .bind (Assembly.raises_byte _) (fun _ => .pure _)

theorem raises_argumentValues (d : Directive) (args : List DirectiveArgument) :
    Check.Raises Fault.OfStatement (argumentValues d args) := by
  induction args with
  | nil => exact .ok _
  | cons arg rest ih =>
      cases arg with
      | text content => exact .error trivial
      | value v => exact .bind ih (fun _ => .ok _)

theorem raises_directive (d : Directive) (args : List DirectiveArgument) :
    Raises Fault.OfStatement (runDirective d args) := by
  have hvalues : Raises Fault.OfStatement (liftM (argumentValues d args) : Assembly _) :=
    .check (raises_argumentValues d args)
  cases d with
  | byte => exact raises_emitArguments _ args
  | text => exact raises_emitArguments _ args
  | word =>
      refine .bind hvalues (fun values => .bind ?_ (fun _ => .pure _))
      refine .bind (.each (fun o => ?_) values) (fun _ => .pure _)
      exact .bind (Assembly.raises_byte _) (fun _ => .pure _)
  | org =>
      refine .bind hvalues (fun values => .bind (.check ?_) (fun address => ?_))
      · unfold originArgument
        split
        · exact .ok _
        · exact .error trivial
      · exact .bind (raises_known address .origin) (fun _ => .quiet (fun _ => rfl))
  | fill =>
      refine .bind hvalues (fun values => .bind (.check ?_) (fun pair => ?_))
      · unfold fillArguments
        split
        · exact .ok _
        · exact .ok _
        · exact .error trivial
      · refine .bind (raises_known pair.1 .fillCount) (fun length => .times (fun _ => ?_) _ _)
        exact .bind (Assembly.raises_byte _) (fun _ => .pure _)

/-- The outcome of encoding is that of a check. -/
theorem raises_encoding (m : Mnemonic) (operand : Option OperandSyntax) :
    Raises Fault.OfStatement (encoding m operand) := by
  refine .of_check (fun s => ?_) (fun s => s.raises_encode m operand)
  rcases exec_encoding m operand s with ⟨e, he, hrun⟩ | ⟨fault, t, hf, hrun⟩
  · rw [hrun, he]
  · rw [hrun, hf]

/-- A statement fails with a fault of statements. -/
theorem raises_body (b : Statement.Body) : Raises Fault.OfStatement b.run := by
  cases b with
  | label name => exact .bind (Assembly.raises_label name none) (fun _ => .pure _)
  | assignment name o =>
      refine .bind (raises_known o _) (fun address => ?_)
      exact .bind (Assembly.raises_label name (some address)) (fun _ => .pure _)
  | instruction m operand =>
      rw [run_instruction]
      refine .bind (raises_encoding m operand) (fun e => ?_)
      refine .bind (.each (fun v => ?_) e.bytes) (fun _ => .quiet (fun _ => rfl))
      exact (Assembly.raises_emitByte v).mono Fault.Unaimed.ofStatement
  | directive d args => exact raises_directive d args

end Source

end Actions

-- ── Faults of options ───────────────────────────────────────────────────────

/-- The faults that options can have. -/
def Fault.OfOptions : Fault → Prop
  | .addressRange _ => True
  | .config _ => True
  | _ => False

theorem raises_create (options : Options) :
    Check.Raises Fault.OfOptions (Session.create options) := by
  refine .bind ?_ (fun cursor => .bind ?_ (fun memory => .bind ?_ (fun symbols => .ok _)))
  · unfold Options.firstCursor
    split
    · exact .ok _
    · refine .bind ?_ (fun start => .ok _)
      unfold checkAddress
      split
      · exact .ok _
      · exact .error trivial
  · have hbound : ∀ (problem : Number → ConfigProblem) (bound : Option Number),
        Check.Raises Fault.OfOptions (Image.checkBound problem bound) := by
      intro problem bound
      unfold Image.checkBound
      split
      · exact .ok _
      · split
        · exact .ok _
        · exact .error trivial
    unfold Options.firstImage
    split
    · exact .ok _
    · exact .bind (hbound _ _) (fun start => .bind (hbound _ _) (fun finish => .ok _))
  · unfold Symbols.create
    dsimp only
    split
    · split
      · exact .error trivial
      · exact .ok _
    · exact .error trivial

-- ── The first statement that fails ──────────────────────────────────────────

namespace Source

/-- When statements run from a session, the first that fails stands at a position and has a fault. -/
inductive FirstFailure : List Statement → Session → Position → Fault → Prop where
  | here {st : Statement} {rest : List Statement} {s : Session} {cause : Fault}
      (hbody : (st.body.run.exec s).1 = .error cause) : FirstFailure (st :: rest) s st.position cause
  | later {st : Statement} {rest : List Statement} {s s' : Session} {p : Position} {cause : Fault}
      (hst : st.run.exec s = (.ok (), s')) (hrest : FirstFailure rest s' p cause) :
      FirstFailure (st :: rest) s p cause

/-- A statement fails with the fault of its body, at its position. -/
theorem run_eq_error_iff {st : Statement} {s : Session} {fault : Fault} :
    (st.run.exec s).1 = .error fault ↔
      ∃ cause, fault = .located st.position cause ∧ cause.OfStatement ∧
        (st.body.run.exec s).1 = .error cause := by
  rw [exec_run]
  cases hbody : (st.body.run.exec s).1 with
  | ok _ =>
      constructor
      · intro h
        cases h
      · rintro ⟨cause, -, -, h⟩
        cases h
  | error cause =>
      have hclass := raises_body st.body s cause hbody
      have hat : atStatement st.position cause = .located st.position cause := by
        rw [atStatement, hclass.isLocated]
        rfl
      constructor
      · intro h
        refine ⟨cause, ?_, hclass, rfl⟩
        rw [← Except.error.inj h, hat]
      · rintro ⟨cause', rfl, -, h⟩
        rw [← Except.error.inj h, ← hat]
        rfl

/-- Statements fail with the fault of the first that fails, at its position. -/
theorem runAll_eq_error_iff {statements : List Statement} {s : Session} {fault : Fault} :
    ((runAll statements).exec s).1 = .error fault ↔
      ∃ p cause, fault = .located p cause ∧ cause.OfStatement ∧ FirstFailure statements s p cause := by
  induction statements generalizing s with
  | nil =>
      constructor
      · intro h
        cases h
      · rintro ⟨p, cause, -, -, h⟩
        cases h
  | cons st rest ih =>
      show ((st.run >>= fun _ => runAll rest).exec s).1 = _ ↔ _
      rw [Action.bind_eq_error_iff, run_eq_error_iff]
      simp only [ih]
      constructor
      · rintro (⟨cause, hfault, hclass, hbody⟩ | ⟨_, s', hst, p, cause, hfault, hclass, hrest⟩)
        · exact ⟨st.position, cause, hfault, hclass, .here hbody⟩
        · exact ⟨p, cause, hfault, hclass, .later hst hrest⟩
      · rintro ⟨p, cause, hfault, hclass, hbody | ⟨hst, hrest⟩⟩
        · exact Or.inl ⟨cause, hfault, hclass, hbody⟩
        · exact Or.inr ⟨(), _, hst, p, cause, hfault, hclass, hrest⟩

-- ── Failures of an assembly ─────────────────────────────────────────────────

/-- The sessions in which the passes over statements begin: the one that the options ask for, and the one
    that a complete discovery leaves. -/
inductive Begins (options : Options) (statements : List Statement) : Pass → Session → Prop where
  | discovery {s : Session} (hcreate : Session.create options.withStart = .ok s) :
      Begins options statements .discovery s
  | final {s last : Session} (hcreate : Session.create options.withStart = .ok s)
      (hdiscovery : (runAll statements).exec s = (.ok (), last)) :
      Begins options statements .final last.turned

/-- The ways in which an assembly fails. -/
inductive Failure (source : String) (options : Options) : Fault → Prop where
  /-- The text has no tokens; the options do not matter. -/
  | lexical {problem : LexicalProblem} {p : Position}
      (hscan : tokenize source = .error (.lexical problem p)) (hplace : IsPlace source p)
      (hearly : ∀ options', assemble source options' = (.error (.lexical problem p), {})) :
      Failure source options (.lexical problem p)
  /-- The tokens are no statements, from the token or the end of the text at the position on; the options
      do not matter. -/
  | grammar {stream : TokenStream} {problem : GrammarProblem} {p : Position}
      (hscan : tokenize source = .ok stream) (hparse : parse source = .error (.grammar problem p))
      (hbounds : stream.Bounds p) (hplace : IsPlace source p)
      (hearly : ∀ options', assemble source options' = (.error (.grammar problem p), {})) :
      Failure source options (.grammar problem p)
  /-- No session can be made; the program does not matter. -/
  | options {statements : List Statement} {fault : Fault} (hparse : parse source = .ok statements)
      (hcreate : Session.create options.withStart = .error fault) (hclass : fault.OfOptions)
      (hearly : ∀ program, compile program options = (.error fault, {})) : Failure source options fault
  /-- A statement fails in one of the passes. -/
  | statement {statements : List Statement} {pass : Pass} {s : Session} {p : Position} {cause : Fault}
      (hparse : parse source = .ok statements) (hbegins : Begins options statements pass s)
      (hclass : cause.OfStatement) (hfirst : FirstFailure statements s p cause) :
      Failure source options (.located p cause)
  /-- Both passes are complete, and differ. -/
  | mismatch {statements : List Statement} {s last f : Session} {differences : List PassDifference}
      (hparse : parse source = .ok statements) (hcreate : Session.create options.withStart = .ok s)
      (hdiscovery : (runAll statements).exec s = (.ok (), last))
      (hfinal : (runAll statements).exec last.turned = (.ok (), f))
      (hdiff : passDifferences last.statistics f.statistics f.symbols.drifts = differences)
      (hne : differences ≠ []) : Failure source options (.passMismatch differences)

theorem assemble_of_parse_error {source : String} {fault : Fault} (h : parse source = .error fault)
    (options : Options) : assemble source options = (.error fault, {}) := by
  rw [assemble, h]

theorem assemble_of_parse_ok {source : String} {statements : List Statement}
    (h : parse source = .ok statements) (options : Options) :
    assemble source options = compile (runAll statements) options := by
  rw [assemble, h]

/-- A faulty text makes every assembly of it fail. -/
theorem failure_of_parse_error {source : String} {fault : Fault} (h : parse source = .error fault)
    (options : Options) : Failure source options fault := by
  have hearly := assemble_of_parse_error h
  rcases exists_of_parse_error h with ⟨problem, p, rfl, hscan, hplace⟩ |
    ⟨stream, problem, p, rfl, hscan, hbounds, hplace⟩
  · exact .lexical hscan hplace hearly
  · exact .grammar hscan h hbounds hplace hearly

theorem compile_of_create_error {options : Options} {fault : Fault}
    (h : Session.create options.withStart = .error fault) (program : Assembly Unit) :
    compile program options = (.error fault, {}) := by
  rw [compile, h]

theorem pass_of_discovery {options : Options} {statements : List Statement} {s last : Session}
    (hcreate : Session.create options.withStart = .ok s)
    (h : (runAll statements).exec s = (.ok (), last)) : last.pass = .discovery :=
  ((leads_runAll statements).of_exec h).pass.trans (Session.isNew_of_create hcreate).pass

/-- With a session to begin in, a statement fails or the passes differ. -/
theorem failure_of_bothPasses {source : String} {options : Options} {statements : List Statement}
    {s : Session} {fault : Fault} (hparse : parse source = .ok statements)
    (hcreate : Session.create options.withStart = .ok s)
    (h : ((Assembly.bothPasses (runAll statements)).exec s).1 = .error fault) :
    Failure source options fault := by
  have hstatement : ∀ {pass : Pass} {start t : Session} {fault' : Fault},
      Begins options statements pass start → (runAll statements).exec start = (.error fault', t) →
      Failure source options fault' := by
    intro pass start t fault' hbegins hrun
    obtain ⟨p, cause, rfl, hclass, hfirst⟩ := runAll_eq_error_iff.1 (congrArg Prod.fst hrun)
    exact .statement hparse hbegins hclass hfirst
  cases hd : (runAll statements).exec s with
  | mk outcome last =>
      cases outcome with
      | error fault' =>
          rw [Assembly.bothPasses_of_discovery_error hd] at h
          rw [← Except.error.inj h]
          exact hstatement (.discovery hcreate) hd
      | ok _ =>
          have hpass := pass_of_discovery hcreate hd
          cases hf : (runAll statements).exec last.turned with
          | mk outcome f =>
              cases outcome with
              | error fault' =>
                  rw [Assembly.bothPasses_of_final_error hd hpass hf] at h
                  rw [← Except.error.inj h]
                  exact hstatement (.final hcreate hd) hf
              | ok _ =>
                  rw [Assembly.bothPasses_of_ok hd hpass hf] at h
                  cases hdiff : passDifferences last.statistics f.statistics f.symbols.drifts with
                  | nil =>
                      rw [hdiff] at h
                      cases h
                  | cons difference rest =>
                      rw [hdiff] at h
                      rw [← Except.error.inj h]
                      exact .mismatch hparse hcreate hd hf hdiff (List.cons_ne_nil difference rest)

/-- An assembly fails if a statement does. -/
theorem assemble_of_firstFailure {source : String} {options : Options} {statements : List Statement}
    {pass : Pass} {s : Session} {p : Position} {cause : Fault} (hparse : parse source = .ok statements)
    (hbegins : Begins options statements pass s) (hclass : cause.OfStatement)
    (hfirst : FirstFailure statements s p cause) :
    (assemble source options).1 = .error (.located p cause) := by
  have hrun := runAll_eq_error_iff.2 ⟨p, cause, rfl, hclass, hfirst⟩
  cases hbegins with
  | discovery hcreate =>
      rw [fst_assemble hparse hcreate]
      exact Assembly.bothPasses_of_discovery_error (Prod.ext hrun rfl)
  | final hcreate hdiscovery =>
      rw [fst_assemble hparse hcreate]
      exact Assembly.bothPasses_of_final_error hdiscovery (pass_of_discovery hcreate hdiscovery)
        (Prod.ext hrun rfl)

/-- An assembly fails in these ways, and in no other. -/
theorem assemble_fails_iff (source : String) (options : Options) (fault : Fault) :
    (assemble source options).1 = .error fault ↔ Failure source options fault := by
  constructor
  · intro h
    cases hparse : parse source with
    | error fault' =>
        rw [assemble_of_parse_error hparse] at h
        rw [← Except.error.inj h]
        exact failure_of_parse_error hparse options
    | ok statements =>
        cases hcreate : Session.create options.withStart with
        | error fault' =>
            have hearly := compile_of_create_error hcreate
            rw [assemble_of_parse_ok hparse, hearly] at h
            rw [← Except.error.inj h]
            exact .options hparse hcreate (raises_create _ fault' hcreate) hearly
        | ok s =>
            rw [fst_assemble hparse hcreate] at h
            exact failure_of_bothPasses hparse hcreate h
  · intro h
    cases h with
    | lexical hscan hplace hearly => rw [hearly options]
    | grammar hscan hparse hbounds hplace hearly => rw [hearly options]
    | options hparse hcreate hclass hearly => rw [assemble_of_parse_ok hparse, hearly]
    | statement hparse hbegins hclass hfirst =>
        exact assemble_of_firstFailure hparse hbegins hclass hfirst
    | mismatch hparse hcreate hdiscovery hfinal hdiff hne =>
        have hpass := pass_of_discovery hcreate hdiscovery
        rw [fst_assemble hparse hcreate, Assembly.bothPasses_of_ok hdiscovery hpass hfinal, hdiff]
        split
        · exact absurd rfl hne
        · rfl

end Source

end Asm6502
