import Asm6502.Proofs.Encoding

/-!
# The course of a pass

A pass runs the statements of a source text one after another. `completed` lists the statements that a
run completes, each with the session it meets and the session it leaves. What statements can do to a
session on the way (`Session.Leads`) is proved here for every kind of statement; pins are only set by
instructions, and only where they start.
-/

namespace Asm6502

open Asm6502.Action (Coupled Moves Parting)

-- ── Steps that leave labels alone ───────────────────────────────────────────

/-- Labels and drifts are as before. -/
def Symbols.SameLabels (s t : Symbols) : Prop := t.labels = s.labels ∧ t.drifts = s.drifts

theorem Symbols.SameLabels.refl (s : Symbols) : s.SameLabels s := ⟨rfl, rfl⟩

theorem Symbols.SameLabels.trans (r s t : Symbols) (h : r.SameLabels s) (h' : s.SameLabels t) :
    r.SameLabels t := ⟨h'.1.trans h.1, h'.2.trans h.2⟩

namespace Scope

theorem moves_evaluate (cursor : Number) (pass : Pass) (o : Operand) :
    Moves Symbols.SameLabels ((Scope.atCursor cursor pass).evaluate o) := by
  intro s
  obtain ⟨references, h⟩ := (o.reads_evaluate pass cursor).keeps s
  show s.SameLabels ((o.evaluate (Symbols.resolve pass cursor) cursor).exec s).2
  rw [h]
  exact ⟨rfl, rfl⟩

section Assembling

variable {R : Symbols → Symbols → Prop} {cursor : Number} {pass : Pass}

/-- Choosing a mode leaves the symbol table alone. -/
theorem moves_mode (hrefl : ∀ s, R s s) (m : Mnemonic) (o : Operand) (v : Value) (index : Option Index)
    (flags : Flags) : Moves R ((Scope.atCursor cursor pass).mode m o v index flags) := by
  intro s
  rw [Scope.exec_mode]
  exact hrefl s

/-- With its operand evaluated, an instruction is assembled without a change of the symbol table, unless
    the value is pending and its mode is pinned. -/
theorem assemble_of_value (hrefl : ∀ s, R s s) (htrans : ∀ r s t, R r s → R s t → R r t) {o : Operand}
    {v : Value} {s s' : Symbols} (hv : ((Scope.atCursor cursor pass).evaluate o).exec s = (.ok v, s'))
    (hpin : v.pending = true → ∀ s mode, R s (s.pin cursor mode)) (m : Mnemonic) (index : Option Index)
    (flags : Flags) : R s' (((Scope.atCursor cursor pass).assemble m (some o) index flags).exec s).2 := by
  have hcheck : ∀ {α : Type} (c : Except Fault α), Moves R (liftM c) := fun c => Moves.check hrefl c
  have hpure : ∀ {α : Type} (a : α), Moves R (pure a) := fun a => Moves.pure hrefl a
  unfold assemble
  simp only [Action.exec_bind_of_ok hv]
  by_cases hm : m.isBranch = true
  · rw [if_pos hm]
    have hrest : Moves R (do
        let d ← liftM (lookup m .relative)
        let offset ← liftM (branchOffset m cursor v.amount (pass.isFinal && !v.pending))
        pure (Encoded.mk d [.ofByte d.opcode, .ofByte offset])) :=
      Moves.bind htrans (hcheck _) (fun _ => Moves.bind htrans (hcheck _) (fun _ => hpure _))
    cases index with
    | none => exact hrest s'
    | some i => exact Moves.bind htrans (Moves.throw hrefl _) (fun _ => hrest) s'
  · rw [if_neg hm]
    refine Moves.bind htrans (moves_mode hrefl m o v index flags) (fun mode => ?_) s'
    refine Moves.bind htrans (hcheck _) (fun d => ?_)
    have hrest : Moves R (do
        let bytes ← liftM (encode d v)
        pure (Encoded.mk d bytes)) :=
      Moves.bind htrans (hcheck _) (fun _ => hpure _)
    by_cases hp : v.pending = true
    · rw [if_pos hp]
      exact Moves.bind htrans (fun s => hpin hp s mode) (fun _ => hrest)
    · rw [if_neg hp]
      exact hrest

/-- To assemble an instruction is to evaluate its operand, and perhaps to pin its mode. -/
theorem moves_assemble (hrefl : ∀ s, R s s) (htrans : ∀ r s t, R r s → R s t → R r t)
    (hevaluate : ∀ o, Moves R ((Scope.atCursor cursor pass).evaluate o))
    (hpin : ∀ s mode, R s (s.pin cursor mode)) (m : Mnemonic) (operand : Option Operand)
    (index : Option Index) (flags : Flags) :
    Moves R ((Scope.atCursor cursor pass).assemble m operand index flags) := by
  intro s
  cases operand with
  | none =>
      rw [exec_assemble_none]
      exact hrefl s
  | some o =>
      have hmoved := hevaluate o s
      cases hv : ((Scope.atCursor cursor pass).evaluate o).exec s with
      | mk outcome s' =>
          rw [hv] at hmoved
          cases outcome with
          | error fault =>
              rw [assemble, Action.exec_bind_of_error hv]
              exact hmoved
          | ok v =>
              exact htrans _ _ _ hmoved (assemble_of_value hrefl htrans hv (fun _ => hpin) m index flags)

end Assembling

end Scope

-- ── Where the steps lead ────────────────────────────────────────────────────

namespace Assembly

/-- A step on the symbol table that leaves the labels alone. -/
theorem leads_onSymbols {α : Type} {f : Session → Action Symbols α}
    (h : ∀ s, Moves Symbols.SameLabels (f s)) :
    Moves Session.Leads (do let s ← get; onSymbols (f s)) := by
  intro s
  have hs := h s s.symbols
  rw [Action.exec_bind_of_ok (Action.exec_get s), onSymbols, Action.exec_onPart]
  exact .of_symbols s hs.1 hs.2

theorem leads_evaluate (o : Operand) : Moves Session.Leads (evaluate o) :=
  leads_onSymbols (fun s => Scope.moves_evaluate s.cursor.position s.pass o)

theorem leads_storeByte (address v : Number) : Moves Session.Leads (storeByte address v) := by
  intro s
  rcases exec_storeByte_cases address v s with ⟨w, -, hadmits, hrun⟩ | ⟨fault, hrun⟩
  · rw [hrun]
    exact .stored s hadmits
  · rw [hrun]
    exact .refl s

theorem leads_advance (count : Number) :
    Moves Session.Leads (modify (fun s => { s with cursor := s.cursor.advance count }) : Assembly Unit) :=
  fun s => .of_position s _

theorem leads_emitByte (v : Number) : Moves Session.Leads (emitByte v) :=
  Moves.bind .trans (fun s => .refl s) (fun _ =>
    Moves.bind .trans (leads_storeByte _ v) (fun _ => leads_advance 1))

theorem leads_countInstruction : Moves Session.Leads countInstruction :=
  fun _ => ⟨rfl, rfl, rfl, fun _ _ _ h => h, List.prefix_refl _, fun _ => rfl, List.suffix_refl _,
    fun h => h⟩

theorem leads_org (place : Number) : Moves Session.Leads (org place) :=
  fun s => .of_position s place

/-- A definition keeps the other labels. Its own is new in discovery, and in the final pass it is the
    same or drifts. -/
theorem leads_label (name : String) (address : Option Number) :
    Moves Session.Leads (label name address) := by
  intro s
  unfold label
  rw [Action.exec_bind_of_ok (Action.exec_get s)]
  generalize address.getD s.cursor.position = x
  cases hrun : (Symbols.define s.pass name x).exec s.symbols with
  | mk outcome symbols =>
      rw [exec_onSymbols hrun]
      cases outcome with
      | error fault =>
          rw [Symbols.exec_define_eq_error hrun]
          exact .refl s
      | ok a =>
          obtain ⟨-, hlabels, hdrifts, hold⟩ := Symbols.exec_define_eq_ok hrun
          refine ⟨rfl, rfl, rfl, ?_, ?_, ?_, List.suffix_refl _, fun h => h⟩
          · intro hcase other b hb
            show symbols.labels.find? other = some b
            rw [hlabels, Table.find?_insert]
            split
            · rename_i heq
              rw [heq] at hold
              rw [hold hcase b hb]
            · exact hb
          · exact hdrifts.1
          · exact hdrifts.2

theorem leads_encoding (m : Mnemonic) (args : List Argument) : Moves Session.Leads (encoding m args) :=
  Moves.bind .trans (Moves.check .refl _) (fun _ => leads_onSymbols (fun s =>
    Scope.moves_assemble .refl .trans (Scope.moves_evaluate s.cursor.position s.pass)
      (fun _ _ => ⟨rfl, rfl⟩) m _ _ _))

end Assembly

-- ── From the basic steps to statements ──────────────────────────────────────

/-- A preorder of sessions along which the steps of emitting bytes move. -/
structure FollowedByBytes (R : Session → Session → Prop) : Prop where
  refl : ∀ s, R s s
  trans : ∀ r s t, R r s → R s t → R r t
  evaluate : ∀ o, Moves R (Assembly.evaluate o)
  emitByte : ∀ v, Moves R (Assembly.emitByte v)

/-- A preorder of sessions along which the basic steps of a directive move. -/
structure FollowedByDirectives (R : Session → Session → Prop) : Prop extends FollowedByBytes R where
  org : ∀ place, Moves R (Assembly.org place)

/-- A preorder of sessions along which the basic steps of a statement move. -/
structure Followed (R : Session → Session → Prop) : Prop extends FollowedByDirectives R where
  label : ∀ name address, Moves R (Assembly.label name address)

namespace FollowedByBytes

open Source

variable {R : Session → Session → Prop}

theorem byteOf (h : FollowedByBytes R) (o : Operand) : Moves R (Assembly.byteOf o) :=
  Moves.bind h.trans (h.evaluate o) (fun _ => h.emitByte _)

theorem byte (h : FollowedByBytes R) (operands : List Operand) : Moves R (Assembly.byte operands) :=
  Moves.bind h.trans (Moves.each h.refl h.trans h.byteOf operands) (fun _ => Moves.pure h.refl _)

/-- Bytes whose number is of no interest. -/
theorem byteUnit (h : FollowedByBytes R) (operands : List Operand) :
    Moves R (do let _ ← Assembly.byte operands) :=
  Moves.bind h.trans (h.byte operands) (fun _ => Moves.pure h.refl _)

theorem word (h : FollowedByBytes R) (operands : List Operand) : Moves R (Assembly.word operands) :=
  Moves.bind h.trans (Moves.each h.refl h.trans (fun _ => h.byteUnit _) operands)
    (fun _ => Moves.pure h.refl _)

/-- What is done with a value that has to be known. -/
theorem demand (h : FollowedByBytes R) (v : Value) (subject : Subject) : Moves R (do
    if v.pending then throw (.notYetDefined subject)
    return v.amount : Assembly Number) := by
  by_cases hp : v.pending = true
  · rw [if_pos hp]
    exact Moves.bind h.trans (Moves.throw h.refl _) (fun _ => Moves.pure h.refl _)
  · rw [if_neg hp]
    exact Moves.pure h.refl _

theorem known (h : FollowedByBytes R) (o : Operand) (subject : Subject) : Moves R (Source.known o subject) :=
  Moves.bind h.trans (h.evaluate o) (fun v => h.demand v subject)

theorem emitArguments (h : FollowedByBytes R) (code : String → List Number) (args : List DirectiveArgument) :
    Moves R (Source.emitArguments code args) := by
  refine Moves.each h.refl h.trans (fun arg => ?_) args
  cases arg <;> exact h.byteUnit _

theorem wordUnit (h : FollowedByBytes R) (operands : List Operand) :
    Moves R (do let _ ← Assembly.word operands) :=
  Moves.bind h.trans (h.word operands) (fun _ => Moves.pure h.refl _)

/-- The rounds of a fill. -/
theorem rounds (h : FollowedByBytes R) (data : Operand) (length : Number) :
    Moves R (Action.times (fun _ => do let _ ← Assembly.byte [data]) length.rounds 0) :=
  Moves.times h.refl h.trans (fun _ => h.byteUnit _) _ _

/-- The end of a fill. -/
theorem fillWith (h : FollowedByBytes R) (count data : Operand) :
    Moves R (Source.known count .fillCount >>= fun length =>
      Action.times (fun _ => do let _ ← Assembly.byte [data]) length.rounds 0) :=
  Moves.bind h.trans (h.known count .fillCount) (h.rounds data)

theorem emission (h : FollowedByBytes R) (hcount : Moves R Assembly.countInstruction) (bytes : List Number) :
    Moves R (do Action.each Assembly.emitByte bytes; Assembly.countInstruction) :=
  Moves.bind h.trans (Moves.each h.refl h.trans h.emitByte bytes) (fun _ => hcount)

end FollowedByBytes

namespace FollowedByDirectives

open Source

variable {R : Session → Session → Prop}

/-- The end of an origin. -/
theorem originAt (h : FollowedByDirectives R) (address : Operand) :
    Moves R (Source.known address .origin >>= Assembly.org) :=
  Moves.bind h.trans (h.known address .origin) h.org

theorem directive (h : FollowedByDirectives R) (d : Directive) (args : List DirectiveArgument) :
    Moves R (runDirective d args) := by
  have hcheck : ∀ {α : Type} (c : Except Fault α) {next : α → Assembly Unit},
      (∀ a, Moves R (next a)) → Moves R (liftM c >>= next) :=
    fun c _ hnext => Moves.bind h.trans (Moves.check h.refl c) hnext
  cases d with
  | byte => exact h.emitArguments _ args
  | text => exact h.emitArguments _ args
  | word => exact hcheck _ h.wordUnit
  | org => exact hcheck _ (fun _ => hcheck _ h.originAt)
  | fill => exact hcheck _ (fun _ => hcheck _ (fun pair => h.fillWith pair.1 pair.2))

end FollowedByDirectives

namespace Followed

open Source

variable {R : Session → Session → Prop}

/-- What holds of the basic steps and of instructions holds of every statement. -/
theorem body (h : Followed R) {b : Statement.Body}
    (hinstruction : ∀ m operand, b = .instruction m operand → Moves R b.run) : Moves R b.run := by
  cases b with
  | label name => exact Moves.bind h.trans (h.label name none) (fun _ => Moves.pure h.refl _)
  | assignment name o =>
      refine Moves.bind h.trans (h.known o _) (fun address => ?_)
      exact Moves.bind h.trans (h.label name (some address)) (fun _ => Moves.pure h.refl _)
  | instruction m operand => exact hinstruction m operand rfl
  | directive d args => exact h.directive d args

end Followed

-- ── Where statements lead ───────────────────────────────────────────────────

namespace Source

theorem followed_leads : Followed Session.Leads where
  refl := .refl
  trans := .trans
  evaluate := Assembly.leads_evaluate
  emitByte := Assembly.leads_emitByte
  label := Assembly.leads_label
  org := Assembly.leads_org

theorem leads_encoding (m : Mnemonic) (operand : Option OperandSyntax) :
    Moves Session.Leads (encoding m operand) := by
  refine Moves.bind .trans ?_ (fun _ => Assembly.leads_encoding m _)
  rcases operand with _ | (_ | o | ⟨o, index⟩ | o | o | o)
  case some.direct =>
    exact Moves.bind .trans (Assembly.leads_evaluate o) (fun _ => Moves.pure .refl _)
  all_goals exact Moves.pure .refl _

theorem leads_emission (bytes : List Number) :
    Moves Session.Leads (do Action.each Assembly.emitByte bytes; Assembly.countInstruction) :=
  followed_leads.emission Assembly.leads_countInstruction bytes

theorem leads_body (b : Statement.Body) : Moves Session.Leads b.run := by
  refine followed_leads.body (fun m operand hb => ?_)
  rw [hb, run_instruction]
  exact Moves.bind .trans (leads_encoding m operand) (fun e => leads_emission e.bytes)

/-- A statement does what its body does; only a fault gets the position. -/
theorem exec_run (st : Statement) (s : Session) :
    st.run.exec s = ((st.body.run.exec s).1.mapError (atStatement st.position), (st.body.run.exec s).2) := by
  rw [Statement.run, Action.exec, ExceptT.run_mk, StateT.run]
  cases st.body.run.exec s with
  | mk outcome after => cases outcome <;> rfl

theorem exec_run_eq_ok {st : Statement} {s t : Session} :
    st.run.exec s = (.ok (), t) ↔ st.body.run.exec s = (.ok (), t) := by
  rw [exec_run]
  cases st.body.run.exec s with
  | mk outcome after => cases outcome <;> simp [Except.mapError]

/-- A statement that completes leads along what its basic steps follow, if it does as an instruction. -/
theorem followed_run {R : Session → Session → Prop} (hR : Followed R) {st : Statement} {s t : Session}
    (h : st.run.exec s = (.ok (), t))
    (hinstruction : ∀ m operand, st.body = .instruction m operand → R s t) : R s t := by
  rw [exec_run_eq_ok] at h
  cases hb : st.body with
  | instruction m operand => exact hinstruction m operand hb
  | label name | assignment name o | directive d args =>
      rw [hb] at h
      refine Moves.of_exec (hR.body ?_) h
      intro m operand hno
      exact nomatch hno

/-- An instruction that completes was encoded, and its bytes were emitted. -/
theorem exec_instruction_eq_ok {m : Mnemonic} {operand : Option OperandSyntax} {s t : Session}
    (h : (Statement.Body.run (.instruction m operand)).exec s = (.ok (), t)) :
    ∃ e, s.encode m operand = .ok e ∧
      (do Action.each Assembly.emitByte e.bytes; Assembly.countInstruction : Assembly Unit).exec
        (s.encoded m e operand) = (.ok (), t) := by
  rw [run_instruction] at h
  rcases exec_encoding m operand s with ⟨e, he, hrun⟩ | ⟨fault, t', -, hrun⟩
  · rw [Action.exec_bind_of_ok hrun] at h
    exact ⟨e, he, h⟩
  · rw [Action.exec_bind_of_error hrun] at h
    exact nomatch congrArg Prod.fst h

theorem leads_run (st : Statement) : Moves Session.Leads st.run := by
  intro s
  rw [exec_run]
  exact leads_body st.body s

theorem leads_runAll (statements : List Statement) : Moves Session.Leads (runAll statements) :=
  Moves.each .refl .trans leads_run statements

-- ── Two runs side by side ───────────────────────────────────────────────────

/-- How two programs correspond: which operands and which names of one stand for which of the other. -/
structure Correspondence where
  operand : Operand → Operand → Prop
  name : String → String → Prop

namespace Correspondence

/-- The correspondence of a program with itself. -/
def same : Correspondence := ⟨Eq, Eq⟩

/-- Quantities of one kind correspond, if the names in them do. -/
inductive Subjects (C : Correspondence) : Subject → Subject → Prop where
  | origin : Subjects C .origin .origin
  | fillCount : Subjects C .fillCount .fillCount
  | valueOf {n n' : String} (h : C.name n n') : Subjects C (.valueOf n) (.valueOf n')

/-- Arguments of directives: texts are the same. -/
inductive Arguments (C : Correspondence) : DirectiveArgument → DirectiveArgument → Prop where
  | text (content : String) : Arguments C (.text content) (.text content)
  | value {o o' : Operand} (h : C.operand o o') : Arguments C (.value o) (.value o')

/-- Statements that are no instructions. -/
inductive Bodies (C : Correspondence) : Statement.Body → Statement.Body → Prop where
  | label {n n' : String} (h : C.name n n') : Bodies C (.label n) (.label n')
  | assignment {n n' : String} {o o' : Operand} (hn : C.name n n') (ho : C.operand o o') :
      Bodies C (.assignment n o) (.assignment n' o')
  | directive (d : Directive) {args args' : List DirectiveArgument}
      (h : List.Forall₂ C.Arguments args args') : Bodies C (.directive d args) (.directive d args')

theorem Subjects.eq_of_same {x y : Subject} (h : same.Subjects x y) : x = y := by
  cases h with
  | origin => rfl
  | fillCount => rfl
  | valueOf h => exact congrArg Subject.valueOf h

theorem Arguments.refl_same (arg : DirectiveArgument) : same.Arguments arg arg := by
  cases arg with
  | text content => exact .text content
  | value o => exact .value rfl

end Correspondence

/-- The faults of arguments that do not fit their directive. -/
def Misfit (fault : Fault) : Prop :=
  (∃ d, fault = .textArgument d) ∨ fault = .originArguments ∨ fault = .fillArguments

/-- Two runs side by side, as far as the basic steps of corresponding statements go: they keep the sessions
    in relation `R`, or part as `P` allows. -/
structure Paired (C : Correspondence) (Ahead : Session → Prop) (P : Parting)
    (R : Session → Session → Prop) : Prop where
  back : ∀ s t, s.Leads t → Ahead t → Ahead s
  misfit : ∀ fault, Misfit fault → P.left fault ∨ P.both fault fault
  number : ∀ v, C.operand (.number v) (.number v)
  low : ∀ o o', C.operand o o' → C.operand (.low o) (.low o')
  high : ∀ o o', C.operand o o' → C.operand (.high o) (.high o')
  byteOf : ∀ o o', C.operand o o' →
    Coupled Ahead P R (Assembly.byteOf o) (Assembly.byteOf o') (fun _ _ => R)
  known : ∀ o o' subject subject', C.operand o o' → C.Subjects subject subject' →
    Coupled Ahead P R (Source.known o subject) (Source.known o' subject') (fun a b s t => a = b ∧ R s t)
  label : ∀ n n' address, C.name n n' →
    Coupled Ahead P R (Assembly.label n address) (Assembly.label n' address) (fun _ _ => R)
  org : ∀ place, Coupled Ahead P R (Assembly.org place) (Assembly.org place) (fun _ _ => R)

namespace Paired

variable {C : Correspondence} {Ahead : Session → Prop} {P : Parting} {R : Session → Session → Prop}

/-- What is ahead of a step is ahead of where it started. -/
theorem behind {α : Type} (h : Paired C Ahead P R) {action : Assembly α}
    (hmoves : Moves Session.Leads action) (s : Session) : Ahead (action.exec s).2 → Ahead s :=
  h.back s _ (hmoves s)

theorem agree_misfit {α β : Type} {Q : α → β → Prop} (h : Paired C Ahead P R) {fault : Fault}
    (hfault : Misfit fault) : P.Agree Q (.error fault) (.error fault) := by
  rcases h.misfit fault hfault with hleft | hboth
  · exact Or.inr (Or.inl ⟨fault, rfl, hleft⟩)
  · exact Or.inr (Or.inr (Or.inr ⟨fault, fault, rfl, rfl, hboth⟩))

/-- Checks that agree, and what follows them. -/
theorem check (h : Paired C Ahead P R) {α β γ δ : Type} {Q : α → β → Prop} {c : Except Fault α}
    {c' : Except Fault β} {next : α → Assembly γ} {next' : β → Assembly δ}
    {Post : γ → δ → Session → Session → Prop} (hagree : P.Agree Q c c')
    (hmoves : ∀ a, Moves Session.Leads (next a))
    (hnext : ∀ a b, Q a b → Coupled Ahead P R (next a) (next' b) Post) :
    Coupled Ahead P R (liftM c >>= next) (liftM c' >>= next') Post := by
  have hcheck : Coupled Ahead P R (liftM c) (liftM c') (fun a b s t => Q a b ∧ R s t) :=
    Coupled.check hagree (fun _ _ _ _ hab hst => ⟨hab, hst⟩)
  refine Coupled.bind hcheck (fun a s => h.behind (hmoves a) s) ?_
  rintro a b s t ⟨hab, hst⟩
  exact hnext a b hab s t hst

/-- A number that has to be known is the same in both runs. -/
theorem withKnown (h : Paired C Ahead P R) {o o' : Operand} {subject subject' : Subject}
    {next next' : Number → Assembly Unit} (ho : C.operand o o') (hsubject : C.Subjects subject subject')
    (hmoves : ∀ a, Moves Session.Leads (next a))
    (hnext : ∀ a, Coupled Ahead P R (next a) (next' a) (fun _ _ => R)) :
    Coupled Ahead P R (Source.known o subject >>= next) (Source.known o' subject' >>= next')
      (fun _ _ => R) := by
  refine Coupled.bind (h.known o o' subject subject' ho hsubject) (fun a s => h.behind (hmoves a) s) ?_
  rintro a b s t ⟨rfl, hst⟩
  exact hnext a s t hst

/-- An answer of no interest. -/
theorem ignored {α β : Type} {first : Assembly α} {second : Assembly β}
    (h : Coupled Ahead P R first second (fun _ _ => R)) :
    Coupled Ahead P R (do let _ ← first) (do let _ ← second) (fun _ _ => R) :=
  Coupled.bind h (fun _ _ => id) (fun _ _ => Coupled.pure (fun _ _ => id))

theorem byte (h : Paired C Ahead P R) {operands operands' : List Operand}
    (hall : List.Forall₂ C.operand operands operands') :
    Coupled Ahead P R (Assembly.byte operands) (Assembly.byte operands') (fun _ _ => R) :=
  Coupled.bind (Coupled.each (fun o => h.behind (followed_leads.byteOf o)) h.byteOf hall)
    (fun _ _ => id) (fun _ _ => Coupled.pure (fun _ _ => id))

theorem word (h : Paired C Ahead P R) {operands operands' : List Operand}
    (hall : List.Forall₂ C.operand operands operands') :
    Coupled Ahead P R (Assembly.word operands) (Assembly.word operands') (fun _ _ => R) := by
  refine Coupled.bind (Coupled.each (fun o => h.behind (followed_leads.byteUnit _)) ?_ hall)
    (fun _ _ => id) (fun _ _ => Coupled.pure (fun _ _ => id))
  intro o o' ho
  exact ignored (h.byte (.cons (h.low o o' ho) (.cons (h.high o o' ho) .nil)))

theorem emitArguments (h : Paired C Ahead P R) (code : String → List Number)
    {args args' : List DirectiveArgument} (hall : List.Forall₂ C.Arguments args args') :
    Coupled Ahead P R (Source.emitArguments code args) (Source.emitArguments code args')
      (fun _ _ => R) := by
  refine Coupled.each (fun arg => ?_) ?_ hall
  · cases arg <;> exact h.behind (followed_leads.byteUnit _)
  · intro arg arg' harg
    cases harg with
    | text content =>
        refine ignored (h.byte ?_)
        rw [List.forall₂_map_left_iff, List.forall₂_map_right_iff]
        exact List.forall₂_same.mpr (fun v _ => h.number v)
    | value ho => exact ignored (h.byte (.cons ho .nil))

theorem argumentValues (h : Paired C Ahead P R) (d : Directive) {args args' : List DirectiveArgument}
    (hall : List.Forall₂ C.Arguments args args') :
    P.Agree (List.Forall₂ C.operand) (Source.argumentValues d args) (Source.argumentValues d args') := by
  induction hall with
  | nil => exact .ok .nil
  | cons harg _ ih =>
      cases harg with
      | text content => exact h.agree_misfit (Or.inl ⟨d, rfl⟩)
      | value ho => exact ih.bind (fun _ _ hrest => .ok (.cons ho hrest))

theorem originArgument (h : Paired C Ahead P R) {values values' : List Operand}
    (hall : List.Forall₂ C.operand values values') :
    P.Agree C.operand (Source.originArgument values) (Source.originArgument values') := by
  have hmisfit : Misfit .originArguments := Or.inr (Or.inl rfl)
  rcases hall with _ | ⟨ho, _ | ⟨_, _⟩⟩
  · exact h.agree_misfit hmisfit
  · exact .ok ho
  · exact h.agree_misfit hmisfit

theorem fillArguments (h : Paired C Ahead P R) {values values' : List Operand}
    (hall : List.Forall₂ C.operand values values') :
    P.Agree (fun p q => C.operand p.1 q.1 ∧ C.operand p.2 q.2) (Source.fillArguments values)
      (Source.fillArguments values') := by
  have hmisfit : Misfit .fillArguments := Or.inr (Or.inr rfl)
  rcases hall with _ | ⟨ho, _ | ⟨hdata, _ | ⟨_, _⟩⟩⟩
  · exact h.agree_misfit hmisfit
  · exact .ok ⟨ho, h.number 0⟩
  · exact .ok ⟨ho, hdata⟩
  · exact h.agree_misfit hmisfit

theorem directive (h : Paired C Ahead P R) (d : Directive) {args args' : List DirectiveArgument}
    (hall : List.Forall₂ C.Arguments args args') :
    Coupled Ahead P R (runDirective d args) (runDirective d args') (fun _ _ => R) := by
  have hleads := followed_leads
  cases d with
  | byte => exact h.emitArguments _ hall
  | text => exact h.emitArguments _ hall
  | word =>
      refine h.check (h.argumentValues .word hall) (fun values => hleads.wordUnit values) ?_
      intro values values' hvalues
      exact ignored (h.word hvalues)
  | org =>
      refine h.check (h.argumentValues .org hall) (fun _ => ?_) (fun values values' hvalues => ?_)
      · exact Moves.bind .trans (Moves.check .refl _) hleads.originAt
      refine h.check (h.originArgument hvalues) hleads.originAt (fun address address' ho => ?_)
      exact h.withKnown ho .origin hleads.org h.org
  | fill =>
      refine h.check (h.argumentValues .fill hall) (fun _ => ?_) (fun values values' hvalues => ?_)
      · exact Moves.bind .trans (Moves.check .refl _) (fun pair => hleads.fillWith pair.1 pair.2)
      refine h.check (h.fillArguments hvalues) (fun pair => hleads.fillWith pair.1 pair.2) ?_
      rintro pair pair' ⟨hcount, hdata⟩
      refine h.withKnown hcount .fillCount (hleads.rounds pair.2) (fun length => ?_)
      exact Coupled.times (fun _ => h.behind (hleads.byteUnit _))
        (fun _ => ignored (h.byte (.cons hdata .nil))) _ _

/-- What holds of the basic steps holds of every statement but an instruction. -/
theorem body (h : Paired C Ahead P R) {b b' : Statement.Body} (hb : C.Bodies b b') :
    Coupled Ahead P R b.run b'.run (fun _ _ => R) := by
  cases hb with
  | label hn => exact ignored (h.label _ _ none hn)
  | assignment hn ho =>
      refine h.withKnown ho (.valueOf hn) (fun address => ?_) (fun address => ?_)
      · exact Moves.bind .trans (Assembly.leads_label _ _) (fun _ => Moves.pure .refl _)
      · exact ignored (h.label _ _ (some address) hn)
  | directive d hall => exact h.directive d hall

end Paired

/-- Two passes of one program side by side, as far as the basic steps of a statement go: they keep the
    sessions in relation `R`, or part as `P` allows. -/
structure Accompanied (Ahead : Session → Prop) (P : Parting) (R : Session → Session → Prop) :
    Prop where
  back : ∀ s t, s.Leads t → Ahead t → Ahead s
  alike : ∀ fault, P.left fault ∨ P.both fault fault
  byteOf : ∀ o, Coupled Ahead P R (Assembly.byteOf o) (Assembly.byteOf o) (fun _ _ => R)
  known : ∀ o subject, Coupled Ahead P R (Source.known o subject) (Source.known o subject)
    (fun a b s t => a = b ∧ R s t)
  label : ∀ name address, Coupled Ahead P R (Assembly.label name address)
    (Assembly.label name address) (fun _ _ => R)
  org : ∀ place, Coupled Ahead P R (Assembly.org place) (Assembly.org place) (fun _ _ => R)

namespace Accompanied

variable {Ahead : Session → Prop} {P : Parting} {R : Session → Session → Prop}

theorem paired (h : Accompanied Ahead P R) : Paired .same Ahead P R where
  back := h.back
  misfit fault _ := h.alike fault
  number _ := rfl
  low _ _ ho := congrArg Operand.low ho
  high _ _ ho := congrArg Operand.high ho
  byteOf := by
    rintro o _ rfl
    exact h.byteOf o
  known := by
    rintro o _ subject subject' rfl hsubject
    rw [hsubject.eq_of_same]
    exact h.known o subject'
  label := by
    rintro n _ address rfl
    exact h.label n address
  org := h.org

theorem byte (h : Accompanied Ahead P R) (operands : List Operand) :
    Coupled Ahead P R (Assembly.byte operands) (Assembly.byte operands) (fun _ _ => R) :=
  h.paired.byte (List.forall₂_same.mpr (fun _ _ => rfl))

theorem word (h : Accompanied Ahead P R) (operands : List Operand) :
    Coupled Ahead P R (Assembly.word operands) (Assembly.word operands) (fun _ _ => R) :=
  h.paired.word (List.forall₂_same.mpr (fun _ _ => rfl))

/-- A check that both passes make comes out the same. -/
theorem check (h : Accompanied Ahead P R) {α β γ : Type} (c : Except Fault α)
    {next : α → Assembly β} {next' : α → Assembly γ} {Post : β → γ → Session → Session → Prop}
    (hmoves : ∀ a, Moves Session.Leads (next a))
    (hnext : ∀ a, Coupled Ahead P R (next a) (next' a) Post) :
    Coupled Ahead P R (liftM c >>= next) (liftM c >>= next') Post := by
  have hagree : P.Agree Eq c c := by
    cases c with
    | ok a => exact .ok rfl
    | error fault =>
        rcases h.alike fault with hl | hb
        · exact Or.inr (Or.inl ⟨fault, rfl, hl⟩)
        · exact Or.inr (Or.inr (Or.inr ⟨fault, fault, rfl, rfl, hb⟩))
  refine h.paired.check hagree hmoves ?_
  rintro a _ rfl
  exact hnext a

/-- What holds of the basic steps and of instructions holds of every statement. -/
theorem body (h : Accompanied Ahead P R) {b : Statement.Body}
    (hinstruction : ∀ m operand, b = .instruction m operand →
      Coupled Ahead P R b.run b.run (fun _ _ => R)) : Coupled Ahead P R b.run b.run (fun _ _ => R) := by
  cases b with
  | label name => exact h.paired.body (.label rfl)
  | assignment name o => exact h.paired.body (.assignment rfl rfl)
  | instruction m operand => exact hinstruction m operand rfl
  | directive d args =>
      exact h.paired.body (.directive d (List.forall₂_same.mpr (fun arg _ => .refl_same arg)))

end Accompanied

-- ── Completed statements ────────────────────────────────────────────────────

/-- A statement that a run completed: the session it met and the session it left. -/
structure Step where
  statement : Statement
  before : Session
  after : Session

/-- The statements that a run from a session completes, in order. -/
def completed : List Statement → Session → List Step
  | [], _ => []
  | st :: rest, s =>
    match st.run.exec s with
    | (.ok (), t) => ⟨st, s, t⟩ :: completed rest t
    | (.error _, _) => []

/-- Whether a statement is an instruction. -/
def Statement.isInstruction (st : Statement) : Bool :=
  match st.body with
  | .instruction _ _ => true
  | _ => false

theorem exists_of_isInstruction {st : Statement} (h : st.isInstruction = true) :
    ∃ m operand, st.body = .instruction m operand := by
  unfold Statement.isInstruction at h
  split at h
  · rename_i m operand hb
    exact ⟨m, operand, hb⟩
  · exact nomatch h

/-- Where the instructions among completed statements started. -/
def instructionStarts (steps : List Step) : List Number :=
  (steps.filter (·.statement.isInstruction)).map (·.before.cursor.position)

theorem completed_cons_ok {st : Statement} {s t : Session} (h : st.run.exec s = (.ok (), t))
    (rest : List Statement) : completed (st :: rest) s = ⟨st, s, t⟩ :: completed rest t := by
  simp only [completed, h]

theorem completed_cons_error {st : Statement} {s t : Session} {fault : Fault}
    (h : st.run.exec s = (.error fault, t)) (rest : List Statement) :
    completed (st :: rest) s = [] := by
  simp only [completed, h]

-- ── Pins ────────────────────────────────────────────────────────────────────

/-- Sessions with the same pins. -/
def SamePins (s t : Session) : Prop := t.symbols.pins = s.symbols.pins

theorem followed_samePins : Followed SamePins where
  refl _ := rfl
  trans _ _ _ h h' := h'.trans h
  evaluate o s := by
    obtain ⟨references, h⟩ := Assembly.exec_evaluate o s
    rw [h]
    rfl
  emitByte v s := by
    rw [Assembly.exec_emitByte]
    split
    · rfl
    · split <;> rfl
  label name address s := by
    unfold Assembly.label
    rw [Action.exec_bind_of_ok (Action.exec_get s), Assembly.onSymbols, Action.exec_onPart]
    exact Symbols.pins_define ..
  org _ _ := rfl

/-- The pins that a completed instruction leaves. -/
theorem pins_instruction {m : Mnemonic} {operand : Option OperandSyntax} {s t : Session}
    (h : (Statement.Body.run (.instruction m operand)).exec s = (.ok (), t)) :
    ∃ e, s.encode m operand = .ok e ∧ t.symbols.pins =
      if s.pins m operand then s.symbols.pins.insert s.cursor.position e.descriptor.mode
      else s.symbols.pins := by
  obtain ⟨e, he, hrest⟩ := exec_instruction_eq_ok h
  refine ⟨e, he, ?_⟩
  have hkept := followed_samePins.emission (fun _ => rfl) e.bytes (s.encoded m e operand)
  rw [hrest] at hkept
  obtain ⟨references, heq⟩ := s.encoded_eq m e operand
  rw [show t.symbols.pins = _ from hkept, heq]

/-- Other statements pin nothing. -/
theorem pins_of_not_instruction {st : Statement} {s t : Session} (h : st.run.exec s = (.ok (), t))
    (hi : st.isInstruction = false) : t.symbols.pins = s.symbols.pins := by
  refine followed_run followed_samePins h (fun m operand hb => ?_)
  simp only [Statement.isInstruction, hb, Bool.true_eq_false] at hi

end Source

end Asm6502
