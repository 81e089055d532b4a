import Asm6502.Proofs.TwoPasses

/-!
# Instructions that share a place

A text may move the cursor back and assemble over what it assembled before. Two instructions can then start
at one place, and what one of them pins there the final pass takes for the mode of both. The comparison of
the passes looks at totals only, so such a text may be accepted with an instruction that changed its form.

* `discoverySteps`, `finalSteps`: what the two passes of a text complete.
* `Step.mode?_of_pin`: in the final pass a pin decides, whoever set it.
* `agrees_of_pinsAgree`: instructions that agree with the pins they meet are encoded alike in both passes.
* `ownPins_of_sameForm`: and those that are encoded alike agree with the pins they meet.
-/

namespace Asm6502.Source

-- ── The passes of a text ────────────────────────────────────────────────────

/-- The statements that discovery completes. -/
def discoverySteps (options : Options) (statements : List Statement) : List Step :=
  match Session.create options.withStart with
  | .ok s => completed statements s
  | .error _ => []

/-- The statements that the final pass completes. -/
def finalSteps (options : Options) (statements : List Statement) : List Step :=
  match Session.create options.withStart with
  | .ok s => completed statements ((runAll statements).exec s).2.turned
  | .error _ => []

/-- The sessions of a compilation that succeeds: the first one, the end of discovery and the end of the
    final pass. -/
structure Compiles (options : Options) (statements : List Statement) (s last f : Session)
    (c : Compilation) : Prop where
  create : Session.create options.withStart = .ok s
  discovery : (runAll statements).exec s = (.ok (), last)
  final : (runAll statements).exec last.turned = (.ok (), f)
  drifts : f.symbols.drifts = []
  result : c = f.result last.statistics f.statistics

/-- A text that is accepted compiles. -/
theorem compiles_of_assemble {source : String} {options : Options} {statements : List Statement}
    {c : Compilation} (hparse : parse source = .ok statements) (h : (assemble source options).1 = .ok c) :
    ∃ s last f, Compiles options statements s last f c := by
  obtain ⟨statements', s, last, f, hparse', hcreate, hdiscovery, hfinal, hnone, hresult⟩ :=
    assemble_eq_ok h
  obtain rfl : statements' = statements := Except.ok.inj (hparse'.symm.trans hparse)
  obtain ⟨-, -, -, -, hdrifts⟩ := passDifferences_eq_nil_iff.mp hnone
  exact ⟨s, last, f, hcreate, hdiscovery, hfinal, hdrifts, hresult⟩

namespace Compiles

variable {options : Options} {statements : List Statement} {s last f : Session} {c : Compilation}

theorem discoverySteps_eq (h : Compiles options statements s last f c) :
    discoverySteps options statements = completed statements s := by
  simp only [discoverySteps, h.create]

theorem finalSteps_eq (h : Compiles options statements s last f c) :
    finalSteps options statements = completed statements last.turned := by
  simp only [finalSteps, h.create, h.discovery]

theorem pass_last (h : Compiles options statements s last f c) : last.pass = .discovery :=
  ((leads_runAll statements).of_exec h.discovery).pass.trans (Session.isNew_of_create h.create).pass

/-- Before the first statement the final pass stands where discovery stood. -/
theorem abreast (h : Compiles options statements s last f c)
    (hfresh : ∀ c, options.cursor = some c → c.position = .ofAddress c.start) :
    Abreast last s last.turned :=
  Session.abreast_turned (Session.isNew_of_create h.create) (Session.cursor_of_create hfresh h.create)
    ((leads_runAll statements).of_exec h.discovery)
    ((followed_sameScopes.statements statements).of_exec h.discovery)

end Compiles

-- ── Pins decide ─────────────────────────────────────────────────────────────

/-- The mode of an instruction with an operand that is no branch target is the one chosen for it. -/
theorem Step.exists_mode {step : Step} {m : Mnemonic} {x : OperandSyntax} {o : Operand}
    (hrun : step.statement.run.exec step.before = (.ok (), step.after))
    (hb : step.statement.body = .instruction m (some x)) (hx : x.carried = some o)
    (hm : m.isBranch = false) :
    ∃ mode v, step.mode? = some mode ∧ step.before.value o = .ok v ∧
      chooseMode (step.before.symbols.pinFor step.before.pass step.place) m o v (x.addressing m v).1
        (x.addressing m v).2 = .ok mode := by
  rw [exec_run_eq_ok, hb] at hrun
  obtain ⟨e, he, -⟩ := exec_instruction_eq_ok hrun
  obtain ⟨-, v, hv, hencode⟩ := Session.encode_eq_ok hx he
  obtain ⟨mode, hchoose, hin⟩ := Session.encodeOperand_eq_ok hm hencode
  refine ⟨mode, v, ?_, hv, hchoose⟩
  rw [Step.mode?, Step.descriptor?_of_encode hb he, Option.map_some,
    (lookup_eq_ok (encodeIn_eq_ok hin).1).2.1]

/-- In the final pass an instruction that looks for a pin is encoded in the mode it finds. -/
theorem Step.mode?_of_pin {step : Step} {mode : Mode} (hpass : step.before.pass = .final)
    (hrun : step.statement.run.exec step.before = (.ok (), step.after)) (hheeds : step.heedsPin = true)
    (hpin : step.before.symbols.pins.find? step.place = some mode) : step.mode? = some mode := by
  obtain ⟨m, operand, hb⟩ := exists_of_isInstruction (Step.isInstruction_of_heedsPin hheeds)
  simp only [Step.heedsPin, hb, Bool.and_eq_true, Bool.not_eq_true'] at hheeds
  obtain ⟨hm, hcarries⟩ := hheeds
  obtain ⟨o, ho⟩ := Option.isSome_iff_exists.mp hcarries
  obtain ⟨x, rfl, hx⟩ := Option.bind_eq_some_iff.mp ho
  obtain ⟨chosen, v, hmode, -, hchoose⟩ := Step.exists_mode hrun hb hx hm
  have hfound : step.before.symbols.pinFor step.before.pass step.place = some mode := by
    rw [hpass]
    exact hpin
  rw [hfound] at hchoose
  obtain rfl : mode = chosen := Except.ok.inj hchoose
  exact hmode

-- ── Forms in both passes ────────────────────────────────────────────────────

/-- The same statement, with its instruction encoded in the same form. -/
def Step.SameForm (d f : Step) : Prop := f.statement = d.statement ∧ f.descriptor? = d.descriptor?

theorem Step.Agrees.sameForm {d f : Step} (h : d.Agrees f) : d.SameForm f := by
  refine ⟨h.statement, ?_⟩
  cases hb : d.statement.body with
  | instruction m operand =>
      obtain ⟨e, e', he, he', hform⟩ := h.form m operand hb
      simp only [Step.descriptor?, h.statement, hb, he, he', Except.toOption, Option.map_some, hform]
  | label name => simp only [Step.descriptor?, h.statement, hb]
  | assignment name o => simp only [Step.descriptor?, h.statement, hb]
  | directive d args => simp only [Step.descriptor?, h.statement, hb]

/-- Instructions that agree with the pins they meet are encoded alike in both passes. -/
theorem agrees_of_pinsAgree {options : Options} {statements : List Statement} {s last f : Session}
    {c : Compilation} (h : Compiles options statements s last f c)
    (hfresh : ∀ c, options.cursor = some c → c.position = .ofAddress c.start)
    (hagree : PinsAgree (completed statements s)) :
    List.Forall₂ Step.Agrees (completed statements s) (completed statements last.turned) := by
  obtain ⟨⟨matching, hprefix, hall⟩, -⟩ := retrace_of_pinsAgree hfresh h.create h.discovery hagree
  -- both passes complete all statements, so the part that matches is the whole of discovery
  have hlength : ∀ {s t : Session}, (runAll statements).exec s = (.ok (), t) →
      (completed statements s).length = statements.length := by
    intro s t hrun
    have hmap := congrArg List.length (map_statement_completed hrun)
    rwa [List.length_map] at hmap
  have hwhole : matching = completed statements s := by
    refine hprefix.eq_of_length ?_
    rw [hall.length_eq, hlength h.final, hlength h.discovery]
  rw [← hwhole]
  exact hall

/-- Instructions that are encoded alike in both passes agree with the pins they meet. -/
theorem ownPins_of_sameForm {statements : List Statement} {last d f f' : Session} (h : Abreast last d f)
    (hd : (runAll statements).exec d = (.ok (), last))
    (hf : (runAll statements).exec f = (.ok (), f'))
    (hsame : List.Forall₂ Step.SameForm (completed statements d) (completed statements f)) :
    ∀ step ∈ completed statements d, step.OwnPin last.symbols.pins := by
  induction statements generalizing d f with
  | nil =>
      intro step hstep
      cases hstep
  | cons st rest ih =>
      obtain ⟨_, d', hst, hrest⟩ := Action.exec_bind_eq_ok hd
      obtain ⟨_, f'', hst', hrest'⟩ := Action.exec_bind_eq_ok hf
      rw [completed_cons_ok hst, completed_cons_ok hst'] at hsame
      rw [completed_cons_ok hst]
      obtain ⟨⟨-, hform⟩, htail⟩ := List.forall₂_cons.mp hsame
      have hown : (⟨st, d, d'⟩ : Step).OwnPin last.symbols.pins := by
        intro hheeds mode hmode
        have hpin : f.symbols.pins.find? f.cursor.position = some mode := by
          rw [h.pins, h.cursor]
          exact hmode
        have hfinal : (⟨st, f, f''⟩ : Step).mode? = some mode :=
          Step.mode?_of_pin h.final hst' hheeds hpin
        rw [Step.mode?, hform] at hfinal
        exact hfinal
      -- with its own pin the statement keeps the passes abreast, and the rest follows
      have hahead : d'.Leads last := (leads_runAll rest).of_exec hrest
      rcases retrace_step h hst hahead (fun k => isSome_pin_runAll hrest) hown with
        ⟨f₁, hf₁, h', -⟩ | ⟨cause, f₁, hf₁, -⟩
      · rw [hst'] at hf₁
        obtain rfl : f'' = f₁ := congrArg Prod.snd hf₁
        intro step hstep
        rcases List.mem_cons.mp hstep with rfl | hmem
        · exact hown
        · exact ih h' hrest hrest' htail step hmem
      · rw [hst'] at hf₁
        cases congrArg Prod.fst hf₁

/-- The passes of a text that is accepted encode every instruction in the same form exactly if no instruction
    starts where another one pins a mode that is not its own. -/
theorem same_forms_iff_pins_agree {source : String} {options : Options} {statements : List Statement}
    {c : Compilation} (hfresh : ∀ c, options.cursor = some c → c.position = .ofAddress c.start)
    (hparse : parse source = .ok statements) (h : (assemble source options).1 = .ok c) :
    (discoverySteps options statements).map (·.statement) = statements ∧
    (List.Forall₂ Step.SameForm (discoverySteps options statements) (finalSteps options statements) ↔
      PinsAgree (discoverySteps options statements)) := by
  obtain ⟨s, last, f, hrun⟩ := compiles_of_assemble hparse h
  rw [hrun.discoverySteps_eq, hrun.finalSteps_eq]
  have hown := ownPins_iff_pinsAgree (Session.isNew_of_create hrun.create).pins hrun.discovery
  refine ⟨map_statement_completed hrun.discovery, ?_, ?_⟩
  · intro hsame
    exact hown.mp (ownPins_of_sameForm (hrun.abreast hfresh) hrun.discovery hrun.final hsame)
  · intro hagree
    exact (agrees_of_pinsAgree hrun hfresh hagree).imp (fun _ _ hstep => hstep.sameForm)

/-- Two instructions at one place, with a forward reference: the second one is written over the first, in
    the mode that was pinned for that. -/
def agreeingSample : String := " LDA later,X\n .ORG $1000\n STA $2000,X\nlater: RTS\n"

/-- The statements of `agreeingSample`. -/
def agreeingStatements : List Statement := (parse agreeingSample).toOption.getD []

theorem agreeing_pins_keep_forms :
    parse agreeingSample = .ok agreeingStatements ∧
    (discoverySteps {} agreeingStatements).map Step.place = [0x1000, 0x1003, 0x1000, 0x1003, 0x1003] ∧
    PinsAgree (discoverySteps {} agreeingStatements) ∧
    (discoverySteps {} agreeingStatements).map (·.statement) = agreeingStatements ∧
    List.Forall₂ Step.SameForm (discoverySteps {} agreeingStatements)
      (finalSteps {} agreeingStatements) := by
  have hparse : parse agreeingSample = .ok agreeingStatements := by decide +kernel
  have hplaces : (discoverySteps {} agreeingStatements).map Step.place =
      [0x1000, 0x1003, 0x1000, 0x1003, 0x1003] := by decide +kernel
  have hagree : PinsAgree (discoverySteps {} agreeingStatements) := by decide +kernel
  have hstart : (assemble agreeingSample {}).1.map (·.start) = .ok 0x1000 := by decide +kernel
  obtain ⟨c, h⟩ := Check.exists_of_map hstart
  have hfresh : ∀ c, ({} : Options).cursor = some c → c.position = .ofAddress c.start :=
    fun c hc => nomatch hc
  obtain ⟨hall, hforms⟩ := same_forms_iff_pins_agree hfresh hparse h
  exact ⟨hparse, hplaces, hagree, hall, hforms.mpr hagree⟩

/-- Two instructions at one place, the second one in another mode than the first one pins there. -/
def disagreeingSample : String := " LDA fwd,X\n .ORG $1000\n LDA $2000\nfwd:\n"

/-- The statements of `disagreeingSample`. -/
def disagreeingStatements : List Statement := (parse disagreeingSample).toOption.getD []

/-- The text is accepted, although its second instruction changes from the absolute to an indexed form. -/
theorem pin_of_another_changes_form :
    parse disagreeingSample = .ok disagreeingStatements ∧
    (assemble disagreeingSample {}).1.map (·.memory.slice 0x1000 0x1002) = .ok [0xBD, 0x00, 0x20] ∧
    (discoverySteps {} disagreeingStatements).map Step.mode? =
      [some .absoluteX, none, some .absolute, none] ∧
    (finalSteps {} disagreeingStatements).map Step.mode? =
      [some .absoluteX, none, some .absoluteX, none] := by
  decide +kernel

end Asm6502.Source
