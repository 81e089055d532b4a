import Mathlib.Data.List.Nodup
import Asm6502.Proofs.Course

/-!
# Pins and those who heed them

An instruction with a pending operand pins its mode to the place where it starts. In the final pass every
instruction that starts at that place and has an operand takes the pinned mode, whoever pinned it: a pin
knows its place, not its statement.

* `Step.descriptor?`: the form that the instruction of a step was encoded in.
* `PinsAgree`: an instruction that starts where another one pins a mode has that mode itself.
* `ownPins_iff_pinsAgree`: that is so exactly if discovery ends with no mode pinned where an instruction of
  another mode started.
-/

namespace Asm6502.Source

-- ── Steps ───────────────────────────────────────────────────────────────────

namespace Step

/-- The form that the instruction of a step was encoded in; none if the statement is no instruction. -/
def descriptor? (step : Step) : Option Descriptor :=
  match step.statement.body with
  | .instruction m operand => ((encoding m operand).exec step.before).1.toOption.map (·.descriptor)
  | _ => none

/-- The mode that the instruction of a step was encoded in. -/
def mode? (step : Step) : Option Mode := step.descriptor?.map (·.mode)

/-- Where a step started. -/
def place (step : Step) : Number := step.before.cursor.position

/-- Whether the instruction of a step looks for a pin where it starts: it has an operand, and is no
    branch. -/
def heedsPin (step : Step) : Bool :=
  match step.statement.body with
  | .instruction m operand => !m.isBranch && (operand.bind (·.carried)).isSome
  | _ => false

/-- Whether a step pinned the mode of its instruction: the operand was pending, and it is no branch. -/
def pins (step : Step) : Bool :=
  match step.statement.body with
  | .instruction m operand => step.before.pins m operand
  | _ => false

theorem descriptor?_of_encode {step : Step} {m : Mnemonic} {operand : Option OperandSyntax} {e : Encoded}
    (hb : step.statement.body = .instruction m operand) (he : step.before.encode m operand = .ok e) :
    step.descriptor? = some e.descriptor := by
  simp only [descriptor?, hb, exec_encoding_of_ok he]
  rfl

theorem isInstruction_of_heedsPin {step : Step} (h : step.heedsPin = true) :
    step.statement.isInstruction = true := by
  cases hb : step.statement.body with
  | instruction m operand => simp only [Statement.isInstruction, hb]
  | label name => simp only [heedsPin, hb, Bool.false_eq_true] at h
  | assignment name o => simp only [heedsPin, hb, Bool.false_eq_true] at h
  | directive d args => simp only [heedsPin, hb, Bool.false_eq_true] at h

/-- Who pins a mode would also heed one. -/
theorem heedsPin_of_pins {step : Step} (h : step.pins = true) : step.heedsPin = true := by
  cases hb : step.statement.body with
  | instruction m operand =>
      simp only [pins, hb, Session.pins] at h
      simp only [heedsPin, hb]
      cases hx : operand.bind (·.carried) with
      | none =>
          rw [hx] at h
          exact nomatch h
      | some o =>
          rw [hx] at h
          simp only at h
          split at h
          · exact Bool.and_eq_true_iff.mpr ⟨(Bool.and_eq_true_iff.mp h).2, rfl⟩
          · exact nomatch h
  | label name => simp only [pins, hb, Bool.false_eq_true] at h
  | assignment name o => simp only [pins, hb, Bool.false_eq_true] at h
  | directive d args => simp only [pins, hb, Bool.false_eq_true] at h

end Step

-- ── A step in its run ───────────────────────────────────────────────────────

/-- A run that succeeds completes every statement. -/
theorem map_statement_completed {statements : List Statement} {s t : Session}
    (h : (runAll statements).exec s = (.ok (), t)) :
    (completed statements s).map (·.statement) = statements := by
  induction statements generalizing s with
  | nil => rfl
  | cons st rest ih =>
      obtain ⟨_, s', hst, hrest⟩ := Action.exec_bind_eq_ok h
      rw [completed_cons_ok hst, List.map_cons, ih hrest]

/-- The part of a completed run before a step, the step, and the part behind it. -/
structure Parted (s t : Session) (above : List Step) (step : Step) (below : List Step) : Prop where
  earlier : (runAll (above.map (·.statement))).exec s = (.ok (), step.before)
  above_eq : completed (above.map (·.statement)) s = above
  run : step.statement.run.exec step.before = (.ok (), step.after)
  later : (runAll (below.map (·.statement))).exec step.after = (.ok (), t)
  below_eq : completed (below.map (·.statement)) step.after = below

/-- A run that completes can be parted at each of its steps. -/
theorem parted_of_completed {statements : List Statement} {s t : Session} {above below : List Step}
    {step : Step} (h : (runAll statements).exec s = (.ok (), t))
    (hsteps : completed statements s = above ++ step :: below) : Parted s t above step below := by
  induction above generalizing statements s with
  | nil =>
      cases statements with
      | nil => exact nomatch hsteps
      | cons st rest =>
          obtain ⟨_, s', hst, hrest⟩ := Action.exec_bind_eq_ok h
          rw [completed_cons_ok hst] at hsteps
          obtain ⟨rfl, rfl⟩ := List.cons.inj hsteps
          have hall := map_statement_completed hrest
          refine ⟨rfl, rfl, hst, ?_, ?_⟩
          · rw [hall]
            exact hrest
          · rw [hall]
  | cons first above ih =>
      cases statements with
      | nil => exact nomatch hsteps
      | cons st rest =>
          obtain ⟨_, s', hst, hrest⟩ := Action.exec_bind_eq_ok h
          rw [completed_cons_ok hst] at hsteps
          obtain ⟨rfl, htail⟩ := List.cons.inj hsteps
          have hpart := ih hrest htail
          refine ⟨?_, ?_, hpart.run, hpart.later, hpart.below_eq⟩
          · exact (Action.exec_bind_of_ok hst).trans hpart.earlier
          · rw [List.map_cons, completed_cons_ok hst, hpart.above_eq]

/-- From a step a run leads to its end. -/
theorem Parted.leads {s t : Session} {above below : List Step} {step : Step}
    (h : Parted s t above step below) : step.before.Leads t :=
  ((leads_run step.statement).of_exec h.run).trans _ _ _ ((leads_runAll _).of_exec h.later)

/-- A run does not change the pass. -/
theorem Parted.pass {s t : Session} {above below : List Step} {step : Step}
    (h : Parted s t above step below) : step.before.pass = s.pass :=
  ((leads_runAll _).of_exec h.earlier).pass

-- ── What discovery leaves pinned ────────────────────────────────────────────

/-- The pins that a completed step leaves: its own, if it pins, and those that were there. -/
theorem pins_step (step : Step) (h : step.statement.run.exec step.before = (.ok (), step.after)) :
    (step.pins = true ∧ ∃ mode, step.mode? = some mode ∧
      step.after.symbols.pins = step.before.symbols.pins.insert step.place mode) ∨
    (step.pins = false ∧ step.after.symbols.pins = step.before.symbols.pins) := by
  cases hi : step.statement.isInstruction with
  | false =>
      refine Or.inr ⟨?_, pins_of_not_instruction h hi⟩
      cases hp : step.pins with
      | false => rfl
      | true =>
          rw [Step.isInstruction_of_heedsPin (Step.heedsPin_of_pins hp)] at hi
          exact nomatch hi
  | true =>
      obtain ⟨m, operand, hb⟩ := exists_of_isInstruction hi
      rw [exec_run_eq_ok, hb] at h
      obtain ⟨e, he, hpins⟩ := pins_instruction h
      have hstep : step.pins = step.before.pins m operand := by simp only [Step.pins, hb]
      rw [← hstep] at hpins
      cases hp : step.pins with
      | false =>
          rw [hp] at hpins
          exact Or.inr ⟨rfl, hpins⟩
      | true =>
          rw [hp] at hpins
          refine Or.inl ⟨rfl, e.descriptor.mode, ?_, hpins⟩
          rw [Step.mode?, Step.descriptor?_of_encode hb he]
          rfl

/-- Where a mode is pinned, one stays pinned. -/
theorem isSome_pin_runAll {statements : List Statement} {s t : Session}
    (h : (runAll statements).exec s = (.ok (), t)) {k : Number}
    (hk : (s.symbols.pins.find? k).isSome = true) : (t.symbols.pins.find? k).isSome = true := by
  induction statements generalizing s with
  | nil =>
      obtain rfl : s = t := congrArg Prod.snd h
      exact hk
  | cons st rest ih =>
      obtain ⟨_, s', hst, hrest⟩ := Action.exec_bind_eq_ok h
      refine ih hrest ?_
      rcases pins_step ⟨st, s, s'⟩ hst with ⟨-, mode, -, hpins⟩ | ⟨-, hpins⟩
      · rw [show s'.symbols.pins = _ from hpins, Table.find?_insert]
        split
        · rfl
        · exact hk
      · rw [show s'.symbols.pins = _ from hpins]
        exact hk

/-- Where a step pins, a mode is pinned in the end. -/
theorem isSome_pin_of_pins {statements : List Statement} {s t : Session}
    (h : (runAll statements).exec s = (.ok (), t)) {step : Step} (hstep : step ∈ completed statements s)
    (hp : step.pins = true) : (t.symbols.pins.find? step.place).isSome = true := by
  obtain ⟨above, below, hsteps⟩ := List.append_of_mem hstep
  have hpart := parted_of_completed h hsteps
  refine isSome_pin_runAll hpart.later ?_
  rcases pins_step step hpart.run with ⟨-, mode, -, hpins⟩ | ⟨hno, -⟩
  · rw [hpins, Table.find?_insert, if_pos rfl]
    rfl
  · rw [hp] at hno
    exact nomatch hno

/-- What is pinned in the end was pinned by a step, or before. -/
theorem exists_pins_of_find? {statements : List Statement} {s t : Session}
    (h : (runAll statements).exec s = (.ok (), t)) {k : Number} {mode : Mode}
    (hk : t.symbols.pins.find? k = some mode) :
    s.symbols.pins.find? k = some mode ∨
      ∃ step ∈ completed statements s, step.pins = true ∧ step.place = k ∧ step.mode? = some mode := by
  induction statements generalizing s with
  | nil =>
      obtain rfl : s = t := congrArg Prod.snd h
      exact Or.inl hk
  | cons st rest ih =>
      obtain ⟨_, s', hst, hrest⟩ := Action.exec_bind_eq_ok h
      rw [completed_cons_ok hst]
      rcases ih hrest with hthere | ⟨step, hmem, hstep⟩
      · rcases pins_step ⟨st, s, s'⟩ hst with ⟨hp, mode', hmode, hpins⟩ | ⟨-, hpins⟩
        · rw [show s'.symbols.pins = _ from hpins, Table.find?_insert] at hthere
          split at hthere
          · rename_i hplace
            rw [Option.some.inj hthere] at hmode
            exact Or.inr ⟨_, List.mem_cons_self .., hp, hplace, hmode⟩
          · exact Or.inl hthere
        · rw [show s'.symbols.pins = _ from hpins] at hthere
          exact Or.inl hthere
      · exact Or.inr ⟨step, List.mem_cons_of_mem _ hmem, hstep⟩

-- ── Shared places ───────────────────────────────────────────────────────────

/-- Of the pins given, the one where a step started is in the mode of its instruction, if that looks for
    one at all. -/
def Step.OwnPin (pins : Table Number Mode) (step : Step) : Prop :=
  step.heedsPin = true → ∀ mode, pins.find? step.place = some mode → step.mode? = some mode

/-- Instructions agree with the modes that are pinned where they start, by themselves or by others. -/
def PinsAgree (steps : List Step) : Prop :=
  ∀ a ∈ steps, a.pins = true → ∀ b ∈ steps, b.heedsPin = true → b.place = a.place → b.mode? = a.mode?

instance (steps : List Step) : Decidable (PinsAgree steps) :=
  inferInstanceAs (Decidable (∀ a ∈ steps, a.pins = true → ∀ b ∈ steps, b.heedsPin = true →
    b.place = a.place → b.mode? = a.mode?))

/-- Instructions agree with each other's pins exactly if none finds a pin of another mode in the end. -/
theorem ownPins_iff_pinsAgree {statements : List Statement} {s t : Session}
    (hnone : s.symbols.pins = .empty) (h : (runAll statements).exec s = (.ok (), t)) :
    (∀ step ∈ completed statements s, step.OwnPin t.symbols.pins) ↔
      PinsAgree (completed statements s) := by
  constructor
  · intro hown a ha hpins b hb hheeds hplace
    obtain ⟨mode, hmode⟩ := Option.isSome_iff_exists.mp (isSome_pin_of_pins h ha hpins)
    rw [hown a ha (Step.heedsPin_of_pins hpins) mode hmode]
    rw [← hplace] at hmode
    exact hown b hb hheeds mode hmode
  · intro hagree step hstep hheeds mode hmode
    rcases exists_pins_of_find? h hmode with hbefore | ⟨a, ha, hpins, hplace, hsame⟩
    · rw [hnone] at hbefore
      exact nomatch hbefore
    · rw [hagree a ha hpins step hstep hheeds hplace.symm, hsame]

/-- If no two instructions start at one place, each meets its own pin. -/
theorem pinsAgree_of_nodup {steps : List Step} (h : (instructionStarts steps).Nodup) :
    PinsAgree steps := by
  intro a ha hpins b hb hheeds hplace
  have hmem : ∀ step ∈ steps, step.heedsPin = true →
      step ∈ steps.filter (·.statement.isInstruction) := by
    intro step hstep hstepHeeds
    exact List.mem_filter.mpr ⟨hstep, Step.isInstruction_of_heedsPin hstepHeeds⟩
  have hsame : b = a :=
    List.inj_on_of_nodup_map h (hmem b hb hheeds) (hmem a ha (Step.heedsPin_of_pins hpins)) hplace
  rw [hsame]

end Asm6502.Source
