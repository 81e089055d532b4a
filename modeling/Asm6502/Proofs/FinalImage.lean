import Asm6502.Proofs.Decoding
import Asm6502.Proofs.SharedPlaces

/-!
# What stands in the final image

An image changes where something is written, and nowhere else. So the bytes of a statement stand in the
result unless a later statement writes over them.

* `Session.Overlaid`: from one session to another only the addresses of new writes changed.
* `slice_of_emits`: what a statement of the final pass emits is read from the image, unless it is
  overwritten.
* `Step.Holds`: the bytes that the final pass emits for an instruction with an operand, and what they say.
-/

namespace Asm6502

-- ── Writes over an image ────────────────────────────────────────────────────

/-- From one session to another the image changed at most where something was written. -/
def Session.Overlaid (s t : Session) : Prop :=
  ∃ ws, t.written = ws ++ s.written ∧
    ∀ a, (∀ w ∈ ws, w.address ≠ a) → t.memory.cell? a = s.memory.cell? a

namespace Session.Overlaid

theorem of_same {s t : Session} (hwritten : t.written = s.written) (hmemory : t.memory = s.memory) :
    s.Overlaid t :=
  ⟨[], hwritten, fun a _ => by rw [hmemory]⟩

theorem trans (r s t : Session) (h : r.Overlaid s) (h' : s.Overlaid t) : r.Overlaid t := by
  obtain ⟨ws, hwritten, hkept⟩ := h
  obtain ⟨ws', hwritten', hkept'⟩ := h'
  refine ⟨ws' ++ ws, by rw [hwritten', hwritten, List.append_assoc], ?_⟩
  intro a hno
  rw [hkept' a (fun w hw => hno w (List.mem_append_left _ hw)),
    hkept a (fun w hw => hno w (List.mem_append_right _ hw))]

theorem put (s : Session) (w : Write) : s.Overlaid (s.put w) := by
  refine ⟨[w], rfl, ?_⟩
  intro a hno
  show (s.memory.put w).cell? a = s.memory.cell? a
  rw [Image.cell?_put, if_neg (hno w (List.mem_singleton_self w))]

end Session.Overlaid

namespace Source

theorem followed_overlaid : Followed Session.Overlaid where
  refl _ := .of_same rfl rfl
  trans := .trans
  evaluate o s := by
    obtain ⟨references, h⟩ := Assembly.exec_evaluate o s
    rw [h]
    exact .of_same rfl rfl
  emitByte v s := by
    rw [Assembly.exec_emitByte]
    split
    · exact .of_same rfl rfl
    · split
      · exact .of_same rfl rfl
      · exact .put s _
  label name address s := by
    rw [Assembly.label, Action.exec_bind_of_ok (Action.exec_get s), Assembly.onSymbols,
      Action.exec_onPart]
    exact .of_same rfl rfl
  org _ _ := .of_same rfl rfl

theorem overlaid_run {st : Statement} {s t : Session} (h : st.run.exec s = (.ok (), t)) :
    s.Overlaid t := by
  refine followed_run followed_overlaid h ?_
  intro m operand hb
  rw [exec_run_eq_ok, hb] at h
  obtain ⟨e, -, hrest⟩ := exec_instruction_eq_ok h
  obtain ⟨references, hencoded⟩ := s.encoded_eq m e operand
  have hemission := (followed_overlaid.emission (fun _ => .of_same rfl rfl) e.bytes).of_exec hrest
  rw [hencoded] at hemission
  exact hemission

/-- What a step wrote, the newest first. -/
def Step.writes (step : Step) : List Write :=
  step.after.written.take (step.after.written.length - step.before.written.length)

/-- A step writes nothing among the `size` addresses from a place on. -/
def Step.Spares (place size : Nat) (step : Step) : Prop :=
  ∀ w ∈ step.writes, w.address.toNat < place ∨ place + size ≤ w.address.toNat

instance (place size : Nat) (step : Step) : Decidable (step.Spares place size) :=
  inferInstanceAs (Decidable (∀ w ∈ step.writes, _))

/-- A run keeps the cells that none of its statements writes. -/
theorem cell?_of_unwritten {statements : List Statement} {s t : Session}
    (h : (runAll statements).exec s = (.ok (), t)) {a : UInt16}
    (hno : ∀ step ∈ completed statements s, ∀ w ∈ step.writes, w.address ≠ a) :
    t.memory.cell? a = s.memory.cell? a := by
  induction statements generalizing s with
  | nil =>
      obtain rfl : s = t := congrArg Prod.snd h
      rfl
  | cons st rest ih =>
      obtain ⟨_, s', hst, hrest⟩ := Action.exec_bind_eq_ok h
      rw [completed_cons_ok hst] at hno
      obtain ⟨ws, hwritten, hkept⟩ := overlaid_run hst
      have hwrites : (⟨st, s, s'⟩ : Step).writes = ws := by
        rw [Step.writes, hwritten, List.length_append, Nat.add_sub_cancel, List.take_left]
      have hfirst := hno _ (List.mem_cons_self ..)
      rw [hwrites] at hfirst
      rw [ih hrest (fun step hstep => hno step (List.mem_cons_of_mem _ hstep)), hkept a hfirst]

/-- What a step emits stands in the image in the end, if no later step writes there. -/
theorem slice_of_emits {s t : Session} {above below : List Step} {step : Step} {a : UInt16}
    {bytes : List UInt8} (hpart : Parted s t above step below)
    (hemits : step.before.Emits a.toNat bytes step.after)
    (hspared : ∀ later ∈ below, later.Spares a.toNat bytes.length) :
    t.memory.slice (.ofAddress a) (.ofInt ((a.toNat : Int) + bytes.length - 1)) = bytes := by
  have hcells : ∀ b cell, laid a.toNat bytes step.before.owner b = some cell →
      t.memory.cell? b = some cell := by
    intro b cell hlaid
    have hinside : ¬(b.toNat < a.toNat ∨ a.toNat + bytes.length ≤ b.toNat) := by
      rw [← laid_eq_none_iff a.toNat bytes step.before.owner b, hlaid]
      exact Option.some_ne_none cell
    have hlast : t.memory.cell? b = step.after.memory.cell? b := by
      refine cell?_of_unwritten hpart.later ?_
      rw [hpart.below_eq]
      rintro later hlater w hw rfl
      exact hinside (hspared later hlater w hw)
    rw [hlast, hemits.cells, hlaid, Option.some_or]
  exact Image.slice_of_laid hemits.fits hcells

-- ── Instructions with an operand ────────────────────────────────────────────

/-- Whatever emits something begins at an address. -/
theorem address_of_each {values : List Number} {s t : Session} (hne : values ≠ [])
    (h : (Action.each Assembly.emitByte values).exec s = (.ok (), t)) :
    ∃ a, s.cursor.position = .ofAddress a := by
  cases values with
  | nil => exact absurd rfl hne
  | cons v rest =>
      obtain ⟨_, s', hv, -⟩ := Action.exec_bind_eq_ok h
      obtain ⟨w, hw, -, -⟩ := Assembly.exec_emitByte_eq_ok hv
      obtain ⟨b, haddress, -, -⟩ := Image.checkWrite_eq_ok hw
      exact ⟨w.address, Number.toAddress?_eq_some_iff.mp haddress⟩

/-- A step emitted an instruction at an address: the opcode of its form, and operand bytes that say what its
    operand amounts to. -/
structure Step.Holds (step : Step) (o : Operand) (d : Descriptor) (a : UInt16) (operand : List UInt8) :
    Prop where
  descriptor : step.descriptor? = some d
  size : operand.length = d.mode.width.size
  value : step.before.value o = .ok ⟨.ofNat (Disassembly.operandValue operand), false⟩
  emits : step.before.Emits a.toNat (d.opcode :: operand) step.after

theorem Step.Holds.place {step : Step} {o : Operand} {d : Descriptor} {a : UInt16} {operand : List UInt8}
    (h : step.Holds o d a operand) : step.place = .ofAddress a := h.emits.before

/-- What the final pass emits for an instruction with an operand that is no branch target. -/
theorem exists_holds {step : Step} {m : Mnemonic} {x : OperandSyntax} {o : Operand}
    (hpass : step.before.pass = .final) (hrun : step.statement.run.exec step.before = (.ok (), step.after))
    (hb : step.statement.body = .instruction m (some x)) (hx : x.carried = some o)
    (hm : m.isBranch = false) (hmode : step.mode? ≠ some .implied) :
    ∃ d a operand, lookup m d.mode = .ok d ∧ step.Holds o d a operand := by
  have hbody := exec_run_eq_ok.mp hrun
  rw [hb] at hbody
  obtain ⟨e, he, hrest⟩ := exec_instruction_eq_ok hbody
  obtain ⟨-, v, hv, hencode⟩ := Session.encode_eq_ok hx he
  obtain ⟨mode, -, hin⟩ := Session.encodeOperand_eq_ok hm hencode
  obtain ⟨hlookup, hbytes⟩ := encodeIn_eq_ok hin
  have hdescriptor := Step.descriptor?_of_encode hb he
  have hcarries : e.descriptor.mode ≠ .implied := by
    intro himplied
    rw [Step.mode?, hdescriptor, Option.map_some, himplied] at hmode
    exact hmode rfl
  -- there is at least the opcode to emit, and that needs an address
  have hne : e.bytes ≠ [] := by
    intro hnil
    have hlength := length_of_encode hbytes
    rw [hnil, Descriptor.length, Mode.length] at hlength
    rw [List.length_nil] at hlength
    omega
  obtain ⟨references, hencoded⟩ := step.before.encoded_eq m e (some x)
  obtain ⟨_, s', heach, -⟩ := Action.exec_bind_eq_ok hrest
  rw [hencoded] at heach
  obtain ⟨a, haddress⟩ := address_of_each hne heach
  have ha : step.before.cursor.position = .ofAddress a := haddress
  have hcode : step.statement.isDirective = false := by simp only [Statement.isDirective, hb]
  rcases emits_run hcode ha (Nat.le_of_lt a.toNat_lt) hrun with
    ⟨m', operand', e', bytes, hb', he', hmap, hemits⟩ | ⟨hother, -⟩
  · obtain ⟨rfl, rfl⟩ := Statement.Body.instruction.inj (hb.symm.trans hb')
    obtain rfl : e = e' := Except.ok.inj (he.symm.trans he')
    have hknown := step.before.pending_of_final hpass hv
    rw [hmap] at hbytes
    obtain ⟨operand, rfl, hsize, hamount⟩ := operandValue_of_encode hknown hcarries hbytes
    refine ⟨e.descriptor, a, operand, ?_, hdescriptor, hsize, ?_, hemits⟩
    · rw [(lookup_eq_ok hlookup).2.1]
      exact hlookup
    · rw [hv, ← hamount, ← hknown]
  · simp only [Statement.isInstruction, hb, Bool.true_eq_false] at hother

-- ── The final pass of a text that compiles ──────────────────────────────────

/-- The final pass pins nothing. -/
theorem pins_runAll_final {statements : List Statement} {s t : Session} (hpass : s.pass = .final)
    (h : (runAll statements).exec s = (.ok (), t)) : t.symbols.pins = s.symbols.pins := by
  induction statements generalizing s with
  | nil =>
      obtain rfl : s = t := congrArg Prod.snd h
      rfl
  | cons st rest ih =>
      obtain ⟨_, s', hst, hrest⟩ := Action.exec_bind_eq_ok h
      have hpass' := ((leads_run st).of_exec hst).pass.trans hpass
      rw [ih hpass' hrest]
      rcases pins_step ⟨st, s, s'⟩ hst with ⟨hpins, -, -, -⟩ | ⟨-, hpins⟩
      · cases hb : st.body with
        | instruction m operand =>
            simp only [Step.pins, hb, Session.pins_final hpass, Bool.false_eq_true] at hpins
        | label name | assignment name o | directive d args =>
            simp only [Step.pins, hb, Bool.false_eq_true] at hpins
      · exact hpins

namespace Compiles

variable {options : Options} {statements : List Statement} {s last f : Session} {c : Compilation}
variable {above below : List Step} {step : Step}

theorem parted (h : Compiles options statements s last f c)
    (hsteps : finalSteps options statements = above ++ step :: below) :
    Parted last.turned f above step below := by
  rw [h.finalSteps_eq] at hsteps
  exact parted_of_completed h.final hsteps

theorem pass_turned (h : Compiles options statements s last f c) : last.turned.pass = .final := by
  obtain ⟨journal, hturned⟩ := Session.turned_eq h.pass_last
  rw [hturned]

theorem pass_step (h : Compiles options statements s last f c)
    (hpart : Parted last.turned f above step below) : step.before.pass = .final :=
  hpart.pass.trans h.pass_turned

/-- A value of the final pass is the one that the labels of the result give. -/
theorem value_labels (h : Compiles options statements s last f c)
    (hpart : Parted last.turned f above step below) {o : Operand} {v : Value}
    (hv : step.before.value o = .ok v) : o.valueIn (labelValue c.labels) step.place = .ok v := by
  have hlater := value_later (h.pass_step hpart) hpart.leads h.drifts hv
  rw [h.result]
  exact hlater

/-- In the final pass the pins are those of discovery. -/
theorem pins_before (h : Compiles options statements s last f c)
    (hpart : Parted last.turned f above step below) :
    step.before.symbols.pins = last.symbols.pins := by
  obtain ⟨journal, hturned⟩ := Session.turned_eq h.pass_last
  rw [pins_runAll_final h.pass_turned hpart.earlier, hturned]

/-- What the final pass finds pinned was pinned there in discovery. -/
theorem exists_pins (h : Compiles options statements s last f c)
    (hpart : Parted last.turned f above step below) {mode : Mode}
    (hpin : step.before.symbols.pins.find? step.place = some mode) :
    ∃ pinning ∈ discoverySteps options statements, pinning.pins = true ∧
      pinning.place = step.place ∧ pinning.mode? = some mode := by
  rw [h.pins_before hpart] at hpin
  rw [h.discoverySteps_eq]
  rcases exists_pins_of_find? h.discovery hpin with hbefore | hpinned
  · rw [(Session.isNew_of_create h.create).pins] at hbefore
    exact nomatch hbefore
  · exact hpinned

end Compiles

end Source

end Asm6502
