import Asm6502.Proofs.FinalImage
import Asm6502.Proofs.Placeholder
import Asm6502.Proofs.Reassembly

/-!
# What the syntax of an operand says about its mode

The mode of an instruction is not read off the syntax of its operand: it is selected by value, by what the
mnemonic has a form for, and by pins. Here is what each syntax comes to in a text that is accepted.

* `immediate_operand_encoded`: `#expr` is the low byte of `expr`, immediate if the mnemonic has that form, and
  otherwise an absolute address.
* `direct_operand_mode`: the width of `expr` follows from the labels above it, except where it is the byte
  part of a label that is still to come.
* `zeroPage_operand_value`: an operand in a zero page mode lies in the zero page, except behind an indexed
  indirection.
-/

namespace Asm6502

open Disassembly (operandValue)

-- ── Values and their bytes ──────────────────────────────────────────────────

theorem operandValue_lt (bytes : List UInt8) : operandValue bytes < 256 ^ bytes.length := by
  induction bytes with
  | nil => decide
  | cons b rest ih =>
      have hb := b.toNat_lt
      rw [operandValue, List.length_cons, Nat.pow_succ]
      omega

/-- A value of one byte leaves zeros behind that. -/
theorem bytes_of_operandValue {bytes : List UInt8} {b : UInt8} {k : Nat} (hsize : bytes.length = k + 1)
    (h : operandValue bytes = b.toNat) : bytes = b :: List.replicate k 0 := by
  have hzero : ∀ rest : List UInt8, operandValue rest = 0 → rest = List.replicate rest.length 0 := by
    intro rest
    induction rest with
    | nil => exact fun _ => rfl
    | cons c rest ih =>
        intro hvalue
        rw [operandValue] at hvalue
        have hc : c = 0 := by
          rw [← UInt8.toNat_inj]
          exact Nat.eq_zero_of_add_eq_zero_right hvalue
        have hrest : rest = List.replicate rest.length 0 := ih (by omega)
        rw [hc, List.length_cons, List.replicate_succ, ← hrest]
  cases bytes with
  | nil => cases hsize
  | cons c rest =>
      have hb := b.toNat_lt
      rw [operandValue] at h
      have hc : c = b := by
        rw [← UInt8.toNat_inj]
        omega
      have hrest := hzero rest (by omega)
      rw [Nat.succ.inj hsize] at hrest
      rw [hc, ← hrest]

namespace Source

-- ── Modes ───────────────────────────────────────────────────────────────────

/-- The mode of an operand below 256 that is not said to lie in the zero page. -/
def shortMode : Option Index → Mode
  | none => .immediate
  | some i => i.zeroPage

/-- The mode of an operand that is an address of two bytes. -/
def absoluteMode (index : Option Index) : Mode := index.elim .absolute (·.absolute)

/-- The mode of an operand that is written with a hash. -/
def immediateMode (m : Mnemonic) : Mode := if m.hasMode .immediate then .immediate else .absolute

/-- Without flags the value decides, if the mnemonic has a short form. -/
theorem selectMode_plain (m : Mnemonic) (x : Number) (index : Option Index) :
    selectMode m x index {} = .ok (if x < 256 ∧ m.hasMode (shortMode index) = true then shortMode index
      else absoluteMode index) := by
  by_cases hshort : x < 256 ∧ m.hasMode (shortMode index) = true
  · rw [if_pos hshort]
    cases index with
    | none => exact if_pos hshort
    | some i => exact if_pos (Or.inr hshort)
  · rw [if_neg hshort]
    cases index with
    | none => exact if_neg hshort
    | some i => exact if_neg (fun hcase => hcase.elim nofun hshort)

/-- A branch has but one mode. -/
theorem Step.mode?_of_branch {step : Step} {m : Mnemonic} {x : OperandSyntax} {o : Operand}
    (hrun : step.statement.run.exec step.before = (.ok (), step.after))
    (hb : step.statement.body = .instruction m (some x)) (hx : x.carried = some o)
    (hm : m.isBranch = true) : step.mode? = some .relative := by
  rw [exec_run_eq_ok, hb] at hrun
  obtain ⟨e, he, -⟩ := exec_instruction_eq_ok hrun
  obtain ⟨-, v, hv, hencode⟩ := Session.encode_eq_ok hx he
  rw [Session.encodeOperand, encodeWith, if_pos hm, encodeBranch] at hencode
  split at hencode
  · cases hencode
  · obtain ⟨d, hlookup, hencode⟩ := Check.bind_eq_ok hencode
    obtain ⟨b, -, hencode⟩ := Check.bind_eq_ok hencode
    rw [Step.mode?, Step.descriptor?_of_encode hb he, ← Except.ok.inj hencode, Option.map_some,
      (lookup_eq_ok hlookup).2.1]

/-- Without an operand the mode is the implied one. -/
theorem Step.mode?_of_bare {step : Step} {m : Mnemonic} {operand : Option OperandSyntax}
    (hrun : step.statement.run.exec step.before = (.ok (), step.after))
    (hb : step.statement.body = .instruction m operand) (hnone : operand.bind (·.carried) = none) :
    step.mode? = some .implied := by
  rw [exec_run_eq_ok, hb] at hrun
  obtain ⟨e, he, -⟩ := exec_instruction_eq_ok hrun
  have himplied : encodeIn m .implied ⟨0, false⟩ = .ok e := by
    cases operand with
    | none => exact he
    | some x =>
        rw [Option.bind_some] at hnone
        simp only [Session.encode, hnone] at he
        exact he
  rw [Step.mode?, Step.descriptor?_of_encode hb he, Option.map_some,
    (lookup_eq_ok (encodeIn_eq_ok himplied).1).2.1]

-- ── Immediate operands ──────────────────────────────────────────────────────

/-- At a place no other mode than the given one is pinned. -/
def PinnedOnly (steps : List Step) (place : Number) (mode : Mode) : Prop :=
  ∀ step ∈ steps, step.pins = true → step.place = place → step.mode? = some mode

instance (steps : List Step) (place : Number) (mode : Mode) : Decidable (PinnedOnly steps place mode) :=
  inferInstanceAs (Decidable (∀ step ∈ steps, step.pins = true → step.place = place →
    step.mode? = some mode))

section Accepted

variable {source : String} {options : Options} {statements : List Statement} {s last f : Session}
variable {c : Compilation} {above below : List Step} {step : Step} {m : Mnemonic} {o : Operand}

/-- What is written with a hash is below 256, so that the mnemonic alone decides, unless another mode is
    pinned. -/
theorem Compiles.mode?_of_immediate (h : Compiles options statements s last f c)
    (hpart : Parted last.turned f above step below)
    (hb : step.statement.body = .instruction m (some (.immediate o))) (hm : m.isBranch = false)
    (hpinned : PinnedOnly (discoverySteps options statements) step.place (immediateMode m)) :
    step.mode? = some (immediateMode m) := by
  obtain ⟨mode, v, hmode, hv, hchoose⟩ := Step.exists_mode hpart.run hb rfl hm
  rw [hmode]
  have hpin : step.before.symbols.pinFor step.before.pass step.place =
      step.before.symbols.pins.find? step.place := by
    rw [h.pass_step hpart]
    rfl
  rw [hpin] at hchoose
  cases hfound : step.before.symbols.pins.find? step.place with
  | some pinned =>
      rw [hfound] at hchoose
      obtain ⟨pinning, hmem, hpins, hplace, hsame⟩ := h.exists_pins hpart hfound
      rw [← Except.ok.inj hchoose, ← hsame]
      exact hpinned pinning hmem hpins hplace
  | none =>
      rw [hfound] at hchoose
      have hlow : v.amount < 256 := lt_256_of_bytePart hv (Or.inl ⟨o, rfl⟩)
      have hselect : selectMode m v.amount none {} = .ok mode := by
        have hsame : selectable (.low o) v = v.amount := by simp [selectable, Operand.isBytePart]
        rw [← hsame]
        exact hchoose
      rw [selectMode_plain] at hselect
      simp only [hlow, true_and] at hselect
      rw [← Except.ok.inj hselect]
      rfl

/-- In a text that is accepted `#expr` is assembled as the low byte of `expr`: as an immediate operand if the
    mnemonic has that form, and else as an absolute address. A branch takes the low byte for its target. -/
theorem immediate_operand_encoded (hparse : parse source = .ok statements)
    (h : (assemble source options).1 = .ok c)
    (hsteps : finalSteps options statements = above ++ step :: below)
    (hb : step.statement.body = .instruction m (some (.immediate o))) :
    (m.isBranch = true → step.mode? = some .relative) ∧
    (m.isBranch = false →
      PinnedOnly (discoverySteps options statements) step.place (immediateMode m) →
      ∃ d a w, lookup m (immediateMode m) = .ok d ∧ step.descriptor? = some d ∧
        step.place = .ofAddress a ∧
        o.valueIn (labelValue c.labels) step.place = .ok ⟨.ofAddress w, false⟩ ∧
        ((∀ later ∈ below, later.Spares a.toNat d.length) →
          c.memory.slice (.ofAddress a) (.ofInt ((a.toNat : Int) + d.length - 1)) =
            d.opcode :: lowByte w :: if m.hasMode .immediate then [] else [0])) := by
  obtain ⟨s, last, f, hrun⟩ := compiles_of_assemble hparse h
  have hpart := hrun.parted hsteps
  refine ⟨Step.mode?_of_branch hpart.run hb rfl, ?_⟩
  intro hm hpinned
  have hmode := hrun.mode?_of_immediate hpart hb hm hpinned
  have hcarries : step.mode? ≠ some .implied := by
    rw [hmode, immediateMode]
    split <;> decide
  obtain ⟨d, a, operand, hlookup, hholds⟩ :=
    exists_holds (hrun.pass_step hpart) hpart.run hb rfl hm hcarries
  have hform : d.mode = immediateMode m := by
    rw [Step.mode?, hholds.descriptor] at hmode
    exact Option.some.inj hmode
  obtain ⟨w, hw, hlow⟩ := Operand.value_of_part hholds.value
  refine ⟨d, a, w, ?_, hholds.descriptor, hholds.place, hrun.value_labels hpart hw, ?_⟩
  · rw [← hform]
    exact hlookup
  · intro hspared
    have hsize : (d.opcode :: operand).length = d.length := by
      rw [List.length_cons, hholds.size, Descriptor.length, Mode.length, Nat.add_comm]
    have hslice := slice_of_emits hpart hholds.emits (by rw [hsize]; exact hspared)
    rw [hsize] at hslice
    rw [hrun.result]
    refine hslice.trans ?_
    have hvalue : operandValue operand = (lowByte w).toNat := Number.ofNat_injective hlow
    have hcount : operand.length = (if m.hasMode .immediate then 0 else 1) + 1 := by
      rw [hholds.size, hform, immediateMode]
      split <;> rfl
    rw [bytes_of_operandValue hcount hvalue]
    split <;> rfl

/-- A byte part of a label that is still to come, written with a hash. -/
def hashSample : String := " LDX #<later\n INX\nlater: RTS\n"

/-- The statements of `hashSample`. -/
def hashStatements : List Statement := (parse hashSample).toOption.getD []

theorem forward_byte_is_immediate :
    parse hashSample = .ok hashStatements ∧
    ∃ c step below, (assemble hashSample {}).1 = .ok c ∧
      finalSteps {} hashStatements = [] ++ step :: below ∧
      step.statement.body = .instruction .ldx (some (.immediate (.low (.name "later")))) ∧
      PinnedOnly (discoverySteps {} hashStatements) step.place (immediateMode .ldx) ∧
      (∀ later ∈ below, later.Spares 0x1000 2) ∧
      ∃ d w, lookup .ldx .immediate = .ok d ∧
        (Operand.low (.name "later")).valueIn (labelValue c.labels) step.place =
          .ok ⟨.ofAddress w, false⟩ ∧
        c.memory.slice (.ofAddress 0x1000) (.ofInt 0x1001) = [d.opcode, lowByte w] := by
  have hparse : parse hashSample = .ok hashStatements := by decide +kernel
  have hstart : (assemble hashSample {}).1.map (·.start) = .ok 0x1000 := by decide +kernel
  have hfirst : (finalSteps {} hashStatements).head?.map (fun step => (step.statement.body, step.place)) =
      some (.instruction .ldx (some (.immediate (.low (.name "later")))), .ofAddress 0x1000) := by
    decide +kernel
  have hpinned : PinnedOnly (discoverySteps {} hashStatements) (.ofAddress 0x1000) .immediate := by
    decide +kernel
  have hspared : ∀ later ∈ (finalSteps {} hashStatements).tail, later.Spares 0x1000 2 := by
    decide +kernel
  refine ⟨hparse, ?_⟩
  obtain ⟨c, h⟩ := Check.exists_of_map hstart
  cases hsteps : finalSteps {} hashStatements with
  | nil =>
      rw [hsteps] at hfirst
      exact nomatch hfirst
  | cons step below =>
      rw [hsteps] at hfirst hspared
      obtain ⟨hb, hplace⟩ := Prod.mk.inj (Option.some.inj hfirst)
      rw [← hplace] at hpinned
      have hsplit : finalSteps {} hashStatements = [] ++ step :: below := hsteps
      obtain ⟨d, a, w, hlookup, -, hat, hvalue, hslice⟩ :=
        (immediate_operand_encoded hparse h hsplit hb).2 rfl hpinned
      have ha : a = 0x1000 := by
        rw [← UInt16.toNat_inj]
        exact Number.ofNat_injective (hat.symm.trans hplace)
      have hlength : d.length = 2 := by
        rw [Descriptor.length, (lookup_eq_ok hlookup).2.1]
        rfl
      rw [ha, hlength] at hslice
      exact ⟨c, step, below, h, rfl, hb, hpinned, hspared, d, w, hlookup, hvalue, hslice hspared⟩

/-- A hash behind a mnemonic that has no immediate form. -/
def hashedStore : String := " STA #$10\n"

/-- The store is accepted, and made at the address that was written as a value. -/
theorem hashed_store_is_absolute :
    (parse hashedStore).map (·.map (·.body)) =
      .ok [.instruction .sta (some (.immediate (.number 0x10)))] ∧
    (assemble hashedStore {}).1.map (·.memory.slice 0x1000 0x1002) = .ok [0x8D, 0x10, 0x00] := by
  decide +kernel

-- ── Direct operands ─────────────────────────────────────────────────────────

/-- The labels after a run are those before it and those that it defines. -/
theorem isSome_label_runAll {statements : List Statement} {s t : Session}
    (h : (runAll statements).exec s = (.ok (), t)) (name : String) :
    (t.symbols.labels.find? name).isSome = true ↔
      (s.symbols.labels.find? name).isSome = true ∨ name ∈ statements.filterMap (·.defines) := by
  induction statements generalizing s with
  | nil =>
      obtain rfl : s = t := congrArg Prod.snd h
      simp
  | cons st rest ih =>
      obtain ⟨_, s', hst, hrest⟩ := Action.exec_bind_eq_ok h
      rw [ih hrest]
      rcases labels_run hst with ⟨name', a, hdefines, hlabels⟩ | ⟨hnone, hlabels⟩
      · rw [List.filterMap_cons_some hdefines, List.mem_cons, hlabels, Table.find?_insert]
        by_cases hname : name' = name
        · simp [hname]
        · simp [hname, Ne.symm hname]
      · rw [List.filterMap_cons_none hnone, hlabels]

/-- All names of an operand are defined by the given steps. -/
def DefinedBy (steps : List Step) (o : Operand) : Prop :=
  ∀ name ∈ o.names, name ∈ steps.filterMap (·.statement.defines)

instance (steps : List Step) (o : Operand) : Decidable (DefinedBy steps o) :=
  inferInstanceAs (Decidable (∀ name ∈ o.names, _))

/-- In discovery a value is known exactly if its names are defined above. -/
theorem Compiles.known_iff (h : Compiles options statements s last f c)
    (hpart : Parted s last above step below) {v : Value} (hv : step.before.value o = .ok v) :
    v.pending = false ↔ DefinedBy above o := by
  have hnew := Session.isNew_of_create h.create
  have hpass : step.before.pass = .discovery := hpart.pass.trans hnew.pass
  rw [Operand.pending_eq_false_iff hv]
  refine forall₂_congr (fun name _ => ?_)
  have hlabel := isSome_label_runAll hpart.earlier name
  rw [hnew.labels, List.filterMap_map] at hlabel
  have hnone : (Table.empty.find? name : Option UInt16).isSome = false := rfl
  rw [hnone] at hlabel
  simp only [Bool.false_eq_true, false_or] at hlabel
  refine Iff.trans ?_ hlabel
  simp only [Symbols.lookup, hpass]
  cases step.before.symbols.labels.find? name with
  | none => simp
  | some a => simp

/-- What discovery makes of an operand comes out as the value that the labels of the result give. -/
theorem Compiles.foreseen (h : Compiles options statements s last f c)
    (hpart : Parted s last above step below) (o : Operand) :
    retracing.Agree Value.Foreseen (step.before.value o) (o.valueIn (labelValue c.labels) step.place) := by
  refine o.valueIn_agree Value.Foreseen.respected step.place (fun name => ?_)
  have hpass : step.before.pass = .discovery :=
    hpart.pass.trans (Session.isNew_of_create h.create).pass
  have hagain : last.turned.Leads f := (leads_runAll statements).of_exec h.final
  have hlabels : ∀ a, step.before.symbols.labels.find? name = some a → c.labels.find? name = some a := by
    intro a ha
    obtain ⟨journal, hturned⟩ := Session.turned_eq h.pass_last
    have hlast := hpart.leads.labels (Or.inl hpass) name a ha
    rw [h.result]
    refine hagain.labels (Or.inr h.drifts) name a ?_
    rw [hturned]
    exact hlast
  simp only [Symbols.lookup, labelValue, hpass]
  cases hfound : step.before.symbols.labels.find? name with
  | some a =>
      rw [hlabels a hfound]
      exact .ok ⟨rfl, fun _ => rfl⟩
  | none =>
      cases c.labels.find? name with
      | some a => exact .ok ⟨rfl, fun hno => by cases hno⟩
      | none => exact Or.inr (Or.inr (Or.inl ⟨_, rfl, rfl⟩))

/-- Each step of the final pass has its counterpart in discovery, with the same statements above. -/
theorem Compiles.exists_counterpart (h : Compiles options statements s last f c)
    (hfresh : ∀ c, options.cursor = some c → c.position = .ofAddress c.start)
    (hagree : PinsAgree (discoverySteps options statements))
    (hsteps : finalSteps options statements = above ++ step :: below) :
    ∃ earlier d later, Parted s last earlier d later ∧
      earlier.map (·.statement) = above.map (·.statement) ∧ d.Agrees step := by
  rw [h.discoverySteps_eq] at hagree
  rw [h.finalSteps_eq] at hsteps
  have hall := agrees_of_pinsAgree h hfresh hagree
  rw [hsteps] at hall
  have htake := List.forall₂_take_append _ _ _ hall
  obtain ⟨d, later, hd, -, hdrop⟩ := List.forall₂_cons_right_iff.mp (List.forall₂_drop_append _ _ _ hall)
  refine ⟨(completed statements s).take above.length, d, later, ?_, ?_, hd⟩
  · refine parted_of_completed h.discovery ?_
    rw [← hdrop, List.take_append_drop]
  · rw [← List.forall₂_eq_eq_eq, List.forall₂_map_left_iff, List.forall₂_map_right_iff]
    exact htake.imp (fun _ _ hstep => hstep.statement.symm)

/-- A mnemonic with an immediate form has one for the zero page as well. -/
theorem hasMode_zeroPage (m : Mnemonic) (h : m.hasMode .zeroPage = false) :
    m.hasMode .immediate = false := by
  have hall : ∀ m ∈ Mnemonic.all, m.hasMode .zeroPage = false → m.hasMode .immediate = false := by
    decide +kernel
  exact hall m m.mem_all h

/-- What is selected for a direct operand whose value is known. -/
theorem selectMode_known (m : Mnemonic) (index : Option Index) (n : Nat) :
    selectMode m (.ofNat n) index { zeroPage := inZeroPage m index ⟨.ofNat n, false⟩ } =
      .ok (if n < 256 ∧ m.hasMode (zeroPageMode index) = true then zeroPageMode index
        else absoluteMode index) := by
  by_cases hzero : n < 256 ∧ m.hasMode (zeroPageMode index) = true
  · rw [if_pos hzero]
    exact selectMode_zeroPage hzero.1 hzero.2
  · rw [if_neg hzero]
    refine selectMode_absolute ?_ (hasMode_zeroPage m)
    rcases Nat.lt_or_ge n 256 with hn | hn
    · exact Or.inr (Bool.eq_false_iff.mpr (fun hform => hzero ⟨hn, hform⟩))
    · exact Or.inl hn

/-- What is selected for a direct operand that is pending: it counts as wide unless it is a byte part. -/
theorem selectMode_pending {index : Option Index} {v : Value} (hv : v.pending = true) :
    selectMode m (selectable o v) index { zeroPage := inZeroPage m index v } =
      .ok (if (o.isBytePart = true ∧ v.amount < 256) ∧ m.hasMode (shortMode index) = true then
        shortMode index else absoluteMode index) := by
  have hflag : inZeroPage m index v = false := by simp [inZeroPage, hv]
  rw [hflag, selectMode_plain]
  cases hpart : o.isBytePart with
  | true => simp [selectable, hv, hpart]
  | false => simp [selectable, hv, hpart, not_maximum_lt]

theorem zeroPageMode_ne_immediate (index : Option Index) : zeroPageMode index ≠ .immediate := by
  rcases index with _ | (_ | _) <;> decide

theorem absoluteMode_ne_immediate (index : Option Index) : absoluteMode index ≠ .immediate := by
  rcases index with _ | (_ | _) <;> decide

/-- The mode of a direct operand in the final pass is the one that discovery selected, for a value that is
    known exactly if its names are defined above. -/
theorem Compiles.exists_selected {index : Option Index} (h : Compiles options statements s last f c)
    (hfresh : ∀ c, options.cursor = some c → c.position = .ofAddress c.start)
    (hagree : PinsAgree (discoverySteps options statements))
    (hsteps : finalSteps options statements = above ++ step :: below)
    (hb : step.statement.body = .instruction m (some (.direct o index))) (hm : m.isBranch = false) :
    ∃ v n mode, (v.pending = false ↔ DefinedBy above o) ∧
      ((∃ part, o = .low part) ∨ (∃ part, o = .high part) → v.amount < 256) ∧
      o.valueIn (labelValue c.labels) step.place = .ok ⟨.ofNat n, false⟩ ∧
      v.Foreseen ⟨.ofNat n, false⟩ ∧ step.mode? = some mode ∧
      selectMode m (selectable o v) index { zeroPage := inZeroPage m index v } = .ok mode := by
  obtain ⟨earlier, d, later, hfirst, hsame, hagrees⟩ := h.exists_counterpart hfresh hagree hsteps
  have hpart := h.parted hsteps
  obtain ⟨mode, v, hmode, hv, hchoose⟩ :=
    Step.exists_mode hfirst.run (by rw [← hagrees.statement]; exact hb) rfl hm
  have hstep : step.mode? = some mode := by
    rw [Step.mode?, hagrees.sameForm.2]
    exact hmode
  have hselect : selectMode m (selectable o v) index { zeroPage := inZeroPage m index v } = .ok mode := by
    have hpass : d.before.pass = .discovery :=
      hfirst.pass.trans (Session.isNew_of_create h.create).pass
    rw [hpass] at hchoose
    exact hchoose
  have hcarries : step.mode? ≠ some .implied := by
    rw [hstep]
    exact fun hno => selectMode_ne_implied hselect (Option.some.inj hno)
  obtain ⟨row, a, operand, -, hholds⟩ := exists_holds (h.pass_step hpart) hpart.run hb rfl hm hcarries
  have hvalue := h.value_labels hpart hholds.value
  have hknown : v.pending = false ↔ DefinedBy above o := by
    have hnames : earlier.filterMap (·.statement.defines) = above.filterMap (·.statement.defines) := by
      have := congrArg (List.filterMap Statement.defines) hsame
      rwa [List.filterMap_map, List.filterMap_map] at this
    rw [h.known_iff hfirst hv, DefinedBy, hnames, DefinedBy]
  have hforeseen : v.Foreseen ⟨.ofNat (operandValue operand), false⟩ := by
    have hagree := h.foreseen hfirst o
    rw [hv, show d.place = step.place from congrArg Cursor.position hagrees.before.symm, hvalue] at hagree
    rcases hagree.of_ok with ⟨u, hu, huv⟩ | ⟨fault, hno, -⟩
    · rw [Except.ok.inj hu]
      exact huv
    · cases hno
  exact ⟨v, _, mode, hknown, lt_256_of_bytePart hv, hvalue, hforeseen, hstep, hselect⟩

/-- In a text that is accepted, with no two instructions at one place, a direct operand is in the zero page
    form exactly if its labels are all defined above it, it is below 256 and the mnemonic has that form; in
    all other cases it is in the absolute form. Only a byte part of a label that is still to come is taken
    for short: without an index register it becomes an immediate operand. -/
theorem direct_operand_mode {index : Option Index}
    (hfresh : ∀ c, options.cursor = some c → c.position = .ofAddress c.start)
    (hparse : parse source = .ok statements) (h : (assemble source options).1 = .ok c)
    (hstarts : (instructionStarts (discoverySteps options statements)).Nodup)
    (hsteps : finalSteps options statements = above ++ step :: below)
    (hb : step.statement.body = .instruction m (some (.direct o index))) (hm : m.isBranch = false) :
    ∃ n, o.valueIn (labelValue c.labels) step.place = .ok ⟨.ofNat n, false⟩ ∧
      (DefinedBy above o ∨ o.isBytePart = false ∨ m.hasMode (shortMode index) = false →
        step.mode? = some (if DefinedBy above o ∧ n < 256 ∧ m.hasMode (zeroPageMode index) = true then
          zeroPageMode index else absoluteMode index) ∧ step.mode? ≠ some .immediate) ∧
      (¬DefinedBy above o → (∃ part, o = .low part) ∨ (∃ part, o = .high part) →
        m.hasMode (shortMode index) = true → step.mode? = some (shortMode index)) := by
  obtain ⟨s, last, f, hrun⟩ := compiles_of_assemble hparse h
  obtain ⟨v, n, mode, hknown, hbyte, hvalue, hforeseen, hmode, hselect⟩ :=
    hrun.exists_selected hfresh (pinsAgree_of_nodup hstarts) hsteps hb hm
  refine ⟨n, hvalue, ?_, ?_⟩
  · intro hregular
    have hchosen : mode = if DefinedBy above o ∧ n < 256 ∧ m.hasMode (zeroPageMode index) = true then
        zeroPageMode index else absoluteMode index := by
      by_cases hdefined : DefinedBy above o
      · -- known in discovery, so the same value decides in both passes
        obtain rfl := hforeseen.2 (hknown.mpr hdefined)
        have hsame := selectMode_known m index n
        rw [← Except.ok.inj (hsame.symm.trans hselect)]
        simp only [hdefined, true_and]
      · -- pending in discovery, and then pinned
        have hpending : v.pending = true := Bool.eq_true_of_not_eq_false (fun hno => hdefined (hknown.mp hno))
        have hwide : ¬((o.isBytePart = true ∧ v.amount < 256) ∧ m.hasMode (shortMode index) = true) := by
          rintro ⟨⟨hpart, -⟩, hshort⟩
          rcases hregular with hdefined' | hpart' | hshort'
          · exact hdefined hdefined'
          · rw [hpart] at hpart'
            exact nomatch hpart'
          · rw [hshort] at hshort'
            exact nomatch hshort'
        rw [selectMode_pending hpending, if_neg hwide] at hselect
        rw [if_neg (fun hno => hdefined hno.1), Except.ok.inj hselect]
    rw [hmode, hchosen]
    refine ⟨rfl, fun hno => ?_⟩
    split at hno
    · exact zeroPageMode_ne_immediate index (Option.some.inj hno)
    · exact absoluteMode_ne_immediate index (Option.some.inj hno)
  · intro hundefined hpart hshort
    have hpending : v.pending = true := Bool.eq_true_of_not_eq_false (fun hno => hundefined (hknown.mp hno))
    have hbytePart : o.isBytePart = true := by
      rcases hpart with ⟨part, rfl⟩ | ⟨part, rfl⟩ <;> rfl
    rw [selectMode_pending hpending, if_pos ⟨⟨hbytePart, hbyte hpart⟩, hshort⟩] at hselect
    rw [hmode, Except.ok.inj hselect]

/-- Operands in the zero page, above it, and still to come. -/
def directSample : String := "zp = $10\n LDA zp,X\n STA zp,Y\n LDX later\nlater: RTS\n"

/-- The statements of `directSample`. -/
def directStatements : List Statement := (parse directSample).toOption.getD []

theorem known_operand_is_short :
    parse directSample = .ok directStatements ∧
    (instructionStarts (discoverySteps {} directStatements)).Nodup ∧
    ∃ c above step below, (assemble directSample {}).1 = .ok c ∧
      finalSteps {} directStatements = above ++ step :: below ∧
      step.statement.body = .instruction .lda (some (.direct (.name "zp") (some .x))) ∧
      DefinedBy above (.name "zp") ∧
      ∃ n, (Operand.name "zp").valueIn (labelValue c.labels) step.place = .ok ⟨.ofNat n, false⟩ ∧
        step.mode? = some (if DefinedBy above (.name "zp") ∧ n < 256 ∧
          Mnemonic.lda.hasMode .zeroPageX = true then .zeroPageX else .absoluteX) := by
  have hparse : parse directSample = .ok directStatements := by decide +kernel
  have hstarts : instructionStarts (discoverySteps {} directStatements) =
      [0x1000, 0x1002, 0x1005, 0x1008] := by decide +kernel
  have hnodup : (instructionStarts (discoverySteps {} directStatements)).Nodup := by
    rw [hstarts]
    decide
  have hstart : (assemble directSample {}).1.map (·.start) = .ok 0x1000 := by decide +kernel
  have hsecond : ((finalSteps {} directStatements).drop 1).head?.map (·.statement.body) =
      some (.instruction .lda (some (.direct (.name "zp") (some .x)))) := by decide +kernel
  have hdefined : DefinedBy ((finalSteps {} directStatements).take 1) (.name "zp") := by decide +kernel
  refine ⟨hparse, hnodup, ?_⟩
  obtain ⟨c, h⟩ := Check.exists_of_map hstart
  cases hdrop : (finalSteps {} directStatements).drop 1 with
  | nil =>
      rw [hdrop] at hsecond
      exact nomatch hsecond
  | cons step below =>
      rw [hdrop] at hsecond
      have hb := Option.some.inj hsecond
      have hsteps : finalSteps {} directStatements =
          (finalSteps {} directStatements).take 1 ++ step :: below := by
        rw [← hdrop, List.take_append_drop]
      have hfresh : ∀ c, ({} : Options).cursor = some c → c.position = .ofAddress c.start :=
        fun c hc => nomatch hc
      obtain ⟨n, hvalue, hregular, -⟩ := direct_operand_mode hfresh hparse h hnodup hsteps hb rfl
      exact ⟨c, _, step, below, h, hsteps, hb, hdefined, n, hvalue, (hregular (Or.inl hdefined)).1⟩

/-- A byte part of a label that is still to come, without a hash. -/
def forwardByte : String := " LDA <fwd\nfwd: RTS\n"

/-- The load is no memory access: what stands behind it is taken for a value. -/
theorem forward_byte_part_is_immediate :
    (parse forwardByte).map (·.map (·.body)) = .ok [.instruction .lda (some (.direct (.low (.name "fwd")) none)),
      .label "fwd", .instruction .rts none] ∧
    (assemble forwardByte {}).1.map (·.memory.slice 0x1000 0x1002) = .ok [0xA9, 0x02, 0x60] := by
  decide +kernel

-- ── Operands in the zero page ───────────────────────────────────────────────

/-- A mode that carries an operand was given to one. -/
theorem Compiles.exists_holds_of_mode {mode : Mode} (h : Compiles options statements s last f c)
    (hpart : Parted last.turned f above step below) (hmode : step.mode? = some mode)
    (hcarries : mode ≠ .implied) (hnear : mode ≠ .relative) :
    ∃ m x o d a bytes, step.statement.body = .instruction m (some x) ∧ x.carried = some o ∧
      d.mode = mode ∧ step.Holds o d a bytes := by
  cases hb : step.statement.body with
  | label name | assignment name o | directive d args =>
      simp only [Step.mode?, Step.descriptor?, hb, Option.map_none] at hmode
      cases hmode
  | instruction m operand =>
      cases hx : operand.bind (·.carried) with
      | none =>
          rw [Step.mode?_of_bare hpart.run hb hx] at hmode
          exact absurd (Option.some.inj hmode).symm hcarries
      | some o =>
          obtain ⟨x, rfl, hx⟩ := Option.bind_eq_some_iff.mp hx
          cases hm : m.isBranch with
          | true =>
              rw [Step.mode?_of_branch hpart.run hb hx hm] at hmode
              exact absurd (Option.some.inj hmode).symm hnear
          | false =>
              have himplied : step.mode? ≠ some .implied := by
                rw [hmode]
                exact fun hno => hcarries (Option.some.inj hno)
              obtain ⟨d, a, bytes, -, hholds⟩ :=
                exists_holds (h.pass_step hpart) hpart.run hb hx hm himplied
              rw [Step.mode?, hholds.descriptor] at hmode
              exact ⟨m, x, o, d, a, bytes, rfl, hx, Option.some.inj hmode, hholds⟩

/-- In a text that is accepted the operand of a zero page mode is below 256, except in the two indexed
    indirections: there it is any word. -/
theorem zeroPage_operand_value {mode : Mode} (hparse : parse source = .ok statements)
    (h : (assemble source options).1 = .ok c) (hstep : step ∈ finalSteps options statements)
    (hmode : step.mode? = some mode)
    (hzero : mode ∈ [Mode.zeroPage, .zeroPageX, .zeroPageY, .indexedIndirect, .indirectIndexed]) :
    ∃ m x o n, step.statement.body = .instruction m (some x) ∧ x.carried = some o ∧
      o.valueIn (labelValue c.labels) step.place = .ok ⟨.ofNat n, false⟩ ∧ n < 65536 ∧
      (mode ≠ .indexedIndirect → mode ≠ .indirectIndexed → n < 256) := by
  obtain ⟨above, below, hsteps⟩ := List.append_of_mem hstep
  obtain ⟨s, last, f, hrun⟩ := compiles_of_assemble hparse h
  have hpart := hrun.parted hsteps
  have hmodes : ∀ mode ∈ [Mode.zeroPage, .zeroPageX, .zeroPageY, .indexedIndirect, .indirectIndexed],
      mode ≠ .implied ∧ mode ≠ .relative ∧ 256 ^ mode.width.size ≤ 65536 ∧
      (mode ≠ .indexedIndirect → mode ≠ .indirectIndexed → 256 ^ mode.width.size ≤ 256) := by
    decide
  obtain ⟨hcarries, hnear, hword, hbyte⟩ := hmodes mode hzero
  obtain ⟨m, x, o, d, a, bytes, hb, hx, hform, hholds⟩ :=
    hrun.exists_holds_of_mode hpart hmode hcarries hnear
  have hlt := operandValue_lt bytes
  rw [hholds.size, hform] at hlt
  refine ⟨m, x, o, operandValue bytes, hb, hx, hrun.value_labels hpart hholds.value, ?_, ?_⟩
  · exact Nat.lt_of_lt_of_le hlt hword
  · intro hindexed hindirect
    exact Nat.lt_of_lt_of_le hlt (hbyte hindexed hindirect)

/-- The last address of the zero page, with an index register. -/
def zeroPageSample : String := " LDX $FF,Y\n"

/-- The statements of `zeroPageSample`. -/
def zeroPageStatements : List Statement := (parse zeroPageSample).toOption.getD []

theorem last_zeroPage_operand_is_short :
    parse zeroPageSample = .ok zeroPageStatements ∧
    ∃ c step, (assemble zeroPageSample {}).1 = .ok c ∧ step ∈ finalSteps {} zeroPageStatements ∧
      step.mode? = some .zeroPageY ∧
      ∃ m x o n, step.statement.body = .instruction m (some x) ∧ x.carried = some o ∧
        o.valueIn (labelValue c.labels) step.place = .ok ⟨.ofNat n, false⟩ ∧ n < 256 := by
  have hparse : parse zeroPageSample = .ok zeroPageStatements := by decide +kernel
  have hstart : (assemble zeroPageSample {}).1.map (·.start) = .ok 0x1000 := by decide +kernel
  have hmodes : (finalSteps {} zeroPageStatements).map Step.mode? = [some .zeroPageY] := by decide +kernel
  refine ⟨hparse, ?_⟩
  obtain ⟨c, h⟩ := Check.exists_of_map hstart
  obtain ⟨step, rest, hsteps, hmode, -⟩ := List.map_eq_cons_iff.mp hmodes
  have hmem : step ∈ finalSteps {} zeroPageStatements := by
    rw [hsteps]
    exact List.mem_cons_self ..
  obtain ⟨m, x, o, n, hb, hx, hvalue, -, hshort⟩ :=
    zeroPage_operand_value hparse h hmem hmode (by decide)
  exact ⟨c, step, h, hmem, hmode, m, x, o, n, hb, hx, hvalue, hshort (by decide) (by decide)⟩

/-- An indexed indirection through an address that is not in the zero page. -/
def wideIndirection : String := " LDA ($1234),Y\n"

/-- The indirection is accepted, and followed by both bytes of the address. -/
theorem wide_indirection_is_accepted :
    (parse wideIndirection).map (·.map (·.body)) =
      .ok [.instruction .lda (some (.indirectIndexed (.number 0x1234)))] ∧
    (parse wideIndirection).map (fun statements => (finalSteps {} statements).map Step.mode?) =
      .ok [some .indirectIndexed] ∧
    (assemble wideIndirection {}).1.map (·.memory.slice 0x1000 0x1002) = .ok [0xB1, 0x34, 0x12] := by
  decide +kernel

end Accepted

end Source

end Asm6502
