import Asm6502.Proofs.Operations
import Asm6502.Proofs.Pins

/-!
# The final pass retraces discovery

In discovery a name may stand for a placeholder, in the final pass it stands for its address. Operands
thus have other values, and the modes chosen for them would differ too; but discovery has pinned the
modes of all instructions with pending operands. The final pass therefore takes the same way:

* `Abreast`: the sessions of the two passes before the same statement, seen from the end of discovery.
  They have the same cursor; the final one has all labels and pins, and may write wherever discovery wrote.
* `retrace_step`: a statement that discovery completes keeps the passes abreast, or the final pass fails with
  a fault that discovery cannot see (`Fault.isDeferred`).
* `retrace`: so it is for all statements, if no instruction meets a pin of another mode; such a pin there is
  only where two instructions start at one place.
-/

namespace Asm6502

open Asm6502.Action (Coupled Moves Parting)

-- ── Values ──────────────────────────────────────────────────────────────────

/-- Faults that rest on values which discovery does not know: a label never defined, a word, byte or
    branch out of range. -/
def Fault.isDeferred : Fault → Bool
  | .undefinedLabel _ => true
  | .valueRange _ => true
  | .byteRange _ => true
  | .branchOutOfRange _ _ _ _ => true
  | _ => false

theorem Fault.isLocated_of_isDeferred (fault : Fault) (h : fault.isDeferred = true) :
    fault.isLocated = false := by
  cases fault with
  | located p cause => exact nomatch h
  | _ => rfl

/-- Discovery may stop anywhere, the final pass only for a deferred fault. -/
def retracing : Parting where
  left _ := True
  right fault := fault.isDeferred = true

/-- What a value of discovery becomes in the final pass: known, and the same if it was known. -/
def Value.Foreseen (v w : Value) : Prop := w.pending = false ∧ (v.pending = false → w = v)

theorem Value.Foreseen.respected : Respected retracing Value.Foreseen where
  constant _ := ⟨rfl, fun _ => rfl⟩
  sum op := by
    rintro a a' b b' ⟨ha, hka⟩ ⟨hb, hkb⟩
    refine ⟨by simp [ha, hb], fun hknown => ?_⟩
    obtain ⟨hpa, hpb⟩ := Bool.or_eq_false_iff.mp hknown
    rw [hka hpa, hkb hpb]
  part half := by
    rintro v w ⟨hw, hknown⟩
    cases hv : v.pending with
    | false =>
        rw [hknown hv]
        cases hword : v.word with
        | ok x => exact .ok ⟨hv, fun _ => by rw [hv]⟩
        | error fault => exact Or.inr (Or.inl ⟨fault, rfl, trivial⟩)
    | true =>
        have hv' : v.word = .ok v.amount.lowWord := by rw [Value.word, if_pos hv]
        cases hx : w.amount.toAddress? with
        | some x =>
            have hw' : w.word = .ok x := by simp [Value.word, hw, checkWord, hx]
            rw [hv', hw']
            exact .ok ⟨hw, fun hf => by cases hf⟩
        | none =>
            have hw' : w.word = .error (.valueRange w.amount) := by simp [Value.word, hw, checkWord, hx]
            rw [hv', hw']
            exact Or.inr (Or.inr (Or.inl ⟨_, rfl, rfl⟩))

-- ── Sessions abreast ────────────────────────────────────────────────────────

/-- The session `f` of the final pass is as far as the session `d` of a discovery that ends in `last`. -/
structure Abreast (last d f : Session) : Prop where
  discovery : d.pass = .discovery
  final : f.pass = .final
  cursor : f.cursor = d.cursor
  scopes : f.scopes = d.scopes
  outerOwner : f.outerOwner = d.outerOwner
  labels : f.symbols.labels = last.symbols.labels
  pins : f.symbols.pins = last.symbols.pins
  drifts : f.symbols.drifts = []
  instructions : f.instructions = d.instructions
  written : f.written.map (·.address) = d.written.map (·.address)
  owned : ∀ w ∈ last.written, ∃ cell, f.memory.cell? w.address = some cell ∧
    cell.owner = w.cell.owner

namespace Abreast

variable {last d f : Session}

theorem owner (h : Abreast last d f) : f.owner = d.owner :=
  Session.SameScopes.owner ⟨h.scopes, h.outerOwner⟩

/-- References are of no concern, nor are the pins of discovery. -/
theorem of_symbols (h : Abreast last d f) {symbols symbols' : Symbols}
    (hlabels : symbols'.labels = f.symbols.labels) (hpins : symbols'.pins = f.symbols.pins)
    (hdrifts : symbols'.drifts = f.symbols.drifts) :
    Abreast last { d with symbols } { f with symbols := symbols' } where
  discovery := h.discovery
  final := h.final
  cursor := h.cursor
  scopes := h.scopes
  outerOwner := h.outerOwner
  labels := hlabels.trans h.labels
  pins := hpins.trans h.pins
  drifts := hdrifts.trans h.drifts
  instructions := h.instructions
  written := h.written
  owned := h.owned

/-- Both passes write, at the same address. -/
theorem stored (h : Abreast last d f) {w w' : Write} (haddress : w'.address = w.address)
    (hadmits : f.memory.Admits w') : Abreast last (d.stored w) (f.stored w') where
  discovery := h.discovery
  final := h.final
  cursor := h.cursor
  scopes := h.scopes
  outerOwner := h.outerOwner
  labels := h.labels
  pins := h.pins
  drifts := h.drifts
  instructions := h.instructions
  written := by
    show w'.address :: f.written.map (·.address) = w.address :: d.written.map (·.address)
    rw [haddress, h.written]
  owned x hx := by
    obtain ⟨cell, hcell, howner⟩ := h.owned x hx
    show ∃ cell, (f.memory.put w').cell? x.address = some cell ∧ cell.owner = x.cell.owner
    rw [Image.cell?_put]
    by_cases hsame : w'.address = x.address
    · rw [if_pos hsame]
      rw [← hsame] at hcell
      exact ⟨w'.cell, rfl, (hadmits cell hcell).symm.trans howner⟩
    · rw [if_neg hsame]
      exact ⟨cell, hcell, howner⟩

/-- Both cursors move to the same place. -/
theorem moved (h : Abreast last d f) (position : Number) :
    Abreast last { d with cursor := { d.cursor with position } }
      { f with cursor := { f.cursor with position } } :=
  { h with
    cursor := by
      show ({ f.cursor with position } : Cursor) = { d.cursor with position }
      rw [h.cursor] }

/-- A name that discovery knows stands for the same in the final pass; any other is known to the final
    pass by the end of discovery, or not at all. -/
theorem lookup (h : Abreast last d f) (hahead : d.Leads last) (name : String) :
    retracing.Agree Value.Foreseen (d.symbols.lookup d.pass name) (f.symbols.lookup f.pass name) := by
  unfold Symbols.lookup
  rw [h.labels, h.final, h.discovery]
  cases hd : d.symbols.labels.find? name with
  | some a =>
      rw [hahead.labels (Or.inl h.discovery) name a hd]
      exact .ok ⟨rfl, fun _ => rfl⟩
  | none =>
      cases hlast : last.symbols.labels.find? name with
      | some a => exact .ok ⟨rfl, fun hf => nomatch hf⟩
      | none => exact Or.inr (Or.inr (Or.inl ⟨_, rfl, rfl⟩))

theorem value (h : Abreast last d f) (hahead : d.Leads last) (o : Operand) :
    retracing.Agree Value.Foreseen (d.value o) (f.value o) := by
  unfold Session.value
  rw [h.cursor]
  exact o.valueIn_agree Value.Foreseen.respected d.cursor.position (h.lookup hahead)

end Abreast

-- ── The basic steps ─────────────────────────────────────────────────────────

section Steps

variable {last : Session}

theorem retrace_evaluate (o : Operand) :
    Coupled (·.Leads last) retracing (Abreast last) (Assembly.evaluate o) (Assembly.evaluate o)
      (fun v w d f => v.Foreseen w ∧ Abreast last d f) := by
  intro d f h hahead
  obtain ⟨references, hd⟩ := Assembly.exec_evaluate o d
  obtain ⟨references', hf⟩ := Assembly.exec_evaluate o f
  have hleads := Assembly.leads_evaluate o d
  have hvalue := h.value (hleads.trans _ _ _ hahead) o
  rw [hd, hf]
  rcases hvalue with ⟨v, w, hv, hw, hvw⟩ | hpart
  · refine Or.inl ⟨v, w, _, _, by rw [hv], by rw [hw], hvw, ?_⟩
    exact h.of_symbols rfl rfl rfl
  · exact Or.inr hpart

/-- Where discovery wrote, the final pass can write: only its byte may be none. -/
theorem retrace_storeByte (address v w : Number) :
    Coupled (·.Leads last) retracing (Abreast last) (Assembly.storeByte address v)
      (Assembly.storeByte address w) (fun _ _ => Abreast last) := by
  intro d f h hahead
  rcases Assembly.exec_storeByte_cases address v d with ⟨x, hx, -, hd⟩ | ⟨fault, hd⟩
  · rw [hd] at hahead
    obtain ⟨b, haddress, -, hcellx⟩ := Image.checkWrite_eq_ok hx
    obtain ⟨cell, hcell, howner⟩ := h.owned x (hahead.written.subset (List.mem_cons_self ..))
    rw [hcellx, ← h.owner] at howner
    cases hw : w.toByte? with
    | some b =>
        have hcheck := Image.checkWrite_of f.owner haddress hw
        have hadmits : f.memory.Admits ⟨x.address, b, f.owner⟩ := by
          intro other hother
          rw [hcell] at hother
          rw [← Option.some.inj hother]
          exact howner
        exact Or.inl ⟨(), (), _, _, hd, Assembly.exec_storeByte_of hcheck hadmits, h.stored rfl hadmits⟩
    | none =>
        refine Or.inr (Or.inr (Or.inl ⟨.byteRange w, ?_, rfl⟩))
        rw [Assembly.exec_storeByte]
        simp [Image.checkWrite, checkAddress, Image.checkByte, haddress, hw]
  · exact Or.inr (Or.inl ⟨fault, by rw [hd], trivial⟩)

/-- Both passes ask for the cursor, which is the same. -/
theorem retrace_position :
    Coupled (·.Leads last) retracing (Abreast last) Assembly.position Assembly.position
      (fun a b d f => b = a ∧ Abreast last d f) := by
  intro d f h _
  exact Or.inl ⟨_, _, d, f, rfl, rfl, congrArg (·.position) h.cursor, h⟩

theorem retrace_advance (count : Number) :
    Coupled (·.Leads last) retracing (Abreast last)
      (modify (fun s => { s with cursor := s.cursor.advance count }) : Assembly Unit)
      (modify (fun s => { s with cursor := s.cursor.advance count }) : Assembly Unit)
      (fun _ _ => Abreast last) := by
  intro d f h _
  refine Or.inl ⟨(), (), _, _, rfl, rfl, ?_⟩
  have hmoved := h.moved (d.cursor.position + count)
  rw [← h.cursor] at hmoved
  simpa only [Cursor.advance, h.cursor] using hmoved

theorem retrace_emitByte (v w : Number) :
    Coupled (·.Leads last) retracing (Abreast last) (Assembly.emitByte v) (Assembly.emitByte w)
      (fun _ _ => Abreast last) := by
  refine Coupled.bind retrace_position (fun a s hahead => ?_) (fun a b => ?_)
  · exact (Moves.bind .trans (Assembly.leads_storeByte a v) (fun _ => Assembly.leads_advance 1) s).trans
      _ _ _ hahead
  · rintro d f ⟨rfl, h⟩ hahead
    exact Coupled.bind (retrace_storeByte b v w)
      (fun _ s hahead => (Assembly.leads_advance 1 s).trans _ _ _ hahead)
      (fun _ _ => retrace_advance 1) d f h hahead

theorem retrace_byteOf (o : Operand) :
    Coupled (·.Leads last) retracing (Abreast last) (Assembly.byteOf o) (Assembly.byteOf o)
      (fun _ _ => Abreast last) := by
  refine Coupled.bind (retrace_evaluate o)
    (fun _ s hahead => (Assembly.leads_emitByte _ s).trans _ _ _ hahead) (fun v w => ?_)
  exact Coupled.weaken (retrace_emitByte _ _) (fun _ _ h => h.2) (fun _ _ _ _ h => h)

/-- What discovery had to know, it knew. -/
theorem retrace_known (o : Operand) (subject : Subject) :
    Coupled (·.Leads last) retracing (Abreast last) (Source.known o subject) (Source.known o subject)
      (fun a b d f => a = b ∧ Abreast last d f) := by
  refine Coupled.bind (retrace_evaluate o) (fun v s hahead => ?_) (fun v w => ?_)
  · exact (Source.followed_leads.demand v subject s).trans _ _ _ hahead
  · rintro d f ⟨⟨hw, hknown⟩, h⟩ -
    cases hv : v.pending with
    | true => exact Or.inr (Or.inl ⟨_, rfl, trivial⟩)
    | false =>
        rw [hknown hv, hv]
        exact Or.inl ⟨_, _, d, f, rfl, rfl, rfl, h⟩

/-- A label of discovery is known to the final pass, where defining it changes nothing. -/
theorem retrace_label (name : String) (address : Option Number) :
    Coupled (·.Leads last) retracing (Abreast last) (Assembly.label name address)
      (Assembly.label name address) (fun _ _ => Abreast last) := by
  intro d f h hahead
  unfold Assembly.label at hahead ⊢
  rw [Action.exec_bind_of_ok (Action.exec_get d)] at hahead ⊢
  rw [Action.exec_bind_of_ok (Action.exec_get f), h.cursor, h.final]
  rw [h.discovery] at hahead ⊢
  generalize address.getD d.cursor.position = x at hahead ⊢
  cases hd : (Symbols.define .discovery name x).exec d.symbols with
  | mk outcome symbols =>
      rw [Assembly.exec_onSymbols hd] at hahead ⊢
      cases outcome with
      | error fault => exact Or.inr (Or.inl ⟨fault, rfl, trivial⟩)
      | ok a =>
          obtain ⟨hx, -, rfl⟩ := Symbols.exec_define_discovery hd
          have hknown : f.symbols.labels.find? name = some a := by
            rw [h.labels]
            refine hahead.labels (Or.inl h.discovery) name a ?_
            show (d.symbols.labels.insert name a).find? name = some a
            rw [Table.find?_insert, if_pos rfl]
          rw [Assembly.exec_onSymbols (Symbols.exec_define_final hx hknown)]
          exact Or.inl ⟨a, a, _, _, rfl, rfl, h.of_symbols rfl rfl rfl⟩

theorem retrace_accompanied : Source.Accompanied (·.Leads last) retracing (Abreast last) where
  back s t hst hahead := hst.trans _ _ _ hahead
  alike _ := Or.inl trivial
  byteOf := retrace_byteOf
  known := retrace_known
  label := retrace_label
  org place := by
    intro d f h _
    exact Or.inl ⟨(), (), _, _, rfl, rfl, h.moved place⟩

/-- The bytes of an instruction; only their number matters. -/
theorem retrace_emission {bytes bytes' : List Number} (hlength : bytes'.length = bytes.length) :
    Coupled (·.Leads last) retracing (Abreast last)
      (do Action.each Assembly.emitByte bytes; Assembly.countInstruction)
      (do Action.each Assembly.emitByte bytes'; Assembly.countInstruction)
      (fun _ _ => Abreast last) := by
  have hpaired : List.Forall₂ (fun _ _ : Number => True) bytes bytes' := by
    rw [List.forall₂_iff_get]
    exact ⟨hlength.symm, fun _ _ _ => trivial⟩
  refine Coupled.bind (Coupled.each (Q := fun _ _ => True)
    (fun v s hahead => (Assembly.leads_emitByte v s).trans _ _ _ hahead)
    (fun v w _ => retrace_emitByte v w) hpaired)
    (fun _ s hahead => (Assembly.leads_countInstruction s).trans _ _ _ hahead) (fun _ _ => ?_)
  intro d f h _
  refine Or.inl ⟨(), (), _, _, rfl, rfl, { h with instructions := ?_ }⟩
  show f.instructions + 1 = d.instructions + 1
  rw [h.instructions]

end Steps

-- ── Instructions ────────────────────────────────────────────────────────────

/-- Encodings of the same form, of the same length. -/
def Encoded.SameForm (e e' : Encoded) : Prop :=
  e'.descriptor = e.descriptor ∧ e'.bytes.length = e.bytes.length

section Instructions

open Source (OperandSyntax)

variable {last d f : Session} {m : Mnemonic}

/-- A displacement that is not checked is always there. -/
theorem branchOffset_unchecked (m : Mnemonic) (cursor target : Number) :
    ∃ b, branchOffset m cursor target false = .ok b := by
  simp only [branchOffset, Bool.false_eq_true, false_and, if_false]
  split
  · exact ⟨_, rfl⟩
  · exact ⟨_, rfl⟩

/-- A branch differs in its displacement, which only the final pass checks. -/
theorem encodeBranch_retraced (cursor : Number) (v w : Value) (index : Option Index) :
    retracing.Agree Encoded.SameForm (encodeBranch .discovery cursor m v index)
      (encodeBranch .final cursor m w index) := by
  unfold encodeBranch
  cases index with
  | some i => exact Or.inr (Or.inl ⟨_, rfl, trivial⟩)
  | none =>
      cases hd : lookup m .relative with
      | error fault => exact Or.inr (Or.inl ⟨_, rfl, trivial⟩)
      | ok row =>
          obtain ⟨b, hb⟩ := branchOffset_unchecked m cursor v.amount
          rw [← show (Pass.discovery.isFinal && !v.pending) = false from rfl] at hb
          cases hoffset : branchOffset m cursor w.amount (Pass.final.isFinal && !w.pending) with
          | ok b' =>
              simp only [hb, Option.isSome_none, Bool.false_eq_true, if_false, Check.ok_bind]
              exact .ok ⟨rfl, rfl⟩
          | error fault =>
              refine Or.inr (Or.inr (Or.inl ⟨fault, by simp, ?_⟩))
              unfold branchOffset at hoffset
              simp only at hoffset
              split at hoffset
              · rw [← Except.error.inj hoffset]
                rfl
              · split at hoffset <;> exact nomatch hoffset

/-- In a given mode encodings have the same form; a known word may be out of range. -/
theorem encodeIn_retraced {mode : Mode} {v w : Value} {e : Encoded} (hw : w.pending = false)
    (he : encodeIn m mode v = .ok e) :
    retracing.Agree Encoded.SameForm (.ok e) (encodeIn m mode w) := by
  obtain ⟨hd, hb⟩ := encodeIn_eq_ok he
  unfold encodeIn
  rw [hd, Check.ok_bind]
  cases hb' : encode e.descriptor w with
  | ok bytes =>
      refine .ok ⟨rfl, ?_⟩
      rw [length_of_encode hb]
      exact length_of_encode hb'
  | error fault =>
      refine Or.inr (Or.inr (Or.inl ⟨fault, rfl, ?_⟩))
      unfold encode at hb'
      split at hb'
      · cases hb'
      · cases hb'
      · rw [Value.word, hw, if_neg (by decide), checkWord] at hb'
        split at hb'
        · cases hb'
        · rw [← Except.error.inj hb']
          rfl

/-- A pin overrides what the final pass would choose: in the mode of discovery it gives the same form.
    Without a pin the operand was known, and the final pass chooses as discovery did. -/
theorem encodeOperand_retraced (h : Abreast last d f) {o : Operand} {v w : Value}
    (hvw : v.Foreseen w) {a b : Option Index × Flags} (hindex : b.1 = a.1)
    (hsame : v.pending = false → b = a) {e : Encoded} (he : d.encodeOperand m o v a = .ok e)
    (hset : (v.pending && !m.isBranch) = true →
      (f.symbols.pins.find? f.cursor.position).isSome = true)
    (hown : m.isBranch = false → ∀ mode, f.symbols.pins.find? f.cursor.position = some mode →
      e.descriptor.mode = mode) :
    retracing.Agree Encoded.SameForm (.ok e) (f.encodeOperand m o w b) := by
  obtain ⟨hw, hknown⟩ := hvw
  unfold Session.encodeOperand at he ⊢
  rw [h.discovery] at he
  rw [h.final, show f.symbols.pinFor .final f.cursor.position =
    f.symbols.pins.find? f.cursor.position from rfl]
  generalize f.symbols.pins.find? f.cursor.position = pin at hset hown ⊢
  rw [h.cursor, hindex]
  unfold encodeWith at he ⊢
  cases hm : m.isBranch with
  | true =>
      rw [hm, if_pos rfl] at he
      rw [if_pos rfl, ← he]
      exact encodeBranch_retraced d.cursor.position v w _
  | false =>
      rw [hm, if_neg (by decide)] at he
      rw [if_neg (by decide)]
      cases pin with
      | none =>
          have hv : v.pending = false := by
            cases hp : v.pending with
            | false => rfl
            | true =>
                rw [hp, hm] at hset
                exact nomatch hset rfl
          rw [hknown hv, ← hindex, hsame hv]
          rw [hsame hv] at hindex
          exact Or.inl ⟨e, e, rfl, he, rfl, rfl⟩
      | some mode =>
          obtain ⟨chosen, -, he⟩ := Check.bind_eq_ok he
          have hmode : e.descriptor.mode = chosen := (lookup_eq_ok (encodeIn_eq_ok he).1).2.1
          rw [← hmode, hown hm mode rfl] at he
          exact encodeIn_retraced hw he

theorem encode_retraced (h : Abreast last d f) (hahead : d.Leads last)
    {operand : Option OperandSyntax} {e : Encoded} (he : d.encode m operand = .ok e)
    (hset : d.pins m operand = true → (f.symbols.pins.find? f.cursor.position).isSome = true)
    (hown : (!m.isBranch && (operand.bind (·.carried)).isSome) = true →
      ∀ mode, f.symbols.pins.find? f.cursor.position = some mode → e.descriptor.mode = mode) :
    retracing.Agree Encoded.SameForm (.ok e) (f.encode m operand) := by
  have hbare : ∀ operand', operand'.bind (·.carried) = none → d.encode m operand' = .ok e →
      retracing.Agree Encoded.SameForm (.ok e) (f.encode m operand') := by
    intro operand' hnone he'
    refine Or.inl ⟨e, e, rfl, ?_, rfl, rfl⟩
    rcases operand' with _ | x
    · exact he'
    · cases x <;> first | exact he' | exact nomatch hnone
  rcases operand with _ | x
  · exact hbare none rfl he
  · cases hx : x.carried with
    | none => exact hbare (some x) hx he
    | some o =>
        obtain ⟨ht, v, hv, he⟩ := Session.encode_eq_ok hx he
        rw [f.encode_of_takesOperand hx ht]
        have hpins : d.pins m (some x) = (v.pending && !m.isBranch) := by
          simp [Session.pins, hx, hv]
        rw [hpins] at hset
        have hheeds : m.isBranch = false →
            (!m.isBranch && ((some x).bind (·.carried)).isSome) = true := by
          intro hm
          simp [hm, hx]
        have hvalue := h.value hahead o
        rw [hv] at hvalue
        rcases hvalue.of_ok with ⟨w, hw, hvw⟩ | ⟨fault, hf, hfault⟩
        · rw [hw]
          refine encodeOperand_retraced h hvw ?_ (fun hknown => ?_) he hset (fun hm => hown (hheeds hm))
          · cases x <;> rfl
          · rw [hvw.2 hknown]
        · rw [hf]
          exact Or.inr (Or.inr (Or.inl ⟨fault, rfl, hfault⟩))

end Instructions

-- ── Statements ──────────────────────────────────────────────────────────────

/-- No value is pending in the final pass. -/
theorem Session.pending_of_final {s : Session} (h : s.pass = .final) {o : Operand} {v : Value}
    (hv : s.value o = .ok v) : v.pending = false := by
  unfold Session.value at hv
  rw [h] at hv
  exact Operand.pending_of_final hv

/-- The final pass pins nothing. -/
theorem Session.pins_final {s : Session} (h : s.pass = .final) (m : Mnemonic)
    (operand : Option Source.OperandSyntax) : s.pins m operand = false := by
  unfold Session.pins
  split
  · rfl
  · split
    · rename_i v hv
      rw [s.pending_of_final h hv]
      rfl
    · rfl

namespace Source

/-- The name that a statement defines, if any. -/
def Statement.defines (st : Statement) : Option String :=
  match st.body with
  | .label name => some name
  | .assignment name _ => some name
  | _ => none

/-- What two passes have in common in a statement that both completed: where it started and ended, the
    address of the label it defines, the addresses it wrote to in their order, and the form of its
    instruction. -/
structure Step.Agrees (d f : Step) : Prop where
  statement : f.statement = d.statement
  before : f.before.cursor = d.before.cursor
  after : f.after.cursor = d.after.cursor
  label : ∀ name, d.statement.defines = some name → ∃ a,
    d.after.symbols.labels.find? name = some a ∧ f.after.symbols.labels.find? name = some a
  written : ∃ ws ws', d.after.written = ws ++ d.before.written ∧
    f.after.written = ws' ++ f.before.written ∧ ws'.map (·.address) = ws.map (·.address)
  form : ∀ m operand, d.statement.body = .instruction m operand → ∃ e e',
    ((encoding m operand).exec d.before).1 = .ok e ∧ ((encoding m operand).exec f.before).1 = .ok e' ∧
      e'.descriptor = e.descriptor

variable {last d d' f f' : Session}

/-- An instruction that discovery completes: if it meets no pin of another mode, the final pass encodes it
    in the same form and emits as many bytes. -/
theorem retrace_instruction {m : Mnemonic} {operand : Option OperandSyntax} (h : Abreast last d f)
    (hd : (Statement.Body.run (.instruction m operand)).exec d = (.ok (), d')) (hahead : d'.Leads last)
    (hkept : (d'.symbols.pins.find? d.cursor.position).isSome = true →
      (last.symbols.pins.find? d.cursor.position).isSome = true)
    (hown : (!m.isBranch && (operand.bind (·.carried)).isSome) = true → ∀ e mode,
      d.encode m operand = .ok e → last.symbols.pins.find? d.cursor.position = some mode →
      e.descriptor.mode = mode) :
    (∃ f' e e', (Statement.Body.run (.instruction m operand)).exec f = (.ok (), f') ∧
      Abreast last d' f' ∧ d.encode m operand = .ok e ∧ f.encode m operand = .ok e' ∧ e.SameForm e') ∨
    ∃ fault f', (Statement.Body.run (.instruction m operand)).exec f = (.error fault, f') ∧
      fault.isDeferred = true := by
  obtain ⟨e, he, hrest⟩ := exec_instruction_eq_ok hd
  have hset : d.pins m operand = true →
      (f.symbols.pins.find? f.cursor.position).isSome = true := by
    intro hp
    obtain ⟨e₁, -, hpins⟩ := pins_instruction hd
    rw [h.pins, h.cursor]
    refine hkept ?_
    rw [hpins, if_pos hp, Table.find?_insert, if_pos rfl]
    rfl
  have hback : d.Leads last := (leads_body _ d).trans _ _ _ (by rw [hd]; exact hahead)
  rw [run_instruction]
  rcases (encode_retraced h hback he hset (fun hheeds mode hmode => hown hheeds e mode he
      (by rw [← h.pins, ← h.cursor]; exact hmode))).of_ok with
    ⟨e', he', hform⟩ | ⟨fault, hfault, hdeferred⟩
  · rw [Action.exec_bind_of_ok (exec_encoding_of_ok he')]
    have hencoded : Abreast last (d.encoded m e operand) (f.encoded m e' operand) := by
      obtain ⟨references, hde⟩ := d.encoded_eq m e operand
      obtain ⟨references', hfe⟩ := f.encoded_eq m e' operand
      rw [hde, hfe, f.pins_final h.final]
      exact h.of_symbols rfl rfl rfl
    rcases (retrace_emission hform.2).of_ok hencoded hrest hahead with
      ⟨_, f', hf', hend⟩ | ⟨fault, f', hf', hdeferred⟩
    · exact Or.inl ⟨f', e, e', hf', hend, he, he', hform⟩
    · exact Or.inr ⟨fault, f', hf', hdeferred⟩
  · obtain ⟨f', hrun⟩ := exec_encoding_of_error hfault
    exact Or.inr ⟨fault, f', Action.exec_bind_of_error hrun, hdeferred⟩

/-- Sessions with the same labels. -/
def SameLabels (s t : Session) : Prop := t.symbols.labels = s.symbols.labels

theorem followed_sameLabels : FollowedByDirectives SameLabels where
  refl _ := rfl
  trans _ _ _ h h' := h'.trans h
  evaluate o s := by
    obtain ⟨references, h⟩ := Assembly.exec_evaluate o s
    rw [h]
    rfl
  emitByte v s := by
    rw [Assembly.exec_emitByte]
    split
    · rfl
    · split <;> rfl
  org _ _ := rfl

/-- A completed definition puts its label into the table. -/
theorem labels_label {name : String} {address : Option Number} {s t : Session}
    (h : (do let _ ← Assembly.label name address : Assembly Unit).exec s = (.ok (), t)) :
    ∃ a, t.symbols.labels = s.symbols.labels.insert name a := by
  obtain ⟨a, s', hdefine, hend⟩ := Action.exec_bind_eq_ok h
  obtain rfl : s' = t := congrArg Prod.snd hend
  rw [Assembly.label, Action.exec_bind_of_ok (Action.exec_get s)] at hdefine
  cases hsymbols : (Symbols.define s.pass name (address.getD s.cursor.position)).exec s.symbols with
  | mk outcome symbols =>
      rw [Assembly.exec_onSymbols hsymbols] at hdefine
      obtain ⟨rfl, rfl⟩ := Prod.mk.inj hdefine
      obtain ⟨-, hlabels, -, -⟩ := Symbols.exec_define_eq_ok hsymbols
      exact ⟨a, hlabels⟩

/-- The labels that a completed statement leaves: the one it defines, and those that were there. -/
theorem labels_run {st : Statement} {s t : Session} (h : st.run.exec s = (.ok (), t)) :
    (∃ name a, st.defines = some name ∧ t.symbols.labels = s.symbols.labels.insert name a) ∨
      (st.defines = none ∧ t.symbols.labels = s.symbols.labels) := by
  rw [exec_run_eq_ok] at h
  cases hb : st.body with
  | label name =>
      rw [hb] at h
      obtain ⟨a, hlabels⟩ := labels_label h
      exact Or.inl ⟨name, a, by simp only [Statement.defines, hb], hlabels⟩
  | assignment name o =>
      rw [hb] at h
      obtain ⟨address, s', hknown, hrest⟩ := Action.exec_bind_eq_ok h
      have hsame : SameLabels s s' := (followed_sameLabels.known o _).of_exec hknown
      obtain ⟨a, hlabels⟩ := labels_label hrest
      rw [hsame] at hlabels
      exact Or.inl ⟨name, a, by simp only [Statement.defines, hb], hlabels⟩
  | instruction m operand =>
      rw [hb] at h
      obtain ⟨e, -, hrest⟩ := exec_instruction_eq_ok h
      obtain ⟨references, hencoded⟩ := s.encoded_eq m e operand
      have hsame : SameLabels _ t := (followed_sameLabels.emission (fun _ => rfl) e.bytes).of_exec hrest
      rw [hencoded] at hsame
      exact Or.inr ⟨by simp only [Statement.defines, hb], hsame⟩
  | directive d args =>
      rw [hb] at h
      have hsame : SameLabels s t := (followed_sameLabels.directive d args).of_exec h
      exact Or.inr ⟨by simp only [Statement.defines, hb], hsame⟩

/-- A completed definition leaves its label in the table. -/
theorem exists_label_of_defines {st : Statement} {name : String}
    (hst : st.run.exec d = (.ok (), d')) (hname : st.defines = some name) :
    ∃ a, d'.symbols.labels.find? name = some a := by
  rcases labels_run hst with ⟨name', a, hdefines, hlabels⟩ | ⟨hnone, -⟩
  · obtain rfl : name = name' := Option.some.inj (hname.symm.trans hdefines)
    exact ⟨a, by rw [hlabels, Table.find?_insert, if_pos rfl]⟩
  · rw [hname] at hnone
    exact nomatch hnone

/-- What a step of the final pass has in common with discovery, if the passes are abreast before and after
    it. -/
theorem agrees_of_abreast {st : Statement} (h : Abreast last d f) (h' : Abreast last d' f')
    (hst : st.run.exec d = (.ok (), d')) (hst' : st.run.exec f = (.ok (), f')) (hahead : d'.Leads last)
    (hform : ∀ m operand, st.body = .instruction m operand → ∃ e e', d.encode m operand = .ok e ∧
      f.encode m operand = .ok e' ∧ e.SameForm e') : Step.Agrees ⟨st, d, d'⟩ ⟨st, f, f'⟩ where
  statement := rfl
  before := h.cursor
  after := h'.cursor
  label name hname := by
    obtain ⟨a, ha⟩ := exists_label_of_defines hst hname
    refine ⟨a, ha, ?_⟩
    rw [h'.labels]
    exact hahead.labels (Or.inl h'.discovery) name a ha
  written := by
    obtain ⟨ws, hws⟩ := ((leads_run st).of_exec hst : d.Leads d').written
    obtain ⟨ws', hws'⟩ := ((leads_run st).of_exec hst' : f.Leads f').written
    refine ⟨ws, ws', hws.symm, hws'.symm, ?_⟩
    have hmap := h'.written
    rw [← hws, ← hws', List.map_append, List.map_append, h.written] at hmap
    exact List.append_cancel_right hmap
  form m operand hb := by
    obtain ⟨e, e', he, he', hsame⟩ := hform m operand hb
    refine ⟨e, e', ?_, ?_, hsame.1⟩
    · rw [exec_encoding_of_ok he]
    · rw [exec_encoding_of_ok he']

/-- A deferred fault gets the position of its statement. -/
theorem exec_run_of_deferred {st : Statement} {fault : Fault}
    (h : st.body.run.exec f = (.error fault, f')) (hdeferred : fault.isDeferred = true) :
    st.run.exec f = (.error (.located st.position fault), f') := by
  rw [exec_run, h]
  show (Except.error (atStatement st.position fault), f') = _
  rw [atStatement, fault.isLocated_of_isDeferred hdeferred, if_neg (by decide)]

/-- One statement: the passes stay abreast, or the final pass fails with a deferred fault. -/
theorem retrace_step {st : Statement} (h : Abreast last d f) (hst : st.run.exec d = (.ok (), d'))
    (hahead : d'.Leads last)
    (hkept : ∀ k, (d'.symbols.pins.find? k).isSome = true → (last.symbols.pins.find? k).isSome = true)
    (hown : (⟨st, d, d'⟩ : Step).OwnPin last.symbols.pins) :
    (∃ f', st.run.exec f = (.ok (), f') ∧ Abreast last d' f' ∧ Step.Agrees ⟨st, d, d'⟩ ⟨st, f, f'⟩) ∨
      ∃ cause f', st.run.exec f = (.error (.located st.position cause), f') ∧
        cause.isDeferred = true := by
  have hbody := exec_run_eq_ok.mp hst
  by_cases hi : st.isInstruction = true
  · obtain ⟨m, operand, hb⟩ := exists_of_isInstruction hi
    have hmode : (!m.isBranch && (operand.bind (·.carried)).isSome) = true → ∀ e mode,
        d.encode m operand = .ok e → last.symbols.pins.find? d.cursor.position = some mode →
        e.descriptor.mode = mode := by
      intro hheeds e mode he hpin
      have hstep := hown (by simp only [Step.heedsPin, hb]; exact hheeds) mode hpin
      rw [Step.mode?, Step.descriptor?_of_encode hb he] at hstep
      exact Option.some.inj hstep
    rw [hb] at hbody
    rcases retrace_instruction h hbody hahead (hkept _) hmode with
      ⟨f', e, e', hf', h', he, he', hform⟩ | ⟨fault, f', hf', hdeferred⟩
    · rw [← hb] at hf'
      have hrun := exec_run_eq_ok.mpr hf'
      refine Or.inl ⟨f', hrun, h', agrees_of_abreast h h' hst hrun hahead (fun m' operand' hb' => ?_)⟩
      rw [hb] at hb'
      obtain ⟨rfl, rfl⟩ := Statement.Body.instruction.inj hb'
      exact ⟨e, e', he, he', hform⟩
    · rw [← hb] at hf'
      exact Or.inr ⟨fault, f', exec_run_of_deferred hf' hdeferred, hdeferred⟩
  · have hnone : ∀ m operand, st.body ≠ .instruction m operand := by
      intro m operand hb
      exact hi (by unfold Statement.isInstruction; rw [hb])
    have hcoupled : Coupled (·.Leads last) retracing (Abreast last) st.body.run st.body.run
        (fun _ _ => Abreast last) :=
      retrace_accompanied.body (fun m operand hb => absurd hb (hnone m operand))
    rcases hcoupled.of_ok h hbody hahead with ⟨_, f', hf', h'⟩ | ⟨fault, f', hf', hdeferred⟩
    · have hrun := exec_run_eq_ok.mpr hf'
      exact Or.inl ⟨f', hrun, h',
        agrees_of_abreast h h' hst hrun hahead (fun m operand hb => absurd hb (hnone m operand))⟩
    · exact Or.inr ⟨fault, f', exec_run_of_deferred hf' hdeferred, hdeferred⟩

/-- All statements: what the final pass completes, it does as discovery did; it stays abreast to the end,
    or fails with a deferred fault. -/
theorem retrace {statements : List Statement} (h : Abreast last d f)
    (hd : (runAll statements).exec d = (.ok (), last))
    (hown : ∀ step ∈ completed statements d, step.OwnPin last.symbols.pins) :
    (∃ matching, matching <+: completed statements d ∧
      List.Forall₂ Step.Agrees matching (completed statements f)) ∧
    ((∃ f', (runAll statements).exec f = (.ok (), f') ∧ Abreast last last f') ∨
      ∃ p cause f', (runAll statements).exec f = (.error (.located p cause), f') ∧
        cause.isDeferred = true) := by
  induction statements generalizing d f with
  | nil =>
      obtain rfl : d = last := congrArg Prod.snd hd
      exact ⟨⟨[], List.prefix_refl _, .nil⟩, Or.inl ⟨f, rfl, h⟩⟩
  | cons st rest ih =>
      obtain ⟨_, d', hst, hrest⟩ := Action.exec_bind_eq_ok hd
      have hahead : d'.Leads last := (leads_runAll rest).of_exec hrest
      rw [completed_cons_ok hst] at hown
      rcases retrace_step h hst hahead (fun k => isSome_pin_runAll hrest)
        (hown _ (List.mem_cons_self ..)) with ⟨f', hf', h', hagrees⟩ | ⟨cause, f', hf', hdeferred⟩
      · obtain ⟨⟨matching, hprefix, hall⟩, hend⟩ :=
          ih h' hrest (fun step hstep => hown step (List.mem_cons_of_mem _ hstep))
        rw [completed_cons_ok hst, completed_cons_ok hf',
          show (runAll (st :: rest)).exec f = (runAll rest).exec f' from Action.exec_bind_of_ok hf']
        exact ⟨⟨_ :: matching, List.cons_prefix_cons.mpr ⟨rfl, hprefix⟩, .cons hagrees hall⟩, hend⟩
      · rw [completed_cons_error hf']
        exact ⟨⟨[], List.nil_prefix, .nil⟩,
          Or.inr ⟨st.position, cause, f', Action.exec_bind_of_error hf', hdeferred⟩⟩

end Source

-- ── From one pass to the other ──────────────────────────────────────────────

namespace Session

/-- What a session did in its pass. -/
def statistics (s : Session) : PassStatistics :=
  ⟨s.instructions, s.written.length, s.cursor.position⟩

/-- The session with which the final pass begins, after a discovery that ended in `s`. -/
def turned (s : Session) : Session := (Assembly.turnOver.exec s).2

/-- What a new session is like. -/
structure IsNew (s : Session) : Prop where
  pass : s.pass = .discovery
  instructions : s.instructions = 0
  written : s.written = []
  labels : s.symbols.labels = .empty
  references : s.symbols.references = []
  pins : s.symbols.pins = .empty
  drifts : s.symbols.drifts = []

theorem isNew_of_create {options : Options} {s : Session} (h : Session.create options = .ok s) :
    s.IsNew := by
  obtain ⟨cursor, -, h⟩ := Check.bind_eq_ok h
  obtain ⟨memory, -, h⟩ := Check.bind_eq_ok h
  obtain ⟨symbols, hsymbols, h⟩ := Check.bind_eq_ok h
  have hempty : symbols = ⟨.empty, [], .empty, [], symbols.placeholder⟩ := by
    unfold Symbols.create at hsymbols
    simp only at hsymbols
    split at hsymbols
    · split at hsymbols
      · exact nomatch hsymbols
      · rw [← Except.ok.inj hsymbols]
    · exact nomatch hsymbols
  rw [← Except.ok.inj h, hempty]
  exact ⟨rfl, rfl, rfl, rfl, rfl, rfl, rfl⟩

/-- A cursor that was not moved before stands at its start. -/
theorem cursor_of_create {options : Options} {s : Session}
    (hfresh : ∀ c, options.cursor = some c → c.position = .ofAddress c.start)
    (h : Session.create options.withStart = .ok s) :
    s.cursor.position = .ofAddress s.cursor.start := by
  obtain ⟨cursor, hcursor, h⟩ := Check.bind_eq_ok h
  obtain ⟨memory, -, h⟩ := Check.bind_eq_ok h
  obtain ⟨symbols, -, h⟩ := Check.bind_eq_ok h
  rw [← Except.ok.inj h]
  show cursor.position = .ofAddress cursor.start
  unfold Options.firstCursor Options.withStart at hcursor
  cases hc : options.cursor with
  | some c =>
      simp only [hc] at hcursor
      rw [← Except.ok.inj hcursor]
      exact hfresh c hc
  | none =>
      simp only [hc] at hcursor
      obtain ⟨start, -, hmade⟩ := Check.bind_eq_ok hcursor
      rw [← Except.ok.inj hmade]

/-- Between the passes the counters are cleared and the cursor returns to its start. -/
theorem exec_turnOver {s : Session} (h : s.pass = .discovery) :
    ∃ journal, Assembly.turnOver.exec s = (.ok s.statistics, { s with
      pass := .final, cursor := s.cursor.reset, instructions := 0, written := [], journal }) := by
  unfold Assembly.turnOver Assembly.endPass Assembly.reportIfVerbose Assembly.report Assembly.beginFinal
  cases hv : s.verbose with
  | true => exact ⟨_, by simp [Action.exec_bind, hv, h]; exact ⟨rfl, rfl⟩⟩
  | false => exact ⟨s.journal, by simp [Action.exec_bind, hv, h]; rfl⟩

theorem turned_eq {s : Session} (h : s.pass = .discovery) :
    ∃ journal, s.turned = { s with
      pass := .final, cursor := s.cursor.reset, instructions := 0, written := [], journal } := by
  obtain ⟨journal, hturn⟩ := exec_turnOver h
  refine ⟨journal, ?_⟩
  unfold turned
  rw [hturn]

/-- The end of a compilation: it fails only if the passes differ. -/
theorem exec_conclude (s : Session) (discovery : PassStatistics) :
    ∃ t, (Assembly.conclude discovery).exec s =
      (match passDifferences discovery s.statistics s.symbols.drifts with
        | [] => .ok (s.result discovery s.statistics)
        | differences => .error (.passMismatch differences), t) := by
  unfold Assembly.conclude Assembly.endPass Assembly.reportIfVerbose Assembly.report
  cases hdiff : passDifferences discovery s.statistics s.symbols.drifts with
  | cons difference rest =>
      exact ⟨_, by simp [Action.exec_bind, show passDifferences discovery ⟨_, _, _⟩ _ = _ from hdiff]; rfl⟩
  | nil =>
      cases hv : s.verbose <;>
        exact ⟨_, by
          simp [Action.exec_bind, show passDifferences discovery ⟨_, _, _⟩ _ = _ from hdiff, hv]
          exact ⟨rfl, rfl⟩⟩

/-- At the start of the final pass it is abreast of the start of discovery. -/
theorem abreast_turned {s last : Session} (hnew : s.IsNew)
    (hcursor : s.cursor.position = .ofAddress s.cursor.start) (hleads : s.Leads last)
    (hscopes : s.SameScopes last) : Abreast last s last.turned := by
  obtain ⟨journal, hturned⟩ := turned_eq (hleads.pass.trans hnew.pass)
  have howned : last.Owned := hleads.owned (by
    intro w hw
    rw [hnew.written] at hw
    exact nomatch hw)
  have hreset : last.cursor.reset = s.cursor := by
    show Cursor.mk last.cursor.start (.ofAddress last.cursor.start) last.cursor.registers = s.cursor
    rw [hleads.start, hleads.registers, ← hcursor]
  rw [hturned]
  exact
    { discovery := hnew.pass
      final := rfl
      cursor := hreset
      scopes := hscopes.scopes
      outerOwner := hscopes.outerOwner
      labels := rfl
      pins := rfl
      drifts := (hleads.still hnew.pass).trans hnew.drifts
      instructions := hnew.instructions.symm
      written := by rw [hnew.written]
      owned := howned }

end Session

/-- Passes do not differ if they did the same, ended at the same number and no label drifted. -/
theorem passDifferences_eq_nil_iff {discovery final : PassStatistics} {drifts : List Drift} :
    passDifferences discovery final drifts = [] ↔
      final.instructions = discovery.instructions ∧ final.bytes = discovery.bytes ∧
        final.endCursor = discovery.endCursor ∧ discovery.endCursor ≠ .nan ∧ drifts = [] := by
  have hone : ∀ {p : Prop} [Decidable p] {d : PassDifference}, (if p then [d] else []) = [] ↔ ¬p := by
    intro p _ d
    by_cases hp : p <;> simp [hp]
  have hequals : (if discovery.endCursor.equals final.endCursor = true then []
      else [PassDifference.endCursor discovery.endCursor final.endCursor]) = [] ↔
      final.endCursor = discovery.endCursor ∧ discovery.endCursor ≠ .nan := by
    unfold Number.equals
    by_cases hc : discovery.endCursor = final.endCursor
    · by_cases hn : discovery.endCursor = .nan <;> simp [hn, ← hc]
    · simp [hc, Ne.symm hc]
  unfold passDifferences
  rw [List.append_eq_nil_iff, List.append_eq_nil_iff, List.append_eq_nil_iff, List.map_eq_nil_iff, hone,
    hone, hequals, Decidable.not_not, Decidable.not_not]
  constructor
  · rintro ⟨⟨⟨hi, hb⟩, hc, hn⟩, hd⟩
    exact ⟨hi.symm, hb.symm, hc, hn, hd⟩
  · rintro ⟨hi, hb, hc, hn, hd⟩
    exact ⟨⟨⟨hi.symm, hb.symm⟩, hc, hn⟩, hd⟩

/-- Passes that end abreast, and at a number, do not differ. -/
theorem Abreast.passDifferences {last f : Session} (h : Abreast last last f)
    (hend : last.cursor.position ≠ .nan) :
    passDifferences last.statistics f.statistics f.symbols.drifts = [] := by
  have hlength : f.written.length = last.written.length := by
    have := congrArg List.length h.written
    rwa [List.length_map, List.length_map] at this
  rw [passDifferences_eq_nil_iff]
  exact ⟨h.instructions, hlength, by unfold Session.statistics; rw [h.cursor], hend, h.drifts⟩

-- ── Whole compilations ──────────────────────────────────────────────────────

namespace Assembly

variable {program : Assembly Unit} {s last t : Session} {fault : Fault}

theorem bothPasses_of_discovery_error (hd : program.exec s = (.error fault, t)) :
    ((bothPasses program).exec s).1 = .error fault := by
  rw [bothPasses, Action.exec_bind_of_error hd]

/-- After discovery the program runs again. -/
theorem exec_bothPasses_of_ok (hd : program.exec s = (.ok (), last)) (hpass : last.pass = .discovery) :
    (bothPasses program).exec s =
      (program >>= fun _ => conclude last.statistics).exec last.turned := by
  obtain ⟨journal, hturn⟩ := Session.exec_turnOver hpass
  rw [bothPasses, Action.exec_bind_of_ok hd, Action.exec_bind_of_ok hturn, Session.turned, hturn]

theorem bothPasses_of_final_error (hd : program.exec s = (.ok (), last))
    (hpass : last.pass = .discovery) (hf : program.exec last.turned = (.error fault, t)) :
    ((bothPasses program).exec s).1 = .error fault := by
  rw [exec_bothPasses_of_ok hd hpass, Action.exec_bind_of_error hf]

theorem bothPasses_of_ok (hd : program.exec s = (.ok (), last))
    (hpass : last.pass = .discovery) (hf : program.exec last.turned = (.ok (), t)) :
    ((bothPasses program).exec s).1 =
      match passDifferences last.statistics t.statistics t.symbols.drifts with
      | [] => .ok (t.result last.statistics t.statistics)
      | differences => .error (.passMismatch differences) := by
  obtain ⟨end', hend⟩ := t.exec_conclude last.statistics
  rw [exec_bothPasses_of_ok hd hpass, Action.exec_bind_of_ok hf, hend]

/-- The final pass begins after discovery only. -/
theorem pass_of_turnOver {statistics : PassStatistics} (h : turnOver.exec s = (.ok statistics, t)) :
    s.pass = .discovery := by
  cases hpass : s.pass with
  | discovery => rfl
  | final =>
      unfold turnOver endPass reportIfVerbose report beginFinal at h
      cases hv : s.verbose <;> simp [Action.exec_bind, hv, hpass] at h

end Assembly

theorem fst_compile {program : Assembly Unit} {options : Options} {s : Session}
    (hcreate : Session.create options.withStart = .ok s) :
    (compile program options).1 = ((Assembly.bothPasses program).exec s).1 := by
  unfold compile
  rw [hcreate]

/-- A program that compiles has passed both passes and their comparison. -/
theorem compile_eq_ok {program : Assembly Unit} {options : Options} {c : Compilation}
    (h : (compile program options).1 = .ok c) :
    ∃ s last f, Session.create options.withStart = .ok s ∧ program.exec s = (.ok (), last) ∧
      last.pass = .discovery ∧ program.exec last.turned = (.ok (), f) ∧
      passDifferences last.statistics f.statistics f.symbols.drifts = [] ∧
      c = f.result last.statistics f.statistics := by
  cases hcreate : Session.create options.withStart with
  | error fault =>
      unfold compile at h
      rw [hcreate] at h
      exact nomatch h
  | ok s =>
      have hboth : ((Assembly.bothPasses program).exec s).1 = .ok c := by rw [← fst_compile hcreate, h]
      obtain ⟨_, last, hd, hrest⟩ := Action.exec_bind_eq_ok (Prod.ext hboth rfl)
      obtain ⟨_, turned, hturn, hrest⟩ := Action.exec_bind_eq_ok hrest
      have hpass := Assembly.pass_of_turnOver hturn
      rw [show turned = last.turned by rw [Session.turned, hturn]] at hrest
      obtain ⟨_, f, hf, -⟩ := Action.exec_bind_eq_ok hrest
      rw [Assembly.bothPasses_of_ok hd hpass hf] at hboth
      refine ⟨s, last, f, rfl, hd, hpass, hf, ?_⟩
      split at hboth
      · rename_i hnone
        exact ⟨hnone, (Except.ok.inj hboth).symm⟩
      · exact nomatch hboth

namespace Source

theorem fst_assemble {source : String} {options : Options} {statements : List Statement} {s : Session}
    (hparse : parse source = .ok statements) (hcreate : Session.create options.withStart = .ok s) :
    (assemble source options).1 = ((Assembly.bothPasses (runAll statements)).exec s).1 := by
  rw [assemble, hparse]
  exact fst_compile hcreate

/-- A text that compiles has passed parsing, both passes and their comparison. -/
theorem assemble_eq_ok {source : String} {options : Options} {c : Compilation}
    (h : (assemble source options).1 = .ok c) :
    ∃ statements s last f, parse source = .ok statements ∧
      Session.create options.withStart = .ok s ∧ (runAll statements).exec s = (.ok (), last) ∧
      (runAll statements).exec last.turned = (.ok (), f) ∧
      passDifferences last.statistics f.statistics f.symbols.drifts = [] ∧
      c = f.result last.statistics f.statistics := by
  unfold assemble at h
  cases hparse : parse source with
  | error fault =>
      rw [hparse] at h
      exact nomatch h
  | ok statements =>
      rw [hparse] at h
      obtain ⟨s, last, f, hcreate, hd, -, hf, hnone, hc⟩ := compile_eq_ok h
      exact ⟨statements, s, last, f, rfl, hcreate, hd, hf, hnone, hc⟩

/-- The final pass of a compilation, after a discovery in which instructions agree with the pins they
    meet. -/
theorem retrace_of_pinsAgree {options : Options} {statements : List Statement} {s last : Session}
    (hfresh : ∀ c, options.cursor = some c → c.position = .ofAddress c.start)
    (hcreate : Session.create options.withStart = .ok s)
    (hdiscovery : (runAll statements).exec s = (.ok (), last))
    (hagree : PinsAgree (completed statements s)) :
    (∃ matching, matching <+: completed statements s ∧
      List.Forall₂ Step.Agrees matching (completed statements last.turned)) ∧
    ((∃ f, (runAll statements).exec last.turned = (.ok (), f) ∧ Abreast last last f) ∨
      ∃ p cause f, (runAll statements).exec last.turned = (.error (.located p cause), f) ∧
        cause.isDeferred = true) := by
  have hnew := Session.isNew_of_create hcreate
  have hleads : s.Leads last := (leads_runAll statements).of_exec hdiscovery
  have hscopes : s.SameScopes last := (followed_sameScopes.statements statements).of_exec hdiscovery
  have habreast := Session.abreast_turned hnew (Session.cursor_of_create hfresh hcreate) hleads hscopes
  exact retrace habreast hdiscovery ((ownPins_iff_pinsAgree hnew.pins hdiscovery).mpr hagree)

/-- The final pass of a compilation, after a discovery without two instructions that start at one place. -/
theorem retrace_created {options : Options} {statements : List Statement} {s last : Session}
    (hfresh : ∀ c, options.cursor = some c → c.position = .ofAddress c.start)
    (hcreate : Session.create options.withStart = .ok s)
    (hdiscovery : (runAll statements).exec s = (.ok (), last))
    (hstarts : (instructionStarts (completed statements s)).Nodup) :
    (∃ matching, matching <+: completed statements s ∧
      List.Forall₂ Step.Agrees matching (completed statements last.turned)) ∧
    ((∃ f, (runAll statements).exec last.turned = (.ok (), f) ∧ Abreast last last f) ∨
      ∃ p cause f, (runAll statements).exec last.turned = (.error (.located p cause), f) ∧
        cause.isDeferred = true) :=
  retrace_of_pinsAgree hfresh hcreate hdiscovery (pinsAgree_of_nodup hstarts)

/-- If discovery completes, at a number and without two instructions that start at one place, then the
    final pass does in every statement that it completes what discovery did there; it fails only with a
    deferred fault of a statement, and the passes never differ. -/
theorem final_pass_retraces_discovery {source : String} {options : Options}
    {statements : List Statement} {s last : Session} (hparse : parse source = .ok statements)
    (hfresh : ∀ c, options.cursor = some c → c.position = .ofAddress c.start)
    (hcreate : Session.create options.withStart = .ok s)
    (hdiscovery : (runAll statements).exec s = (.ok (), last))
    (hstarts : (instructionStarts (completed statements s)).Nodup)
    (hend : last.cursor.position ≠ .nan) :
    (∃ matching, matching <+: completed statements s ∧
      List.Forall₂ Step.Agrees matching (completed statements last.turned)) ∧
    (∀ fault f, (runAll statements).exec last.turned = (.error fault, f) →
      ∃ p cause, fault = .located p cause ∧ cause.isDeferred = true) ∧
    ∀ differences, (assemble source options).1 ≠ .error (.passMismatch differences) := by
  have hleads : s.Leads last := (leads_runAll statements).of_exec hdiscovery
  have hpass := hleads.pass.trans (Session.isNew_of_create hcreate).pass
  obtain ⟨hsteps, hrun⟩ := retrace_created hfresh hcreate hdiscovery hstarts
  refine ⟨hsteps, ?_, ?_⟩
  · intro fault f hf
    rcases hrun with ⟨f', hf', -⟩ | ⟨p, cause, f', hf', hdeferred⟩
    · rw [hf] at hf'
      exact nomatch congrArg Prod.fst hf'
    · rw [hf] at hf'
      exact ⟨p, cause, Except.error.inj (congrArg Prod.fst hf'), hdeferred⟩
  · intro differences
    rw [fst_assemble hparse hcreate]
    rcases hrun with ⟨f, hf, h⟩ | ⟨p, cause, f, hf, -⟩
    · rw [Assembly.bothPasses_of_ok hdiscovery hpass hf, h.passDifferences hend]
      exact fun hno => nomatch hno
    · rw [Assembly.bothPasses_of_final_error hdiscovery hpass hf]
      exact fun hno => nomatch hno

/-- Forward references: to a label in the zero page, to a branch target, to a byte part and in a
    difference. -/
def forwardSample : String :=
  "loop: LDA zp,X\n BEQ end\n LDY #<end\n .WORD end-loop\nzp = $10\nend: JMP loop\n"

/-- The statements of `forwardSample`. -/
def forwardStatements : List Statement := (parse forwardSample).toOption.getD []

/-- The session in which a text is compiled without options. -/
def plainSession : Session where
  cursor := ⟨0x1000, 0x1000, ⟨0, 0, 0, 0⟩⟩
  memory := ⟨∅, some 0x1000, none⟩
  symbols := ⟨.empty, [], .empty, [], 12345⟩
  pass := .discovery
  outerOwner := Session.defaultOwner
  scopes := []
  instructions := 0
  written := []
  entrypoint := none
  breakpoints := []
  watches := []
  verbose := false
  journal := {}

theorem create_plain : Session.create ({} : Options).withStart = .ok plainSession := rfl

/-- The session at the end of the discovery of `forwardSample`. -/
def forwardDiscovered : Session := ((runAll forwardStatements).exec plainSession).2

theorem forward_references_are_retraced :
    parse forwardSample = .ok forwardStatements ∧
    (runAll forwardStatements).exec plainSession = (.ok (), forwardDiscovered) ∧
    instructionStarts (completed forwardStatements plainSession) = [0x1000, 0x1003, 0x1005, 0x1009] ∧
    forwardDiscovered.cursor.position ≠ .nan ∧
    (∃ matching, matching <+: completed forwardStatements plainSession ∧
      List.Forall₂ Step.Agrees matching (completed forwardStatements forwardDiscovered.turned)) ∧
    (∀ fault f, (runAll forwardStatements).exec forwardDiscovered.turned = (.error fault, f) →
      ∃ p cause, fault = .located p cause ∧ cause.isDeferred = true) ∧
    ∀ differences, (assemble forwardSample {}).1 ≠ .error (.passMismatch differences) := by
  have hparse : parse forwardSample = .ok forwardStatements := by decide +kernel
  have hdiscovery : (runAll forwardStatements).exec plainSession = (.ok (), forwardDiscovered) := by
    refine Prod.ext ?_ rfl
    decide +kernel
  have hstarts : instructionStarts (completed forwardStatements plainSession) =
      [0x1000, 0x1003, 0x1005, 0x1009] := by decide +kernel
  have hend : forwardDiscovered.cursor.position ≠ .nan := by decide +kernel
  refine ⟨hparse, hdiscovery, hstarts, hend, ?_⟩
  refine final_pass_retraces_discovery hparse (fun c hc => nomatch hc) create_plain hdiscovery ?_ hend
  rw [hstarts]
  decide

end Source

end Asm6502
