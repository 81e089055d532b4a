import Asm6502.Proofs.TwoPasses

/-!
# Operations in two passes

The operations that emit code and data, one by one and run alike in both passes. In the final pass an
operation meets what discovery left: its labels, its pins, and cells that belong to those who wrote them.
It does there what it did in discovery, or fails for a value that discovery could not know; an instruction
does so if it meets no pin but its own.

* `Session.Precedes`: what lies between a session of discovery and the end of discovery.
* `retrace_emit`: an instruction.
* `retrace_data`: every other operation.
-/

namespace Asm6502

open Asm6502.Action (Moves Coupled)

-- ── What lies ahead ─────────────────────────────────────────────────────────

/-- On the way to another session, where also every place stays pinned. -/
structure Session.Precedes (s t : Session) : Prop extends Session.Leads s t where
  pins : ∀ k, (s.symbols.pins.find? k).isSome = true → (t.symbols.pins.find? k).isSome = true

namespace Session.Precedes

theorem of_samePins {s t : Session} (hleads : s.Leads t) (hpins : t.symbols.pins = s.symbols.pins) :
    s.Precedes t :=
  ⟨hleads, fun k hk => by rw [hpins]; exact hk⟩

theorem refl (s : Session) : s.Precedes s := of_samePins (.refl s) rfl

theorem trans (r s t : Session) (h : r.Precedes s) (h' : s.Precedes t) : r.Precedes t :=
  ⟨h.toLeads.trans _ _ _ h'.toLeads, fun k hk => h'.pins k (h.pins k hk)⟩

theorem resolve (name : String) : Moves Session.Precedes (Assembly.resolve name) :=
  Assembly.moves_resolve (fun s _ => of_samePins (.of_symbols s rfl rfl) rfl) name

theorem storeByte (address value : Number) :
    Moves Session.Precedes (Assembly.storeByte address value) := by
  intro s
  refine of_samePins (Assembly.leads_storeByte address value s) ?_
  rcases Assembly.exec_storeByte_cases address value s with ⟨w, -, -, hrun⟩ | ⟨fault, hrun⟩
  · rw [hrun]
    rfl
  · rw [hrun]

end Session.Precedes

theorem followed_precedes : FollowedByOperations Session.Precedes where
  refl := .refl
  trans := .trans
  resolve := .resolve
  evaluate := Assembly.moves_evaluate .refl .trans .resolve
  storeByte := .storeByte
  emitByte := Assembly.moves_emitByte .refl .trans .storeByte
    (fun s => .of_samePins (Assembly.leads_advance 1 s) rfl)
  label name address s := by
    refine .of_samePins (Assembly.leads_label name address s) ?_
    rw [Assembly.exec_label]
    exact Symbols.pins_define ..
  org place s := .of_samePins (Assembly.leads_org place s) rfl
  pin s mode := by
    refine ⟨.of_symbols s rfl rfl, fun k hk => ?_⟩
    show ((s.symbols.pins.insert s.cursor.position mode).find? k).isSome = true
    rw [Table.find?_insert]
    by_cases hplace : s.cursor.position = k
    · rw [if_pos hplace]
      rfl
    · rw [if_neg hplace]
      exact hk
  countInstruction s := .of_samePins (Assembly.leads_countInstruction s) rfl
  entrypoint _ := .of_samePins ⟨rfl, rfl, rfl, fun _ _ _ h => h, List.prefix_refl _, fun _ => rfl,
    List.suffix_refl _, fun h => h⟩ rfl

-- ── An instruction ──────────────────────────────────────────────────────────

section Instructions

open Assembly (Argument readArguments)

variable {m : Mnemonic} {args : List Argument} {s t : Session}

/-- An instruction that is emitted was encoded, and then its bytes were. -/
theorem exec_emit_eq_ok {n : Nat} (h : (Assembly.emit m args).exec s = (.ok n, t)) :
    ∃ e s', (Assembly.encoding m args).exec s = (.ok e, s') ∧
      (do Action.each Assembly.emitByte e.bytes; Assembly.countInstruction).exec s' = (.ok (), t) := by
  obtain ⟨e, s', hencoding, hrest⟩ := Action.exec_bind_eq_ok h
  obtain ⟨_, s'', hbytes, hcount⟩ := Action.exec_bind_eq_ok hrest
  obtain ⟨_, s''', hcounted, hend⟩ := Action.exec_bind_eq_ok hcount
  cases hend
  refine ⟨e, s', hencoding, ?_⟩
  rw [Action.exec_bind_of_ok hbytes]
  exact hcounted

/-- What was encoded has no operand, or one of a value. -/
theorem exec_encoding_eq_ok {e : Encoded} (h : (Assembly.encoding m args).exec s = (.ok e, t)) :
    (∃ index flags, readArguments m args = .ok ⟨none, index, flags⟩ ∧
      encodeIn m .implied ⟨0, false⟩ = .ok e ∧ t = s) ∨
    ∃ o index flags v, readArguments m args = .ok ⟨some o, index, flags⟩ ∧ s.value o = .ok v ∧
      s.encodeOperand m o v (index, flags) = .ok e ∧ t = (s.used o).pinned m o e := by
  cases hargs : readArguments m args with
  | error fault =>
      rw [Assembly.exec_encoding_of_refused hargs] at h
      exact nomatch congrArg Prod.fst h
  | ok arguments =>
      obtain ⟨operand, index, flags⟩ := arguments
      cases operand with
      | none =>
          rw [Assembly.exec_encoding_of_arguments hargs,
            Assembly.exec_onSymbols (Scope.exec_assemble_none _ m index flags s.symbols)] at h
          obtain ⟨hencode, rfl⟩ := Prod.mk.inj h
          exact Or.inl ⟨index, flags, rfl, hencode, rfl⟩
      | some o =>
          cases hv : s.value o with
          | error fault =>
              obtain ⟨t', hrun⟩ := Assembly.exec_encoding_of_value_error hargs hv
              rw [hrun] at h
              exact nomatch congrArg Prod.fst h
          | ok v =>
              obtain ⟨hok, herror⟩ := Assembly.exec_encoding_some hargs hv
              cases hencode : s.encodeOperand m o v (index, flags) with
              | error fault =>
                  obtain ⟨t', hrun⟩ := herror fault hencode
                  rw [hrun] at h
                  exact nomatch congrArg Prod.fst h
              | ok e' =>
                  rw [hok e' hencode] at h
                  obtain ⟨he, rfl⟩ := Prod.mk.inj h
                  obtain rfl := Except.ok.inj he
                  exact Or.inr ⟨o, index, flags, v, rfl, hv, hencode, rfl⟩

/-- Pinning leaves the rest of a session. -/
theorem Session.pinned_eq (s : Session) {o : Operand} {v : Value} (hv : s.value o = .ok v) (e : Encoded) :
    ∃ references, (s.used o).pinned m o e = { s with symbols := { s.symbols with
      references
      pins := if v.pending && !m.isBranch then
          s.symbols.pins.insert s.cursor.position e.descriptor.mode
        else s.symbols.pins } } := by
  obtain ⟨references, hused⟩ := s.used_eq o
  unfold Session.pinned
  rw [Session.value_used, hv, hused]
  by_cases hp : (v.pending && !m.isBranch) = true
  · simp only [hp, if_true]
    exact ⟨_, rfl⟩
  · simp only [hp]
    exact ⟨references, rfl⟩

/-- The bytes of an instruction are of no concern to pins. -/
theorem pins_of_emission {bytes : List Number}
    (h : (do Action.each Assembly.emitByte bytes; Assembly.countInstruction).exec s = (.ok (), t)) :
    t.symbols.pins = s.symbols.pins :=
  (Source.followed_samePins.emission (fun _ => rfl) bytes).of_exec h

/-- The mode in which an instruction is encoded, if it can be. -/
def Session.modeOf (s : Session) (m : Mnemonic) (args : List Argument) : Option Mode :=
  match ((Assembly.encoding m args).exec s).1 with
  | .ok e => some e.descriptor.mode
  | .error _ => none

theorem Session.modeOf_of_ok {e : Encoded} (h : (Assembly.encoding m args).exec s = (.ok e, t)) :
    s.modeOf m args = some e.descriptor.mode := by
  simp only [Session.modeOf, h]

/-- What is pinned after an instruction is its own mode where it starts, or was pinned before. -/
theorem pins_of_emit {n : Nat} (h : (Assembly.emit m args).exec s = (.ok n, t)) {k : Number} {mode : Mode}
    (hk : t.symbols.pins.find? k = some mode) :
    s.symbols.pins.find? k = some mode ∨ s.cursor.position = k ∧ s.modeOf m args = some mode := by
  obtain ⟨e, s', hencoding, hrest⟩ := exec_emit_eq_ok h
  rw [pins_of_emission hrest] at hk
  rw [Session.modeOf_of_ok hencoding]
  rcases exec_encoding_eq_ok hencoding with ⟨_, _, -, -, rfl⟩ | ⟨o, index, flags, v, -, hv, -, rfl⟩
  · exact Or.inl hk
  · obtain ⟨references, hpinned⟩ := s.pinned_eq hv e
    rw [hpinned] at hk
    by_cases hp : (v.pending && !m.isBranch) = true
    · simp only [hp, if_true] at hk
      rw [Table.find?_insert] at hk
      by_cases hplace : s.cursor.position = k
      · rw [if_pos hplace] at hk
        exact Or.inr ⟨hplace, hk⟩
      · rw [if_neg hplace] at hk
        exact Or.inl hk
    · simp only [hp] at hk
      exact Or.inl hk

variable {last d f : Session}

/-- An instruction that meets its own pin is encoded in the final pass in the form that it had in
    discovery, or it fails for its value. -/
theorem retrace_encoding {e : Encoded} (h : Abreast last d f)
    (hd : (Assembly.encoding m args).exec d = (.ok e, t)) (hahead : t.Precedes last)
    (hown : ∀ mode, last.symbols.pins.find? d.cursor.position = some mode →
      d.modeOf m args = some mode) :
    (∃ e' u, (Assembly.encoding m args).exec f = (.ok e', u) ∧ e.SameForm e' ∧ Abreast last t u) ∨
      ∃ fault u, (Assembly.encoding m args).exec f = (.error fault, u) ∧ fault.isDeferred = true := by
  have hback : d.Leads last :=
    ((followed_precedes.encoding m args).of_exec hd).toLeads.trans _ _ _ hahead.toLeads
  have hmode : ∀ mode, f.symbols.pins.find? f.cursor.position = some mode →
      e.descriptor.mode = mode := by
    intro mode hmode
    rw [h.pins, h.cursor] at hmode
    have hsame := hown mode hmode
    rw [Session.modeOf_of_ok hd] at hsame
    exact Option.some.inj hsame
  rcases exec_encoding_eq_ok hd with
    ⟨index, flags, hargs, hencode, rfl⟩ | ⟨o, index, flags, v, hargs, hv, hencode, rfl⟩
  · refine Or.inl ⟨e, f, ?_, ⟨rfl, rfl⟩, h⟩
    rw [Assembly.exec_encoding_of_arguments hargs,
      Assembly.exec_onSymbols (Scope.exec_assemble_none _ m index flags f.symbols), hencode]
  · obtain ⟨references, hpinned⟩ := d.pinned_eq hv e
    have hset : (v.pending && !m.isBranch) = true →
        (f.symbols.pins.find? f.cursor.position).isSome = true := by
      intro hp
      rw [h.pins, h.cursor]
      refine hahead.pins d.cursor.position ?_
      rw [hpinned]
      simp only [hp, if_true]
      rw [Table.find?_insert, if_pos rfl]
      rfl
    have hvalue := h.value hback o
    rw [hv] at hvalue
    rcases hvalue.of_ok with ⟨w, hw, hvw⟩ | ⟨fault, hfault, hdeferred⟩
    · obtain ⟨hok, herror⟩ := Assembly.exec_encoding_some hargs hw
      rcases (encodeOperand_retraced h hvw rfl (fun _ => rfl) hencode hset (fun _ => hmode)).of_ok with
        ⟨e', he', hform⟩ | ⟨fault, hfault, hdeferred⟩
      · refine Or.inl ⟨e', _, hok e' he', hform, ?_⟩
        -- the final pass pins nothing
        obtain ⟨references', hpinned'⟩ := f.pinned_eq hw e'
        rw [f.pending_of_final h.final hw] at hpinned'
        rw [hpinned, hpinned']
        exact h.of_symbols rfl rfl rfl
      · obtain ⟨f', hrun⟩ := herror fault hfault
        exact Or.inr ⟨fault, f', hrun, hdeferred⟩
    · obtain ⟨f', hrun⟩ := Assembly.exec_encoding_of_value_error hargs hfault
      exact Or.inr ⟨fault, f', hrun, hdeferred⟩

/-- An instruction that meets its own pin keeps the passes abreast, or fails for its value. -/
theorem retrace_emit {d' : Session} {n : Nat} (h : Abreast last d f)
    (hd : (Assembly.emit m args).exec d = (.ok n, d')) (hahead : d'.Precedes last)
    (hown : ∀ mode, last.symbols.pins.find? d.cursor.position = some mode →
      d.modeOf m args = some mode) :
    (∃ n' f', (Assembly.emit m args).exec f = (.ok n', f') ∧ Abreast last d' f') ∨
      ∃ fault f', (Assembly.emit m args).exec f = (.error fault, f') ∧ fault.isDeferred = true := by
  obtain ⟨e, t, hencoding, hrest⟩ := exec_emit_eq_ok hd
  have hbytes : t.Precedes d' :=
    (followed_precedes.emission followed_precedes.countInstruction e.bytes).of_exec hrest
  rcases retrace_encoding h hencoding (hbytes.trans _ _ _ hahead) hown with
    ⟨e', u, hu, hform, habreast⟩ | ⟨fault, u, hu, hdeferred⟩
  · have hemit : (Assembly.emit m args).exec f =
        ((do Action.each Assembly.emitByte e'.bytes; Assembly.countInstruction) >>=
          fun _ => pure e'.bytes.length).exec u := by
      rw [Assembly.emit, Action.exec_bind_of_ok hu]
      simp
    rw [hemit]
    rcases (retrace_emission hform.2).of_ok habreast hrest hahead.toLeads with
      ⟨_, f', hf', hend⟩ | ⟨fault, f', hf', hdeferred⟩
    · exact Or.inl ⟨_, f', Action.exec_bind_of_ok hf', hend⟩
    · exact Or.inr ⟨fault, f', Action.exec_bind_of_error hf', hdeferred⟩
  · exact Or.inr ⟨fault, u, Action.exec_bind_of_error hu, hdeferred⟩

end Instructions

-- ── Data ────────────────────────────────────────────────────────────────────

theorem followed_leads : FollowedByData Session.Leads where
  toFollowed := Source.followed_leads
  storeByte := Assembly.leads_storeByte
  entrypoint s := (followed_precedes.entrypoint s).toLeads

/-- The pins stay when data are emitted. -/
theorem followed_samePins : FollowedByData Source.SamePins where
  toFollowed := Source.followed_samePins
  storeByte address value s := by
    rcases Assembly.exec_storeByte_cases address value s with ⟨w, -, -, hrun⟩ | ⟨fault, hrun⟩
    · rw [hrun]
      rfl
    · rw [hrun]
      rfl
  entrypoint _ := rfl

/-- Two actions that keep the passes abreast; the first does not leave its way. -/
structure Retraces (last : Session) {α : Type} (first second : Assembly α) : Prop where
  leads : Moves Session.Leads first
  coupled : Coupled (·.Leads last) retracing (Abreast last) first second (fun _ _ => Abreast last)

namespace Retraces

open Assembly (FillArgument VariableOptions)

variable {last : Session} {α β : Type}

theorem pure (a b : α) : Retraces last (Pure.pure a) (Pure.pure b) :=
  ⟨Moves.pure .refl a, Coupled.pure (fun _ _ h => h)⟩

theorem bind {first second : Assembly α} {next next' : α → Assembly β}
    (h : Retraces last first second) (hnext : ∀ a b, Retraces last (next a) (next' b)) :
    Retraces last (first >>= next) (second >>= next') where
  leads := Moves.bind .trans h.leads (fun a => (hnext a a).leads)
  coupled := Coupled.bind h.coupled
    (fun a s hahead => ((hnext a a).leads s).trans _ _ _ hahead) (fun a b => (hnext a b).coupled)

theorem answering {first second : Assembly α} (h : Retraces last first second) (answer : α → β) :
    Retraces last (first >>= fun a => Pure.pure (answer a)) (second >>= fun a => Pure.pure (answer a)) :=
  h.bind (fun _ _ => .pure _ _)

theorem times {step step' : Nat → Assembly Unit} (h : ∀ i, Retraces last (step i) (step' i))
    (rounds index : Nat) :
    Retraces last (Action.times step rounds index) (Action.times step' rounds index) where
  leads := Moves.times .refl .trans (fun i => (h i).leads) rounds index
  coupled := Coupled.times (fun i s hahead => ((h i).leads s).trans _ _ _ hahead)
    (fun i => (h i).coupled) rounds index

/-- Both passes go on from the same cursor. -/
theorem fromPosition {next next' : Number → Assembly α} (h : ∀ x, Retraces last (next x) (next' x)) :
    Retraces last (Assembly.position >>= next) (Assembly.position >>= next') where
  leads := Moves.bind .trans (.refl) (fun x => (h x).leads)
  coupled := by
    refine Coupled.bind retrace_position (fun x s hahead => ((h x).leads s).trans _ _ _ hahead) ?_
    rintro x _ d f ⟨rfl, habreast⟩ hahead
    exact (h _).coupled d f habreast hahead

/-- A check of what both passes have in common comes out the same. -/
theorem check (c : Except Fault α) {next next' : α → Assembly β}
    (h : ∀ a, Retraces last (next a) (next' a)) :
    Retraces last (liftM c >>= next) (liftM c >>= next') where
  leads := Moves.bind .trans (Moves.check .refl c) (fun a => (h a).leads)
  coupled := retrace_accompanied.check c (fun a => (h a).leads) (fun a => (h a).coupled)

theorem evaluate (o : Operand) : Retraces last (Assembly.evaluate o) (Assembly.evaluate o) :=
  ⟨Assembly.leads_evaluate o, (retrace_evaluate o).weaken (fun _ _ h => h) (fun _ _ _ _ h => h.2)⟩

theorem label (name : String) (address : Option Number) :
    Retraces last (Assembly.label name address) (Assembly.label name address) :=
  ⟨Assembly.leads_label name address, retrace_label name address⟩

theorem storeByte (address v w : Number) :
    Retraces last (Assembly.storeByte address v) (Assembly.storeByte address w) :=
  ⟨Assembly.leads_storeByte address v, retrace_storeByte address v w⟩

theorem emitByte (v w : Number) : Retraces last (Assembly.emitByte v) (Assembly.emitByte w) :=
  ⟨Assembly.leads_emitByte v, retrace_emitByte v w⟩

theorem byte (operands : List Operand) :
    Retraces last (Assembly.byte operands) (Assembly.byte operands) :=
  ⟨Source.followed_leads.byte operands, retrace_accompanied.byte operands⟩

theorem word (operands : List Operand) :
    Retraces last (Assembly.word operands) (Assembly.word operands) :=
  ⟨Source.followed_leads.word operands, retrace_accompanied.word operands⟩

theorem org (place : Number) : Retraces last (Assembly.org place) (Assembly.org place) :=
  ⟨Assembly.leads_org place, retrace_accompanied.org place⟩

/-- The entry point is no part of what the passes have in common. -/
theorem entrypoint : Retraces last Assembly.entrypoint Assembly.entrypoint where
  leads := followed_leads.entrypoint
  coupled _ _ h _ := Or.inl ⟨(), (), _, _, rfl, rfl, { h with }⟩

theorem labelDouble (name : String) :
    Retraces last (Assembly.labelDouble name) (Assembly.labelDouble name) := by
  rw [Assembly.labelDouble_eq]
  exact (label _ none).bind (fun _ _ => fromPosition (fun x => (label _ _).answering _))

theorem storeGiven (address : Number) (value : Option Number) :
    Retraces last (Assembly.storeGiven address value) (Assembly.storeGiven address value) := by
  cases value with
  | some v => exact storeByte address v v
  | none =>
      refine check _ (fun _ => ⟨Moves.throw .refl _, ?_⟩)
      intro d f _ _
      exact Or.inr (Or.inl ⟨.missingByte, rfl, trivial⟩)

theorem fillFrom (length : Number) (rule : Option (Nat → Option Number)) (cursor : Number)
    (target : Number × Number) :
    Retraces last (Assembly.fillFrom length rule cursor target)
      (Assembly.fillFrom length rule cursor target) := by
  refine (times (fun i => storeGiven _ _) _ _).bind (fun _ _ => ?_)
  by_cases hcursor : target.1.equals cursor = true
  · rw [if_pos hcursor]
    exact ⟨Assembly.leads_advance length, retrace_advance length⟩
  · rw [if_neg hcursor]
    exact .pure _ _

theorem fill (length : Number) (args : List FillArgument) :
    Retraces last (Assembly.fill length args) (Assembly.fill length args) := by
  rw [Assembly.fill_eq]
  refine check _ (fun given => fromPosition (fun cursor => ?_))
  exact check _ (fun target => fillFrom length _ cursor target)

theorem declare (name : String) (initial : Number) (options : VariableOptions) :
    Retraces last (Assembly.declare name initial options) (Assembly.declare name initial options) := by
  refine (label name none).bind (fun _ _ => ?_)
  by_cases hdouble : options.double = true
  · rw [if_pos hdouble]
    refine (evaluate _).bind (fun low low' => ?_)
    refine (label _ none).bind (fun _ _ => ?_)
    refine (emitByte _ _).bind (fun _ _ => ?_)
    refine (label _ none).bind (fun _ _ => ?_)
    exact (evaluate _).bind (fun high high' => emitByte _ _)
  · rw [if_neg hdouble]
    exact times (fun _ => emitByte initial initial) _ _

theorem data (name : String) (operands : List Operand) :
    Retraces last (Assembly.data name operands) (Assembly.data name operands) :=
  (label name none).bind (fun _ _ => (byte operands).answering _)

end Retraces

/-- Everything but instructions keeps the passes abreast. -/
theorem retrace_data {last : Session} (render : Nat → Assembly Unit) {c : Command}
    (hc : c.isData = true) : Retraces last (c.run render) (c.run render) := by
  cases c with
  | label name address => exact (Retraces.label name address).answering _
  | labelDouble name => exact (Retraces.labelDouble name).answering _
  | org place => exact (Retraces.org place).answering _
  | entrypoint => exact Retraces.entrypoint.answering _
  | byte operands => exact (Retraces.byte operands).answering _
  | word operands => exact (Retraces.word operands).answering _
  | fill length args => exact (Retraces.fill length args).answering _
  | declare name initial options => exact (Retraces.declare name _ options).answering _
  | data name operands => exact (Retraces.data name operands).answering _
  | text name content => exact (Retraces.data name _).answering _
  | emitByte value => exact (Retraces.emitByte value value).answering _
  | storeByte address value => exact (Retraces.storeByte address value value).answering _
  | _ => exact nomatch hc

end Asm6502
