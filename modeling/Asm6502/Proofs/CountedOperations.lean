import Asm6502.Proofs.CellCopies
import Asm6502.Proofs.CountedLoops
import Asm6502.Proofs.Fills
import Asm6502.Proofs.Words

/-!
# Operations with a count

Five operations take a count: instructions without effect, fills, variables, stores to cells and the
directive for bytes. What they write at the cursor, and what a fill writes from its address on, goes to ever
higher addresses, so each of them ends, and fails if the count exceeds the space. A store to a cell has two
addresses, its own and that of the cell. The operand for the cell is evaluated at each store, and one that
falls as the cursor moves on does not run out of memory.

* `Assembly.Writes`: rounds at the cursor, which climb with it (`climbs_of_writes`).
* `climbs_storeGiven`: the bytes of a fill.
* `Session.Rises`: operands that do not fall as the cursor moves on. `climbs_stores`: stores to such cells.
* `counted_loops_end`: the five operations.
-/

namespace Asm6502

open Asm6502.Action (Climbs)
open Assembly (FillArgument SetOptions VariableOptions)

-- ── Rounds at the cursor ────────────────────────────────────────────────────

/-- Bytes lie at an address, and the cursor goes on to a higher one or leaves memory. -/
theorem Session.Emits.climbs {s t : Session} {place : Nat} {bytes : List UInt8} (h : s.Emits place bytes t)
    (hne : bytes ≠ []) :
    ∃ a, s.cursor.position.toAddress? = some a ∧ ∀ b, t.cursor.position.toAddress? = some b → a < b := by
  have hsome := List.length_pos_iff.mpr hne
  have hfits := h.fits
  have hat : (UInt16.ofNat place).toNat = place := by
    rw [UInt16.toNat_ofNat', Nat.mod_eq_of_lt (by omega)]
  refine ⟨UInt16.ofNat place, ?_, fun b hb => ?_⟩
  · rw [Number.toAddress?_eq_some_iff, Number.ofAddress, hat]
    exact h.before
  · have hplace := Number.ofNat_injective (h.after.symm.trans (Number.toAddress?_eq_some_iff.mp hb))
    rw [UInt16.lt_iff_toNat_lt, hat]
    omega

/-- A round that succeeds writes at the cursor. -/
def Assembly.Writes (action : Assembly Unit) : Prop :=
  ∀ s t, action.exec s = (.ok (), t) → ∃ place bytes, bytes ≠ [] ∧ s.Emits place bytes t

/-- Rounds that write at the cursor climb with it. -/
theorem climbs_of_writes {step : Nat → Assembly Unit} (h : ∀ i, (step i).Writes) :
    Climbs (fun _ => True) (fun _ s => s.cursor.position) step where
  stays _ _ _ _ _ := trivial
  climbs i s t _ hround := by
    obtain ⟨_, _, hne, hemits⟩ := h i s t hround
    exact hemits.climbs hne

namespace Repetition

variable {α : Type} {rep : Repetition α}

theorem endsAs_of_writes (h : ∀ a i, (rep.round a i).Writes) (s : Session) : rep.EndsAs rep.run s :=
  endsAs_run (fun a => climbs_of_writes (h a)) s

/-- A count fails beyond the space above the cursor, if the preparation does not move it back. -/
theorem failsBeyond_cursor {s : Session} {count : Number}
    (hwrites : ∀ a i, (rep.round a i).Writes)
    (h : ∀ a u, rep.prepare.exec s = (.ok a, u) →
      rep.count a = count ∧ u.cursor.position.room ≤ s.cursor.position.room) :
    rep.run.FailsBeyond s s.cursor.position count := by
  refine failsBeyond_run (fun a u hprepare => ?_)
  obtain ⟨hcount, hroom⟩ := h a u hprepare
  refine ⟨hcount, _, _, climbs_of_writes (hwrites a), trivial, fun p hp => hroom.trans ?_⟩
  rw [hp]
  exact Number.room_le_of (fun a ha => (Number.ofNat_injective (Number.toAddress?_eq_some_iff.mp ha)).le)

end Repetition

namespace Assembly

theorem writes_emit (m : Mnemonic) (args : List Argument) :
    (do let _ ← emit m args : Assembly Unit).Writes := by
  intro s t h
  obtain ⟨n, hemit⟩ := Action.exec_answering_eq_ok h
  obtain ⟨_, _, bytes, place, -, -, hne, hemits⟩ := emits_of_emit hemit
  exact ⟨place, bytes, hne, hemits⟩

theorem writes_emitByte (v : Number) : (emitByte v).Writes := by
  intro s t h
  rcases exec_emitByte_cases v s with ⟨b, place, t', -, hrun, hemits, -⟩ | ⟨fault, hrun⟩
  · obtain rfl : t' = t := congrArg Prod.snd (hrun.symm.trans h)
    exact ⟨place, [b], List.cons_ne_nil _ _, hemits⟩
  · cases congrArg Prod.fst (hrun.symm.trans h)

theorem writes_byte (o : Operand) : (do let _ ← byte [o] : Assembly Unit).Writes := by
  intro s t h
  rw [byte_singleton] at h
  obtain ⟨v, u, hv, hemit⟩ := Action.exec_bind_eq_ok h
  obtain ⟨references, hrun⟩ := exec_evaluate o s
  obtain ⟨-, rfl⟩ := Prod.mk.inj (hrun.symm.trans hv)
  obtain ⟨place, bytes, hne, hemits⟩ := writes_emitByte _ _ _ hemit
  exact ⟨place, bytes, hne, hemits.of_symbols⟩

end Assembly

namespace Repetition

/-- Instructions without effect. -/
def nops (count : Number) : Repetition Unit where
  prepare := pure ()
  count _ := count
  round _ _ := do let _ ← Assembly.emit .nop []

theorem nop_eq_run (count : Number) : Assembly.nop count = (nops count).run := by
  rw [run_eq rfl]
  rfl

/-- The bytes of a variable behind its label. -/
def variableBytes (name : String) (initial : Number) (options : VariableOptions) : Repetition UInt16 where
  prepare := Assembly.label name none
  count _ := options.length.getD 1
  round _ _ := Assembly.emitByte initial

theorem declare_eq_run (name : String) (initial : Number) {options : VariableOptions}
    (h : options.double = false) :
    Assembly.declare name initial options = (variableBytes name initial options).run := by
  rw [run_eq rfl, Assembly.declare, h]
  rfl

/-- The bytes of a fill directive. -/
def directiveBytes (args : List Source.DirectiveArgument) : Repetition (Number × Operand) where
  prepare := do
    let values ← liftM (Source.argumentValues .fill args)
    let given ← liftM (Source.fillArguments values)
    let length ← Source.known given.1 .fillCount
    return (length, given.2)
  count plan := plan.1
  round plan _ := do let _ ← Assembly.byte [plan.2]

theorem runDirective_eq_run (args : List Source.DirectiveArgument) :
    Source.runDirective .fill args = (directiveBytes args).run := by
  rw [run_eq rfl]
  simp only [directiveBytes, bind_assoc, pure_bind]
  rfl

/-- The preparation of the directive leaves the cursor. -/
theorem cursor_of_directive {args : List Source.DirectiveArgument} {plan : Number × Operand} {s u : Session}
    (h : (directiveBytes args).prepare.exec s = (.ok plan, u)) : u.cursor = s.cursor := by
  obtain ⟨values, _, hvalues, h⟩ := Action.exec_bind_eq_ok h
  obtain ⟨-, rfl⟩ := Prod.mk.inj hvalues
  obtain ⟨given, _, hgiven, h⟩ := Action.exec_bind_eq_ok h
  obtain ⟨-, rfl⟩ := Prod.mk.inj hgiven
  obtain ⟨length, hlength⟩ := Action.exec_answering_eq_ok h
  obtain ⟨-, references, rfl⟩ := Source.exec_known_eq_ok hlength
  rfl

end Repetition

-- ── Fills ───────────────────────────────────────────────────────────────────

namespace Assembly

/-- What a fill is about to do: where the cursor stands, where it begins, and the byte for each index. -/
structure FillPlan where
  cursor : Number
  address : Number
  byteAt : Nat → Option Number

/-- Sorts out the arguments of a fill. -/
def fillPlan (args : List FillArgument) : Assembly FillPlan := do
  let given ← liftM (sortFill args)
  let cursor ← position
  let target ← liftM (fillTarget cursor given.1)
  return ⟨cursor, target.1, given.2.getD (fun _ => some target.2)⟩

/-- A byte that was stored has an address. -/
theorem address_of_storeGiven {x : Number} {v : Option Number} {s t : Session}
    (h : (storeGiven x v).exec s = (.ok (), t)) : ∃ a, x.toAddress? = some a := by
  rcases exec_storeGiven_cases x v s with ⟨w, hx, -⟩ | ⟨fault, hrun⟩
  · exact ⟨w.address, Number.toAddress?_eq_some_iff.mpr hx⟩
  · cases congrArg Prod.fst (hrun.symm.trans h)

end Assembly

/-- The bytes from an address on. -/
theorem climbs_storeGiven (address : Number) (byteAt : Nat → Option Number) :
    Climbs (fun _ : Session => True) (fun i _ => address + .ofNat i)
      (fun i => Assembly.storeGiven (address + .ofNat i) (byteAt i)) where
  stays _ _ _ _ _ := trivial
  climbs i s t _ hround := by
    obtain ⟨a, ha⟩ := Assembly.address_of_storeGiven hround
    exact ⟨a, ha, fun b hb => Number.lt_of_counted address.lt_irrefl ha hb⟩

namespace Repetition

/-- The bytes of a fill, with the move of the cursor over them. -/
def fills (length : Number) (args : List FillArgument) : Repetition Assembly.FillPlan where
  prepare := Assembly.fillPlan args
  count _ := length
  round plan i := Assembly.storeGiven (plan.address + .ofNat i) (plan.byteAt i)
  finish plan s :=
    if plan.address.equals plan.cursor then { s with cursor := s.cursor.advance length } else s

theorem fill_eq_run (length : Number) (args : List FillArgument) :
    Assembly.fill length args = (fills length args).run := by
  have hmove : ∀ plan : Assembly.FillPlan,
      (modify ((fills length args).finish plan) : Assembly PUnit) =
        if plan.address.equals plan.cursor then modify (fun s => { s with cursor := s.cursor.advance length })
        else pure ⟨⟩ := by
    intro plan
    by_cases hhere : plan.address.equals plan.cursor
    · simp only [fills, if_pos hhere]
    · simp only [fills, if_neg hhere]
      rfl
  simp only [run, hmove, Assembly.fill_eq]
  simp only [fills, Assembly.fillPlan, Assembly.fillFrom, bind_assoc, pure_bind]

/-- A fill fails beyond the space above the address where it begins. -/
theorem failsBeyond_fills {args : List FillArgument} {s u : Session} {plan : Assembly.FillPlan}
    (h : (Assembly.fillPlan args).exec s = (.ok plan, u)) (length : Number) :
    (fills length args).run.FailsBeyond s plan.address length := by
  refine failsBeyond_run (fun plan' u' hprepare => ?_)
  obtain rfl : plan' = plan := Except.ok.inj (congrArg Prod.fst (hprepare.symm.trans h))
  refine ⟨rfl, _, _, climbs_storeGiven _ _, trivial, fun p hp => ?_⟩
  rw [hp]
  exact Number.room_le_of (fun a ha => Number.le_of_counted (Number.lt_irrefl _) ha)

end Repetition

-- ── Stores to cells ─────────────────────────────────────────────────────────

/-- As the cursor moves on through memory, an operand does not fall. -/
def Session.Rises (s : Session) (o : Operand) : Prop :=
  ∀ p q v w, p ≤ q → q ≤ 65536 → o.valueIn (s.symbols.lookup s.pass) (.ofNat p) = .ok v →
    o.valueIn (s.symbols.lookup s.pass) (.ofNat q) = .ok w → ¬w.amount < v.amount

/-- An operand without cursor stays what it is. -/
theorem Session.rises_of_not_usesCursor (s : Session) {o : Operand} (h : o.usesCursor = false) : s.Rises o := by
  intro p q v w _ _ hv hw
  rw [Operand.valueIn_of_not_usesCursor h _ _ (.ofNat p)] at hw
  rw [Except.ok.inj (hv.symm.trans hw)]
  exact Number.lt_irrefl _

/-- What an operand amounts to at the cursor, if it has a value. -/
def Session.amount (s : Session) (o : Operand) : Number :=
  match s.value o with
  | .ok v => v.amount
  | .error _ => .nan

namespace Session

variable {s u t : Session} {o : Operand}

theorem amount_of_value {v : Value} (h : s.value o = .ok v) : s.amount o = v.amount := by
  rw [amount, h]

/-- What amounts to something that can be counted on has a value. -/
theorem value_of_counted {i : Nat} {a : UInt16} (h : (s.amount o + .ofNat i).toAddress? = some a) :
    ∃ v, s.value o = .ok v ∧ (v.amount + .ofNat i).toAddress? = some a := by
  cases hv : s.value o with
  | ok v => exact ⟨v, rfl, by rwa [amount_of_value hv] at h⟩
  | error fault =>
      rw [amount, hv] at h
      cases h

/-- Names have the same values as long as the surroundings stay. -/
theorem value_of_surroundings (h : u.surroundings = s.surroundings) (o : Operand) :
    u.value o = o.valueIn (s.symbols.lookup s.pass) u.cursor.position := by
  have hpass : u.pass = s.pass := congrArg Surroundings.pass h
  have hlabels : u.symbols.labels = s.symbols.labels := congrArg Surroundings.labels h
  have hplaceholder : u.symbols.placeholder = s.symbols.placeholder := congrArg Surroundings.placeholder h
  have hlookup : u.symbols.lookup u.pass = s.symbols.lookup s.pass := by
    funext name
    simp only [Symbols.lookup, hpass, hlabels, hplaceholder]
  rw [value, hlookup]

/-- So a value that is known somewhere is known wherever there is one. -/
theorem known_of_surroundings (h : u.surroundings = s.surroundings) {v w : Value} (hv : s.value o = .ok v)
    (hknown : v.pending = false) (hw : u.value o = .ok w) : w.pending = false := by
  rw [value_of_surroundings h] at hw
  exact (Operand.pending_eq_false_iff hw).mpr ((Operand.pending_eq_false_iff hv).mp hknown)

/-- Bytes that are written do not make it fall. -/
theorem Rises.not_lt (h : s.Rises o) (hu : u.surroundings = s.surroundings)
    (ht : t.surroundings = s.surroundings) {place : Nat} {bytes : List UInt8} (hemits : u.Emits place bytes t)
    {v w : Value} (hv : u.value o = .ok v) (hw : t.value o = .ok w) : ¬w.amount < v.amount := by
  rw [value_of_surroundings hu, hemits.before] at hv
  rw [value_of_surroundings ht, hemits.after] at hw
  exact h _ _ v w (Nat.le_add_right ..) hemits.fits hv hw

end Session

namespace Assembly

/-- The first of the cells that are stored to. -/
def firstCell (target : Operand) (options : SetOptions) : Operand :=
  if options.high then .add target (.number 1) else target

/-- No store does without an operand. -/
theorem store_carries {r : Register} {mode : Mode} {d : Descriptor} (h : lookup r.store mode = .ok d) :
    d.mode ≠ .implied := by
  have hforms : ∀ f ∈ r.store.forms, f.mode ≠ .implied := by cases r <;> decide
  exact hforms d.form (lookup_eq_ok h).2.2

/-- A known operand of a store is an address. -/
theorem address_of_store {r : Register} {o : Operand} {flags : Flags} {s t : Session} {n : Nat}
    (h : (emit r.store [.operand o, .flags flags]).exec s = (.ok n, t)) :
    ∃ v, s.value o = .ok v ∧ (v.pending = false → ∃ a, v.amount = .ofAddress a) := by
  obtain ⟨hbranch, himplied, -⟩ := r.store_takes_cell
  obtain ⟨e, s', bytes, place, hencoding, hbytes, -, -⟩ := emits_of_emit h
  have hread := readArguments_operand o flags himplied
  rcases exec_encoding_eq_ok hencoding with ⟨_, _, hargs, -, -⟩ | ⟨o', index, flags', v, hargs, hv, he, -⟩
  · cases hread.symm.trans hargs
  · cases hread.symm.trans hargs
    refine ⟨v, hv, fun hknown => ?_⟩
    obtain ⟨mode, -, hencode⟩ := Session.encodeOperand_eq_ok hbranch he
    obtain ⟨hlookup, hencoded⟩ := encodeIn_eq_ok hencode
    rw [hbytes] at hencoded
    obtain ⟨_, a, -, -, ha⟩ := address_of_encode (store_carries hlookup) hknown hencoded
    exact ⟨a, ha⟩

/-- If the first cell is known, that of each store is counted on from it. -/
theorem counted_of_store {target : Operand} {options : SetOptions} {s t : Session} {i n : Nat}
    (hknown : ∀ v, s.value (firstCell target options) = .ok v → v.pending = false)
    (h : (emit options.register.store (cellArguments target options i)).exec s = (.ok n, t)) :
    ∃ v a, s.value (firstCell target options) = .ok v ∧ (v.amount + .ofNat i).toAddress? = some a := by
  obtain ⟨w, hw, haddress⟩ := address_of_store h
  -- the first store is to the cell itself, without a sum
  by_cases hi : i = 0
  · rw [if_pos hi] at hw
    obtain ⟨a, ha⟩ := haddress (hknown w hw)
    have hlt := a.toNat_lt
    have hexact : (Number.ofAddress a).IsBinary64 :=
      Number.isBinary64_ofNat (by unfold Number.exactLimit; omega)
    refine ⟨w, a, hw, ?_⟩
    rw [hi, ha, hexact.add_zero]
    exact Number.toAddress?_ofAddress a
  · rw [if_neg hi] at hw
    obtain ⟨v, hv, hw⟩ := Check.bind_eq_ok hw
    obtain rfl := Except.ok.inj hw
    obtain ⟨a, ha⟩ := haddress (by rw [hknown v hv]; rfl)
    exact ⟨v, a, hv, Number.toAddress?_eq_some_iff.mpr ha⟩

/-- A load does nothing, or writes at the cursor and leaves what surrounds it. -/
theorem load_cases {r : Register} {o : Option Operand} {s u : Session}
    (h : (load r o).exec s = (.ok (), u)) :
    u = s ∨ u.surroundings = s.surroundings ∧ ∃ place bytes, bytes ≠ [] ∧ s.Emits place bytes u := by
  cases o with
  | none => exact Or.inl (congrArg Prod.snd h).symm
  | some o =>
      obtain ⟨n, hemit⟩ := Action.exec_answering_eq_ok h
      exact Or.inr ⟨(moves_surroundings_emit _ _).of_exec hemit, writes_emit _ _ s u h⟩

end Assembly

/-- As long as the first cell does not fall, stores are to ever higher cells. -/
theorem climbs_stores {target : Operand} {options : SetOptions} {s : Session} {v : Value}
    (hrises : s.Rises (Assembly.firstCell target options))
    (hv : s.value (Assembly.firstCell target options) = .ok v) (hknown : v.pending = false) :
    Climbs (fun u : Session => u.surroundings = s.surroundings)
      (fun i u => u.amount (Assembly.firstCell target options) + .ofNat i)
      (fun i => do
        let _ ← Assembly.emit options.register.store (Assembly.cellArguments target options i)) where
  stays i u t hu hround := by
    obtain ⟨n, hemit⟩ := Action.exec_answering_eq_ok hround
    exact ((Assembly.moves_surroundings_emit _ _).of_exec hemit).trans hu
  climbs i u t hu hround := by
    obtain ⟨n, hemit⟩ := Action.exec_answering_eq_ok hround
    obtain ⟨place, bytes, -, hemits⟩ := Assembly.writes_emit _ _ u t hround
    have ht := ((Assembly.moves_surroundings_emit _ _).of_exec hemit).trans hu
    obtain ⟨w, a, hw, ha⟩ := Assembly.counted_of_store
      (fun w hw => Session.known_of_surroundings hu hv hknown hw) hemit
    refine ⟨a, ?_, fun b hb => ?_⟩
    · rw [Session.amount_of_value hw]
      exact ha
    · obtain ⟨w', hw', hb⟩ := Session.value_of_counted hb
      exact Number.lt_of_counted (hrises.not_lt hu ht hemits hw hw') ha hb

namespace Repetition

/-- The stores to cells, one after another. -/
def stores (target : Operand) (value : Option Operand) (options : SetOptions) : Repetition Unit where
  prepare := Assembly.load options.register (Assembly.loaded value options)
  count _ := options.length.getD 1
  round _ i := do let _ ← Assembly.emit options.register.store (Assembly.cellArguments target options i)

theorem setCells_eq_run (target : Operand) (value : Option Operand) (options : SetOptions) :
    Assembly.setCells target value options = (stores target value options).run := by
  rw [run_eq rfl, Assembly.setCells_eq]
  rfl

/-- Stores fail beyond the space above the cursor. -/
theorem failsBeyond_stores_cursor (target : Operand) (value : Option Operand) (options : SetOptions)
    (s : Session) :
    (stores target value options).run.FailsBeyond s s.cursor.position (options.length.getD 1) := by
  refine failsBeyond_cursor (fun _ i => Assembly.writes_emit _ _) (fun _ u hload => ⟨rfl, ?_⟩)
  rcases Assembly.load_cases hload with rfl | ⟨-, place, bytes, hne, hemits⟩
  · exact le_refl _
  · obtain ⟨a, ha, hnext⟩ := hemits.climbs hne
    exact (Number.room_lt_of ha hnext).le

/-- Stores fail beyond the space above the first cell, if this is known and does not fall. -/
theorem failsBeyond_stores_cell {target : Operand} {value : Option Operand} {options : SetOptions} {s : Session}
    {x : Number} (hx : s.value (Assembly.firstCell target options) = .ok ⟨x, false⟩)
    (hrises : s.Rises (Assembly.firstCell target options)) :
    (stores target value options).run.FailsBeyond s x (options.length.getD 1) := by
  refine failsBeyond_run (fun _ u hload => ⟨rfl, _, _, climbs_stores hrises hx rfl, ?_, fun p hp => ?_⟩)
  · rcases Assembly.load_cases hload with rfl | ⟨hu, -⟩
    · rfl
    · exact hu
  · refine Number.room_le_of (fun a ha => ?_)
    obtain ⟨w, hw, ha⟩ := Session.value_of_counted ha
    refine Number.le_of_counted ?_ ha
    rw [← hp]
    -- the cell is that of the first store, behind a load that may have moved the cursor
    rcases Assembly.load_cases hload with rfl | ⟨hu, place, bytes, -, hemits⟩
    · rw [Except.ok.inj (hw.symm.trans hx)]
      exact x.lt_irrefl
    · exact hrises.not_lt rfl hu hemits hx hw

end Repetition

-- ── All of them ─────────────────────────────────────────────────────────────

/-- Whatever the count and the session, each of the five operations has a course of at most 65536 rounds, which
    ends at the count or in a fault. A count that exceeds the space up to the last address ends in a fault: the
    space above the cursor, for a fill that above the address where it begins, and for stores also that above
    the first cell, if this is known and does not fall as the cursor moves on. -/
theorem counted_loops_end (s : Session) :
    (∀ count, (Repetition.nops count).EndsAs (Assembly.nop count) s ∧
      (Assembly.nop count).FailsBeyond s s.cursor.position count) ∧
    (∀ length args, (Repetition.fills length args).EndsAs (Assembly.fill length args) s ∧
      ∀ plan u, (Assembly.fillPlan args).exec s = (.ok plan, u) →
        (Assembly.fill length args).FailsBeyond s plan.address length) ∧
    (∀ name initial options, options.double = false →
      (Repetition.variableBytes name initial options).EndsAs (Assembly.declare name initial options) s ∧
      (Assembly.declare name initial options).FailsBeyond s s.cursor.position (options.length.getD 1)) ∧
    (∀ target value options,
      (Repetition.stores target value options).EndsAs (Assembly.setCells target value options) s ∧
      (Assembly.setCells target value options).FailsBeyond s s.cursor.position (options.length.getD 1) ∧
      ∀ x, s.value (Assembly.firstCell target options) = .ok ⟨x, false⟩ →
        s.Rises (Assembly.firstCell target options) →
          (Assembly.setCells target value options).FailsBeyond s x (options.length.getD 1)) ∧
    ∀ args, (Repetition.directiveBytes args).EndsAs (Source.runDirective .fill args) s ∧
      ∀ plan u, (Repetition.directiveBytes args).prepare.exec s = (.ok plan, u) →
        (Source.runDirective .fill args).FailsBeyond s s.cursor.position plan.1 := by
  refine ⟨?_, ?_, ?_, ?_, ?_⟩
  · intro count
    rw [Repetition.nop_eq_run]
    have hwrites : ∀ a i, ((Repetition.nops count).round a i).Writes := fun _ _ => Assembly.writes_emit _ _
    refine ⟨Repetition.endsAs_of_writes hwrites s, Repetition.failsBeyond_cursor hwrites ?_⟩
    intro _ u hprepare
    cases hprepare
    exact ⟨rfl, le_refl _⟩
  · intro length args
    rw [Repetition.fill_eq_run]
    refine ⟨Repetition.endsAs_run (fun plan => climbs_storeGiven plan.address plan.byteAt) s, ?_⟩
    intro plan u hplan
    exact Repetition.failsBeyond_fills hplan length
  · intro name initial options hdouble
    rw [Repetition.declare_eq_run name initial hdouble]
    have hwrites : ∀ a i, ((Repetition.variableBytes name initial options).round a i).Writes :=
      fun _ _ => Assembly.writes_emitByte _
    refine ⟨Repetition.endsAs_of_writes hwrites s, Repetition.failsBeyond_cursor hwrites ?_⟩
    intro _ u hlabel
    obtain rfl : _ = u := congrArg Prod.snd ((Assembly.exec_label name none s).symm.trans hlabel)
    exact ⟨rfl, le_refl _⟩
  · intro target value options
    rw [Repetition.setCells_eq_run]
    refine ⟨Repetition.endsAs_of_writes (fun _ _ => Assembly.writes_emit _ _) s,
      Repetition.failsBeyond_stores_cursor target value options s, ?_⟩
    intro x hx hrises
    exact Repetition.failsBeyond_stores_cell hx hrises
  · intro args
    rw [Repetition.runDirective_eq_run]
    have hwrites : ∀ plan i, ((Repetition.directiveBytes args).round plan i).Writes :=
      fun _ _ => Assembly.writes_byte _
    refine ⟨Repetition.endsAs_of_writes hwrites s, ?_⟩
    intro plan u hplan
    refine Repetition.failsBeyond_cursor hwrites ?_
    intro plan' u' hprepare
    obtain rfl : plan' = plan := Except.ok.inj (congrArg Prod.fst (hprepare.symm.trans hplan))
    rw [Repetition.cursor_of_directive hprepare]
    exact ⟨rfl, le_refl _⟩

theorem counts_beyond_memory_fail :
    (∃ fault t, (Assembly.nop (.infinite false)).exec
      (Source.plainSession.movedTo 0xFFFE) = (.error fault, t)) ∧
    (∃ fault t, (Assembly.fill 3 [.number 0xFFFE, .number 7]).exec Source.plainSession = (.error fault, t)) ∧
    (∃ fault t, (Assembly.declare "v" 7 { length := some (.finite (5 / 2)) }).exec
      (Source.plainSession.movedTo 0xFFFE) = (.error fault, t)) ∧
    (∃ fault t, (Assembly.setCells (.number 0xFFFE) (some (.number 7)) { length := some 3 }).exec
      Source.plainSession = (.error fault, t)) ∧
    ∃ fault t, (Source.runDirective .fill [.value (.number 3)]).exec
      (Source.plainSession.movedTo 0xFFFE) = (.error fault, t) := by
  obtain ⟨hnop, -, hdeclare, -, hdirective⟩ := counted_loops_end (Source.plainSession.movedTo 0xFFFE)
  obtain ⟨-, hfill, -, hset, -⟩ := counted_loops_end Source.plainSession
  have hrises : Source.plainSession.Rises (.number 0xFFFE) := Session.rises_of_not_usesCursor _ rfl
  refine ⟨?_, ?_, ?_, ?_, ?_⟩
  · exact (hnop (.infinite false)).2 0xFFFE rfl (by decide)
  · exact (hfill 3 [.number 0xFFFE, .number 7]).2 _ _ rfl 0xFFFE rfl (by decide)
  · exact (hdeclare "v" 7 { length := some (.finite (5 / 2)) } rfl).2 0xFFFE rfl (by decide +kernel)
  · exact (hset (.number 0xFFFE) (some (.number 7)) { length := some 3 }).2.2 0xFFFE rfl hrises 0xFFFE rfl
      (by decide)
  · exact (hdirective [.value (.number 3)]).2 (3, .number 0) _ rfl 0xFFFE rfl (by decide)

/-- A session in discovery with a placeholder at the last address. -/
def highSession : Session :=
  { Source.plainSession with symbols := Source.plainSession.symbols.withPlaceholder 0xFFFF }

/-- A target that falls with the cursor, and one that is not yet known: each of them begins at the last
    address and is stored to twice. -/
theorem some_targets_never_run_out :
    (Source.plainSession.value (.sub (.number 0x10FFF) .here) = .ok ⟨.ofAddress 0xFFFF, false⟩ ∧
      .ofNat (65536 - 0xFFFF) < (2 : Number) ∧
      ((Assembly.setCells (.sub (.number 0x10FFF) .here) none { length := some 2 }).exec
        Source.plainSession).1 = .ok () ∧
      ((Assembly.setCells (.sub (.number 0x10FFF) .here) none { length := some 2 }).exec
        Source.plainSession).2.memory.slice 0x1000 0x1005 = [0x8d, 0xff, 0xff, 0x8d, 0xfd, 0xff]) ∧
    highSession.value (.name "later") = .ok ⟨.ofAddress 0xFFFF, true⟩ ∧
      ((Assembly.setCells (.name "later") none { length := some 2 }).exec highSession).1 = .ok () ∧
      ((Assembly.setCells (.name "later") none { length := some 2 }).exec
        highSession).2.memory.slice 0x1000 0x1005 = [0x8d, 0xff, 0xff, 0x8d, 0x00, 0x00] := by
  refine ⟨⟨?_, ?_, ?_, ?_⟩, ?_, ?_, ?_⟩ <;> decide +kernel

end Asm6502
