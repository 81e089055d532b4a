import Asm6502.Command
import Asm6502.Proofs.Course

/-!
# What programs do to a session

Whatever a program does, it does by a few basic steps: it looks names up and defines labels, pins modes,
stores bytes, moves the cursor, opens owner scopes, counts and leaves marks. A preorder of sessions along
which these steps move is therefore one along which every program moves, whether it completes or fails.

* `FollowedByCode`: the steps of emitting code and variables at the cursor move along it.
* `FollowedByOperations`: so do those that move the cursor by themselves.
* `FollowedByUpkeep`: so do the steps that concern the cursor, the exported range and marks alone.
* `FollowedByCommands`: so do all steps of commands, owner scopes and the change of passes included.
* `FollowedByComponents`: so do components and what they report.
* `Command.every`: trees of commands of which every node is of a given kind.
* `Command.moves_run`: what holds of the nodes of a tree holds of the tree.
* `Catalogue.moves_render`: what holds of the commands of components holds of components.
* `followed_sameScopes`: every command leaves the scopes as it found them.
-/

namespace Asm6502

open Asm6502.Action (Moves)

-- ── More ways to take an action apart ───────────────────────────────────────

/-- What is answered in the end does not change the state. -/
theorem Action.exec_answering {σ α β : Type} (action : Action σ α) (answer : α → β) (s : σ) :
    (action >>= fun a => pure (answer a)).exec s =
      ((action.exec s).1.map answer, (action.exec s).2) := by
  rw [exec_bind]
  cases action.exec s with
  | mk outcome s' => cases outcome <;> rfl

theorem Action.exec_answering_eq_ok {σ α β : Type} {action : Action σ α} {answer : α → β} {s t : σ}
    {b : β} (h : (action >>= fun a => pure (answer a)).exec s = (.ok b, t)) :
    ∃ a, action.exec s = (.ok a, t) := by
  obtain ⟨a, _, hrun, hdone⟩ := exec_bind_eq_ok h
  cases hdone
  exact ⟨a, hrun⟩

namespace Action.Moves

variable {σ α β : Type} {R : σ → σ → Prop}

/-- An action that looks at the state first. -/
theorem withState {f : σ → Action σ α} (h : ∀ s, R s ((f s).exec s).2) : Moves R (get >>= f) := by
  intro s
  rw [exec_bind_of_ok (exec_get s)]
  exact h s

/-- Catching a failure leads where the failed action led. -/
theorem outcome {action : Action σ α} (h : Moves R action) : Moves R action.outcome := by
  intro s
  exact h s

/-- What is answered in the end does not matter. -/
theorem answering (hrefl : ∀ s, R s s) (htrans : ∀ r s t, R r s → R s t → R r t)
    {action : Action σ α} (h : Moves R action) (answer : α → β) :
    Moves R (action >>= fun a => Pure.pure (answer a)) :=
  Moves.bind htrans h (fun _ => Moves.pure hrefl _)

end Action.Moves

-- ── Composite operations in sequence ────────────────────────────────────────

namespace Assembly

/-- A scope is opened, the body runs, and the scope is closed. -/
theorem exec_withOwner {α : Type} (owner : String) (body : Assembly α) (s : Session) :
    (withOwner owner body).exec s =
      ((body.exec { s with scopes := owner :: s.scopes }).1,
        { (body.exec { s with scopes := owner :: s.scopes }).2 with
          scopes := (body.exec { s with scopes := owner :: s.scopes }).2.scopes.tail }) := rfl

theorem exec_withOwner_eq_ok {α : Type} {owner : String} {body : Assembly α} {a : α} {s t : Session}
    (h : (withOwner owner body).exec s = (.ok a, t)) :
    ∃ u, body.exec { s with scopes := owner :: s.scopes } = (.ok a, u) ∧
      t = { u with scopes := u.scopes.tail } := by
  rw [exec_withOwner] at h
  obtain ⟨hok, rfl⟩ := Prod.mk.inj h
  exact ⟨_, Prod.ext hok rfl, rfl⟩

/-- The value that is loaded before it is stored. -/
def loaded (value : Option Operand) (options : SetOptions) : Option Operand :=
  if options.load then value else none

/-- Loads a value, if there is one. -/
def load (register : Register) : Option Operand → Assembly Unit
  | some v => do let _ ← emit register.load [.operand v]
  | none => pure ()

/-- The arguments with which a value is stored in the cell at an index. -/
def cellArguments (target : Operand) (options : SetOptions) (i : Nat) : List Argument :=
  let base := if options.high then .add target (.number 1) else target
  [.operand (if i = 0 then base else .add base (.number (.ofNat i))),
    .flags { zeroPage := options.zeroPage }]

theorem setCells_eq (target : Operand) (value : Option Operand) (options : SetOptions) :
    setCells target value options = (do
      load options.register (loaded value options)
      Action.times (fun i => do
        let _ ← emit options.register.store (cellArguments target options i))
        (options.length.getD 1).rounds 0) := by
  cases value with
  | none => cases hl : options.load <;> simp [setCells, loaded, load, cellArguments, hl]
  | some v => cases hl : options.load <;> simp [setCells, loaded, load, cellArguments, hl]

/-- The numbers and the rule among the arguments of a fill. -/
def sortFill (args : List FillArgument) :
    Except Fault (List Number × Option (Nat → Option Number)) :=
  let rule := args.getLast?.bind FillArgument.generator?
  let numbers := args.filterMap FillArgument.number?
  if numbers.length + (if rule.isSome then 1 else 0) ≠ args.length then
    .error (.arity .generatorNotLast)
  else .ok (numbers, rule)

/-- Fills from a target on, and moves the cursor if it stood there. -/
def fillFrom (length : Number) (rule : Option (Nat → Option Number)) (cursor : Number)
    (target : Number × Number) : Assembly Unit := do
  Action.times (fun i =>
    storeGiven (target.1 + .ofNat i) (rule.getD (fun _ => some target.2) i)) length.rounds 0
  if target.1.equals cursor then
    modify (fun s => { s with cursor := s.cursor.advance length })

theorem fill_eq (length : Number) (args : List FillArgument) :
    fill length args = (do
      let given ← liftM (sortFill args)
      let cursor ← position
      let target ← liftM (fillTarget cursor given.1)
      fillFrom length given.2 cursor target) := by
  by_cases hsorted : (args.filterMap FillArgument.number?).length +
      (if (args.getLast?.bind FillArgument.generator?).isSome then 1 else 0) ≠ args.length
  · simp only [fill, sortFill, if_pos hsorted]
    rfl
  · simp only [fill, sortFill, if_neg hsorted]
    rfl

/-- The two labels of a word are defined one after the other. -/
theorem labelDouble_eq (name : String) :
    labelDouble name = (do
      let _ ← label (name ++ "_lo") none
      let x ← position
      let _ ← label (name ++ "_hi") (some (x + 1))) := by
  funext s
  show (labelDouble name).exec s = Action.exec _ s
  rw [labelDouble, Action.exec_bind_of_ok (Action.exec_get s), onSymbols, Action.exec_onPart,
    Symbols.defineDouble]
  cases hlow : (Symbols.define s.pass (name ++ "_lo") s.cursor.position).exec s.symbols with
  | mk outcome symbols =>
      have hlabel : (label (name ++ "_lo") none).exec s = (outcome, { s with symbols }) :=
        exec_onSymbols hlow
      cases outcome with
      | error fault => rw [Action.exec_bind_of_error hlow, Action.exec_bind_of_error hlabel]
      | ok a =>
          -- the first label leaves the cursor and the pass
          have hplace : position.exec { s with symbols } = (.ok s.cursor.position, { s with symbols }) := rfl
          rw [Action.exec_bind_of_ok hlow, Action.exec_bind_of_ok hlabel, Action.exec_answering,
            Action.exec_bind_of_ok hplace, Action.exec_answering, exec_label]
          rfl

/-- Looking a name up changes nothing but the references. -/
theorem moves_resolve {R : Session → Session → Prop}
    (hreferences : ∀ (s : Session) references, R s { s with symbols := { s.symbols with references } })
    (name : String) : Moves R (resolve name) := by
  intro s
  obtain ⟨references, hrun⟩ := exec_resolve name s
  rw [hrun]
  exact hreferences s references

/-- Defining a label changes nothing but the symbols. -/
theorem moves_label {R : Session → Session → Prop}
    (hsymbols : ∀ (s : Session) symbols, R s { s with symbols }) (name : String)
    (address : Option Number) : Moves R (label name address) := by
  intro s
  rw [exec_label]
  exact hsymbols s _

/-- A byte that is stored is one of the current owner. -/
theorem moves_storeByte {R : Session → Session → Prop} (hrefl : ∀ s, R s s)
    (hstored : ∀ (s : Session) (w : Write), w.cell.owner = s.owner → R s (s.stored w))
    (address value : Number) : Moves R (storeByte address value) := by
  intro s
  rcases exec_storeByte_cases address value s with ⟨w, hcheck, -, hrun⟩ | ⟨fault, hrun⟩
  · obtain ⟨b, -, -, hcell⟩ := Image.checkWrite_eq_ok hcheck
    rw [hrun]
    exact hstored s w (by rw [hcell])
  · rw [hrun]
    exact hrefl s

/-- Evaluating an operand is looking its names up. -/
theorem moves_evaluate {R : Session → Session → Prop} (hrefl : ∀ s, R s s)
    (htrans : ∀ r s t, R r s → R s t → R r t)
    (hresolve : ∀ name, Moves R (resolve name)) (o : Operand) : Moves R (evaluate o) := by
  refine Moves.withState (fun s => ?_)
  let R' : Symbols → Symbols → Prop := fun a b => R { s with symbols := a } { s with symbols := b }
  have hname : ∀ name, Moves R' (Symbols.resolve s.pass s.cursor.position name) := by
    intro name symbols
    have hmoved := hresolve name { s with symbols }
    rw [resolve, Action.exec_bind_of_ok (Action.exec_get _), onSymbols,
      Action.exec_onPart] at hmoved
    exact hmoved
  exact o.moves_evaluate (R := R') (fun _ => hrefl _) (fun _ _ _ => htrans _ _ _) hname
    s.cursor.position s.symbols

/-- A byte is emitted by storing it and moving the cursor. -/
theorem moves_emitByte {R : Session → Session → Prop} (hrefl : ∀ s, R s s)
    (htrans : ∀ r s t, R r s → R s t → R r t)
    (hstore : ∀ address value, Moves R (storeByte address value))
    (hadvance : ∀ s, R s { s with cursor := s.cursor.advance 1 }) (v : Number) :
    Moves R (emitByte v) := by
  have hposition : Moves R position := hrefl
  exact Moves.bind htrans hposition (fun _ => Moves.bind htrans (hstore _ v) (fun _ => hadvance))

end Assembly

-- ── Data ────────────────────────────────────────────────────────────────────

/-- A preorder of sessions along which the steps of emitting variables at the cursor move. -/
structure FollowedByVariables (R : Session → Session → Prop) : Prop extends FollowedByBytes R where
  label : ∀ name address, Moves R (Assembly.label name address)
  storeByte : ∀ address value, Moves R (Assembly.storeByte address value)
  entrypoint : Moves R Assembly.entrypoint

namespace FollowedByVariables

open Assembly (VariableOptions)

variable {R : Session → Session → Prop}

/-- How symbol tables move along a relation of sessions, the rest of a session staying as it is. -/
def BySymbols (R : Session → Session → Prop) (s : Session) (a b : Symbols) : Prop :=
  R { s with symbols := a } { s with symbols := b }

theorem bySymbols_refl (h : FollowedByVariables R) (s : Session) (a : Symbols) : BySymbols R s a a :=
  h.refl _

theorem bySymbols_trans (h : FollowedByVariables R) (s : Session) (a b c : Symbols)
    (hab : BySymbols R s a b) (hbc : BySymbols R s b c) : BySymbols R s a c :=
  h.trans _ _ _ hab hbc

theorem evaluateBySymbols (h : FollowedByVariables R) (s : Session) (o : Operand) :
    Moves (BySymbols R s) (s.scope.evaluate o) := by
  intro symbols
  have hmoved := h.evaluate o { s with symbols }
  rw [Assembly.evaluate, Action.exec_bind_of_ok (Action.exec_get _), Assembly.onSymbols,
    Action.exec_onPart] at hmoved
  exact hmoved

theorem defineBySymbols (h : FollowedByVariables R) (s : Session) (name : String) (x : Number) :
    Moves (BySymbols R s) (Symbols.define s.pass name x) := by
  intro symbols
  have hmoved := h.label name (some x) { s with symbols }
  rw [Assembly.label, Action.exec_bind_of_ok (Action.exec_get _), Assembly.onSymbols,
    Action.exec_onPart] at hmoved
  exact hmoved

theorem position (h : FollowedByVariables R) : Moves R Assembly.position := h.refl

theorem labelDouble (h : FollowedByVariables R) (name : String) : Moves R (Assembly.labelDouble name) := by
  rw [Assembly.labelDouble_eq]
  refine Moves.bind h.trans (h.label _ none) (fun _ => ?_)
  exact Moves.bind h.trans h.position (fun _ => Moves.answering h.refl h.trans (h.label _ _) _)

theorem storeGiven (h : FollowedByVariables R) (address : Number) (value : Option Number) :
    Moves R (Assembly.storeGiven address value) := by
  cases value with
  | some v => exact h.storeByte address v
  | none => exact Moves.bind h.trans (Moves.check h.refl _) (fun _ => Moves.throw h.refl _)

theorem declare (h : FollowedByVariables R) (name : String) (initial : Number)
    (options : VariableOptions) : Moves R (Assembly.declare name initial options) := by
  refine Moves.bind h.trans (h.label name none) (fun _ => ?_)
  by_cases hdouble : options.double = true
  · rw [if_pos hdouble]
    refine Moves.bind h.trans (h.evaluate _) (fun low => ?_)
    refine Moves.bind h.trans (h.label _ none) (fun _ => ?_)
    refine Moves.bind h.trans (h.emitByte _) (fun _ => ?_)
    refine Moves.bind h.trans (h.label _ none) (fun _ => ?_)
    exact Moves.bind h.trans (h.evaluate _) (fun high => h.emitByte _)
  · rw [if_neg hdouble]
    exact Moves.times h.refl h.trans (fun _ => h.emitByte initial) _ _

theorem data (h : FollowedByVariables R) (name : String) (operands : List Operand) :
    Moves R (Assembly.data name operands) :=
  Moves.bind h.trans (h.label name none) (fun _ => h.byteUnit operands)

end FollowedByVariables

/-- A preorder of sessions along which the steps of emitting data and of moving the cursor move. -/
structure FollowedByData (R : Session → Session → Prop) : Prop extends
  Followed R, FollowedByVariables R

namespace FollowedByData

open Assembly (FillArgument)

variable {R : Session → Session → Prop}

/-- The cursor moves on as if it were told where to. -/
theorem advance (h : FollowedByData R) (count : Number) :
    Moves R (modify (fun s => { s with cursor := s.cursor.advance count }) : Assembly Unit) :=
  fun s => h.org (s.cursor.position + count) s

theorem fillFrom (h : FollowedByData R) (length : Number) (rule : Option (Nat → Option Number))
    (cursor : Number) (target : Number × Number) :
    Moves R (Assembly.fillFrom length rule cursor target) := by
  refine Moves.bind h.trans (Moves.times h.refl h.trans (fun i => h.storeGiven _ _) _ _) (fun _ => ?_)
  by_cases hcursor : target.1.equals cursor = true
  · rw [if_pos hcursor]
    exact h.advance length
  · rw [if_neg hcursor]
    exact Moves.pure h.refl _

theorem fill (h : FollowedByData R) (length : Number) (args : List FillArgument) :
    Moves R (Assembly.fill length args) := by
  rw [Assembly.fill_eq]
  refine Moves.bind h.trans (Moves.check h.refl _) (fun given => ?_)
  refine Moves.bind h.trans h.position (fun cursor => ?_)
  exact Moves.bind h.trans (Moves.check h.refl _) (fun target => h.fillFrom length _ cursor target)

end FollowedByData

-- ── Instructions ────────────────────────────────────────────────────────────

/-- A preorder of sessions along which the steps of emitting code and variables at the cursor move. -/
structure FollowedByCode (R : Session → Session → Prop) : Prop extends FollowedByVariables R where
  resolve : ∀ name, Moves R (Assembly.resolve name)
  pin : ∀ s mode, R s { s with symbols := s.symbols.pin s.cursor.position mode }
  countInstruction : Moves R Assembly.countInstruction

namespace FollowedByCode

open Assembly (Argument SetOptions CopyOptions)
open FollowedByVariables (BySymbols)

variable {R : Session → Session → Prop}

/-- An instruction is encoded by evaluating its operand, and perhaps by pinning its mode. -/
theorem encoding (h : FollowedByCode R) (m : Mnemonic) (args : List Argument) :
    Moves R (Assembly.encoding m args) := by
  refine Moves.bind h.trans (Moves.check h.refl _) (fun arguments => Moves.withState (fun s => ?_))
  have hmoves : Moves (BySymbols R s)
      (s.scope.assemble m arguments.operand arguments.index arguments.flags) :=
    Scope.moves_assemble (h.bySymbols_refl s) (h.bySymbols_trans s)
      (h.evaluateBySymbols s) (fun symbols mode => h.pin { s with symbols } mode) m _ _ _
  exact hmoves s.symbols

theorem emit (h : FollowedByCode R) (m : Mnemonic) (args : List Argument) :
    Moves R (Assembly.emit m args) := by
  refine Moves.bind h.trans (h.encoding m args) (fun e => ?_)
  refine Moves.bind h.trans (Moves.each h.refl h.trans h.emitByte e.bytes) (fun _ => ?_)
  exact Moves.answering h.refl h.trans h.countInstruction _

/-- An instruction whose length is of no interest. -/
theorem emitUnit (h : FollowedByCode R) (m : Mnemonic) (args : List Argument) :
    Moves R (do let _ ← Assembly.emit m args) :=
  Moves.answering h.refl h.trans (h.emit m args) _

theorem nop (h : FollowedByCode R) (count : Number) : Moves R (Assembly.nop count) :=
  Moves.times h.refl h.trans (fun _ => h.emitUnit .nop []) _ _

theorem load (h : FollowedByCode R) (register : Register) (value : Option Operand) :
    Moves R (Assembly.load register value) := by
  cases value with
  | some v => exact h.emitUnit _ _
  | none => exact Moves.pure h.refl _

theorem setCells (h : FollowedByCode R) (target : Operand) (value : Option Operand)
    (options : SetOptions) : Moves R (Assembly.setCells target value options) := by
  rw [Assembly.setCells_eq]
  refine Moves.bind h.trans (h.load _ _) (fun _ => ?_)
  exact Moves.times h.refl h.trans (fun i => h.emitUnit _ _) _ _

theorem setAddress (h : FollowedByCode R) (target what : Operand) (options : SetOptions) :
    Moves R (Assembly.setAddress target what options) :=
  Moves.bind h.trans (h.setCells _ _ _) (fun _ => h.setCells _ _ _)

theorem copyCell (h : FollowedByCode R) (source target : Operand) (options : CopyOptions) :
    Moves R (Assembly.copyCell source target options) :=
  Moves.bind h.trans (h.emit _ _) (fun _ => h.emitUnit _ _)

end FollowedByCode

/-- A preorder of sessions along which the steps of emitting code and data and of moving the cursor move. -/
structure FollowedByOperations (R : Session → Session → Prop) : Prop extends
  FollowedByData R, FollowedByCode R

/-- The statements of a source text. -/
theorem FollowedByOperations.statements {R : Session → Session → Prop} (h : FollowedByOperations R)
    (statements : List Source.Statement) : Moves R (Source.runAll statements) := by
  refine Moves.each h.refl h.trans (fun st => ?_) statements
  have hbody : Moves R st.body.run := by
    refine h.toFollowed.body (fun m operand hb => ?_)
    rw [hb]
    refine Moves.bind h.trans ?_ (fun args => h.emitUnit m args)
    rcases operand with _ | (_ | o | ⟨o, index⟩ | o | o | o)
    case some.direct => exact Moves.answering h.refl h.trans (h.evaluate o) _
    all_goals exact Moves.pure h.refl _
  intro s
  rw [Source.exec_run]
  exact hbody s

-- ── Cursor, exported range and marks ────────────────────────────────────────

/-- The export that a declaration asks for, with the cursor it set. -/
def Image.declared (m : Image) (options : Assembly.Setup) (start : UInt16) : Except Fault Image :=
  match options.finish with
  | some finish => m.setRange options.start finish
  | none => .ok { m with start := some start }

/-- Whether an export can be declared does not depend on the image. -/
theorem Image.declared_of_ok {m m' : Image} {options : Assembly.Setup} {start : UInt16}
    (h : m.declared options start = .ok m') (n : Image) :
    ∃ start' finish', n.declared options start = .ok { n with start := start', finish := finish' } := by
  cases hf : options.finish with
  | none =>
      rw [Image.declared, hf]
      exact ⟨some start, n.finish, rfl⟩
  | some finish =>
      rw [Image.declared, hf] at h ⊢
      dsimp only at h ⊢
      rw [Image.setRange] at h ⊢
      split at h
      · rename_i first final hfirst hfinal
        by_cases hless : final < first
        · rw [if_pos hless] at h
          exact nomatch h
        · rw [if_neg hless]
          exact ⟨_, _, rfl⟩
      · exact nomatch h

/-- A declaration of the export changes its bounds only. -/
theorem Image.declared_eq_ok {m m' : Image} {options : Assembly.Setup} {start : UInt16}
    (h : m.declared options start = .ok m') : ∃ start finish, m' = { m with start, finish } := by
  obtain ⟨start', finish', hsame⟩ := declared_of_ok h m
  exact ⟨start', finish', Except.ok.inj (h.symm.trans hsame)⟩

theorem Assembly.exec_setup (options : Setup) (s : Session) :
    (setup options).exec s =
      match s.cursor.setStart options.start with
      | .error fault => (.error fault, s)
      | .ok cursor =>
        let cursor' := cursor.jump (options.entry.getD options.start)
        match s.memory.declared options cursor.start with
        | .error fault => (.error fault, { s with cursor := cursor' })
        | .ok memory => (.ok (), { s with
            cursor := cursor'
            memory
            entrypoint := if s.pass.isFinal || s.entrypoint.isSome then s.entrypoint
              else some cursor'.position }) := by
  cases hstart : s.cursor.setStart options.start with
  | error fault => simp [setup, Action.exec_bind, hstart]
  | ok cursor =>
      cases hf : options.finish with
      | none =>
          by_cases hentry : s.pass.isFinal = true ∨ s.entrypoint.isSome = true <;>
            simp [setup, Action.exec_bind, Image.declared, hstart, hf, hentry]
      | some finish =>
          cases hrange : s.memory.setRange options.start finish with
          | error fault => simp [setup, Action.exec_bind, Image.declared, hstart, hf, hrange]
          | ok memory =>
              by_cases hentry : s.pass.isFinal = true ∨ s.entrypoint.isSome = true <;>
                simp [setup, Action.exec_bind, Image.declared, hstart, hf, hrange, hentry]

/-- Where a program is declared to lie does not depend on the session. -/
theorem Assembly.exec_setup_of_ok {options : Setup} {s t : Session}
    (h : (setup options).exec s = (.ok (), t)) :
    ∃ start, ∀ u : Session, ∃ first last entrypoint, (setup options).exec u = (.ok (), { u with
      cursor := ⟨start, options.entry.getD options.start, u.cursor.registers⟩
      memory := { u.memory with start := first, finish := last }
      entrypoint }) := by
  rw [exec_setup] at h
  cases hstart : checkAddress options.start with
  | error fault =>
      rw [Cursor.setStart, hstart] at h
      exact nomatch congrArg Prod.fst h
  | ok start =>
      have hset : ∀ c : Cursor, c.setStart options.start = .ok { c with start } := by
        intro c
        rw [Cursor.setStart, hstart]
        rfl
      rw [hset] at h
      cases hdeclared : s.memory.declared options start with
      | error fault =>
          simp only [hdeclared] at h
          exact nomatch congrArg Prod.fst h
      | ok memory =>
          refine ⟨start, fun u => ?_⟩
          obtain ⟨first, last, hu⟩ := Image.declared_of_ok hdeclared u.memory
          rw [exec_setup, hset]
          simp only [hu]
          exact ⟨first, last, _, rfl⟩

/-- A watch asks for a label at most, and adds to the watches. -/
theorem Assembly.moves_watch {R : Session → Session → Prop} (hrefl : ∀ s, R s s)
    (htrans : ∀ r s t, R r s → R s t → R r t) (hresolve : ∀ name, Moves R (resolve name))
    (hwatches : ∀ (s : Session) watches, R s { s with watches }) (target : WatchTarget) :
    Moves R (watch target) := by
  have hmark : ∀ entry : Watch, Moves R
      (modify (fun s => { s with watches := s.watches ++ [entry] }) : Assembly Unit) :=
    fun entry s => hwatches s _
  refine Moves.withState (fun s => ?_)
  by_cases hfinal : s.pass.isFinal = true
  · rw [if_pos hfinal]
    cases target with
    | label name =>
        have hmoves : Moves R (resolve name >>= fun v =>
            (pure (Watch.mk name v.amount.hexText) : Assembly Watch) >>= fun entry =>
              modify (fun s => { s with watches := s.watches ++ [entry] })) :=
          Moves.bind htrans (hresolve name) (fun v => Moves.bind htrans (Moves.pure hrefl _) hmark)
        exact hmoves s
    | address a => exact hmark _ s
    | here => exact hmark _ s
  · rw [if_neg hfinal]
    exact hrefl s

/-- A preorder of sessions along which also the steps move that concern pins and marks alone. -/
structure FollowedByMarks (R : Session → Session → Prop) : Prop extends FollowedByCode R where
  pinAt : ∀ s place mode, R s { s with symbols := s.symbols.pin place mode }
  marks : ∀ s breakpoints watches, R s { s with breakpoints, watches }
  record : ∀ (s : Session) operation outcome, R s (s.record operation outcome)

namespace FollowedByMarks

open Assembly (WatchTarget)

variable {R : Session → Session → Prop}

theorem breakpoint (h : FollowedByMarks R) (kind : BreakpointKind) (params : String) :
    Moves R (Assembly.breakpoint kind params) := by
  intro s
  rw [Assembly.breakpoint, Action.exec_modify]
  by_cases hfinal : s.pass.isFinal = true
  · rw [if_pos hfinal]
    exact h.marks s _ s.watches
  · rw [if_neg hfinal]
    exact h.refl s

theorem watch (h : FollowedByMarks R) (target : WatchTarget) : Moves R (Assembly.watch target) :=
  Assembly.moves_watch h.refl h.trans h.resolve (fun s => h.marks s s.breakpoints) target

theorem symbols (h : FollowedByMarks R) (command : SymbolCommand) : Moves R (do
    let s ← get
    Assembly.onSymbols (command.run s.pass s.cursor.position)) := by
  refine Moves.withState (fun s => ?_)
  rw [Assembly.onSymbols, Action.exec_onPart]
  have hdefine := h.defineBySymbols s
  have hmoves : Moves (FollowedByVariables.BySymbols R s) (command.run s.pass s.cursor.position) := by
    have hread : ∀ {α : Type} (answer : Symbols → α), Moves (FollowedByVariables.BySymbols R s)
        (get >>= fun symbols => pure (answer symbols)) :=
      fun answer => Moves.withState (fun symbols => h.bySymbols_refl s symbols)
    cases command with
    | define name address =>
        exact Moves.answering (h.bySymbols_refl s) (h.bySymbols_trans s) (hdefine _ _) _
    | defineDouble name =>
        refine Moves.answering (h.bySymbols_refl s) (h.bySymbols_trans s) ?_ _
        exact Moves.bind (h.bySymbols_trans s) (hdefine _ _) (fun _ =>
          Moves.answering (h.bySymbols_refl s) (h.bySymbols_trans s) (hdefine _ _) _)
    | lookup name =>
        exact Moves.answering (h.bySymbols_refl s) (h.bySymbols_trans s)
          (h.evaluateBySymbols s (.name name)) _
    | pin place mode =>
        have hpin : Moves (FollowedByVariables.BySymbols R s)
            (modify (·.pin place mode) : Action Symbols PUnit) :=
          fun symbols => h.pinAt { s with symbols } place mode
        exact Moves.answering (h.bySymbols_refl s) (h.bySymbols_trans s) hpin _
    | _ => exact hread _
  exact hmoves s.symbols

end FollowedByMarks

/-- A preorder of sessions along which also the steps move that concern the cursor and the exported range
    alone. -/
structure FollowedByUpkeep (R : Session → Session → Prop) : Prop extends
  FollowedByOperations R, FollowedByMarks R where
  cursor : ∀ s cursor, R s { s with cursor }
  bounds : ∀ s start finish, R s { s with memory := { s.memory with start, finish } }
  entry : ∀ s entrypoint, R s { s with entrypoint }

namespace FollowedByUpkeep

open Assembly (Setup)

variable {R : Session → Session → Prop}

theorem setup (h : FollowedByUpkeep R) (options : Setup) : Moves R (Assembly.setup options) := by
  intro s
  rw [Assembly.exec_setup]
  cases s.cursor.setStart options.start with
  | error fault => exact h.refl s
  | ok cursor =>
      have hcursor := h.cursor s (cursor.jump (options.entry.getD options.start))
      cases hdeclared : s.memory.declared options cursor.start with
      | error fault => simpa only [hdeclared] using hcursor
      | ok memory =>
          obtain ⟨start, finish, rfl⟩ := Image.declared_eq_ok hdeclared
          simp only [hdeclared]
          exact h.trans _ _ _ hcursor (h.trans _ _ _ (h.bounds _ start finish) (h.entry _ _))

/-- A step on the cursor. -/
theorem onCursor {α : Type} (h : FollowedByUpkeep R) (action : Action Cursor α) :
    Moves R (Assembly.onCursor action) := by
  intro s
  rw [Assembly.onCursor, Action.exec_onPart]
  exact h.cursor s _

end FollowedByUpkeep

-- ── Trees of commands ───────────────────────────────────────────────────────

namespace Command

/-- Whether a command holds no other commands. -/
def isLeaf : Command → Bool
  | .withOwner _ _ => false
  | .subroutine _ _ => false
  | .onlyIn _ _ => false
  | .ifDefined _ _ => false
  | .attempt _ => false
  | .traced _ _ => false
  | _ => true

mutual

/-- Whether a command and all commands in it are of a kind. -/
def every (kind : Command → Bool) : Command → Bool
  | .withOwner owner body => kind (.withOwner owner body) && everyOf kind body
  | .subroutine name body => kind (.subroutine name body) && everyOf kind body
  | .onlyIn pass body => kind (.onlyIn pass body) && everyOf kind body
  | .ifDefined name body => kind (.ifDefined name body) && everyOf kind body
  | .attempt body => kind (.attempt body) && everyOf kind body
  | .traced operation command => kind (.traced operation command) && command.every kind
  | command => kind command

/-- Whether commands and all commands in them are of a kind. -/
def everyOf (kind : Command → Bool) : List Command → Bool
  | [] => true
  | command :: rest => command.every kind && everyOf kind rest

end

mutual

/-- All commands are of some kind. -/
theorem every_any (c : Command) : c.every (fun _ => true) = true := by
  cases c with
  | withOwner owner body => exact everyOf_any body
  | subroutine name body => exact everyOf_any body
  | onlyIn pass body => exact everyOf_any body
  | ifDefined name body => exact everyOf_any body
  | attempt body => exact everyOf_any body
  | traced operation command => exact every_any command
  | _ => rfl

theorem everyOf_any (commands : List Command) : everyOf (fun _ => true) commands = true := by
  cases commands with
  | nil => rfl
  | cons command rest => exact Bool.and_eq_true_iff.mpr ⟨every_any command, everyOf_any rest⟩

end

mutual

/-- What is of a kind is of a wider kind. -/
theorem every_mono {kind kind' : Command → Bool} (himp : ∀ c, kind c = true → kind' c = true)
    (c : Command) (h : c.every kind = true) : c.every kind' = true := by
  cases c with
  | withOwner _ body | subroutine _ body | onlyIn _ body | ifDefined _ body | attempt body =>
      obtain ⟨hkind, hbody⟩ := Bool.and_eq_true_iff.mp h
      exact Bool.and_eq_true_iff.mpr ⟨himp _ hkind, everyOf_mono himp body hbody⟩
  | traced operation command =>
      obtain ⟨hkind, hcommand⟩ := Bool.and_eq_true_iff.mp h
      exact Bool.and_eq_true_iff.mpr ⟨himp _ hkind, every_mono himp command hcommand⟩
  | _ => exact himp _ h

theorem everyOf_mono {kind kind' : Command → Bool} (himp : ∀ c, kind c = true → kind' c = true)
    (commands : List Command) (h : everyOf kind commands = true) : everyOf kind' commands = true := by
  cases commands with
  | nil => rfl
  | cons command rest =>
      obtain ⟨hcommand, hrest⟩ := Bool.and_eq_true_iff.mp h
      exact Bool.and_eq_true_iff.mpr ⟨every_mono himp command hcommand, everyOf_mono himp rest hrest⟩

end

theorem everyOf_iff {kind : Command → Bool} {commands : List Command} :
    everyOf kind commands = true ↔ ∀ c ∈ commands, c.every kind = true := by
  induction commands with
  | nil => exact ⟨fun _ c hc => (nomatch hc), fun _ => rfl⟩
  | cons command rest ih => rw [everyOf, Bool.and_eq_true_iff, ih, List.forall_mem_cons]

theorem runAll_append (render : Nat → Assembly Unit) (first second : List Command) :
    runAll render (first ++ second) = (do runAll render first; runAll render second) := by
  induction first with
  | nil => simp [runAll]
  | cons c rest ih => simp [runAll, ih]

variable {R : Session → Session → Prop} {render : Nat → Assembly Unit} {kind : Command → Bool}

mutual

/-- What the leaves of a tree follow, and owner scopes around them, the whole tree follows. -/
theorem moves_run (h : FollowedByMarks R)
    (hscope : ∀ owner (body : Assembly Unit), Moves R body → Moves R (Assembly.withOwner owner body))
    (hleaf : ∀ c, c.isLeaf = true → kind c = true → Moves R (Command.run render c)) (c : Command)
    (hc : c.every kind = true) : Moves R (c.run render) := by
  cases c with
  | withOwner owner body =>
      have hbody := moves_runAll h hscope hleaf body (Bool.and_eq_true_iff.mp hc).2
      exact Moves.answering h.refl h.trans (hscope owner _ hbody) _
  | subroutine name body =>
      have hbody := moves_runAll h hscope hleaf body (Bool.and_eq_true_iff.mp hc).2
      refine Moves.answering h.refl h.trans ?_ _
      exact Moves.bind h.trans (h.label name none) (fun _ =>
        Moves.bind h.trans hbody (fun _ => h.emitUnit .rts []))
  | onlyIn pass body =>
      have hbody := moves_runAll h hscope hleaf body (Bool.and_eq_true_iff.mp hc).2
      refine Moves.withState (fun s => ?_)
      by_cases hpass : s.pass = pass
      · rw [if_pos hpass]
        exact Moves.answering h.refl h.trans hbody _ s
      · rw [if_neg hpass]
        exact h.refl s
  | ifDefined name body =>
      have hbody := moves_runAll h hscope hleaf body (Bool.and_eq_true_iff.mp hc).2
      refine Moves.withState (fun s => ?_)
      by_cases hname : s.symbols.labels.contains name = true
      · rw [if_pos hname]
        exact Moves.answering h.refl h.trans hbody _ s
      · rw [if_neg hname]
        exact h.refl s
  | attempt body =>
      have hbody := moves_runAll h hscope hleaf body (Bool.and_eq_true_iff.mp hc).2
      refine Moves.bind h.trans (Moves.outcome hbody) (fun result => ?_)
      cases result <;> exact Moves.pure h.refl _
  | traced operation command =>
      have hcommand := moves_run h hscope hleaf command (Bool.and_eq_true_iff.mp hc).2
      refine Moves.bind h.trans hcommand (fun reply => ?_)
      have hrecord : Moves R (modify (·.record operation (.ok reply)) : Assembly PUnit) :=
        fun s => h.record s operation (.ok reply)
      exact Moves.answering h.refl h.trans hrecord _
  | _ => exact hleaf _ rfl hc

theorem moves_runAll (h : FollowedByMarks R)
    (hscope : ∀ owner (body : Assembly Unit), Moves R body → Moves R (Assembly.withOwner owner body))
    (hleaf : ∀ c, c.isLeaf = true → kind c = true → Moves R (Command.run render c))
    (commands : List Command) (hc : everyOf kind commands = true) :
    Moves R (runAll render commands) := by
  cases commands with
  | nil => exact Moves.pure h.refl _
  | cons command rest =>
      obtain ⟨hcommand, hrest⟩ := Bool.and_eq_true_iff.mp hc
      exact Moves.bind h.trans (moves_run h hscope hleaf command hcommand) (fun _ =>
        moves_runAll h hscope hleaf rest hrest)

end

/-- Commands that emit data, define labels and move the cursor. -/
def isData : Command → Bool
  | .label _ _ | .labelDouble _ | .org _ | .entrypoint | .byte _ | .word _ | .fill _ _
  | .declare _ _ _ | .data _ _ | .text _ _ | .emitByte _ | .storeByte _ _ => true
  | _ => false

/-- Commands that emit code and variables at the cursor, define labels and ask for values. -/
def isCode : Command → Bool
  | .emit _ _ | .label _ _ | .labelDouble _ | .addressOf _ | .evaluate _ | .entrypoint | .nop _
  | .byte _ | .word _ | .declare _ _ _ | .data _ _ | .text _ _ | .setCells _ _ _ | .setAddress _ _ _
  | .copyCell _ _ _ | .emitByte _ | .storeByte _ _ | .countInstruction | .call _ _ => true
  | _ => false

/-- Commands that emit code and data, define labels and ask for values. -/
def isEmitting : Command → Bool
  | .emit _ _ | .label _ _ | .labelDouble _ | .addressOf _ | .evaluate _ | .org _ | .entrypoint
  | .nop _ | .byte _ | .word _ | .fill _ _ | .declare _ _ _ | .data _ _ | .text _ _
  | .setCells _ _ _ | .setAddress _ _ _ | .copyCell _ _ _ | .emitByte _ | .storeByte _ _
  | .countInstruction | .source _ | .call _ _ => true
  | _ => false

/-- Commands that concern the symbol table and marks alone. -/
def isMark : Command → Bool
  | .symbols _ | .breakHere | .breakOnMemory _ _ | .breakOnRaster _ | .watch _ => true
  | _ => false

/-- Commands that concern the cursor, the symbol table, the exported range and marks alone. -/
def isUpkeep : Command → Bool
  | .cursor _ | .symbols _ | .setup _ | .breakHere | .breakOnMemory _ _ | .breakOnRaster _
  | .watch _ => true
  | _ => false

end Command

theorem FollowedByData.run {R : Session → Session → Prop} (h : FollowedByData R)
    (render : Nat → Assembly Unit) {c : Command} (hc : c.isData = true) : Moves R (c.run render) := by
  have hdone : ∀ {action : Assembly Unit}, Moves R action →
      Moves R (action >>= fun _ => pure Reply.done) :=
    fun haction => Moves.answering h.refl h.trans haction _
  cases c with
  | label name address => exact Moves.answering h.refl h.trans (h.label name address) _
  | labelDouble name => exact hdone (h.labelDouble name)
  | org place => exact hdone (h.org place)
  | entrypoint => exact hdone h.entrypoint
  | byte operands => exact Moves.answering h.refl h.trans (h.byte operands) _
  | word operands => exact Moves.answering h.refl h.trans (h.word operands) _
  | fill length args => exact hdone (h.fill length args)
  | declare name initial options => exact hdone (h.declare name _ options)
  | data name operands => exact hdone (h.data name operands)
  | text name content => exact hdone (h.data name _)
  | emitByte value => exact hdone (h.emitByte value)
  | storeByte address value => exact hdone (h.storeByte address value)
  | _ => exact nomatch hc

theorem FollowedByCode.run {R : Session → Session → Prop} (h : FollowedByCode R)
    (render : Nat → Assembly Unit) {c : Command} (hc : c.isCode = true) : Moves R (c.run render) := by
  have hdone : ∀ {action : Assembly Unit}, Moves R action →
      Moves R (action >>= fun _ => pure Reply.done) :=
    fun haction => Moves.answering h.refl h.trans haction _
  cases c with
  | emit m args => exact Moves.answering h.refl h.trans (h.emit m args) _
  | label name address => exact Moves.answering h.refl h.trans (h.label name address) _
  | labelDouble name => exact hdone (h.labelDouble name)
  | addressOf name => exact Moves.answering h.refl h.trans (h.resolve name) _
  | evaluate o => exact Moves.answering h.refl h.trans (h.evaluate o) _
  | entrypoint => exact hdone h.entrypoint
  | nop count => exact hdone (h.nop _)
  | byte operands => exact Moves.answering h.refl h.trans (h.byte operands) _
  | word operands => exact Moves.answering h.refl h.trans (h.word operands) _
  | declare name initial options => exact hdone (h.declare name _ options)
  | data name operands => exact hdone (h.data name operands)
  | text name content => exact hdone (h.data name _)
  | setCells target value options => exact hdone (h.setCells target value options)
  | setAddress target what options => exact hdone (h.setAddress target what options)
  | copyCell origin target options => exact hdone (h.copyCell origin target options)
  | emitByte value => exact hdone (h.emitByte value)
  | storeByte address value => exact hdone (h.storeByte address value)
  | countInstruction => exact hdone h.countInstruction
  | call id routine => exact Moves.answering h.refl h.trans (h.emit _ _) _
  | _ => exact nomatch hc

theorem FollowedByOperations.run {R : Session → Session → Prop} (h : FollowedByOperations R)
    (render : Nat → Assembly Unit) {c : Command} (hc : c.isEmitting = true) :
    Moves R (c.run render) := by
  cases c with
  | org _ | fill _ _ => exact h.toFollowedByData.run render rfl
  | source content =>
      refine Moves.bind h.trans (Moves.check h.refl _) (fun statements => ?_)
      exact Moves.answering h.refl h.trans (h.statements statements) _
  | emit _ _ | label _ _ | labelDouble _ | addressOf _ | evaluate _ | entrypoint | nop _ | byte _ | word _
  | declare _ _ _ | data _ _ | text _ _ | setCells _ _ _ | setAddress _ _ _ | copyCell _ _ _ | emitByte _
  | storeByte _ _ | countInstruction | call _ _ => exact h.toFollowedByCode.run render rfl
  | _ => exact nomatch hc

theorem FollowedByMarks.run {R : Session → Session → Prop} (h : FollowedByMarks R)
    (render : Nat → Assembly Unit) {c : Command} (hc : c.isMark = true) : Moves R (c.run render) := by
  have hdone : ∀ {action : Assembly Unit}, Moves R action →
      Moves R (action >>= fun _ => pure Reply.done) :=
    fun haction => Moves.answering h.refl h.trans haction _
  cases c with
  | symbols command => exact h.symbols command
  | breakHere => exact hdone (Moves.bind h.trans (fun s => h.refl s) (fun place => h.breakpoint _ _))
  | breakOnMemory address condition => exact hdone (h.breakpoint _ _)
  | breakOnRaster line => exact hdone (h.breakpoint _ _)
  | watch target => exact hdone (h.watch target)
  | _ => exact nomatch hc

theorem FollowedByUpkeep.run {R : Session → Session → Prop} (h : FollowedByUpkeep R)
    (render : Nat → Assembly Unit) {c : Command} (hc : c.isUpkeep = true) : Moves R (c.run render) := by
  cases c with
  | cursor command => exact h.onCursor _
  | setup options => exact Moves.answering h.refl h.trans (h.setup options) _
  | symbols _ | breakHere | breakOnMemory _ _ | breakOnRaster _ | watch _ =>
      exact h.toFollowedByMarks.run render rfl
  | _ => exact nomatch hc

-- ── Components ──────────────────────────────────────────────────────────────

theorem Assembly.moves_reportIfVerbose {R : Session → Session → Prop} (hrefl : ∀ s, R s s)
    (hreport : ∀ line, Moves R (report line)) (line : Session → String) :
    Moves R (reportIfVerbose line) := by
  refine Moves.withState (fun s => ?_)
  by_cases hverbose : s.verbose = true
  · rw [if_pos hverbose]
    exact hreport _ s
  · rw [if_neg hverbose]
    exact hrefl s

namespace Component

/-- What a component emits by itself: its code, its variables and its routines sorted by name. -/
def code (c : Component) : List Command :=
  c.build ++ c.storage ++ (Text.sortBy Prod.fst c.routines).map (fun routine =>
    .subroutine (routineLabel c.id routine.1) routine.2)

theorem runAll_routines (render : Nat → Assembly Unit) (id : String)
    (routines : List (String × List Command)) :
    Command.runAll render (routines.map (fun routine =>
        .subroutine (routineLabel id routine.1) routine.2)) =
      Action.each (fun routine =>
        Assembly.subroutine (routineLabel id routine.1) (Command.runAll render routine.2)) routines := by
  induction routines with
  | nil => rfl
  | cons routine rest ih => simp [Command.runAll, Command.run, Action.each, ih]

/-- A component runs its commands as their owner, then its children are emitted, and then its place is
    recorded. -/
theorem emit_eq (render : Nat → Assembly Unit) (serial : Nat) (c : Component) :
    c.emit render serial = (do
      let start ← Assembly.position
      Assembly.withOwner c.id (Command.runAll render c.code)
      let finish ← Assembly.position
      Action.each render c.children
      locate serial c.id ⟨start, finish - 1⟩) := by
  simp only [emit, code, Command.runAll_append, runAll_routines, bind_assoc]

theorem moves_locate {R : Session → Session → Prop} (hrefl : ∀ s, R s s)
    (htrans : ∀ r s t, R r s → R s t → R r t) (hjournal : ∀ s journal, R s { s with journal })
    (serial : Nat) (id : String) (location : Location) : Moves R (locate serial id location) := by
  refine Moves.withState (fun s => ?_)
  by_cases hfinal : s.pass.isFinal = true
  · rw [if_pos hfinal, Action.exec_bind_of_ok (Action.exec_set _ _)]
    have hreport : ∀ line, Moves R (Assembly.report line) := fun _ s => hjournal s _
    exact htrans _ _ _ (hjournal s _) (Assembly.moves_reportIfVerbose hrefl hreport _ _)
  · rw [if_neg hfinal]
    exact hrefl s

end Component

/-- What the commands of components follow, and the journal, components follow, however deep they are
    nested. -/
theorem Catalogue.moves_render {R : Session → Session → Prop} {catalogue : Catalogue}
    (hrefl : ∀ s, R s s) (htrans : ∀ r s t, R r s → R s t → R r t)
    (hjournal : ∀ s journal, R s { s with journal })
    (hcode : ∀ c ∈ catalogue, ∀ depth, (∀ serial, Moves R (catalogue.render depth serial)) →
      Moves R (Assembly.withOwner c.id (Command.runAll (catalogue.render depth) c.code)))
    (depth serial : Nat) : Moves R (catalogue.render depth serial) := by
  induction depth generalizing serial with
  | zero => exact Moves.throw hrefl _
  | succ depth ih =>
      have hposition : Moves R Assembly.position := fun s => hrefl s
      rw [Catalogue.render]
      cases hc : catalogue[serial]? with
      | none => exact Moves.pure hrefl _
      | some c =>
          simp only [Component.emit_eq]
          refine Moves.bind htrans hposition (fun start => ?_)
          refine Moves.bind htrans (hcode c (List.mem_of_getElem? hc) depth ih) (fun _ => ?_)
          refine Moves.bind htrans hposition (fun finish => ?_)
          refine Moves.bind htrans (Moves.each hrefl htrans ih c.children) (fun _ => ?_)
          exact Component.moves_locate hrefl htrans hjournal serial c.id _

-- ── All commands ────────────────────────────────────────────────────────────

/-- A preorder of sessions along which all steps of commands move. -/
structure FollowedByCommands (R : Session → Session → Prop) : Prop extends FollowedByUpkeep R where
  write : ∀ address value owner,
    Moves R (Assembly.onMemory (MemoryCommand.run (.write address value owner)))
  withOwner : ∀ {α : Type} owner (body : Assembly α), Moves R body →
    Moves R (Assembly.withOwner owner body)
  endPass : Moves R Assembly.endPass
  beginFinal : Moves R Assembly.beginFinal

namespace FollowedByCommands

variable {R : Session → Session → Prop}

theorem memory (h : FollowedByCommands R) (command : MemoryCommand) :
    Moves R (Assembly.onMemory command.run) := by
  have hsame : ∀ {s : Session} {memory : Image}, memory = s.memory → R s { s with memory } := by
    rintro s _ rfl
    exact h.refl s
  cases command with
  | write address value owner => exact h.write address value owner
  | setRange start finish =>
      intro s
      rw [Assembly.onMemory, Action.exec_onPart, MemoryCommand.run,
        Action.exec_bind_of_ok (Action.exec_get _)]
      cases hrange : s.memory.setRange start finish with
      | error fault => exact hsame rfl
      | ok m =>
          have hdeclared : s.memory.declared ⟨start, some finish, none⟩ 0 = .ok m := hrange
          obtain ⟨start', finish', rfl⟩ := Image.declared_eq_ok hdeclared
          exact h.bounds s start' finish'
  | prg start finish =>
      intro s
      rw [Assembly.onMemory, Action.exec_onPart, MemoryCommand.run,
        Action.exec_bind_of_ok (Action.exec_get _)]
      refine hsame ?_
      cases s.memory.prg start finish <;> rfl
  | _ => exact fun s => hsame rfl

/-- A command that holds no others, if the component that it emits moves along. -/
theorem leaf (h : FollowedByCommands R) {render : Nat → Assembly Unit} {c : Command}
    (hrender : ∀ serial, c = .render serial → Moves R (render serial)) (hleaf : c.isLeaf = true) :
    Moves R (c.run render) := by
  cases c with
  | memory command => exact h.memory command
  | endPass => exact Moves.answering h.refl h.trans h.endPass _
  | beginFinal => exact Moves.answering h.refl h.trans h.beginFinal _
  | render serial => exact Moves.answering h.refl h.trans (hrender serial rfl) _
  | cursor _ | symbols _ | setup _ | breakHere | breakOnMemory _ _ | breakOnRaster _ | watch _ =>
      exact h.toFollowedByUpkeep.run render rfl
  | withOwner _ _ | subroutine _ _ | onlyIn _ _ | ifDefined _ _ | attempt _ | traced _ _ =>
      exact nomatch hleaf
  | _ => exact h.toFollowedByOperations.run render rfl

/-- Every command moves along what all basic steps follow, if components do. -/
theorem run (h : FollowedByCommands R) {render : Nat → Assembly Unit}
    (hrender : ∀ serial, Moves R (render serial)) (c : Command) : Moves R (c.run render) := by
  refine Command.moves_run h.toFollowedByMarks (fun owner body => h.withOwner owner body) ?_ c
    (Command.every_any c)
  intro c hleaf _
  exact h.leaf (fun serial _ => hrender serial) hleaf

theorem runAll (h : FollowedByCommands R) {render : Nat → Assembly Unit}
    (hrender : ∀ serial, Moves R (render serial)) (commands : List Command) :
    Moves R (Command.runAll render commands) := by
  refine Command.moves_runAll h.toFollowedByMarks (fun owner body => h.withOwner owner body) ?_ commands
    (Command.everyOf_any commands)
  intro c hleaf _
  exact h.leaf (fun serial _ => hrender serial) hleaf

end FollowedByCommands

/-- A preorder of sessions along which also reports move. -/
structure FollowedByComponents (R : Session → Session → Prop) : Prop extends FollowedByCommands R where
  journal : ∀ s journal, R s { s with journal }

namespace FollowedByComponents

variable {R : Session → Session → Prop}

theorem report (h : FollowedByComponents R) (line : Session → String) :
    Moves R (Assembly.reportIfVerbose line) :=
  Assembly.moves_reportIfVerbose h.refl (fun _ s => h.journal s _) line

/-- Components move along what all steps follow, however deep they are nested. -/
theorem render (h : FollowedByComponents R) (catalogue : Catalogue) (depth serial : Nat) :
    Moves R (catalogue.render depth serial) := by
  refine Catalogue.moves_render h.refl h.trans h.journal (fun c _ depth hrender => ?_) depth serial
  exact h.withOwner c.id _ (h.runAll hrender c.code)

end FollowedByComponents

-- ── Scopes are closed ───────────────────────────────────────────────────────

/-- The same scopes are open. -/
structure Session.SameScopes (s t : Session) : Prop where
  scopes : t.scopes = s.scopes
  outerOwner : t.outerOwner = s.outerOwner

namespace Session.SameScopes

theorem refl (s : Session) : s.SameScopes s := ⟨rfl, rfl⟩

theorem trans (r s t : Session) (h : r.SameScopes s) (h' : s.SameScopes t) : r.SameScopes t :=
  ⟨h'.scopes.trans h.scopes, h'.outerOwner.trans h.outerOwner⟩

theorem owner {s t : Session} (h : s.SameScopes t) : t.owner = s.owner := by
  unfold Session.owner
  rw [h.scopes, h.outerOwner]

theorem resolve (name : String) : Moves Session.SameScopes (Assembly.resolve name) :=
  Assembly.moves_resolve (fun _ _ => ⟨rfl, rfl⟩) name

theorem storeByte (address value : Number) :
    Moves Session.SameScopes (Assembly.storeByte address value) :=
  Assembly.moves_storeByte refl (fun _ _ _ => ⟨rfl, rfl⟩) address value

end Session.SameScopes

/-- Every command leaves the scopes as it found them: a scope that is opened is closed. -/
theorem followed_sameScopes : FollowedByComponents Session.SameScopes where
  refl := .refl
  trans := .trans
  resolve := .resolve
  evaluate := Assembly.moves_evaluate .refl .trans .resolve
  storeByte := .storeByte
  emitByte := Assembly.moves_emitByte .refl .trans .storeByte (fun _ => ⟨rfl, rfl⟩)
  label := Assembly.moves_label (fun _ _ => ⟨rfl, rfl⟩)
  org _ _ := ⟨rfl, rfl⟩
  pin _ _ := ⟨rfl, rfl⟩
  countInstruction _ := ⟨rfl, rfl⟩
  entrypoint _ := ⟨rfl, rfl⟩
  cursor _ _ := ⟨rfl, rfl⟩
  bounds _ _ _ := ⟨rfl, rfl⟩
  pinAt _ _ _ := ⟨rfl, rfl⟩
  marks _ _ _ := ⟨rfl, rfl⟩
  entry _ _ := ⟨rfl, rfl⟩
  record _ _ _ := ⟨rfl, rfl⟩
  write _ _ _ _ := ⟨rfl, rfl⟩
  withOwner owner body hbody s := by
    have hinside := hbody { s with scopes := owner :: s.scopes }
    rw [Assembly.exec_withOwner]
    refine ⟨?_, hinside.outerOwner⟩
    show List.tail _ = s.scopes
    rw [hinside.scopes, List.tail_cons]
  endPass _ := ⟨rfl, rfl⟩
  beginFinal := by
    refine Moves.withState (fun s => ?_)
    cases s.pass <;> exact ⟨rfl, rfl⟩
  journal _ _ := ⟨rfl, rfl⟩

end Asm6502
