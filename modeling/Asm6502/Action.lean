import Asm6502.Fault

/-!
# Actions that keep what they did

An action works on a state and may fail. A failure stops what follows, but what was done before it
stays done: the state is returned beside the outcome, not inside it.
-/

namespace Asm6502

/-- A step on a state `σ` that answers or fails, and leaves a state behind in either case. -/
abbrev Action (σ : Type) (α : Type) : Type := ExceptT Fault (StateM σ) α

namespace Action

variable {σ τ α β : Type}

/-- The outcome of an action and the state it leaves. -/
def exec (action : Action σ α) (s : σ) : Except Fault α × σ := action.run.run s

/-- An action with a failure turned into an answer. -/
def outcome (action : Action σ α) : Action σ (Except Fault α) :=
  ExceptT.mk (fun s => match action.exec s with
    | (result, s') => (.ok result, s'))

/-- An action on a part of the state. -/
def onPart (get : σ → τ) (put : τ → σ → σ) (action : Action τ α) : Action σ α :=
  ExceptT.mk (fun s => match action.exec (get s) with
    | (result, part) => (result, put part s))

/-- Runs a step for `index`, `index + 1`, … as long as rounds remain. -/
def times (step : Nat → Action σ Unit) : (rounds : Nat) → (index : Nat) → Action σ Unit
  | 0, _ => pure ()
  | rounds + 1, index => do
    step index
    times step rounds (index + 1)

/-- Runs a step for each element of a list, in order. -/
def each (step : α → Action σ Unit) : List α → Action σ Unit
  | [] => pure ()
  | a :: rest => do
    step a
    each step rest

-- ── What actions do to the state ────────────────────────────────────────────

@[simp] theorem exec_pure (a : α) (s : σ) : (pure a : Action σ α).exec s = (.ok a, s) := rfl

@[simp] theorem exec_throw (fault : Fault) (s : σ) :
    (throw fault : Action σ α).exec s = (.error fault, s) := rfl

@[simp] theorem exec_get (s : σ) : (get : Action σ σ).exec s = (.ok s, s) := rfl

@[simp] theorem exec_set (s t : σ) : (set t : Action σ PUnit).exec s = (.ok ⟨⟩, t) := rfl

@[simp] theorem exec_modify (f : σ → σ) (s : σ) :
    (modify f : Action σ PUnit).exec s = (.ok ⟨⟩, f s) := rfl

/-- A check leaves the state alone. -/
@[simp] theorem exec_check (check : Except Fault α) (s : σ) :
    (liftM check : Action σ α).exec s = (check, s) := rfl

/-- A sequence goes on from what the first action left, or stops with its fault. -/
theorem exec_bind (first : Action σ α) (next : α → Action σ β) (s : σ) :
    (first >>= next).exec s =
      match first.exec s with
      | (.ok a, s') => (next a).exec s'
      | (.error fault, s') => (.error fault, s') := by
  show (ExceptT.bindCont next (first.exec s).1 : StateM σ _) (first.exec s).2 = _
  cases h : first.exec s with
  | mk outcome s' => cases outcome <;> rfl

@[simp] theorem exec_map (f : α → β) (action : Action σ α) (s : σ) :
    (f <$> action).exec s = ((action.exec s).1.map f, (action.exec s).2) := by
  rw [map_eq_pure_bind, exec_bind]
  cases action.exec s with
  | mk outcome s' => cases outcome <;> rfl

/-- Catching a failure keeps the state that it left. -/
@[simp] theorem exec_outcome (action : Action σ α) (s : σ) :
    action.outcome.exec s = (.ok (action.exec s).1, (action.exec s).2) := rfl

/-- An action on a part changes that part only. -/
@[simp] theorem exec_onPart (get : σ → τ) (put : τ → σ → σ) (action : Action τ α) (s : σ) :
    (action.onPart get put).exec s =
      ((action.exec (get s)).1, put (action.exec (get s)).2 s) := rfl

end Action

end Asm6502
