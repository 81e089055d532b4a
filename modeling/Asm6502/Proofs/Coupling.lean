import Mathlib.Data.List.Forall2
import Asm6502.Action

/-!
# Runs compared — where actions lead, and two actions side by side

Two notions about actions, each with the rules to take an action apart.

* `Moves R action`: every run of the action, failed ones included, takes a state to one in relation `R`.
  For a preorder `R` this is closed under sequence and loops.
* `Coupled`: two actions, run from states that correspond, both succeed and leave states that correspond,
  or they part in an allowed way (`Parting`). What the first run leaves may be restricted by what is
  known of its future (`Ahead`): a run of which the end is known is compared knowing that end.
-/

namespace Asm6502

-- ── Checks ──────────────────────────────────────────────────────────────────

namespace Check

variable {α β : Type}

@[simp] theorem ok_bind (a : α) (f : α → Except Fault β) : (Except.ok a >>= f) = f a := rfl

@[simp] theorem error_bind (e : Fault) (f : α → Except Fault β) :
    (Except.error e >>= f) = Except.error e := rfl

@[simp] theorem pure_eq_ok (a : α) : (Pure.pure a : Except Fault α) = Except.ok a := rfl

@[simp] theorem map_ok (f : α → β) (a : α) :
    Except.map f (Except.ok a : Except Fault α) = Except.ok (f a) := rfl

@[simp] theorem map_error (f : α → β) (e : Fault) :
    Except.map f (Except.error e : Except Fault α) = Except.error e := rfl

/-- A sequence of checks that succeeds has two parts that succeed. -/
theorem bind_eq_ok {x : Except Fault α} {f : α → Except Fault β} {b : β} (h : x >>= f = .ok b) :
    ∃ a, x = .ok a ∧ f a = .ok b := by
  cases x with
  | ok a => exact ⟨a, rfl, h⟩
  | error e => exact nomatch h

/-- A sequence of checks that fails fails in one of its parts. -/
theorem bind_eq_error {x : Except Fault α} {f : α → Except Fault β} {e : Fault} (h : x >>= f = .error e) :
    x = .error e ∨ ∃ a, x = .ok a ∧ f a = .error e := by
  cases x with
  | ok a => exact Or.inr ⟨a, rfl, h⟩
  | error e' => exact Or.inl (congrArg Except.error (Except.error.inj h))

/-- What can be told of a result shows that there is one. -/
theorem exists_of_map {x : Except Fault α} {f : α → β} {b : β} (h : x.map f = .ok b) :
    ∃ a, x = .ok a := by
  cases x with
  | ok a => exact ⟨a, rfl⟩
  | error e => exact nomatch h

end Check

namespace Action

variable {σ τ α β γ δ : Type}

-- ── Sequences ───────────────────────────────────────────────────────────────

/-- After a success a sequence is what follows. -/
theorem exec_bind_of_ok {first : Action σ α} {next : α → Action σ β} {s s' : σ} {a : α}
    (h : first.exec s = (.ok a, s')) : (first >>= next).exec s = (next a).exec s' := by
  rw [exec_bind, h]

/-- A failure stops a sequence. -/
theorem exec_bind_of_error {first : Action σ α} {next : α → Action σ β} {s s' : σ} {fault : Fault}
    (h : first.exec s = (.error fault, s')) : (first >>= next).exec s = (.error fault, s') := by
  rw [exec_bind, h]

/-- A sequence that succeeds has two parts that succeed. -/
theorem exec_bind_eq_ok {first : Action σ α} {next : α → Action σ β} {s t : σ} {b : β}
    (h : (first >>= next).exec s = (.ok b, t)) :
    ∃ a s', first.exec s = (.ok a, s') ∧ (next a).exec s' = (.ok b, t) := by
  cases hf : first.exec s with
  | mk outcome s' =>
      cases outcome with
      | ok a => exact ⟨a, s', rfl, by rw [← exec_bind_of_ok hf]; exact h⟩
      | error fault =>
          rw [exec_bind_of_error hf] at h
          exact absurd (congrArg Prod.fst h) (by simp)

/-- A sequence fails if its first part does, or what follows a success of it. -/
theorem bind_eq_error_iff {first : Action σ α} {next : α → Action σ β} {s : σ} {fault : Fault} :
    ((first >>= next).exec s).1 = .error fault ↔
      (first.exec s).1 = .error fault ∨
        ∃ a s', first.exec s = (.ok a, s') ∧ ((next a).exec s').1 = .error fault := by
  cases hf : first.exec s with
  | mk outcome s' =>
      cases outcome with
      | ok a => simp [exec_bind_of_ok hf]
      | error fault' => simp [exec_bind_of_error hf]

-- ── Where an action leads ───────────────────────────────────────────────────

/-- Every run of an action takes a state to one in relation `R`. -/
def Moves (R : σ → σ → Prop) (action : Action σ α) : Prop :=
  ∀ s, R s (action.exec s).2

namespace Moves

variable {R : σ → σ → Prop}

/-- Where a given run led. -/
theorem of_exec {action : Action σ α} (h : Moves R action) {s t : σ} {outcome : Except Fault α}
    (hrun : action.exec s = (outcome, t)) : R s t := by
  have hmoved := h s
  rwa [hrun] at hmoved

theorem pure (hrefl : ∀ s, R s s) (a : α) : Moves R (Pure.pure a : Action σ α) := hrefl

/-- A check leaves the state where it is. -/
theorem check (hrefl : ∀ s, R s s) (c : Except Fault α) : Moves R (liftM c : Action σ α) := hrefl

theorem throw (hrefl : ∀ s, R s s) (fault : Fault) :
    Moves R (MonadExcept.throw fault : Action σ α) := hrefl

theorem bind (htrans : ∀ r s t, R r s → R s t → R r t) {first : Action σ α}
    {next : α → Action σ β} (hfirst : Moves R first) (hnext : ∀ a, Moves R (next a)) :
    Moves R (first >>= next) := by
  intro s
  have h := hfirst s
  cases hf : first.exec s with
  | mk outcome s' =>
      rw [hf] at h
      cases outcome with
      | ok a =>
          rw [exec_bind_of_ok hf]
          exact htrans s s' _ h (hnext a s')
      | error fault =>
          rw [exec_bind_of_error hf]
          exact h

theorem each_of_mem (hrefl : ∀ s, R s s) (htrans : ∀ r s t, R r s → R s t → R r t)
    {step : α → Action σ Unit} {list : List α} (hstep : ∀ a ∈ list, Moves R (step a)) :
    Moves R (Action.each step list) := by
  induction list with
  | nil => exact Moves.pure hrefl ()
  | cons a rest ih =>
      obtain ⟨ha, hrest⟩ := List.forall_mem_cons.mp hstep
      exact Moves.bind htrans ha (fun _ => ih hrest)

theorem each (hrefl : ∀ s, R s s) (htrans : ∀ r s t, R r s → R s t → R r t)
    {step : α → Action σ Unit} (hstep : ∀ a, Moves R (step a)) (list : List α) :
    Moves R (Action.each step list) :=
  each_of_mem hrefl htrans (fun a _ => hstep a)

theorem times (hrefl : ∀ s, R s s) (htrans : ∀ r s t, R r s → R s t → R r t)
    {step : Nat → Action σ Unit} (hstep : ∀ i, Moves R (step i)) :
    ∀ rounds index, Moves R (Action.times step rounds index) := by
  intro rounds
  induction rounds with
  | zero => exact fun _ => Moves.pure hrefl ()
  | succ n ih => exact fun index => Moves.bind htrans (hstep index) (fun _ => ih (index + 1))

end Moves

-- ── Two actions side by side ────────────────────────────────────────────────

/-- How two runs may part: by a fault of the first alone, by a fault of the second alone, whatever becomes
    of the other run, or by two faults that belong together. -/
structure Parting where
  left : Fault → Prop := fun _ => False
  right : Fault → Prop := fun _ => False
  both : Fault → Fault → Prop := fun _ _ => False

/-- Whether two outcomes are a parting. -/
def Parting.Allows (P : Parting) (x : Except Fault α) (y : Except Fault β) : Prop :=
  (∃ e, x = .error e ∧ P.left e) ∨ (∃ e, y = .error e ∧ P.right e) ∨
    ∃ e e', x = .error e ∧ y = .error e' ∧ P.both e e'

/-- Two answers agree: both are there and belong together, or they part as allowed. -/
def Parting.Agree (P : Parting) (Q : α → β → Prop) (x : Except Fault α) (y : Except Fault β) : Prop :=
  (∃ a b, x = .ok a ∧ y = .ok b ∧ Q a b) ∨ P.Allows x y

theorem Parting.Agree.ok {P : Parting} {Q : α → β → Prop} {a : α} {b : β} (h : Q a b) :
    P.Agree Q (.ok a) (.ok b) := Or.inl ⟨a, b, rfl, rfl, h⟩

/-- Where the first answer is there, so is the second, or it parts. -/
theorem Parting.Agree.of_ok {P : Parting} {Q : α → β → Prop} {a : α} {y : Except Fault β}
    (h : P.Agree Q (.ok a) y) : (∃ b, y = .ok b ∧ Q a b) ∨ ∃ e, y = .error e ∧ P.right e := by
  rcases h with ⟨a', b, ha, hb, hq⟩ | ⟨e, hno, -⟩ | hright | ⟨e, e', hno, -⟩
  · rw [Except.ok.inj ha]
    exact Or.inl ⟨b, hb, hq⟩
  · exact nomatch hno
  · exact Or.inr hright
  · exact nomatch hno

theorem Parting.Agree.bind {P : Parting} {Q : α → β → Prop} {Q' : γ → δ → Prop} {x : Except Fault α}
    {y : Except Fault β} {f : α → Except Fault γ} {g : β → Except Fault δ} (h : P.Agree Q x y)
    (hnext : ∀ a b, Q a b → P.Agree Q' (f a) (g b)) : P.Agree Q' (x >>= f) (y >>= g) := by
  rcases h with ⟨a, b, rfl, rfl, hq⟩ | ⟨e, rfl, he⟩ | ⟨e, rfl, he⟩ | ⟨e, e', rfl, rfl, he⟩
  · exact hnext a b hq
  · exact Or.inr (Or.inl ⟨e, rfl, he⟩)
  · exact Or.inr (Or.inr (Or.inl ⟨e, rfl, he⟩))
  · exact Or.inr (Or.inr (Or.inr ⟨e, e', rfl, rfl, he⟩))

/-- Both runs stop, and the fault of the second is what `F` makes of the fault of the first. -/
def Parting.mapped (F : Fault → Fault) : Parting where
  both fault fault' := F fault = fault'

theorem Parting.mapped_allows (F : Fault → Fault) (fault : Fault) :
    (mapped F).Allows (.error fault : Except Fault α) (.error (F fault) : Except Fault β) :=
  Or.inr (Or.inr ⟨fault, F fault, rfl, rfl, rfl⟩)

theorem Parting.exists_of_mapped_allows {F : Fault → Fault} {x : Except Fault α} {y : Except Fault β}
    (h : (mapped F).Allows x y) : ∃ fault, x = .error fault ∧ y = .error (F fault) := by
  rcases h with ⟨_, -, hno⟩ | ⟨_, -, hno⟩ | ⟨fault, _, hx, hy, rfl⟩
  · exact hno.elim
  · exact hno.elim
  · exact ⟨fault, hx, hy⟩

/-- Runs that parted stay so, whatever was to follow. -/
theorem Parting.Allows.bind {P : Parting} {first : Action σ α} {second : Action τ β} {s : σ} {t : τ}
    (h : P.Allows (first.exec s).1 (second.exec t).1) (next : α → Action σ γ)
    (next' : β → Action τ δ) :
    P.Allows ((first >>= next).exec s).1 ((second >>= next').exec t).1 := by
  have hfirst : ∀ e, (first.exec s).1 = .error e → ((first >>= next).exec s).1 = .error e :=
    fun e he => by rw [exec_bind_of_error (Prod.ext he rfl)]
  have hsecond : ∀ e, (second.exec t).1 = .error e → ((second >>= next').exec t).1 = .error e :=
    fun e he => by rw [exec_bind_of_error (Prod.ext he rfl)]
  rcases h with ⟨e, hx, he⟩ | ⟨e, hy, he⟩ | ⟨e, e', hx, hy, he⟩
  · exact Or.inl ⟨e, hfirst e hx, he⟩
  · exact Or.inr (Or.inl ⟨e, hsecond e hy, he⟩)
  · exact Or.inr (Or.inr ⟨e, e', hfirst e hx, hsecond e' hy, he⟩)

/-- From states in `Pre`, and if the first run leaves a state that is `Ahead`, both actions succeed and
    meet `Post`, or they part as allowed. -/
def Coupled (Ahead : σ → Prop) (P : Parting) (Pre : σ → τ → Prop) (first : Action σ α)
    (second : Action τ β) (Post : α → β → σ → τ → Prop) : Prop :=
  ∀ s t, Pre s t → Ahead (first.exec s).2 →
    (∃ a b s' t', first.exec s = (.ok a, s') ∧ second.exec t = (.ok b, t') ∧ Post a b s' t') ∨
      P.Allows (first.exec s).1 (second.exec t).1

namespace Coupled

variable {Ahead : σ → Prop} {P : Parting} {Pre Pre' R : σ → τ → Prop}
variable {Post Post' : α → β → σ → τ → Prop}

theorem pure {a : α} {b : β} (h : ∀ s t, Pre s t → Post a b s t) :
    Coupled Ahead P Pre (Pure.pure a) (Pure.pure b) Post := by
  intro s t hst _
  exact Or.inl ⟨a, b, s, t, rfl, rfl, h s t hst⟩

/-- Checks that agree are coupled. -/
theorem check {c : Except Fault α} {c' : Except Fault β} {Q : α → β → Prop} (h : P.Agree Q c c')
    (hpost : ∀ a b s t, Q a b → Pre s t → Post a b s t) :
    Coupled Ahead P Pre (liftM c) (liftM c') Post := by
  intro s t hst _
  rcases h with ⟨a, b, rfl, rfl, hq⟩ | hpart
  · exact Or.inl ⟨a, b, s, t, rfl, rfl, hpost a b s t hq hst⟩
  · exact Or.inr hpart

/-- Where the first run succeeds, so does the second, or it parts. -/
theorem of_ok {first : Action σ α} {second : Action τ β} (h : Coupled Ahead P Pre first second Post)
    {s s' : σ} {t : τ} {a : α} (hst : Pre s t) (hfirst : first.exec s = (.ok a, s'))
    (hahead : Ahead s') :
    (∃ b t', second.exec t = (.ok b, t') ∧ Post a b s' t') ∨
      ∃ e t', second.exec t = (.error e, t') ∧ P.right e := by
  have hrun := h s t hst (by rw [hfirst]; exact hahead)
  rw [hfirst] at hrun
  rcases hrun with ⟨_, b, _, t', ha, hb, hpost⟩ | ⟨e, hno, -⟩ | ⟨e, he, hright⟩ | ⟨e, e', hno, -⟩
  · cases ha
    exact Or.inl ⟨b, t', hb, hpost⟩
  · exact nomatch hno
  · exact Or.inr ⟨e, _, Prod.ext he rfl, hright⟩
  · exact nomatch hno

theorem weaken {first : Action σ α} {second : Action τ β} (h : Coupled Ahead P Pre first second Post)
    (hpre : ∀ s t, Pre' s t → Pre s t) (hpost : ∀ a b s t, Post a b s t → Post' a b s t) :
    Coupled Ahead P Pre' first second Post' := by
  intro s t hst hahead
  rcases h s t (hpre s t hst) hahead with ⟨a, b, s', t', ha, hb, hpq⟩ | hpart
  · exact Or.inl ⟨a, b, s', t', ha, hb, hpost a b s' t' hpq⟩
  · exact Or.inr hpart

/-- Sequences are coupled part by part, if what is ahead of the whole is ahead of its first part. -/
theorem bind {Mid : α → β → σ → τ → Prop} {End : γ → δ → σ → τ → Prop} {first : Action σ α}
    {second : Action τ β} {next : α → Action σ γ} {next' : β → Action τ δ}
    (hfirst : Coupled Ahead P Pre first second Mid)
    (hback : ∀ a s, Ahead ((next a).exec s).2 → Ahead s)
    (hnext : ∀ a b, Coupled Ahead P (Mid a b) (next a) (next' b) End) :
    Coupled Ahead P Pre (first >>= next) (second >>= next') End := by
  intro s t hst hahead
  have hmid : Ahead (first.exec s).2 := by
    cases hf : first.exec s with
    | mk outcome s' =>
        cases outcome with
        | ok a =>
            rw [exec_bind_of_ok hf] at hahead
            exact hback a s' hahead
        | error fault =>
            rw [exec_bind_of_error hf] at hahead
            exact hahead
  rcases hfirst s t hst hmid with ⟨a, b, s', t', ha, hb, hm⟩ | hpart
  · rw [exec_bind_of_ok ha] at hahead ⊢
    rw [exec_bind_of_ok hb]
    exact hnext a b s' t' hm hahead
  · exact Or.inr (hpart.bind next next')

/-- Loops over lists whose elements belong together keep what each round keeps. -/
theorem each {Q : α → β → Prop} {step : α → Action σ Unit} {step' : β → Action τ Unit}
    (hback : ∀ a s, Ahead ((step a).exec s).2 → Ahead s)
    (hstep : ∀ a b, Q a b → Coupled Ahead P R (step a) (step' b) (fun _ _ => R)) :
    ∀ {as : List α} {bs : List β}, List.Forall₂ Q as bs →
      Coupled Ahead P R (Action.each step as) (Action.each step' bs) (fun _ _ => R) := by
  have hrest : ∀ (as : List α) s, Ahead ((Action.each step as).exec s).2 → Ahead s := fun as =>
    Moves.each (R := fun s s' => Ahead s' → Ahead s) (fun _ h => h) (fun _ _ _ h h' k => h (h' k))
      hback as
  intro as bs hall
  induction hall with
  | nil => exact Coupled.pure (fun _ _ h => h)
  | cons hab _ ih => exact Coupled.bind (hstep _ _ hab) (fun _ => hrest _) (fun _ _ => ih)

/-- Counted loops keep what each round keeps. -/
theorem times {step : Nat → Action σ Unit} {step' : Nat → Action τ Unit}
    (hback : ∀ i s, Ahead ((step i).exec s).2 → Ahead s)
    (hstep : ∀ i, Coupled Ahead P R (step i) (step' i) (fun _ _ => R)) :
    ∀ rounds index, Coupled Ahead P R (Action.times step rounds index)
      (Action.times step' rounds index) (fun _ _ => R) := by
  have hrest : ∀ rounds index s, Ahead ((Action.times step rounds index).exec s).2 → Ahead s :=
    fun rounds index => Moves.times (R := fun s s' => Ahead s' → Ahead s) (fun _ h => h)
      (fun _ _ _ h h' k => h (h' k)) hback rounds index
  intro rounds
  induction rounds with
  | zero => exact fun _ => Coupled.pure (fun _ _ h => h)
  | succ n ih =>
      exact fun index => Coupled.bind (hstep index) (fun _ => hrest n (index + 1))
        (fun _ _ => ih (index + 1))

end Coupled

end Action

end Asm6502
