import Asm6502.Proofs.Operations

/-!
# The events of a run

A program may do whatever it likes: choose each operation by what the earlier ones answered, catch their
faults and go on, act in one pass otherwise than in the other. Still every run of it is a sequence of
operations on the session. Three kinds of operations are told apart here, by what they ask and what they
are answered: lookups of names, definitions of labels and writes of bytes. All others leave labels and
cells as they are.

* `Session.Step`: one operation, whether it succeeds or fails.
* `Session.Path`: a sequence of operations.
* `Assembly.Performs`: programs whose runs are such sequences. Commands are, in either pass and with
  the components they emit, and so is what is put together from them.
-/

namespace Asm6502

open Asm6502.Action (Moves)

-- ── Operations ──────────────────────────────────────────────────────────────

/-- What was asked of a session, and what it answered. -/
inductive Event where
  /-- The value of a name. -/
  | lookup (name : String) (answer : Except Fault Value)
  /-- The definition of a label. -/
  | definition (name : String) (answer : Except Fault UInt16)
  /-- The write of a byte at an address, for an owner. -/
  | write (address value : Number) (owner : String) (answer : Except Fault Unit)
  /-- Anything else. -/
  | other

namespace Session

/-- What an operation does that concerns neither labels nor cells. The final pass has no end. -/
structure Spares (s t : Session) : Prop where
  cells : t.memory.cells = s.memory.cells
  labels : t.symbols.labels = s.symbols.labels
  drifts : t.symbols.drifts = s.symbols.drifts
  pass : s.pass = .final → t.pass = .final

/-- One operation takes a session to another. A write is for the current owner, or goes to the image
    directly and names its owner. -/
inductive Step : Session → Event → Session → Prop
  | lookup {s t : Session} {name : String} {answer : Except Fault Value}
      (h : (Assembly.resolve name).exec s = (answer, t)) : Step s (.lookup name answer) t
  | definition {s t : Session} {name : String} {address : Option Number}
      {answer : Except Fault UInt16} (h : (Assembly.label name address).exec s = (answer, t)) :
      Step s (.definition name answer) t
  | store {s t : Session} {address value : Number} {answer : Except Fault Unit}
      (h : (Assembly.storeByte address value).exec s = (answer, t)) :
      Step s (.write address value s.owner answer) t
  | write {s t : Session} {address value : Number} {owner : String} {answer : Except Fault Reply}
      (h : (Assembly.onMemory (MemoryCommand.run (.write address value owner))).exec s = (answer, t)) :
      Step s (.write address value owner (answer.map (fun _ => ()))) t
  | other {s t : Session} (h : s.Spares t) : Step s .other t

/-- Operations, one after another. -/
inductive Path : Session → List Event → Session → Prop
  | nil (s : Session) : Path s [] s
  | cons {s t u : Session} {e : Event} {es : List Event} (step : s.Step e t) (rest : t.Path es u) :
      Path s (e :: es) u

namespace Path

theorem single {s t : Session} {e : Event} (h : s.Step e t) : s.Path [e] t := .cons h (.nil t)

theorem append {s t u : Session} {es es' : List Event} (h : s.Path es t) (h' : t.Path es' u) :
    s.Path (es ++ es') u := by
  induction h with
  | nil _ => exact h'
  | cons step _ ih => exact .cons step (ih h')

/-- A sequence of operations can be parted at each of them. -/
theorem parted {s t : Session} {es es' : List Event} {e : Event} (h : s.Path (es ++ e :: es') t) :
    ∃ u u', s.Path es u ∧ u.Step e u' ∧ u'.Path es' t := by
  induction es generalizing s with
  | nil =>
      cases h with
      | cons step rest => exact ⟨s, _, .nil s, step, rest⟩
  | cons _ _ ih =>
      cases h with
      | cons step rest =>
          obtain ⟨u, u', hbefore, hstep, hafter⟩ := ih rest
          exact ⟨u, u', .cons step hbefore, hstep, hafter⟩

end Path

/-- Operations lead from one session to the other. -/
def Reaches (s t : Session) : Prop := ∃ es, s.Path es t

namespace Reaches

theorem refl (s : Session) : s.Reaches s := ⟨[], .nil s⟩

theorem trans (r s t : Session) (h : r.Reaches s) (h' : s.Reaches t) : r.Reaches t := by
  obtain ⟨es, hpath⟩ := h
  obtain ⟨es', hpath'⟩ := h'
  exact ⟨es ++ es', hpath.append hpath'⟩

theorem step {s t : Session} {e : Event} (h : s.Step e t) : s.Reaches t := ⟨[e], .single h⟩

/-- A relation that holds from each operation to the next holds from start to end. -/
theorem induct {R : Session → Session → Prop} (hrefl : ∀ s, R s s)
    (htrans : ∀ r s t, R r s → R s t → R r t) (hstep : ∀ s e t, s.Step e t → R s t) {s t : Session}
    (h : s.Reaches t) : R s t := by
  obtain ⟨es, hpath⟩ := h
  induction hpath with
  | nil s => exact hrefl s
  | cons step _ ih => exact htrans _ _ _ (hstep _ _ _ step) ih

end Reaches

end Session

-- ── Programs ────────────────────────────────────────────────────────────────

namespace Assembly

/-- What a program does, it does by operations. -/
def Performs {α : Type} (program : Assembly α) : Prop := Moves Session.Reaches program

end Assembly

namespace Session

/-- An operation that spares labels and cells. -/
theorem Reaches.spared {s t : Session} (hcells : t.memory.cells = s.memory.cells)
    (hsymbols : t.symbols.labels = s.symbols.labels ∧ t.symbols.drifts = s.symbols.drifts)
    (hpass : s.pass = .final → t.pass = .final) : s.Reaches t :=
  .step (.other ⟨hcells, hsymbols.1, hsymbols.2, hpass⟩)

theorem followed_reaches : FollowedByComponents Session.Reaches where
  refl := .refl
  trans := .trans
  resolve name s := .step (.lookup rfl)
  evaluate := Assembly.moves_evaluate .refl .trans (fun name s => .step (.lookup rfl))
  label name address s := .step (.definition rfl)
  storeByte address value s := .step (.store rfl)
  emitByte := Assembly.moves_emitByte .refl .trans (fun address value s => .step (.store rfl))
    (fun s => .spared rfl ⟨rfl, rfl⟩ id)
  org place s := .spared rfl ⟨rfl, rfl⟩ id
  pin s mode := .spared rfl ⟨rfl, rfl⟩ id
  countInstruction s := .spared rfl ⟨rfl, rfl⟩ id
  entrypoint s := .spared rfl ⟨rfl, rfl⟩ id
  cursor s cursor := .spared rfl ⟨rfl, rfl⟩ id
  bounds s start finish := .spared rfl ⟨rfl, rfl⟩ id
  pinAt s place mode := .spared rfl ⟨rfl, rfl⟩ id
  marks s breakpoints watches := .spared rfl ⟨rfl, rfl⟩ id
  entry s entrypoint := .spared rfl ⟨rfl, rfl⟩ id
  record s operation outcome := .spared rfl ⟨rfl, rfl⟩ id
  write address value owner s := .step (.write rfl)
  withOwner owner body hbody s := by
    rw [Assembly.exec_withOwner]
    have hopen : s.Reaches { s with scopes := owner :: s.scopes } := .spared rfl ⟨rfl, rfl⟩ id
    have hclose : ∀ t : Session, t.Reaches { t with scopes := t.scopes.tail } :=
      fun _ => .spared rfl ⟨rfl, rfl⟩ id
    exact Reaches.trans _ _ _ hopen (Reaches.trans _ _ _ (hbody _) (hclose _))
  endPass s := .spared rfl ⟨rfl, rfl⟩ id
  beginFinal := by
    refine Moves.withState (fun s => ?_)
    cases hpass : s.pass with
    | final => exact .refl s
    | discovery => exact .spared rfl ⟨rfl, rfl⟩ (fun _ => rfl)
  journal s journal := .spared rfl ⟨rfl, rfl⟩ id

end Session

namespace Assembly.Performs

variable {α β : Type}

theorem pure (a : α) : Performs (Pure.pure a : Assembly α) := Moves.pure Session.Reaches.refl a

theorem bind {first : Assembly α} {next : α → Assembly β} (hfirst : first.Performs)
    (hnext : ∀ a, (next a).Performs) : Performs (first >>= next) :=
  Moves.bind Session.Reaches.trans hfirst hnext

/-- What a program does may depend on the session, the pass among it. -/
theorem bySession {program : Session → Assembly α} (h : ∀ s, (program s).Performs) :
    Performs (get >>= program) :=
  Moves.withState (fun s => h s s)

/-- A failure may be caught. -/
theorem outcome {program : Assembly α} (h : program.Performs) : Performs (Action.outcome program) :=
  Moves.outcome h

theorem withOwner {program : Assembly α} (h : program.Performs) (owner : String) :
    Performs (Assembly.withOwner owner program) :=
  Session.followed_reaches.withOwner owner program h

/-- Every command is performed, whatever components it emits. -/
theorem command (catalogue : Catalogue) (depth : Nat) (c : Command) :
    Performs (c.run (catalogue.render depth)) :=
  Session.followed_reaches.run (fun serial => Session.followed_reaches.render catalogue depth serial) c

theorem runAll (catalogue : Catalogue) (commands : List Command) :
    Performs (catalogue.runAll commands) :=
  Session.followed_reaches.runAll
    (fun serial => Session.followed_reaches.render catalogue _ serial) commands

/-- Both passes together are a sequence of operations. -/
theorem bothPasses {program : Assembly Unit} (h : program.Performs) :
    Performs (Assembly.bothPasses program) := by
  have hreport := Session.followed_reaches.report
  have hturn : Performs turnOver :=
    bind Session.followed_reaches.endPass (fun _ =>
      bind (hreport _) (fun _ => bind Session.followed_reaches.beginFinal (fun _ => pure _)))
  refine bind h (fun _ => bind hturn (fun discovery => bind h (fun _ => ?_)))
  refine bind Session.followed_reaches.endPass (fun final => bySession (fun s => ?_))
  split
  · exact bind (hreport _) (fun _ => pure _)
  · exact Moves.throw Session.Reaches.refl _

end Assembly.Performs

end Asm6502
