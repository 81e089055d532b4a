import Asm6502.Proofs.Operations

/-!
# Trees of commands at work

Commands hold commands, and a command without a body may still stand for a sequence of instructions. The
run of a tree is told here as the list of its moments: the single commands at work, in their order, each
with the sessions before and after it and with the owner that the tree gives it, which is the owner of the
innermost scope around it. Nothing follows a failure, unless it is caught.

* `Command.parts`: the single commands that a command without a body stands for.
* `Command.moments`: the moments of a tree.
* `Command.chain_moments`: the moments lead, one from the other, from the session before the tree to the
  session after it.
* `Command.forall_moments`: what holds of single commands, each run as its owner, holds of the moments.
-/

namespace Asm6502

open Asm6502.Action (Moves)

-- ── Single commands ─────────────────────────────────────────────────────────

namespace Command

open Assembly (Argument SetOptions)

variable (render : Nat → Assembly Unit)

/-- Runs a command for what it does, whatever it answers. -/
def perform (c : Command) : Assembly Unit := do
  let _ ← c.run render

theorem exec_perform (c : Command) (s : Session) :
    (c.perform render).exec s =
      (((c.run render).exec s).1.map (fun _ => ()), ((c.run render).exec s).2) :=
  Action.exec_answering _ _ s

theorem runAll_cons (c : Command) (rest : List Command) :
    runAll render (c :: rest) = (do c.perform render; runAll render rest) := by
  simp [runAll, perform]

/-- The instructions that load a value and store it to cells. -/
def transfers (target : Operand) (value : Option Operand) (options : SetOptions) : List Command :=
  ((Assembly.loaded value options).toList.map (fun v => .emit options.register.load [.operand v])) ++
    (List.range' 0 (options.length.getD 1).rounds).map (fun i =>
      .emit options.register.store (Assembly.cellArguments target options i))

/-- The single commands that a command without a body stands for: several instructions, or itself. -/
def parts : Command → List Command
  | .nop count => (List.range' 0 (count.getD 1).rounds).map (fun _ => .emit .nop [])
  | .setCells target value options => transfers target value options
  | .setAddress target what options =>
    transfers target (some (.low what)) options ++
      transfers target (some (.high what)) { options with high := true }
  | .copyCell origin target options =>
    [.emit options.register.load [.operand origin, .flags { zeroPage := options.zeroPage }],
      .emit options.register.store [.operand target, .flags { zeroPage := options.zeroPage }]]
  | .call id routine => [.emit .jsr [.operand (.name (Component.routineLabel id routine))]]
  | command => [command]

/-- Commands that stand for instructions. -/
def isComposite : Command → Bool
  | .nop _ | .setCells _ _ _ | .setAddress _ _ _ | .copyCell _ _ _ | .call _ _ => true
  | _ => false

theorem exists_emit_of_mem_transfers {target : Operand} {value : Option Operand} {options : SetOptions}
    {part : Command} (h : part ∈ transfers target value options) : ∃ m args, part = .emit m args := by
  rcases List.mem_append.mp h with hload | hstore
  · obtain ⟨v, -, rfl⟩ := List.mem_map.mp hload
    exact ⟨_, _, rfl⟩
  · obtain ⟨i, -, rfl⟩ := List.mem_map.mp hstore
    exact ⟨_, _, rfl⟩

/-- A part is an instruction, or all that there is. -/
theorem mem_parts {c part : Command} (h : part ∈ c.parts) :
    (∃ m args, part = .emit m args) ∨ c.isComposite = false ∧ part = c := by
  cases c with
  | nop count =>
      obtain ⟨i, -, rfl⟩ := List.mem_map.mp h
      exact Or.inl ⟨_, _, rfl⟩
  | setCells target value options => exact Or.inl (exists_emit_of_mem_transfers h)
  | setAddress target what options =>
      rcases List.mem_append.mp h with hlow | hhigh
      · exact Or.inl (exists_emit_of_mem_transfers hlow)
      · exact Or.inl (exists_emit_of_mem_transfers hhigh)
  | copyCell origin target options =>
      rcases List.mem_cons.mp h with rfl | hstore
      · exact Or.inl ⟨_, _, rfl⟩
      · exact Or.inl ⟨_, _, List.mem_singleton.mp hstore⟩
  | call id routine => exact Or.inl ⟨_, _, List.mem_singleton.mp h⟩
  | _ => exact Or.inr ⟨rfl, List.mem_singleton.mp h⟩

/-- Commands one after another are a counted loop. -/
theorem runAll_range' (f : Nat → Command) (rounds index : Nat) :
    runAll render ((List.range' index rounds).map f) =
      Action.times (fun i => do let _ ← (f i).run render) rounds index := by
  induction rounds generalizing index with
  | zero => rfl
  | succ n ih => simp [List.range'_succ, runAll, Action.times, ih]

theorem runAll_transfers (target : Operand) (value : Option Operand) (options : SetOptions) :
    runAll render (transfers target value options) = Assembly.setCells target value options := by
  rw [Assembly.setCells_eq, transfers, runAll_append, runAll_range']
  cases Assembly.loaded value options <;> simp [runAll, run, Assembly.load]

/-- A command does what its parts do, one after another. -/
theorem runAll_parts (c : Command) : runAll render c.parts = c.perform render := by
  cases c with
  | nop count =>
      rw [parts, runAll_range']
      simp [perform, run, Assembly.nop]
  | setCells target value options =>
      rw [parts, runAll_transfers]
      simp [perform, run]
  | setAddress target what options =>
      rw [parts, runAll_append, runAll_transfers, runAll_transfers]
      simp [perform, run, Assembly.setAddress]
  | copyCell origin target options => simp [parts, runAll, perform, run, Assembly.copyCell]
  | call id routine => simp [parts, runAll, perform, run]
  | _ => rfl

/-- A scope does what its body does, for its owner. -/
theorem perform_withOwner (owner : String) (body : List Command) :
    (Command.withOwner owner body).perform render = Assembly.withOwner owner (runAll render body) := by
  simp [perform, run]

/-- A subroutine is a label, a body and a return. -/
theorem perform_subroutine (name : String) (body : List Command) :
    (Command.subroutine name body).perform render = (do
      (Command.label name none).perform render
      runAll render body
      (Command.emit .rts []).perform render) := by
  simp [perform, run, Assembly.subroutine]

end Command

-- ── The moments of a tree ───────────────────────────────────────────────────

/-- A single command at work, and the owner that the tree around it gives it. -/
structure Moment where
  owner : String
  command : Command
  before : Session
  after : Session

namespace Command

variable (render : Nat → Assembly Unit)

/-- What follows a run, if it succeeds. -/
def following {α : Type} (run : Except Fault α × Session) (next : Session → List Moment) : List Moment :=
  match run with
  | (.ok _, t) => next t
  | (.error _, _) => []

theorem mem_following {α : Type} {run : Except Fault α × Session} {next : Session → List Moment}
    {m : Moment} (h : m ∈ following run next) : ∃ a t, run = (.ok a, t) ∧ m ∈ next t := by
  obtain ⟨outcome, t⟩ := run
  cases outcome with
  | ok a => exact ⟨a, t, rfl, h⟩
  | error fault => exact nomatch h

/-- It does not matter what the run answers. -/
theorem following_answering {α β : Type} (action : Assembly α) (answer : α → β) (s : Session)
    (next : Session → List Moment) :
    following ((action >>= fun a => pure (answer a)).exec s) next = following (action.exec s) next := by
  rw [Action.exec_answering]
  cases action.exec s with
  | mk outcome t => cases outcome <;> rfl

/-- The moments of single commands in order. -/
def sequence (owner : String) : List Command → Session → List Moment
  | [], _ => []
  | command :: rest, s =>
    ⟨owner, command, s, ((command.run render).exec s).2⟩ ::
      following ((command.run render).exec s) (sequence owner rest)

theorem sequence_single (owner : String) (c : Command) (s : Session) :
    sequence render owner [c] s = [⟨owner, c, s, ((c.run render).exec s).2⟩] := by
  cases hrun : (c.run render).exec s with
  | mk outcome t => cases outcome <;> simp [sequence, following, hrun]

mutual

/-- The moments of a command that runs under an owner. Only a scope changes the owner. -/
def moments (owner : String) : Command → Session → List Moment
  | .withOwner inner body, s => momentsOf inner body { s with scopes := inner :: s.scopes }
  | .subroutine name body, s =>
    sequence render owner [.label name none] s ++
      following ((Assembly.label name none).exec s) (fun t =>
        momentsOf owner body t ++
          following ((runAll render body).exec t) (sequence render owner [.emit .rts []]))
  | .onlyIn pass body, s => if s.pass = pass then momentsOf owner body s else []
  | .ifDefined name body, s => if s.symbols.labels.contains name then momentsOf owner body s else []
  | .attempt body, s => momentsOf owner body s
  | .traced _ command, s => moments owner command s
  | command, s => sequence render owner command.parts s

/-- The moments of commands in order. -/
def momentsOf (owner : String) : List Command → Session → List Moment
  | [], _ => []
  | command :: rest, s =>
    moments owner command s ++ following ((command.run render).exec s) (momentsOf owner rest)

end

end Command

-- ── Moments in a chain ──────────────────────────────────────────────────────

/-- Sessions that differ in their scopes and reports only. -/
def Session.Linked (s t : Session) : Prop := ∃ scopes journal, t = { s with scopes, journal }

theorem Session.Linked.refl (s : Session) : s.Linked s := ⟨s.scopes, s.journal, rfl⟩

theorem Session.Linked.trans {r s t : Session} (h : r.Linked s) (h' : s.Linked t) : r.Linked t := by
  obtain ⟨_, _, rfl⟩ := h
  obtain ⟨scopes, journal, rfl⟩ := h'
  exact ⟨scopes, journal, rfl⟩

/-- Moments that lead from one session to another. Between them scopes are opened and closed, and
    completions recorded. -/
inductive Chain (render : Nat → Assembly Unit) : Session → List Moment → Session → Prop
  | nil {s t : Session} (h : s.Linked t) : Chain render s [] t
  | cons {s t : Session} {m : Moment} {ms : List Moment} (h : s.Linked m.before)
      (hrun : m.after = ((m.command.run render).exec m.before).2) (rest : Chain render m.after ms t) :
      Chain render s (m :: ms) t

namespace Chain

variable {render : Nat → Assembly Unit} {r s t u : Session} {ms ms' : List Moment}

theorem linked (h : Chain render s ms t) (hlinked : r.Linked s) : Chain render r ms t := by
  cases h with
  | nil hst => exact .nil (hlinked.trans hst)
  | cons hbefore hrun rest => exact .cons (hlinked.trans hbefore) hrun rest

theorem append (h : Chain render s ms t) (h' : Chain render t ms' u) :
    Chain render s (ms ++ ms') u := by
  induction h with
  | nil hlinked => exact h'.linked hlinked
  | cons hbefore hrun _ ih => exact .cons hbefore hrun (ih h')

/-- What follows a run continues its chain. -/
theorem following {α β : Type} {first : Assembly α} {second : α → Assembly β}
    {next : Session → List Moment} (h : Chain render s ms (first.exec s).2)
    (hnext : ∀ a t, Chain render t (next t) ((second a).exec t).2) :
    Chain render s (ms ++ Command.following (first.exec s) next) ((first >>= second).exec s).2 := by
  cases hrun : first.exec s with
  | mk outcome t =>
      rw [hrun] at h
      cases outcome with
      | ok a =>
          rw [Action.exec_bind_of_ok hrun]
          exact h.append (hnext a t)
      | error fault =>
          rw [Action.exec_bind_of_error hrun]
          exact h.append (.nil (.refl t))

theorem sequence (owner : String) (commands : List Command) (s : Session) :
    Chain render s (Command.sequence render owner commands s)
      ((Command.runAll render commands).exec s).2 := by
  induction commands generalizing s with
  | nil => exact .nil (.refl s)
  | cons c rest ih =>
      have hfirst : Chain render s [⟨owner, c, s, ((c.run render).exec s).2⟩]
          ((c.run render).exec s).2 := .cons (.refl s) rfl (.nil (.refl _))
      exact hfirst.following (fun _ t => ih t)

/-- A single command. -/
theorem single (owner : String) (c : Command) (s : Session) :
    Chain render s (Command.sequence render owner [c] s) ((c.run render).exec s).2 := by
  rw [Command.sequence_single]
  exact .cons (.refl s) rfl (.nil (.refl _))

/-- The parts of a command. -/
theorem parts (owner : String) (c : Command) (s : Session) :
    Chain render s (Command.sequence render owner c.parts s) ((c.run render).exec s).2 := by
  have hparts : Chain render s (Command.sequence render owner c.parts s) _ :=
    sequence owner c.parts s
  rwa [Command.runAll_parts, Command.exec_perform] at hparts

end Chain

namespace Command

variable {render : Nat → Assembly Unit}

mutual

/-- The moments of a tree lead from the session before it to the session after it. -/
theorem chain_moments (owner : String) (c : Command) (s : Session) :
    Chain render s (c.moments render owner s) ((c.run render).exec s).2 := by
  cases c with
  | withOwner inner body =>
      have hbody := chain_momentsOf inner body { s with scopes := inner :: s.scopes }
      have hopen : s.Linked { s with scopes := inner :: s.scopes } := ⟨_, _, rfl⟩
      have hclose : ∀ t : Session, t.Linked { t with scopes := t.scopes.tail } := fun _ => ⟨_, _, rfl⟩
      rw [run, Action.exec_answering, Assembly.exec_withOwner]
      have hchain := (hbody.linked hopen).append (.nil (hclose _))
      rwa [List.append_nil] at hchain
  | subroutine name body =>
      rw [run, Action.exec_answering]
      have hlabel : Chain render s (sequence render owner [.label name none] s)
          ((Assembly.label name none).exec s).2 := by
        have hsingle : Chain render s (sequence render owner [.label name none] s) _ :=
          Chain.single owner (.label name none) s
        rwa [run, Action.exec_answering] at hsingle
      refine hlabel.following (fun _ t => (chain_momentsOf owner body t).following (fun _ u => ?_))
      have hreturn : Chain render u (sequence render owner [.emit .rts []] u) _ :=
        Chain.single owner (.emit .rts []) u
      rw [run, Action.exec_answering] at hreturn
      rw [Action.exec_answering]
      exact hreturn
  | onlyIn pass body =>
      rw [run, moments, Action.exec_bind_of_ok (Action.exec_get s)]
      by_cases hpass : s.pass = pass
      · rw [if_pos hpass, if_pos hpass, Action.exec_answering]
        exact chain_momentsOf owner body s
      · rw [if_neg hpass, if_neg hpass]
        exact .nil (.refl s)
  | ifDefined name body =>
      rw [run, moments, Action.exec_bind_of_ok (Action.exec_get s)]
      by_cases hname : s.symbols.labels.contains name = true
      · rw [if_pos hname, if_pos hname, Action.exec_answering]
        exact chain_momentsOf owner body s
      · rw [if_neg hname, if_neg hname]
        exact .nil (.refl s)
  | attempt body =>
      have hbody := chain_momentsOf owner body s
      rw [run, Action.exec_bind_of_ok (Action.exec_outcome _ s)]
      cases ((runAll render body).exec s).1 <;> exact hbody
  | traced operation command =>
      have hcommand := chain_moments owner command s
      rw [run]
      cases hrun : (command.run render).exec s with
      | mk outcome t =>
          rw [hrun] at hcommand
          cases outcome with
          | error fault =>
              rw [Action.exec_bind_of_error hrun]
              exact hcommand
          | ok reply =>
              rw [Action.exec_bind_of_ok hrun]
              have hrecorded : t.Linked (t.record operation (.ok reply)) := ⟨_, _, rfl⟩
              have hchain := hcommand.append (.nil hrecorded)
              rwa [List.append_nil] at hchain
  | _ => exact Chain.parts owner _ s

theorem chain_momentsOf (owner : String) (commands : List Command) (s : Session) :
    Chain render s (momentsOf render owner commands s) ((runAll render commands).exec s).2 := by
  cases commands with
  | nil => exact .nil (.refl s)
  | cons c rest => exact (chain_moments owner c s).following (fun _ t => chain_momentsOf owner rest t)

end

end Command

-- ── What all moments of a tree do ───────────────────────────────────────────

namespace Command

/-- The single commands in trees of a kind: the parts of their leaves, and the label and the return of a
    subroutine. -/
inductive PartOf (kind : Command → Bool) : Command → Prop
  | leaf {c part : Command} (hleaf : c.isLeaf = true) (hkind : kind c = true) (h : part ∈ c.parts) :
      PartOf kind part
  | entry (name : String) : PartOf kind (.label name none)
  | exit : PartOf kind (.emit .rts [])

variable {render : Nat → Assembly Unit} {kind : Command → Bool} {Owner : String → Prop}
  {P : Moment → Prop}

theorem forall_sequence (hrender : ∀ serial, Moves Session.SameScopes (render serial)) {owner : String}
    {commands : List Command}
    (hpart : ∀ c ∈ commands, ∀ s : Session, s.owner = owner →
      P ⟨owner, c, s, ((c.run render).exec s).2⟩) {s : Session} (hs : s.owner = owner) :
    ∀ m ∈ sequence render owner commands s, P m := by
  induction commands generalizing s with
  | nil => exact fun m hm => nomatch hm
  | cons c rest ih =>
      intro m hm
      rcases List.mem_cons.mp hm with rfl | hrest
      · exact hpart c (List.mem_cons_self ..) s hs
      · obtain ⟨_, t, hrun, hm⟩ := mem_following hrest
        have ht := ((followed_sameScopes.run hrender c).of_exec hrun).owner
        exact ih (fun c hc => hpart c (List.mem_cons_of_mem _ hc)) (ht.trans hs) m hm

mutual

/-- What holds of the single commands in trees of a kind, run as the owners that a tree may give them,
    holds of the moments of these trees: scopes are open exactly around their bodies. -/
theorem forall_moments (hrender : ∀ serial, Moves Session.SameScopes (render serial))
    (hscope : ∀ owner body, kind (.withOwner owner body) = true → Owner owner)
    (hpart : ∀ owner part, Owner owner → PartOf kind part → ∀ s : Session, s.owner = owner →
      P ⟨owner, part, s, ((part.run render).exec s).2⟩)
    {owner : String} (howner : Owner owner) (c : Command) (hc : c.every kind = true) (s : Session)
    (hs : s.owner = owner) : ∀ m ∈ c.moments render owner s, P m := by
  have hsingle : ∀ part, PartOf kind part → ∀ s : Session, s.owner = owner →
      ∀ m ∈ sequence render owner [part] s, P m := by
    intro part h s hs
    refine forall_sequence hrender (fun c hc => ?_) hs
    exact List.mem_singleton.mp hc ▸ hpart owner part howner h
  cases c with
  | withOwner inner body =>
      obtain ⟨hkind, hbody⟩ := Bool.and_eq_true_iff.mp hc
      exact forall_momentsOf hrender hscope hpart (hscope inner body hkind) body hbody
        { s with scopes := inner :: s.scopes } rfl
  | subroutine name body =>
      intro m hm
      rcases List.mem_append.mp hm with hlabel | hrest
      · exact hsingle _ (.entry name) s hs m hlabel
      · obtain ⟨_, t, hlabelled, hm⟩ := mem_following hrest
        have ht : t.owner = owner :=
          ((followed_sameScopes.label name none).of_exec hlabelled).owner.trans hs
        rcases List.mem_append.mp hm with hbody | hreturn
        · exact forall_momentsOf hrender hscope hpart howner body (Bool.and_eq_true_iff.mp hc).2 t ht m
            hbody
        · obtain ⟨_, u, hran, hm⟩ := mem_following hreturn
          have hu := ((followed_sameScopes.runAll hrender body).of_exec hran).owner
          exact hsingle _ .exit u (hu.trans ht) m hm
  | onlyIn pass body =>
      rw [moments]
      by_cases hpass : s.pass = pass
      · rw [if_pos hpass]
        exact forall_momentsOf hrender hscope hpart howner body (Bool.and_eq_true_iff.mp hc).2 s hs
      · rw [if_neg hpass]
        exact fun m hm => nomatch hm
  | ifDefined name body =>
      rw [moments]
      by_cases hname : s.symbols.labels.contains name = true
      · rw [if_pos hname]
        exact forall_momentsOf hrender hscope hpart howner body (Bool.and_eq_true_iff.mp hc).2 s hs
      · rw [if_neg hname]
        exact fun m hm => nomatch hm
  | attempt body =>
      exact forall_momentsOf hrender hscope hpart howner body (Bool.and_eq_true_iff.mp hc).2 s hs
  | traced operation command =>
      exact forall_moments hrender hscope hpart howner command (Bool.and_eq_true_iff.mp hc).2 s hs
  | _ => exact forall_sequence hrender (fun part h => hpart owner part howner (.leaf rfl hc h)) hs

theorem forall_momentsOf (hrender : ∀ serial, Moves Session.SameScopes (render serial))
    (hscope : ∀ owner body, kind (.withOwner owner body) = true → Owner owner)
    (hpart : ∀ owner part, Owner owner → PartOf kind part → ∀ s : Session, s.owner = owner →
      P ⟨owner, part, s, ((part.run render).exec s).2⟩)
    {owner : String} (howner : Owner owner) (commands : List Command)
    (hc : everyOf kind commands = true) (s : Session) (hs : s.owner = owner) :
    ∀ m ∈ momentsOf render owner commands s, P m := by
  cases commands with
  | nil => exact fun m hm => nomatch hm
  | cons c rest =>
      obtain ⟨hfirst, hothers⟩ := Bool.and_eq_true_iff.mp hc
      intro m hm
      rcases List.mem_append.mp hm with hnow | hlater
      · exact forall_moments hrender hscope hpart howner c hfirst s hs m hnow
      · obtain ⟨_, t, hran, hm⟩ := mem_following hlater
        have ht := ((followed_sameScopes.run hrender c).of_exec hran).owner
        exact forall_momentsOf hrender hscope hpart howner rest hothers t (ht.trans hs) m hm

end

end Command

end Asm6502
