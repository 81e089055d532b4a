import Asm6502.Proofs.CommandTrees
import Asm6502.Proofs.TwoPasses

/-!
# Owner scopes

A scope is closed when its body ends, however it ends; so a program leaves the scopes as it found them,
also if it fails in the middle of many. What is written belongs to the innermost scope around the command
that writes it: the owner that the tree of commands gives to a moment is the owner of the session in which
it works.

* `Session.WritesAsOwner`: a change of the image by writes of the current owner, and by nothing else.
* `owner_scopes_unwind`: both for whole trees.
-/

namespace Asm6502

open Asm6502.Action (Moves)

-- ── Writes of the owner ─────────────────────────────────────────────────────

/-- The cell at an address, on which writes were put, the newest first. -/
def cellAfter (a : UInt16) (cell : Option Cell) : List Write → Option Cell
  | [] => cell
  | w :: ws => if w.address = a then some w.cell else cellAfter a cell ws

theorem cellAfter_append (a : UInt16) (cell : Option Cell) (ws ws' : List Write) :
    cellAfter a cell (ws ++ ws') = cellAfter a (cellAfter a cell ws') ws := by
  induction ws with
  | nil => rfl
  | cons w ws ih => simp only [List.cons_append, cellAfter, ih]

/-- The image of a session is that of an earlier one with some writes put on it. -/
structure Session.Laid (s : Session) (ws : List Write) (t : Session) : Prop where
  written : t.written = ws ++ s.written
  cells : ∀ a, t.memory.cell? a = cellAfter a (s.memory.cell? a) ws

theorem Session.Laid.nil {s t : Session} (hwritten : t.written = s.written)
    (hmemory : ∀ a, t.memory.cell? a = s.memory.cell? a) : s.Laid [] t := ⟨hwritten, hmemory⟩

theorem Session.Laid.append {r s t : Session} {ws ws' : List Write} (h : r.Laid ws s)
    (h' : s.Laid ws' t) : r.Laid (ws' ++ ws) t where
  written := by rw [h'.written, h.written, List.append_assoc]
  cells a := by rw [h'.cells, h.cells, cellAfter_append]

theorem Session.Laid.stored (s : Session) (w : Write) : s.Laid [w] (s.stored w) where
  written := rfl
  cells := s.memory.cell?_put w

/-- The current owner wrote, and nobody else did. -/
structure Session.WritesAsOwner (s t : Session) : Prop extends Session.SameScopes s t where
  laid : ∃ ws, s.Laid ws t ∧ ∀ w ∈ ws, w.cell.owner = s.owner

namespace Session.WritesAsOwner

/-- Nothing was written. -/
theorem of_same {s t : Session} (hscopes : s.SameScopes t) (hwritten : t.written = s.written)
    (hmemory : ∀ a, t.memory.cell? a = s.memory.cell? a) : s.WritesAsOwner t :=
  ⟨hscopes, [], .nil hwritten hmemory, fun _ hw => nomatch hw⟩

theorem refl (s : Session) : s.WritesAsOwner s := of_same (.refl s) rfl (fun _ => rfl)

theorem trans (r s t : Session) (h : r.WritesAsOwner s) (h' : s.WritesAsOwner t) :
    r.WritesAsOwner t := by
  obtain ⟨hscopes, ws, hlaid, howner⟩ := h
  obtain ⟨hscopes', ws', hlaid', howner'⟩ := h'
  refine ⟨hscopes.trans _ _ _ hscopes', ws' ++ ws, hlaid.append hlaid', ?_⟩
  intro w hw
  rcases List.mem_append.mp hw with hnew | hold
  · rw [howner' w hnew, hscopes.owner]
  · exact howner w hold

theorem resolve (name : String) : Moves Session.WritesAsOwner (Assembly.resolve name) :=
  Assembly.moves_resolve (fun _ _ => of_same ⟨rfl, rfl⟩ rfl (fun _ => rfl)) name

theorem storeByte (address value : Number) :
    Moves Session.WritesAsOwner (Assembly.storeByte address value) := by
  refine Assembly.moves_storeByte refl (fun s w howner => ?_) address value
  refine ⟨⟨rfl, rfl⟩, [w], .stored s w, ?_⟩
  intro w' hw'
  rw [List.mem_singleton.mp hw', howner]

end Session.WritesAsOwner

/-- Outside of scopes all emitting is for the current owner. -/
theorem followed_writesAsOwner : FollowedByUpkeep Session.WritesAsOwner where
  refl := .refl
  trans := .trans
  resolve := .resolve
  evaluate := Assembly.moves_evaluate .refl .trans .resolve
  storeByte := .storeByte
  emitByte := Assembly.moves_emitByte .refl .trans .storeByte
    (fun _ => .of_same ⟨rfl, rfl⟩ rfl (fun _ => rfl))
  label := Assembly.moves_label (fun _ _ => .of_same ⟨rfl, rfl⟩ rfl (fun _ => rfl))
  org _ _ := .of_same ⟨rfl, rfl⟩ rfl (fun _ => rfl)
  pin _ _ := .of_same ⟨rfl, rfl⟩ rfl (fun _ => rfl)
  countInstruction _ := .of_same ⟨rfl, rfl⟩ rfl (fun _ => rfl)
  entrypoint _ := .of_same ⟨rfl, rfl⟩ rfl (fun _ => rfl)
  cursor _ _ := .of_same ⟨rfl, rfl⟩ rfl (fun _ => rfl)
  bounds _ _ _ := .of_same ⟨rfl, rfl⟩ rfl (fun _ => rfl)
  pinAt _ _ _ := .of_same ⟨rfl, rfl⟩ rfl (fun _ => rfl)
  marks _ _ _ := .of_same ⟨rfl, rfl⟩ rfl (fun _ => rfl)
  entry _ _ := .of_same ⟨rfl, rfl⟩ rfl (fun _ => rfl)
  record _ _ _ := .of_same ⟨rfl, rfl⟩ rfl (fun _ => rfl)

-- ── Moments and their owners ────────────────────────────────────────────────

namespace Command

/-- Commands without a body that work for the current owner, as the operations of an emitter do. -/
def isSimple (c : Command) : Bool := c.isEmitting || c.isUpkeep

/-- Operations of an emitter, with a body or without. -/
def isOperation (c : Command) : Bool := c.isSimple || !c.isLeaf

variable {render : Nat → Assembly Unit} {owner : String} {c : Command} {s : Session}

theorem writesAsOwner_run (hc : c.isSimple = true) : Moves Session.WritesAsOwner (c.run render) := by
  rcases Bool.or_eq_true_iff.mp hc with hemitting | hupkeep
  · exact followed_writesAsOwner.toFollowedByOperations.run render hemitting
  · exact followed_writesAsOwner.run render hupkeep

theorem isSimple_of_mem_parts (hc : c.isSimple = true) {part : Command} (h : part ∈ c.parts) :
    part.isSimple = true := by
  rcases mem_parts h with ⟨m, args, rfl⟩ | ⟨-, rfl⟩
  · rfl
  · exact hc

theorem isSimple_of_partOf {part : Command} (h : PartOf isOperation part) : part.isSimple = true := by
  cases h with
  | @leaf c _ hleaf hkind hmem =>
      rw [isOperation, hleaf, Bool.not_true, Bool.or_false] at hkind
      exact isSimple_of_mem_parts hkind hmem
  | entry name => rfl
  | exit => rfl

end Command

/-- A single operation that works in a session of the owner that the tree gives it. -/
structure Moment.IsProper (m : Moment) : Prop where
  owner : m.before.owner = m.owner
  simple : m.command.isSimple = true

/-- The owner that a tree gives to a moment is that of the session in which it works. -/
theorem Command.proper_momentsOf {render : Nat → Assembly Unit}
    (hrender : ∀ serial, Moves Session.SameScopes (render serial)) {owner : String}
    (commands : List Command) (hc : everyOf isOperation commands = true) (s : Session)
    (hs : s.owner = owner) : ∀ m ∈ momentsOf render owner commands s, m.IsProper := by
  have hany : ∀ owner body, isOperation (.withOwner owner body) = true → True := fun _ _ _ => trivial
  refine forall_momentsOf hrender hany (fun owner part _ hpart s hs => ?_) trivial commands hc s hs
  exact ⟨hs, isSimple_of_partOf hpart⟩

-- ── What a tree writes ──────────────────────────────────────────────────────

namespace Moment

/-- What was written at a moment, the newest first. -/
def writes (m : Moment) : List Write :=
  m.after.written.take (m.after.written.length - m.before.written.length)

/-- What was written at moments, the newest first. -/
def writesOf : List Moment → List Write
  | [] => []
  | m :: ms => writesOf ms ++ m.writes

theorem writes_eq {m : Moment} {ws : List Write} (h : m.after.written = ws ++ m.before.written) :
    m.writes = ws := by
  rw [writes, h, List.length_append, Nat.add_sub_cancel, List.take_left]

end Moment

/-- Along a chain the image changes by the writes of its moments, each by the owner of its moment. -/
theorem Chain.laid {render : Nat → Assembly Unit} {s t : Session} {ms : List Moment}
    (h : Chain render s ms t) (hproper : ∀ m ∈ ms, m.IsProper) :
    s.Laid (Moment.writesOf ms) t ∧ ∀ m ∈ ms, ∀ w ∈ m.writes, w.cell.owner = m.owner := by
  have hlink : ∀ {r u : Session}, r.Linked u → r.Laid [] u := by
    rintro r u ⟨scopes, journal, rfl⟩
    exact .nil rfl (fun _ => rfl)
  induction h with
  | nil hst => exact ⟨hlink hst, fun m hm => absurd hm List.not_mem_nil⟩
  | @cons s t m ms hbefore hrun rest ih =>
      obtain ⟨hrest, howners⟩ := ih (fun m' hm' => hproper m' (List.mem_cons_of_mem _ hm'))
      obtain ⟨howner, hsimple⟩ := hproper m (List.mem_cons_self ..)
      have hmoved : m.before.WritesAsOwner m.after := hrun ▸ Command.writesAsOwner_run hsimple m.before
      obtain ⟨-, ws, hlaid, hws⟩ := hmoved
      have hwrites : m.writes = ws := Moment.writes_eq hlaid.written
      constructor
      · have hall := ((hlink hbefore).append hlaid).append hrest
        rwa [List.append_nil, ← hwrites] at hall
      · intro m' hm'
        rcases List.mem_cons.mp hm' with rfl | hlater
        · intro w hw
          rw [hwrites] at hw
          exact (hws w hw).trans howner
        · exact howners m' hlater

/-- A tree of commands, run in any session, leaves the scopes as it found them, whether it completes or
    fails. If it consists of operations of an emitter, then the image afterwards is the image before with
    the writes of its moments put on it, and each of these belongs to the owner of the innermost scope
    around the command that wrote it, or to the owner before if there is none. -/
theorem owner_scopes_unwind (catalogue : Catalogue) (depth : Nat) (commands : List Command)
    (s : Session) :
    s.SameScopes ((Command.runAll (catalogue.render depth) commands).exec s).2 ∧
    (Command.everyOf Command.isOperation commands = true →
      let moments := Command.momentsOf (catalogue.render depth) s.owner commands s
      s.Laid (Moment.writesOf moments) ((Command.runAll (catalogue.render depth) commands).exec s).2 ∧
      ∀ m ∈ moments, ∀ w ∈ m.writes, w.cell.owner = m.owner) := by
  have hrender : ∀ serial, Moves Session.SameScopes (catalogue.render depth serial) :=
    fun serial => followed_sameScopes.render catalogue depth serial
  refine ⟨followed_sameScopes.runAll hrender commands s, fun hcommands => ?_⟩
  exact (Command.chain_momentsOf s.owner commands s).laid
    (Command.proper_momentsOf hrender commands hcommands s rfl)

/-- Scopes in scopes: the inner one fails and is caught, and then the whole fails. -/
def nestedScopes : List Command :=
  [.withOwner "outer"
    [.byte [.number 1],
      .attempt [.withOwner "inner" [.byte [.number 2], .storeByte 0x10000 3]],
      .subroutine "leave" [.nop none]],
    .byte [.number 4, .number 256]]

theorem nested_scopes_unwind :
    Command.everyOf Command.isOperation nestedScopes = true ∧
    ((Catalogue.runAll [] nestedScopes).exec Source.plainSession).1 = .error (.byteRange 256) ∧
    (Command.momentsOf (Catalogue.render [] (Catalogue.nestingLimit [])) "main" nestedScopes
      Source.plainSession).map (fun m => (m.owner, m.writes.map (·.address))) =
      [("outer", [0x1000]), ("inner", [0x1001]), ("inner", []), ("outer", []), ("outer", [0x1002]),
        ("outer", [0x1003]), ("main", [0x1004])] ∧
    Source.plainSession.SameScopes ((Catalogue.runAll [] nestedScopes).exec Source.plainSession).2 ∧
    Source.plainSession.Laid
      (Moment.writesOf (Command.momentsOf (Catalogue.render [] (Catalogue.nestingLimit [])) "main"
        nestedScopes Source.plainSession))
      ((Catalogue.runAll [] nestedScopes).exec Source.plainSession).2 := by
  have hall : Command.everyOf Command.isOperation nestedScopes = true := by decide
  obtain ⟨hscopes, hrest⟩ :=
    owner_scopes_unwind [] (Catalogue.nestingLimit []) nestedScopes Source.plainSession
  exact ⟨hall, by decide +kernel, by decide +kernel, hscopes, (hrest hall).1⟩

end Asm6502
